import RheeKernel.Memory
import RheeKernel.PageTablesSteps

open Finset

namespace RheeKernel

namespace Mm

/-- The page table of user directory slot `d`, empty where the slot has none. -/
def pte (s : Mm) (d : Nat) : Nat → Word :=
  if d ∈ userDirs ∧ present (s.mem 0 d) = true then s.mem (pageAddr (s.mem 0 d)) else fun _ => 0#32

/-- The user part of the translation structures as they lie in physical memory. -/
def tables (s : Mm) (holds : Nat → Nat) : Tables where
  dir := s.mem 0
  pte := s.pte
  memMap := s.memMap
  holds := holds

@[simp] theorem tables_dir (s : Mm) (holds : Nat → Nat) : (s.tables holds).dir = s.mem 0 := rfl
@[simp] theorem tables_pte (s : Mm) (holds : Nat → Nat) : (s.tables holds).pte = s.pte := rfl
@[simp] theorem tables_memMap (s : Mm) (holds : Nat → Nat) : (s.tables holds).memMap = s.memMap := rfl
@[simp] theorem tables_holds (s : Mm) (holds : Nat → Nat) : (s.tables holds).holds = holds := rfl

/-- The reference law together with what the kernel's own first page table holds. -/
structure Inv (s : Mm) (holds : Nat → Nat) : Prop where
  tables : (s.tables holds).Inv
  kernelDir : present (s.mem 0 0) = true ∧ pageAddr (s.mem 0 0) = 0x1000
  kernelTable : ∀ i < 160, present (s.mem 0x1000 i) = true ∧ pageAddr (s.mem 0x1000 i) = 4096 * i

variable {s : Mm} {holds : Nat → Nat} {d i k : Nat} {w : Word}

theorem zero_not_user : 0 ∉ userDirs := by simp [userDirs]

theorem pageAt_ne_zero (k : Nat) : pageAt k ≠ 0 := by
  simp only [pageAt, lowMem]
  omega

theorem pageAt_ne_kernelTable (k : Nat) : pageAt k ≠ 0x1000 := by
  simp only [pageAt, lowMem]
  omega

theorem pte_present (hd : d ∈ userDirs) (hp : present (s.mem 0 d) = true) :
    s.pte d = s.mem (pageAddr (s.mem 0 d)) := if_pos ⟨hd, hp⟩

theorem pte_of_mem {s' : Mm} (h : s'.mem = s.mem) : s'.pte = s.pte := by
  unfold pte
  rw [h]

theorem pte_absent (hp : present (s.mem 0 d) = false) : s.pte d = fun _ => 0#32 := by
  simp [pte, hp]

theorem dir_present_of_pte (h : present (s.pte d i) = true) :
    d ∈ userDirs ∧ present (s.mem 0 d) = true := by
  unfold pte at h
  split at h
  next hc => exact hc
  next => simp at h

/-- Where the table of a user directory slot lies. -/
theorem Inv.table_at (h : s.Inv holds) (hd : d ∈ userDirs) (hp : present (s.mem 0 d) = true) :
    ∃ k < pagingPages, pageAddr (s.mem 0 d) = pageAt k := by
  obtain ⟨k, hk, ha, _⟩ := h.tables.dirs d hd hp
  exact ⟨k, hk, ha⟩

@[simp] theorem tables_setMap (s : Mm) (holds : Nat → Nat) (k n : Nat) :
    (s.setMap k n).tables holds = (s.tables holds).setMap k n := rfl

/-- Filling a page that is neither the directory nor a page table in use. -/
theorem tables_setPage {a : Nat} {c : Nat → Word} (ha : a ≠ 0)
    (hn : ∀ d ∈ userDirs, present (s.mem 0 d) = true → pageAddr (s.mem 0 d) ≠ a) :
    (s.setPage a c).tables holds = s.tables holds := by
  have hzero : (s.setPage a c).mem 0 = s.mem 0 := setPage_mem_ne s c ha.symm
  unfold tables
  rw [hzero]
  congr 1
  funext d
  unfold pte
  rw [hzero]
  split
  next hc => exact setPage_mem_ne s c (hn d hc.1 hc.2)
  next => rfl

theorem tables_storePte (h : s.Inv holds) (hd : d ∈ userDirs) (hp : present (s.mem 0 d) = true)
    (i : Nat) (w : Word) :
    (s.store (pageAddr (s.mem 0 d)) i w).tables holds = (s.tables holds).setPte d i w := by
  obtain ⟨k, hk, ha⟩ := h.table_at hd hp
  have hne : (0 : Nat) ≠ pageAddr (s.mem 0 d) := ha ▸ (pageAt_ne_zero k).symm
  have hzero : (s.store (pageAddr (s.mem 0 d)) i w).mem 0 = s.mem 0 := store_mem_ne s i w hne
  unfold tables Tables.setPte
  rw [hzero]
  congr 1
  funext e
  dsimp only
  unfold pte
  rw [hzero]
  by_cases he : e = d
  · subst he
    simp [hd, hp]
  · rw [Function.update_of_ne he]
    split
    next hc => exact store_mem_ne s i w (h.tables.tables_ne hc.1 hc.2 hd hp he)
    next => rfl

theorem tables_storeDir (h : s.Inv holds) (hd : d ∈ userDirs) (w : Word)
    (hempty : present w = true → pageAddr w ≠ 0 ∧ s.mem (pageAddr w) = fun _ => 0#32) :
    (s.store 0 d w).tables holds = (s.tables holds).setDir d w := by
  have hzero : (s.store 0 d w).mem 0 = Function.update (s.mem 0) d w := store_mem_self s 0 d w
  unfold tables Tables.setDir
  rw [hzero]
  congr 1
  funext e
  dsimp only
  unfold pte
  rw [hzero]
  by_cases he : e = d
  · subst he
    simp only [Function.update_self]
    split
    next hc =>
      obtain ⟨hne, hz⟩ := hempty hc.2
      rw [store_mem_ne s e w hne, hz]
    next => rfl
  · rw [Function.update_of_ne he, Function.update_of_ne he]
    split
    next hc =>
      obtain ⟨k, _, ha⟩ := h.table_at hc.1 hc.2
      exact store_mem_ne s d w (ha ▸ pageAt_ne_zero k)
    next => rfl

theorem Inv.of_kernel {s' : Mm} {holds' : Nat → Nat} (h : s.Inv holds) (ht : (s'.tables holds').Inv)
    (hdir : s'.mem 0 0 = s.mem 0 0) (htab : s'.mem 0x1000 = s.mem 0x1000) : s'.Inv holds' := by
  refine ⟨ht, ?_, ?_⟩
  · rw [hdir]
    exact h.kernelDir
  · rw [htab]
    exact h.kernelTable

/-- A counter and hold change, with a page outside the translation structures filled. -/
theorem Inv.setPage (h : s.Inv holds) {a : Nat} {c : Nat → Word} (hk : a = pageAt k)
    (hn : ∀ d ∈ userDirs, present (s.mem 0 d) = true → pageAddr (s.mem 0 d) ≠ a) :
    (s.setPage a c).Inv holds := by
  subst hk
  apply h.of_kernel
  · rw [tables_setPage (pageAt_ne_zero k) hn]
    exact h.tables
  · rw [setPage_mem_ne s c (pageAt_ne_zero k).symm]
  · rw [setPage_mem_ne s c (pageAt_ne_kernelTable k).symm]

theorem Inv.storePte (h : s.Inv holds) (hd : d ∈ userDirs) (hp : present (s.mem 0 d) = true)
    {m : Nat → Nat} {holds' : Nat → Nat} {i : Nat} {w : Word}
    (ht : Tables.Inv { (s.tables holds).setPte d i w with memMap := m, holds := holds' }) :
    Inv { s.store (pageAddr (s.mem 0 d)) i w with memMap := m } holds' := by
  obtain ⟨k, _, ha⟩ := h.table_at hd hp
  apply h.of_kernel
  · have := tables_storePte h hd hp i w
    rw [← this] at ht
    exact ht
  · rw [show ({ s.store (pageAddr (s.mem 0 d)) i w with memMap := m } : Mm).mem 0 = s.mem 0 from
      store_mem_ne s i w (ha ▸ (pageAt_ne_zero k).symm)]
  · exact store_mem_ne s i w (ha ▸ (pageAt_ne_kernelTable k).symm)

theorem Inv.storeDir (h : s.Inv holds) (hd : d ∈ userDirs) {m : Nat → Nat} {holds' : Nat → Nat}
    {w : Word} (hempty : present w = true → pageAddr w ≠ 0 ∧ s.mem (pageAddr w) = fun _ => 0#32)
    (ht : Tables.Inv { (s.tables holds).setDir d w with memMap := m, holds := holds' }) :
    Inv { s.store 0 d w with memMap := m } holds' := by
  have hd0 : (0 : Nat) ≠ d := by
    rintro rfl
    exact zero_not_user hd
  apply h.of_kernel
  · have := tables_storeDir h hd w hempty
    rw [← this] at ht
    exact ht
  · change (s.store 0 d w).mem 0 0 = _
    rw [store_mem_self, Function.update_of_ne hd0]
  · exact store_mem_ne s d w (by decide : (0x1000 : Nat) ≠ 0)

/-- A fresh page is a kernel hold until it is put somewhere. -/
theorem Inv.alloc (h : s.Inv holds) {page : Nat} {s' : Mm} (hg : getFreePage s = some (page, s')) :
    ∃ k < pagingPages, page = pageAt k ∧ s.memMap k = 0 ∧
      s' = (s.setMap k 1).setPage (pageAt k) (fun _ => 0#32) ∧ s'.Inv (Function.update holds k 1) := by
  obtain ⟨k, hk, rfl, hz, rfl⟩ := getFreePage_some hg
  refine ⟨k, hk, rfl, hz, rfl, ?_⟩
  have hn : ∀ d ∈ userDirs, present ((s.setMap k 1).mem 0 d) = true →
      pageAddr ((s.setMap k 1).mem 0 d) ≠ pageAt k :=
    fun d hd hp => h.tables.free_not_table hk (Or.inl hz) hd hp
  have hbase : (s.setMap k 1).Inv (Function.update holds k 1) := by
    apply h.of_kernel
    · exact h.tables.allocHold hk hz
    · rfl
    · rfl
  exact hbase.setPage rfl hn

theorem Inv.drop (h : s.Inv holds) (hk : k < pagingPages) (hh : 0 < holds k) :
    ∃ s', freePage s (pageAt k) = .ok s' ∧ s'.Inv (Function.update holds k (holds k - 1)) := by
  have hm : s.memMap k = 1 := h.tables.alone k hk hh
  refine ⟨_, freePage_pageAt hk (by omega), ?_⟩
  apply h.of_kernel
  · exact h.tables.dropHold hk hh
  · rfl
  · rfl

/-- Pages that the kernel takes while no task has any. -/
theorem Inv.reserve {g : Nat → Nat} (h : s.Inv fun _ => 0) (hz : ∀ k, s.memMap k = 0) (hg : ∀ k, g k ≤ 1) :
    Inv { s with memMap := g } g := by
  have hpte : ({ s with memMap := g } : Mm).pte = s.pte := pte_of_mem rfl
  refine h.of_kernel ⟨fun k hk => ?_, fun d hd hp => ?_, ?_, ?_, ?_, fun k _ hpos => ?_, fun d hd i hi hp hw => ?_⟩ rfl rfl
  · have hrefs := h.tables.counts k hk
    simp only [Tables.refs, tables_memMap, tables_pte, tables_dir, tables_holds] at hrefs ⊢
    rw [hpte]
    have hzero := hz k
    omega
  · obtain ⟨k, _, _, hone⟩ := h.tables.dirs d hd hp
    rw [tables_memMap, hz k] at hone
    cases hone
  · rw [tables_pte, hpte]
    exact h.tables.ptes
  · rw [tables_pte, hpte]
    exact h.tables.absent
  · rw [tables_pte, hpte]
    exact h.tables.once
  · rw [tables_holds] at hpos
    rw [tables_memMap]
    have := hg k
    dsimp only
    omega
  · rw [tables_pte, hpte] at hp hw
    obtain ⟨k, _, _, hone⟩ := h.tables.cow d hd i hi hp hw
    rw [tables_memMap, hz k] at hone
    cases hone

end Mm

end RheeKernel
