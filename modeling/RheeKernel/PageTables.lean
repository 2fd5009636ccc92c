import RheeKernel.Counting
import RheeKernel.PageEntry
import Mathlib.Algebra.Order.Ring.Nat
import Mathlib.Order.Interval.Finset.Nat

open Finset

namespace RheeKernel

/-- Directory slots of the 64 MB user windows of tasks 1 to 63. -/
def userDirs : Finset Nat := Finset.Ico 16 1024

/-- Entries of one page table. -/
def slots : Finset Nat := Finset.range 1024

/-- What the reference law speaks about: the user part of the page directory, the entries of the
tables it names, the page counters, and the pages the kernel holds for itself. -/
structure Tables where
  dir : Nat → Word
  pte : Nat → Nat → Word
  memMap : Nat → Nat
  holds : Nat → Nat

/-- An entry refers to the counted page `k`. -/
def refsOf (w : Word) (k : Nat) : Nat := if present w = true ∧ pageAddr w = pageAt k then 1 else 0

/-- All references to page `k`: user page-table entries, user directory entries, kernel holds. -/
def Tables.refs (T : Tables) (k : Nat) : Nat :=
  (∑ d ∈ userDirs, ∑ i ∈ slots, refsOf (T.pte d i) k) + (∑ d ∈ userDirs, refsOf (T.dir d) k) + T.holds k

structure Tables.Inv (T : Tables) : Prop where
  counts : ∀ k < pagingPages, T.memMap k = T.refs k
  dirs : ∀ d ∈ userDirs, present (T.dir d) = true →
    ∃ k < pagingPages, pageAddr (T.dir d) = pageAt k ∧ T.memMap k = 1
  ptes : ∀ d ∈ userDirs, ∀ i ∈ slots, present (T.pte d i) = true → pageAddr (T.pte d i) < highMemory
  absent : ∀ d ∈ userDirs, present (T.dir d) = false → T.pte d = fun _ => 0#32
  once : ∀ d ∈ userDirs, ∀ k < pagingPages, ∑ i ∈ slots, refsOf (T.pte d i) k ≤ 1
  alone : ∀ k < pagingPages, 0 < T.holds k → T.memMap k = 1
  cow : ∀ d ∈ userDirs, ∀ i ∈ slots, present (T.pte d i) = true → writable (T.pte d i) = true →
    ∃ k < pagingPages, pageAddr (T.pte d i) = pageAt k ∧ T.memMap k = 1

theorem refsOf_le_one (w : Word) (k : Nat) : refsOf w k ≤ 1 := by
  unfold refsOf
  split <;> omega

theorem refsOf_eq_one {w : Word} {k : Nat} (hp : present w = true) (ha : pageAddr w = pageAt k) :
    refsOf w k = 1 := if_pos ⟨hp, ha⟩

theorem refsOf_absent {w : Word} (h : present w = false) (k : Nat) : refsOf w k = 0 := by
  simp [refsOf, h]

theorem refsOf_other {w : Word} {j k : Nat} (ha : pageAddr w = pageAt j) (hne : j ≠ k) :
    refsOf w k = 0 := by
  apply if_neg
  rintro ⟨_, h⟩
  exact hne (pageAt_inj (ha.symm.trans h))

theorem refsOf_low {w : Word} (h : pageAddr w < lowMem) (k : Nat) : refsOf w k = 0 := by
  apply if_neg
  rintro ⟨_, ha⟩
  simp only [pageAt] at ha
  omega

theorem refsOf_congr {v w : Word} (hp : present v = present w) (ha : pageAddr v = pageAddr w)
    (k : Nat) : refsOf v k = refsOf w k := by
  unfold refsOf
  rw [hp, ha]

@[simp] theorem refsOf_zero (k : Nat) : refsOf 0#32 k = 0 := refsOf_absent rfl k

theorem refsOf_userEntry {j : Nat} (hj : j < pagingPages) (k : Nat) :
    refsOf (userEntry (pageAt j)) k = if k = j then 1 else 0 := by
  split
  next h =>
    subst h
    exact refsOf_eq_one (present_userEntry _) (pageAddr_userEntry_pageAt hj)
  next h => exact refsOf_other (pageAddr_userEntry_pageAt hj) (Ne.symm h)

namespace Tables

variable {T : Tables} {d e i j k : Nat}

/-- Replace one entry of the table of directory slot `d`. -/
def setPte (T : Tables) (d i : Nat) (w : Word) : Tables :=
  { T with pte := Function.update T.pte d (Function.update (T.pte d) i w) }

/-- Replace a directory entry by one whose table has only empty entries. -/
def setDir (T : Tables) (d : Nat) (w : Word) : Tables :=
  { T with dir := Function.update T.dir d w, pte := Function.update T.pte d fun _ => 0#32 }

def setMap (T : Tables) (k n : Nat) : Tables := { T with memMap := Function.update T.memMap k n }

def setHolds (T : Tables) (k n : Nat) : Tables := { T with holds := Function.update T.holds k n }

theorem setPte_pte_self (T : Tables) (d i : Nat) (w : Word) : (T.setPte d i w).pte d i = w := by
  simp [setPte]

theorem setPte_pte_ne {d i e j : Nat} (T : Tables) (w : Word) (h : e ≠ d ∨ j ≠ i) :
    (T.setPte d i w).pte e j = T.pte e j := by
  unfold setPte
  by_cases he : e = d
  · subst he
    simp [h.resolve_left (fun h => h rfl)]
  · simp [he]

theorem setPte_pte (T : Tables) (d i e j : Nat) (w : Word) :
    (T.setPte d i w).pte e j = if e = d ∧ j = i then w else T.pte e j := by
  split
  next h => rw [h.1, h.2, setPte_pte_self]
  next h => exact setPte_pte_ne T w (by omega)

theorem refs_setPte (hd : d ∈ userDirs) (hi : i ∈ slots) (w : Word) (k : Nat) :
    (T.setPte d i w).refs k + refsOf (T.pte d i) k = T.refs k + refsOf w k := by
  have h := Counting.sum_update_update_add hd hi (fun w => refsOf w k) T.pte w
  simp only [Tables.refs, setPte]
  omega

theorem refs_setDir (hd : d ∈ userDirs) (w : Word) (k : Nat) :
    (T.setDir d w).refs k + refsOf (T.dir d) k + ∑ i ∈ slots, refsOf (T.pte d i) k =
      T.refs k + refsOf w k := by
  have hdir := Counting.sum_update_add hd (fun w => refsOf w k) T.dir w
  have hpte := Counting.sum_update_add hd (fun r : Nat → Word => ∑ i ∈ slots, refsOf (r i) k)
    T.pte fun _ => 0#32
  simp only [refsOf_zero, Finset.sum_const_zero] at hpte
  simp only [Tables.refs, setDir]
  omega

theorem refs_setHolds (T : Tables) (j n k : Nat) :
    (T.setHolds j n).refs k + T.holds k = T.refs k + if k = j then n else T.holds k := by
  simp only [Tables.refs, setHolds, Function.update_apply]
  split <;> omega

@[simp] theorem refs_setMap (T : Tables) (j n k : Nat) : (T.setMap j n).refs k = T.refs k := rfl

theorem pte_le_refs (hd : d ∈ userDirs) (hi : i ∈ slots) (k : Nat) :
    refsOf (T.pte d i) k ≤ T.refs k := by
  have := Counting.le_sum_sum_of_mem hd hi fun d i => refsOf (T.pte d i) k
  unfold Tables.refs
  omega

theorem holds_le_refs (T : Tables) (k : Nat) : T.holds k ≤ T.refs k := by
  unfold Tables.refs
  omega

theorem dir_add_pte_le_refs (hd : d ∈ userDirs) (he : e ∈ userDirs) (hi : i ∈ slots) (k : Nat) :
    refsOf (T.dir d) k + refsOf (T.pte e i) k ≤ T.refs k := by
  have h1 := Counting.le_sum_of_mem hd fun d => refsOf (T.dir d) k
  have h2 := Counting.le_sum_sum_of_mem he hi fun d i => refsOf (T.pte d i) k
  simp only [Tables.refs] at *
  omega

theorem dir_add_dir_le_refs (hd : d ∈ userDirs) (he : e ∈ userDirs) (hne : d ≠ e) (k : Nat) :
    refsOf (T.dir d) k + refsOf (T.dir e) k ≤ T.refs k := by
  have := Counting.add_le_sum_of_ne hd he hne fun d => refsOf (T.dir d) k
  simp only [Tables.refs] at *
  omega

/-- Two different entries fit together under the reference count. -/
theorem pte_add_pte_le_refs (hd : d ∈ userDirs) (he : e ∈ userDirs) (hi : i ∈ slots) (hj : j ∈ slots)
    (hne : d ≠ e ∨ i ≠ j) (k : Nat) :
    refsOf (T.pte d i) k + refsOf (T.pte e j) k ≤ T.refs k := by
  have h := refs_setPte (T := T) hd hi 0#32 k
  have h2 := pte_le_refs (T := T.setPte d i 0#32) he hj k
  rw [setPte_pte_ne T _ (by omega : e ≠ d ∨ j ≠ i)] at h2
  simp only [refsOf_zero] at h
  omega

theorem pte_add_holds_le_refs (hd : d ∈ userDirs) (hi : i ∈ slots) (k : Nat) :
    refsOf (T.pte d i) k + T.holds k ≤ T.refs k := by
  have := Counting.le_sum_sum_of_mem hd hi fun d i => refsOf (T.pte d i) k
  unfold Tables.refs
  omega

theorem dir_add_holds_le_refs (hd : d ∈ userDirs) (k : Nat) :
    refsOf (T.dir d) k + T.holds k ≤ T.refs k := by
  have := Counting.le_sum_of_mem hd fun d => refsOf (T.dir d) k
  unfold Tables.refs
  omega

/-- At most one entry per table and one directory entry per slot: a counter never wraps. -/
theorem Inv.refs_lt (h : T.Inv) (hk : k < pagingPages) : T.refs k < 65535 := by
  have hp : ∑ d ∈ userDirs, ∑ i ∈ slots, refsOf (T.pte d i) k ≤ ∑ _d ∈ userDirs, 1 :=
    Finset.sum_le_sum fun d hd => h.once d hd k hk
  have hd : ∑ d ∈ userDirs, refsOf (T.dir d) k ≤ ∑ _d ∈ userDirs, 1 :=
    Finset.sum_le_sum fun d _ => refsOf_le_one (T.dir d) k
  have hh : T.holds k ≤ 1 := by
    by_cases hz : T.holds k = 0
    · omega
    · have h1 := h.alone k hk (by omega)
      have h2 := h.counts k hk
      have h3 := holds_le_refs T k
      omega
  simp only [userDirs, Finset.sum_const, Nat.card_Ico, nsmul_eq_mul] at hp hd
  simp only [Tables.refs, userDirs] at *
  omega

/-- The page of a directory entry is named by nothing else. -/
theorem Inv.table_unshared (h : T.Inv) (hd : d ∈ userDirs) (hp : present (T.dir d) = true)
    (hk : k < pagingPages) (ha : pageAddr (T.dir d) = pageAt k) : T.memMap k = 1 ∧ T.refs k = 1 := by
  obtain ⟨j, hj, haj, hm⟩ := h.dirs d hd hp
  have hjk : j = k := pageAt_inj (haj.symm.trans ha)
  subst hjk
  exact ⟨hm, (h.counts j hj).symm.trans hm⟩

theorem Inv.table_not_mapped (h : T.Inv) (hd : d ∈ userDirs) (hp : present (T.dir d) = true)
    (he : e ∈ userDirs) (hi : i ∈ slots) (hpe : present (T.pte e i) = true) :
    pageAddr (T.pte e i) ≠ pageAddr (T.dir d) := by
  intro heq
  obtain ⟨k, hk, ha, _⟩ := h.dirs d hd hp
  have h1 := (h.table_unshared hd hp hk ha).2
  have h2 := dir_add_pte_le_refs (T := T) hd he hi k
  rw [refsOf_eq_one hp ha, refsOf_eq_one hpe (heq.trans ha)] at h2
  omega

theorem Inv.tables_ne (h : T.Inv) (hd : d ∈ userDirs) (hp : present (T.dir d) = true)
    (he : e ∈ userDirs) (hpe : present (T.dir e) = true) (hne : d ≠ e) :
    pageAddr (T.dir d) ≠ pageAddr (T.dir e) := by
  intro heq
  obtain ⟨k, hk, ha, _⟩ := h.dirs d hd hp
  have h1 := (h.table_unshared hd hp hk ha).2
  have h2 := dir_add_dir_le_refs (T := T) hd he hne k
  rw [refsOf_eq_one hp ha, refsOf_eq_one hpe (heq.symm.trans ha)] at h2
  omega

/-- A page with count zero or held by the kernel is not a page table. -/
theorem Inv.free_not_table (h : T.Inv) (hk : k < pagingPages) (hf : T.memMap k = 0 ∨ 0 < T.holds k)
    (hd : d ∈ userDirs) (hp : present (T.dir d) = true) : pageAddr (T.dir d) ≠ pageAt k := by
  intro ha
  have h1 := h.table_unshared hd hp hk ha
  have h2 := dir_add_holds_le_refs (T := T) hd k
  rw [refsOf_eq_one hp ha] at h2
  omega

/-- A page with count zero or held by the kernel is in no page table. -/
theorem Inv.free_not_mapped (h : T.Inv) (hk : k < pagingPages) (hf : T.memMap k = 0 ∨ 0 < T.holds k)
    (hd : d ∈ userDirs) (hi : i ∈ slots) (hp : present (T.pte d i) = true) :
    pageAddr (T.pte d i) ≠ pageAt k := by
  intro ha
  have h1 := h.counts k hk
  have h2 := pte_add_holds_le_refs (T := T) hd hi k
  rw [refsOf_eq_one hp ha] at h2
  rcases hf with hf | hf
  · omega
  · have := h.alone k hk hf
    omega

/-- The only entry for a page whose count is one. -/
theorem Inv.only_entry (h : T.Inv) (hk : k < pagingPages) (hm : T.memMap k = 1)
    (hd : d ∈ userDirs) (he : e ∈ userDirs) (hi : i ∈ slots) (hj : j ∈ slots)
    (hp : present (T.pte d i) = true) (ha : pageAddr (T.pte d i) = pageAt k)
    (hpe : present (T.pte e j) = true) (hae : pageAddr (T.pte e j) = pageAt k) : d = e ∧ i = j := by
  by_contra hne
  have h1 := h.counts k hk
  have h2 := pte_add_pte_le_refs (T := T) hd he hi hj (by omega) k
  rw [refsOf_eq_one hp ha, refsOf_eq_one hpe hae] at h2
  omega

end Tables

end RheeKernel
