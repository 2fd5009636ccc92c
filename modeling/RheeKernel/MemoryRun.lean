import RheeKernel.Machine
import RheeKernel.MemoryFaults

open Finset

namespace RheeKernel

/-- Physical memory and the pages the kernel holds for itself: task structures, pipe pages and the
argument pages of `execve`. -/
structure MmSys where
  mm : Mm
  holds : Nat → Nat

/-- References to page `k`: present user page-table entries, present user directory entries and
kernel holds. -/
def MmSys.refs (s : MmSys) (k : Nat) : Nat := (s.mm.tables s.holds).refs k

/-- Memory as `setup_paging` leaves it: the first 8 MB mapped one to one, nothing counted. -/
def bootMm (ram : Nat → Nat → Word) : Mm where
  memMap _ := 0
  mem a i :=
    if a = 0 then if i = 0 then 0x1007#32 else if i = 1 then 0x2007#32 else 0#32
    else if a = 0x1000 then userEntry (4096 * i)
    else if a = 0x2000 then userEntry (4096 * (1024 + i))
    else ram a i

def bootSys (ram : Nat → Nat → Word) : MmSys := ⟨bootMm ram, fun _ => 0⟩

inductive MmOp
  | getFreePage
  | freePage (k : Nat)
  | copyPageTables (src dst size : Nat)
  | copyMem (src dst size : Nat)
  | freePageTables (base size : Nat)
  | putPage (k address : Nat)
  | unWpPage (address : Nat)
  deriving DecidableEq, Repr

/-- A range inside the windows of tasks 1 to 63. -/
def UserRange (base size : Nat) : Prop := 0x4000000 ≤ base ∧ base + size ≤ 2 ^ 32

def UserAddress (address : Nat) : Prop := 0x4000000 ≤ address ∧ address < 2 ^ 32

/-- What the callers see to: `copy_mem` and `do_exit` pass windows of tasks, task 0 has a limit of
640 kB, only held pages are freed or put, and only into absent entries. -/
def MmOp.Allowed (s : MmSys) : MmOp → Prop
  | .getFreePage => True
  | .freePage k => k < pagingPages ∧ 0 < s.holds k
  | .copyPageTables src dst size | .copyMem src dst size =>
    (src = 0 ∧ size ≤ 0xA0000 ∨ UserRange src size) ∧ UserRange dst size
  | .freePageTables base size => UserRange base size
  | .putPage k address => k < pagingPages ∧ 0 < s.holds k ∧ UserAddress address ∧
    present (s.mm.pte (dirOf address) (slotOf address)) = false
  | .unWpPage address => UserAddress address ∧
    present (s.mm.pte (dirOf address) (slotOf address)) = true

/-- One call. A call that fails for lack of memory returns normally; `un_wp_page` then ends the
process, whose tables are freed by a `free_page_tables` of their own. -/
def mmStep (s : MmSys) : MmOp → Except MmPanic MmSys
  | .getFreePage =>
    match getFreePage s.mm with
    | none => .ok s
    | some (page, mm) => .ok ⟨mm, Function.update s.holds (mapNr page) (s.holds (mapNr page) + 1)⟩
  | .freePage k =>
    match freePage s.mm (pageAt k) with
    | .error p => .error p
    | .ok mm => .ok ⟨mm, Function.update s.holds k (s.holds k - 1)⟩
  | .copyPageTables src dst size =>
    match copyPageTables s.mm src dst size with
    | .error p => .error p
    | .ok (_, mm) => .ok { s with mm := mm }
  | .copyMem src dst size =>
    match copyPageTables s.mm src dst size with
    | .error p => .error p
    | .ok (true, mm) => .ok { s with mm := mm }
    | .ok (false, mm) =>
      match freePageTables mm dst size with
      | .error p => .error p
      | .ok mm => .ok { s with mm := mm }
  | .freePageTables base size =>
    match freePageTables s.mm base size with
    | .error p => .error p
    | .ok mm => .ok { s with mm := mm }
  | .putPage k address =>
    match putPage s.mm (pageAt k) address with
    | none => .ok s
    | some mm => .ok ⟨mm, Function.update s.holds k (s.holds k - 1)⟩
  | .unWpPage address =>
    match doWpPage s.mm address with
    | none => .ok s
    | some mm => .ok { s with mm := mm }

/-- The panics of `free_page`. -/
def MmPanic.ofFreePage : MmPanic → Bool
  | .freeNonexistent | .freeFree => true
  | _ => false

/-- A call in an allowed state ends well, or in a panic other than those of `free_page`. -/
def GoodCall (r : Except MmPanic MmSys) : Prop :=
  match r with
  | .ok s => s.mm.Inv s.holds
  | .error p => p.ofFreePage = false

theorem dirCount_le {base size : Nat} (h : UserRange base size) (ha : base % 0x400000 = 0) :
    16 ≤ base / 0x400000 ∧ base / 0x400000 + dirCount size ≤ 1024 := by
  unfold UserRange at h
  unfold dirCount
  omega

theorem dirOf_user {address : Nat} (h : UserAddress address) : dirOf address ∈ userDirs := by
  rw [Mm.mem_userDirs]
  unfold UserAddress at h
  unfold dirOf
  omega

theorem bootMm_inv (ram : Nat → Nat → Word) : (bootMm ram).Inv fun _ => 0 := by
  have habsent : ∀ d ∈ userDirs, present ((bootMm ram).mem 0 d) = false := by
    intro d hd
    rw [Mm.mem_userDirs] at hd
    simp only [bootMm, if_true, if_neg (show d ≠ 0 by omega), if_neg (show d ≠ 1 by omega), present_zero]
  have hpte : ∀ d, (bootMm ram).pte d = fun _ => 0#32 := by
    intro d
    unfold Mm.pte
    split
    next hc =>
      have := habsent d hc.1
      rw [this] at hc
      exact absurd hc.2 (by simp)
    next => rfl
  refine ⟨⟨?_, ?_, ?_, fun d _ _ => hpte d, ?_, ?_, ?_⟩, ?_, ?_⟩
  · intro k _
    have hdirs : ∑ d ∈ userDirs, refsOf ((bootMm ram).mem 0 d) k = 0 :=
      Finset.sum_eq_zero fun d hd => refsOf_absent (habsent d hd) k
    simp only [Tables.refs, Mm.tables_pte, Mm.tables_dir, Mm.tables_memMap, Mm.tables_holds, hdirs, hpte,
      refsOf_zero, Finset.sum_const_zero]
    rfl
  · intro d hd hp
    rw [Mm.tables_dir, habsent d hd] at hp
    exact absurd hp (by simp)
  · intro d _ i _ hp
    rw [Mm.tables_pte, hpte] at hp
    exact absurd hp (by simp)
  · intro d _ k _
    simp [hpte]
  · intro k _ hpos
    exact absurd hpos (by simp)
  · intro d _ i _ hp
    rw [Mm.tables_pte, hpte] at hp
    exact absurd hp (by simp)
  · have hentry : (bootMm ram).mem 0 0 = 0x1007#32 := rfl
    rw [hentry]
    exact ⟨by decide, by decide⟩
  · intro i hi
    have hentry : (bootMm ram).mem 0x1000 i = userEntry (4096 * i) := rfl
    rw [hentry]
    exact ⟨present_userEntry _, pageAddr_userEntry (by omega) (by omega)⟩

/-- `copy_page_tables` on the ranges its callers pass. -/
theorem copyPageTables_inv {s : Mm} {holds : Nat → Nat} {src dst size : Nat} (h : s.Inv holds)
    (hsrc : src = 0 ∧ size ≤ 0xA0000 ∨ UserRange src size) (hdst : UserRange dst size) :
    (∃ p, copyPageTables s src dst size = .error p ∧ p.ofFreePage = false) ∨
      ∃ b s', copyPageTables s src dst size = .ok (b, s') ∧ s'.Inv holds := by
  unfold copyPageTables
  by_cases ha : src % 0x400000 ≠ 0 ∨ dst % 0x400000 ≠ 0
  · rw [if_pos ha]
    exact Or.inl ⟨_, rfl, rfl⟩
  rw [if_neg ha]
  obtain ⟨hlow, hhigh⟩ := dirCount_le hdst (by omega)
  rcases hsrc with ⟨rfl, hsize⟩ | hsrc
  · have hone : dirCount size ≤ 1 := by unfold dirCount; omega
    rw [if_pos rfl]
    rcases Mm.copyDirs_kernel_spec h hone hlow hhigh with hbad | ⟨b, s', hs, hinv, _⟩
    · exact Or.inl ⟨_, hbad, rfl⟩
    · exact Or.inr ⟨b, s', hs, hinv⟩
  · obtain ⟨hslow, hshigh⟩ := dirCount_le hsrc (by omega)
    rw [if_neg (by unfold UserRange at hsrc; omega)]
    rcases Mm.copyDirs_spec h hslow hshigh hlow hhigh with hbad | ⟨b, s', hs, hinv, _⟩
    · exact Or.inl ⟨_, hbad, rfl⟩
    · exact Or.inr ⟨b, s', hs, hinv⟩

theorem freePageTables_inv {s : Mm} {holds : Nat → Nat} {base size : Nat} (h : s.Inv holds)
    (hr : UserRange base size) :
    (∃ p, freePageTables s base size = .error p ∧ p.ofFreePage = false) ∨
      ∃ s', freePageTables s base size = .ok s' ∧ s'.Inv holds := by
  unfold freePageTables
  by_cases ha : base % 0x400000 ≠ 0
  · rw [if_pos ha]
    exact Or.inl ⟨_, rfl, rfl⟩
  rw [if_neg ha, if_neg (by unfold UserRange at hr; omega)]
  obtain ⟨hlow, hhigh⟩ := dirCount_le hr (by omega)
  obtain ⟨s', hs, hinv, _⟩ := Mm.freeDirs_spec h hlow hhigh
  exact Or.inr ⟨s', hs, hinv⟩

theorem mmStep_good {s : MmSys} {op : MmOp} (h : s.mm.Inv s.holds) (hop : op.Allowed s) :
    GoodCall (mmStep s op) := by
  cases op with
  | getFreePage =>
    simp only [mmStep]
    cases hg : getFreePage s.mm with
    | none => exact h
    | some r =>
      obtain ⟨page, mm⟩ := r
      obtain ⟨k, hk, rfl, hz, _, hinv⟩ := h.alloc hg
      have hheld : s.holds k = 0 := by
        have h1 := h.tables.counts k hk
        have h2 := Tables.holds_le_refs (s.mm.tables s.holds) k
        simp only [Mm.tables_memMap, Mm.tables_holds] at h1 h2
        omega
      simp only [mapNr_pageAt, hheld]
      exact hinv
  | freePage k =>
    obtain ⟨mm, hfree, hinv⟩ := h.drop hop.1 hop.2
    simp only [mmStep, hfree]
    exact hinv
  | copyPageTables src dst size =>
    simp only [mmStep]
    rcases copyPageTables_inv h hop.1 hop.2 with ⟨p, hbad, hp⟩ | ⟨b, mm, hs, hinv⟩
    · rw [hbad]
      exact hp
    · rw [hs]
      exact hinv
  | copyMem src dst size =>
    simp only [mmStep]
    rcases copyPageTables_inv h hop.1 hop.2 with ⟨p, hbad, hp⟩ | ⟨b, mm, hs, hinv⟩
    · rw [hbad]
      exact hp
    · rw [hs]
      cases b with
      | true => exact hinv
      | false =>
        rcases freePageTables_inv hinv hop.2 with ⟨p, hbad, hp⟩ | ⟨mm', hs', hinv'⟩
        · simp only [hbad]
          exact hp
        · simp only [hs']
          exact hinv'
  | freePageTables base size =>
    simp only [mmStep]
    rcases freePageTables_inv h hop with ⟨p, hbad, hp⟩ | ⟨mm, hs, hinv⟩
    · rw [hbad]
      exact hp
    · rw [hs]
      exact hinv
  | putPage k address =>
    obtain ⟨hk, hh, ha, hp⟩ := hop
    have hone : s.holds k = 1 := by
      have h1 := h.tables.alone k hk hh
      have h2 := h.tables.counts k hk
      have h3 := Tables.holds_le_refs (s.mm.tables s.holds) k
      simp only [Mm.tables_memMap, Mm.tables_holds] at h1 h2 h3
      omega
    simp only [mmStep]
    cases hput : putPage s.mm (pageAt k) address with
    | none => exact h
    | some mm =>
      have hinv := (Mm.putPage_spec h (dirOf_user ha) hp hk hone hput).1
      simp only [hone]
      exact hinv
  | unWpPage address =>
    obtain ⟨ha, hp⟩ := hop
    simp only [mmStep]
    cases hun : doWpPage s.mm address with
    | none => exact h
    | some mm =>
      have hdp := (Mm.dir_present_of_pte hp).2
      exact (Mm.unWpPage_spec h (dirOf_user ha) hdp (Mm.slotOf_mem address) hp hun).1

/-- States after any sequence of allowed calls that did not panic. -/
abbrev MmReach (ram : Nat → Nat → Word) : MmSys → Prop :=
  Machine.Reach (fun s op => (mmStep s op).toOption) (fun s op => op.Allowed s) (bootSys ram)

theorem mmReach_inv {ram : Nat → Nat → Word} {s : MmSys} (h : MmReach ram s) : s.mm.Inv s.holds := by
  refine h.invariant (I := fun s => s.mm.Inv s.holds) (bootMm_inv ram) ?_
  intro s op s' hinv hop hs
  have hgood := mmStep_good hinv hop
  cases hr : mmStep s op with
  | error p => simp [hr, Except.toOption] at hs
  | ok t =>
    have heq : t = s' := by simpa [hr, Except.toOption] using hs
    rw [hr, heq] at hgood
    exact hgood

/-- In every state reached by the calls, each counter is the number of references to its page, and
no allowed call frees a page that is not in use or does not exist. -/
theorem memMap_eq_refs {ram : Nat → Nat → Word} {s : MmSys} (h : MmReach ram s) :
    (∀ k < pagingPages, s.mm.memMap k = s.refs k) ∧
      ∀ op : MmOp, op.Allowed s → ∀ p, mmStep s op = .error p → p.ofFreePage = false := by
  have hinv := mmReach_inv h
  refine ⟨hinv.tables.counts, ?_⟩
  intro op hop p hp
  have hgood := mmStep_good hinv hop
  rw [hp] at hgood
  exact hgood

/-- Memory after the kernel took one page for itself. -/
theorem memMap_eq_refs_after_getFreePage :
    ∃ s, mmStep (bootSys fun _ _ => 0#32) .getFreePage = .ok s ∧ s.mm.memMap 1535 = 1 ∧ s.refs 1535 = 1 := by
  obtain ⟨s, hs, hone⟩ : ∃ s, mmStep (bootSys fun _ _ => 0#32) .getFreePage = .ok s ∧ s.mm.memMap 1535 = 1 :=
    ⟨_, rfl, rfl⟩
  have reach : MmReach (fun _ _ => 0#32) s :=
    .next (e := .getFreePage) .start trivial (by simp [hs, Except.toOption])
  exact ⟨s, hs, hone, ((memMap_eq_refs reach).1 1535 (by decide)).symm.trans hone⟩

end RheeKernel
