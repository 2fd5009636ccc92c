import RheeKernel.MemoryTables

open Finset

namespace RheeKernel

/-- What a user page holds: contents of its own, or a page below `LOW_MEM` shared with the kernel. -/
inductive Cell
  | own (contents : Nat → Word)
  | kernel (page : Nat)

namespace Mm

def cellOf (s : Mm) (w : Word) : Option Cell :=
  if present w then some (if lowMem ≤ pageAddr w then .own (s.mem (pageAddr w)) else .kernel (pageAddr w))
  else none

/-- User memory as the user sees it: the page behind table slot `i` of directory slot `d`. -/
def space (s : Mm) (d i : Nat) : Option Cell := s.cellOf (s.pte d i)

variable {s s' : Mm} {holds holds' : Nat → Nat} {d e i j k : Nat} {v w : Word}

theorem cellOf_absent (h : present w = false) : s.cellOf w = none := by simp [cellOf, h]

theorem cellOf_high (hp : present w = true) (ha : pageAddr w = pageAt k) :
    s.cellOf w = some (.own (s.mem (pageAt k))) := by
  simp [cellOf, hp, ha, pageAt]

theorem cellOf_low (hp : present w = true) (ha : pageAddr w < lowMem) :
    s.cellOf w = some (.kernel (pageAddr w)) := by
  simp [cellOf, hp, Nat.not_le.mpr ha]

theorem cellOf_congr (hp : present v = present w) (ha : pageAddr v = pageAddr w) :
    s.cellOf v = s.cellOf w := by
  unfold cellOf
  rw [hp, ha]

/-- An entry sees the same page in two memories that agree on it. -/
theorem cellOf_mem (h : present w = true → lowMem ≤ pageAddr w → s'.mem (pageAddr w) = s.mem (pageAddr w)) :
    s'.cellOf w = s.cellOf w := by
  unfold cellOf
  by_cases hp : present w = true
  · by_cases hl : lowMem ≤ pageAddr w
    · simp [hp, hl, h hp hl]
    · simp [hp, hl]
  · simp [hp]

theorem space_of_dir (hp : present (s.mem 0 d) = false) : s.space d i = none := by
  unfold space
  rw [pte_absent hp]
  exact cellOf_absent present_zero

theorem space_setMap (s : Mm) (k n d i : Nat) : (s.setMap k n).space d i = s.space d i := rfl

/-- Filling a page that no entry names. -/
theorem space_setPage {a : Nat} {c : Nat → Word} (ha : a = pageAt k)
    (hn : ∀ d ∈ userDirs, present (s.mem 0 d) = true → pageAddr (s.mem 0 d) ≠ a)
    (he : present (s.pte d i) = true → pageAddr (s.pte d i) ≠ a) :
    (s.setPage a c).space d i = s.space d i := by
  have hpte : (s.setPage a c).pte = s.pte :=
    congrArg Tables.pte (@tables_setPage s (fun _ => 0) a c (ha ▸ pageAt_ne_zero k) hn)
  unfold space
  rw [hpte]
  exact cellOf_mem fun hp _ => setPage_mem_ne s c (he hp)

theorem pte_storePte (h : s.Inv holds) (hd : d ∈ userDirs) (hp : present (s.mem 0 d) = true)
    (i : Nat) (w : Word) (e j : Nat) :
    (s.store (pageAddr (s.mem 0 d)) i w).pte e j = if e = d ∧ j = i then w else s.pte e j := by
  have := congrArg Tables.pte (tables_storePte h hd hp i w)
  rw [show (s.store (pageAddr (s.mem 0 d)) i w).pte = _ from this]
  exact Tables.setPte_pte _ _ _ _ _ _

/-- Writing one page-table entry changes what is seen through that entry only. -/
theorem space_storePte (h : s.Inv holds) (hd : d ∈ userDirs) (hp : present (s.mem 0 d) = true)
    (he : e ∈ userDirs) (hj : j ∈ slots)
    (hw : present w = true → pageAddr w ≠ pageAddr (s.mem 0 d)) :
    (s.store (pageAddr (s.mem 0 d)) i w).space e j = if e = d ∧ j = i then s.cellOf w else s.space e j := by
  unfold space
  rw [pte_storePte h hd hp]
  split
  next => exact cellOf_mem fun hpw _ => store_mem_ne s i w (hw hpw)
  next => exact cellOf_mem fun hpe _ => store_mem_ne s i w (h.tables.table_not_mapped hd hp he hj hpe)

theorem space_storeDir (h : s.Inv holds) (hd : d ∈ userDirs)
    (hempty : present w = true → pageAddr w ≠ 0 ∧ s.mem (pageAddr w) = fun _ => 0#32) :
    (s.store 0 d w).space e j = if e = d then none else s.space e j := by
  have hpte : (s.store 0 d w).pte = _ := congrArg Tables.pte (tables_storeDir h hd w hempty)
  unfold space
  rw [hpte]
  simp only [Tables.setDir]
  split
  next he =>
    subst he
    rw [Function.update_self]
    exact cellOf_absent present_zero
  next he =>
    rw [Function.update_of_ne he]
    apply cellOf_mem
    intro _ hl
    apply store_mem_ne
    simp only [lowMem] at hl
    change pageAddr (s.pte e j) ≠ 0
    change _ ≤ pageAddr (s.pte e j) at hl
    omega

/-- A fresh page shows nowhere. -/
theorem space_alloc (h : s.Inv holds) (hk : k < pagingPages) (hz : s.memMap k = 0)
    (hd : d ∈ userDirs) (hi : i ∈ slots) :
    ((s.setMap k 1).setPage (pageAt k) fun _ => 0#32).space d i = s.space d i :=
  space_setPage (s := s.setMap k 1) rfl (fun _ he hpe => h.tables.free_not_table hk (Or.inl hz) he hpe)
    (fun hp => h.tables.free_not_mapped hk (Or.inl hz) hd hi hp)

end Mm

end RheeKernel
