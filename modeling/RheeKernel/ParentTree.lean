import Mathlib.Logic.Function.Iterate

/-! Trees given by a parent function whose root is its own parent. -/

namespace ParentTree

variable {α : Type*} {parent : α → α} {root r x y : α}

/-- `x` is `r` or comes after it: some steps up lead from `x` to `r`. -/
def Below (parent : α → α) (r x : α) : Prop := ∃ n, parent^[n] x = r

theorem Below.refl : Below parent r r := ⟨0, rfl⟩

theorem Below.child (h : Below parent r y) (hx : parent x = y) : Below parent r x := by
  obtain ⟨n, hn⟩ := h
  refine ⟨n + 1, ?_⟩
  rw [Function.iterate_succ_apply, hx]
  exact hn

/-- A step up stays below `r`, except from `r` itself. -/
theorem Below.up (h : Below parent r x) (hne : x ≠ r) : Below parent r (parent x) := by
  obtain ⟨n, hn⟩ := h
  cases n with
  | zero => exact absurd hn hne
  | succ n => exact ⟨n, hn⟩

theorem iterate_root (hroot : parent root = root) (n : Nat) : parent^[n] root = root :=
  Function.iterate_fixed hroot n

/-- Only the root is below itself by one step or more. -/
theorem eq_root_of_cycle (hroot : parent root = root) (hup : Below parent root r) {n : Nat}
    (hcycle : parent^[n + 1] r = r) : r = root := by
  obtain ⟨k, hk⟩ := hup
  have hround : ∀ m, parent^[(n + 1) * m] r = r := by
    intro m
    induction m with
    | zero => rfl
    | succ m ih => rw [Nat.mul_succ, Function.iterate_add_apply, hcycle, ih]
  have hfar : parent^[(n + 1) * k] r = root := by
    have hle : k ≤ (n + 1) * k := Nat.le_mul_of_pos_left k (Nat.succ_pos n)
    obtain ⟨m, hm⟩ := Nat.exists_eq_add_of_le' hle
    rw [hm, Function.iterate_add_apply, hk, iterate_root hroot]
  rw [← hround k, hfar]

/-- The parent of a subtree's top lies outside, unless the subtree is the whole tree. -/
theorem not_below_parent (hroot : parent root = root) (hup : Below parent root r) (hne : r ≠ root) :
    ¬ Below parent r (parent r) := by
  intro ⟨n, hn⟩
  exact hne (eq_root_of_cycle hroot hup hn)

end ParentTree
