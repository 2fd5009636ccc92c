import Mathlib.Algebra.Notation.Defs
import Mathlib.Data.List.Basic

/-! Sparse arrays as the list of the writes that made them, the last write first: each write says where it begins and what
it stores, and a place that no write covers holds zero. -/

namespace SparseLog

section Extent

variable {α : Type*} {log : List (Nat × List α)} {xs : List α} {p : Nat}

/-- The greatest end of a write that stored something. -/
def extent : List (Nat × List α) → Nat
  | [] => 0
  | (_, []) :: log => extent log
  | (p, x :: xs) :: log => max (extent log) (p + (x :: xs).length)

@[simp]
theorem extent_nil_write : extent ((p, []) :: log) = extent log := rfl

theorem extent_write (hne : xs ≠ []) : extent ((p, xs) :: log) = max (extent log) (p + xs.length) := by
  cases xs with
  | nil => exact absurd rfl hne
  | cons x xs => rfl

end Extent

variable {α : Type*} [Zero α]

/-- What was written last at place `o`. -/
def read : List (Nat × List α) → Nat → α
  | [], _ => 0
  | (p, xs) :: log, o => if p ≤ o then (xs[o - p]?).getD (read log o) else read log o

end SparseLog
