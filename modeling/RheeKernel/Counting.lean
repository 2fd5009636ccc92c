import Mathlib.Algebra.BigOperators.Group.Finset.Basic
import Mathlib.Algebra.BigOperators.Group.Finset.Piecewise
import Mathlib.Algebra.Order.BigOperators.Group.Finset

open Finset

namespace Counting

variable {ι κ β : Type*} [DecidableEq ι] [DecidableEq κ]

/-- Changing one summand moves the sum by the difference of the two summands. -/
theorem sum_update_add {s : Finset ι} {a : ι} (ha : a ∈ s) (f : β → Nat) (g : ι → β) (b : β) :
    (∑ x ∈ s, f (Function.update g a b x)) + f (g a) = (∑ x ∈ s, f (g x)) + f b := by
  rw [← Finset.add_sum_erase s _ ha, ← Finset.add_sum_erase s (fun x => f (g x)) ha]
  have same : ∑ x ∈ s.erase a, f (Function.update g a b x) = ∑ x ∈ s.erase a, f (g x) := by
    apply Finset.sum_congr rfl
    intro x hx
    rw [Function.update_of_ne (Finset.ne_of_mem_erase hx)]
  rw [same, Function.update_self]
  omega

/-- The two-index form: one row of a table is replaced by a row that differs in one place. -/
theorem sum_update_update_add {s : Finset ι} {t : Finset κ} {a : ι} {c : κ} (ha : a ∈ s) (hc : c ∈ t)
    (f : β → Nat) (g : ι → κ → β) (b : β) :
    (∑ x ∈ s, ∑ y ∈ t, f (Function.update g a (Function.update (g a) c b) x y)) + f (g a c) =
      (∑ x ∈ s, ∑ y ∈ t, f (g x y)) + f b := by
  have row := sum_update_add ha (fun r : κ → β => ∑ y ∈ t, f (r y)) g (Function.update (g a) c b)
  have cell := sum_update_add hc f (g a) b
  omega

omit [DecidableEq ι] in
theorem le_sum_of_mem {s : Finset ι} {a : ι} (ha : a ∈ s) (f : ι → Nat) : f a ≤ ∑ x ∈ s, f x :=
  Finset.single_le_sum (fun _ _ => Nat.zero_le _) ha

omit [DecidableEq ι] [DecidableEq κ] in
theorem le_sum_sum_of_mem {s : Finset ι} {t : Finset κ} {a : ι} {c : κ} (ha : a ∈ s) (hc : c ∈ t)
    (f : ι → κ → Nat) : f a c ≤ ∑ x ∈ s, ∑ y ∈ t, f x y :=
  (le_sum_of_mem hc (f a)).trans (le_sum_of_mem ha fun x => ∑ y ∈ t, f x y)

/-- Two different summands fit together under the sum. -/
theorem add_le_sum_of_ne {s : Finset ι} {a b : ι} (ha : a ∈ s) (hb : b ∈ s) (hne : a ≠ b)
    (f : ι → Nat) : f a + f b ≤ ∑ x ∈ s, f x := by
  rw [← Finset.add_sum_erase s f ha]
  have := le_sum_of_mem (Finset.mem_erase.mpr ⟨hne.symm, hb⟩) f
  omega

end Counting
