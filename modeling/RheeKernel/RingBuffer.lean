import Mathlib.Logic.Function.Basic
import Mathlib.Data.List.Range
import Mathlib.Data.Nat.ModEq

/-! Circular buffers of `n` cells in which `head` is the next cell to fill and `tail` the next one to empty;
one cell always stays free, so that equal indices mean empty. -/

namespace RingBuffer

variable {α : Type*} {n head tail k : Nat} {cell : Nat → α}

def size (n head tail : Nat) : Nat := (head + (n - tail)) % n

/-- The `k` elements that stand from `tail` on. -/
def contents (n : Nat) (cell : Nat → α) (tail k : Nat) : List α :=
  (List.range k).map fun i => cell ((tail + i) % n)

theorem size_lt (hn : 0 < n) : size n head tail < n := Nat.mod_lt _ hn

/-- The two positions of the indices: the used part in one piece, or wrapped around. -/
theorem size_cases (hh : head < n) (ht : tail < n) :
    (tail ≤ head ∧ size n head tail = head - tail) ∨ (head < tail ∧ size n head tail = head + n - tail) := by
  unfold size
  by_cases hle : tail ≤ head
  · have hsum : head + (n - tail) = (head - tail) + n := by omega
    exact .inl ⟨hle, by rw [hsum, Nat.add_mod_right, Nat.mod_eq_of_lt (by omega)]⟩
  · exact .inr ⟨by omega, by rw [Nat.mod_eq_of_lt (by omega)]; omega⟩

theorem size_eq_zero_iff (hh : head < n) (ht : tail < n) : size n head tail = 0 ↔ head = tail := by
  rcases size_cases hh ht with h | h <;> omega

theorem succ_mod_cases (hh : head < n) : (head + 1 < n ∧ (head + 1) % n = head + 1) ∨ (head + 1 = n ∧ (head + 1) % n = 0) := by
  by_cases h : head + 1 < n
  · exact .inl ⟨h, Nat.mod_eq_of_lt h⟩
  · have hn : head + 1 = n := by omega
    exact .inr ⟨hn, by rw [hn, Nat.mod_self]⟩

theorem size_push (hh : head < n) (ht : tail < n) (hfull : size n head tail ≠ n - 1) :
    size n ((head + 1) % n) tail = size n head tail + 1 := by
  have hlt : (head + 1) % n < n := Nat.mod_lt _ (by omega)
  rcases size_cases hh ht with h | h <;> rcases size_cases hlt ht with h' | h' <;>
    rcases succ_mod_cases hh with hs | hs <;> omega

theorem size_pop (hh : head < n) (ht : tail < n) (hempty : size n head tail ≠ 0) :
    size n head ((tail + 1) % n) + 1 = size n head tail := by
  have hlt : (tail + 1) % n < n := Nat.mod_lt _ (by omega)
  rcases size_cases hh ht with h | h <;> rcases size_cases hh hlt with h' | h' <;>
    rcases succ_mod_cases ht with hs | hs <;> omega

@[simp]
theorem contents_zero : contents n cell tail 0 = [] := rfl

@[simp]
theorem length_contents : (contents n cell tail k).length = k := by simp [contents]

/-- The cell past the used part is the one `head` points to. -/
theorem add_size_mod (hh : head < n) (ht : tail < n) : (tail + size n head tail) % n = head := by
  rcases size_cases hh ht with ⟨hle, h⟩ | ⟨hlt, h⟩
  · rw [h, Nat.mod_eq_of_lt (by omega)]
    omega
  · have hsum : tail + size n head tail = head + n := by omega
    rw [hsum, Nat.add_mod_right, Nat.mod_eq_of_lt hh]

theorem contents_push {x : α} (hh : head < n) (ht : tail < n) :
    contents n (Function.update cell head x) tail (size n head tail + 1) =
      contents n cell tail (size n head tail) ++ [x] := by
  have hlt : size n head tail < n := size_lt (by omega)
  unfold contents
  rw [List.range_succ, List.map_append]
  congr 1
  · refine List.map_congr_left fun i hi => Function.update_of_ne ?_ _ _
    -- An index inside the used part is different from the free cell.
    have hi : i < size n head tail := List.mem_range.mp hi
    intro heq
    have hmod : (tail + i) % n = (tail + size n head tail) % n := heq.trans (add_size_mod hh ht).symm
    have hcancel : i % n = size n head tail % n := Nat.ModEq.add_left_cancel' tail hmod
    rw [Nat.mod_eq_of_lt (by omega), Nat.mod_eq_of_lt hlt] at hcancel
    omega
  · simp [add_size_mod hh ht]

theorem contents_pop (ht : tail < n) :
    contents n cell tail (k + 1) = cell tail :: contents n cell ((tail + 1) % n) k := by
  unfold contents
  rw [List.range_succ_eq_map, List.map_cons, List.map_map, Nat.add_zero, Nat.mod_eq_of_lt ht]
  congr 1
  refine List.map_congr_left fun i _ => ?_
  show cell ((tail + (i + 1)) % n) = cell (((tail + 1) % n + i) % n)
  rw [Nat.mod_add_mod]
  congr 2
  omega

end RingBuffer
