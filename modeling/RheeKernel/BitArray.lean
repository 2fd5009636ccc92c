import Mathlib.Logic.Function.Basic

/-! Arrays of bits that are kept in words of `w` bits: bit `n` is bit `n % w` of word `n / w`. -/

namespace BitArray

variable {w : Nat} {a : Nat → BitVec w} {x : BitVec w} {i j k m n : Nat}

def get (a : Nat → BitVec w) (n : Nat) : Bool := (a (n / w)).getLsbD (n % w)

def set (a : Nat → BitVec w) (n : Nat) : Nat → BitVec w :=
  Function.update a (n / w) (a (n / w) ||| BitVec.twoPow w (n % w))

def clear (a : Nat → BitVec w) (n : Nat) : Nat → BitVec w :=
  Function.update a (n / w) (a (n / w) &&& ~~~BitVec.twoPow w (n % w))

theorem get_of_word {f : BitVec w → BitVec w} (hw : 0 < w) {b : Bool}
    (hf : ∀ x j, j < w → (f x).getLsbD j = if j = n % w then b else x.getLsbD j) :
    get (Function.update a (n / w) (f (a (n / w)))) m = if m = n then b else get a m := by
  unfold get
  by_cases hword : m / w = n / w
  · rw [hword, Function.update_self, hf _ _ (Nat.mod_lt _ hw)]
    by_cases hbit : m % w = n % w
    · have hmn : m = n := by rw [← Nat.div_add_mod m w, ← Nat.div_add_mod n w, hword, hbit]
      rw [if_pos hbit, if_pos hmn]
    · have hmn : m ≠ n := fun h => hbit (by rw [h])
      rw [if_neg hbit, if_neg hmn]
  · have hmn : m ≠ n := fun h => hword (by rw [h])
    rw [Function.update_of_ne hword, if_neg hmn]

theorem get_set (hw : 0 < w) : get (set a n) m = if m = n then true else get a m := by
  refine get_of_word (f := fun x => x ||| BitVec.twoPow w (n % w)) hw fun x j hj => ?_
  rw [BitVec.getLsbD_or, BitVec.getLsbD_twoPow]
  by_cases h : j = n % w
  · simp [h, Nat.mod_lt n hw]
  · simp [h, Ne.symm h]

theorem get_clear (hw : 0 < w) : get (clear a n) m = if m = n then false else get a m := by
  refine get_of_word (f := fun x => x &&& ~~~BitVec.twoPow w (n % w)) hw fun x j hj => ?_
  rw [BitVec.getLsbD_and, BitVec.getLsbD_not, BitVec.getLsbD_twoPow]
  by_cases h : j = n % w
  · simp [h, Nat.mod_lt n hw]
  · simp [h, Ne.symm h, hj]

/-- Bit `j` of word `i`. -/
theorem get_word (hj : j < w) : get a (w * i + j) = (a i).getLsbD j := by
  unfold get
  rw [Nat.mul_add_div (by omega), Nat.div_eq_of_lt hj, Nat.mul_add_mod, Nat.mod_eq_of_lt hj, Nat.add_zero]

/-- The number of the lowest bit that is set. -/
def lowest (x : BitVec w) : Option Nat := if x = 0#w then none else some x.ctz.toNat

theorem lowest_some (h : lowest x = some k) : k < w ∧ x.getLsbD k = true ∧ ∀ j < k, x.getLsbD j = false := by
  unfold lowest at h
  split at h
  next => cases h
  next hne =>
    cases h
    have hset := BitVec.getLsbD_true_ctz_of_ne_zero hne
    exact ⟨BitVec.lt_of_getLsbD hset, hset, fun j hj => BitVec.getLsbD_false_of_lt_ctz hj⟩

theorem lowest_none (h : lowest x = none) (j : Nat) : x.getLsbD j = false := by
  unfold lowest at h
  split at h
  next hz => rw [hz, BitVec.getLsbD_zero]
  next => cases h

/-- The lowest set bit of the complement is the first clear bit of a word. -/
theorem lowest_not_some (h : lowest (~~~a i) = some k) :
    k < w ∧ get a (w * i + k) = false ∧ ∀ m, w * i ≤ m → m < w * i + k → get a m = true := by
  obtain ⟨hk, hset, hbelow⟩ := lowest_some h
  rw [BitVec.getLsbD_not, decide_eq_true hk, Bool.true_and] at hset
  refine ⟨hk, ?_, fun m hlow hlt => ?_⟩
  · rw [get_word hk]
    simpa using hset
  · have hj : m - w * i < w := by omega
    have hclear := hbelow (m - w * i) (by omega)
    rw [BitVec.getLsbD_not, decide_eq_true hj, Bool.true_and] at hclear
    have hget := get_word (a := a) (i := i) hj
    rw [show w * i + (m - w * i) = m by omega] at hget
    rw [hget]
    simpa using hclear

theorem lowest_not_none (h : lowest (~~~a i) = none) (hlow : w * i ≤ m) (hlt : m < w * i + w) : get a m = true := by
  have hj : m - w * i < w := by omega
  have hclear := lowest_none h (m - w * i)
  rw [BitVec.getLsbD_not, decide_eq_true hj, Bool.true_and] at hclear
  have hget := get_word (a := a) (i := i) hj
  rw [show w * i + (m - w * i) = m by omega] at hget
  rw [hget]
  simpa using hclear

end BitArray
