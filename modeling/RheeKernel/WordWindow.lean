import Mathlib.Tactic.Common
import RheeKernel.WordMemory

/-! Word memory as an array of cells that begins at a base, and what the string instructions do to its cells. -/

namespace WordMemory

/-- The word number `j` behind `base`. -/
def cell (m : WordMemory) (base : BitVec 32) (j : Nat) : BitVec 16 := m.word (base + BitVec.ofNat 32 (2 * j))

/-- The address of the word number `j` behind `base`. -/
def cellAddr (base : BitVec 32) (j : Nat) : BitVec 32 := base + BitVec.ofNat 32 (2 * j)

/-- So many cells lie behind a base before the addresses come back to it. -/
def cellLimit : Nat := 2 ^ 31

variable {m : WordMemory} {base : BitVec 32} {j k l n : Nat} {w : BitVec 16}

theorem cell_eq : m.cell base j = m.word (cellAddr base j) := rfl

theorem cellAddr_inj (hj : j < cellLimit) (hk : k < cellLimit) : cellAddr base j = cellAddr base k ↔ j = k := by
  unfold cellLimit at hj hk
  constructor
  · intro h
    have offsets := (BitVec.add_right_inj base).mp h
    rw [← BitVec.toNat_inj, BitVec.toNat_ofNat, BitVec.toNat_ofNat] at offsets
    omega
  · rintro rfl
    rfl

theorem cellAddr_add (a : Nat) : cellAddr base j + BitVec.ofNat 32 (2 * a) = cellAddr base (j + a) := by
  unfold cellAddr
  rw [BitVec.add_assoc, ← BitVec.ofNat_add, Nat.mul_add]

theorem cellAddr_succ : cellAddr base j + 2 = cellAddr base (j + 1) := cellAddr_add 1

theorem cellAddr_next : cellAddr base j + 4 = cellAddr base (j + 2) := cellAddr_add 2

theorem cellAddr_pred : cellAddr base (j + 1) + -2 = cellAddr base j := by
  rw [← cellAddr_succ, BitVec.add_assoc]
  exact BitVec.add_zero _

theorem cellAddr_back : cellAddr base (j + 2) + -4 = cellAddr base j := by
  rw [← cellAddr_next, BitVec.add_assoc]
  exact BitVec.add_zero _

/-- The address from which `j` words lead to the same places as `l + j` words from `base`. -/
theorem cell_base : m.cell (cellAddr base l) j = m.cell base (l + j) := by
  unfold cell
  rw [cellAddr_add]
  rfl

theorem cell_touch {a : BitVec 32} : (m.touch a).cell base j = m.cell base j := rfl

theorem cell_store (hj : j < cellLimit) (hk : k < cellLimit) :
    (m.store (cellAddr base k) w).cell base j = if j = k then w else m.cell base j := by
  have same : cellAddr base j = cellAddr base k ↔ j = k := cellAddr_inj hj hk
  change (if cellAddr base j = cellAddr base k then w else m.cell base j) = _
  simp only [same]

theorem cell_stosw (hj : j < cellLimit) (hk : k + n ≤ cellLimit) :
    (stosw 2 w n (cellAddr base k) m).cell base j = if k ≤ j ∧ j < k + n then w else m.cell base j := by
  induction n generalizing m k with
  | zero => rw [stosw, if_neg (by omega)]
  | succ n ih =>
    rw [stosw, cellAddr_succ, ih (by omega), cell_store hj (by omega)]
    split_ifs <;> first | rfl | omega

/-- With the direction flag set the last word is the first one to be stored. -/
theorem cell_stosw_down (hj : j < cellLimit) (hk : k + n < cellLimit) :
    (stosw (-2) w (n + 1) (cellAddr base (k + n)) m).cell base j = if k ≤ j ∧ j < k + n + 1 then w else m.cell base j := by
  induction n generalizing m with
  | zero =>
    rw [stosw, stosw, cell_store hj (by omega)]
    split_ifs <;> first | rfl | omega
  | succ n ih =>
    rw [stosw, ← Nat.add_assoc, cellAddr_pred, ih (by omega), cell_store hj (by omega)]
    split_ifs <;> first | rfl | omega

theorem cell_copyLong (hj : j < cellLimit) (hk : k + 2 ≤ cellLimit) :
    (m.copyLong (cellAddr base k) (cellAddr base l)).cell base j =
      if j = k then m.cell base l else if j = k + 1 then m.cell base (l + 1) else m.cell base j := by
  unfold copyLong
  rw [cellAddr_succ, cellAddr_succ, cell_store hj (by omega), cell_store hj (by omega)]
  simp only [cell_touch, ← cell_eq]
  split_ifs <;> first | rfl | omega

theorem movsl_end (m : WordMemory) (src : BitVec 32) : (movsl 4 n (cellAddr base k) src m).2 = cellAddr base (k + 2 * n) := by
  induction n generalizing m k src with
  | zero => rfl
  | succ n ih =>
    rw [movsl, cellAddr_next, ih]
    congr 1
    omega

/-- Upwards words are moved to a place in front of them, or to where they are. -/
theorem cell_movsl (hj : j < cellLimit) (hk : k + 2 * n ≤ cellLimit) (hl : l + 2 * n ≤ cellLimit) (h : k ≤ l) :
    (movsl 4 n (cellAddr base k) (cellAddr base l) m).1.cell base j =
      if k ≤ j ∧ j < k + 2 * n then m.cell base (l + (j - k)) else m.cell base j := by
  induction n generalizing m k l with
  | zero => rw [movsl, if_neg (by omega)]
  | succ n ih =>
    rw [movsl, cellAddr_next, cellAddr_next, ih (by omega) (by omega) (by omega)]
    by_cases inside : k + 2 ≤ j ∧ j < k + 2 + 2 * n
    · -- The two words that have been moved first are not read again.
      have place : l + 2 + (j - (k + 2)) = l + (j - k) := by omega
      rw [if_pos inside, if_pos (by omega), place, cell_copyLong (by omega) (by omega), if_neg (by omega), if_neg (by omega)]
    · rw [if_neg inside, cell_copyLong hj (by omega)]
      by_cases first : j = k
      · rw [if_pos first, if_pos (by omega), first, Nat.sub_self, Nat.add_zero]
      · rw [if_neg first]
        by_cases second : j = k + 1
        · have place : j - k = 1 := by omega
          rw [if_pos second, if_pos (by omega), place]
        · rw [if_neg second, if_neg (by omega)]

/-- Downwards words are moved to a place behind them, or to where they are. -/
theorem cell_movsl_down (hj : j < cellLimit) (hk : k + 2 * n + 2 ≤ cellLimit) (hl : l + 2 * n + 2 ≤ cellLimit) (h : l ≤ k) :
    (movsl (-4) (n + 1) (cellAddr base (k + 2 * n)) (cellAddr base (l + 2 * n)) m).1.cell base j =
      if k ≤ j ∧ j < k + 2 * n + 2 then m.cell base (l + (j - k)) else m.cell base j := by
  induction n generalizing m with
  | zero =>
    rw [movsl, movsl, cell_copyLong hj (by omega)]
    by_cases first : j = k
    · rw [if_pos (by omega), if_pos (by omega), first, Nat.sub_self]
    · rw [if_neg (by omega)]
      by_cases second : j = k + 1
      · have place : j - k = 1 := by omega
        rw [if_pos (by omega), if_pos (by omega), place]
      · rw [if_neg (by omega), if_neg (by omega)]
  | succ n ih =>
    have up : ∀ a, a + 2 * (n + 1) = a + 2 * n + 2 := fun a => by omega
    rw [movsl, up, up, cellAddr_back, cellAddr_back, ih (by omega) (by omega)]
    by_cases inside : k ≤ j ∧ j < k + 2 * n + 2
    · rw [if_pos inside, if_pos (by omega), cell_copyLong (by omega) (by omega), if_neg (by omega), if_neg (by omega)]
    · rw [if_neg inside, cell_copyLong hj (by omega)]
      by_cases first : j = k + 2 * n + 2
      · have place : l + 2 * n + 2 = l + (j - k) := by omega
        rw [if_pos first, if_pos (by omega), place]
      · rw [if_neg first]
        by_cases second : j = k + 2 * n + 2 + 1
        · have place : l + 2 * n + 2 + 1 = l + (j - k) := by omega
          rw [if_pos second, if_pos (by omega), place]
        · rw [if_neg second, if_neg (by omega)]

theorem movsl_down_end (m : WordMemory) (src : BitVec 32) :
    (movsl (-4) n (cellAddr base (k + 2 * n)) src m).2 = cellAddr base k := by
  induction n generalizing m src with
  | zero => rfl
  | succ n ih =>
    have up : k + 2 * (n + 1) = k + 2 * n + 2 := by omega
    rw [movsl, up, cellAddr_back, ih]

end WordMemory
