namespace RegisterBytes

/-- The byte `%dl` of a register `%edx`. -/
def low (r : BitVec 32) : BitVec 8 := r.extractLsb' 0 8

/-- The byte `%dh`. -/
def high (r : BitVec 32) : BitVec 8 := r.extractLsb' 8 8

/-- The register after a move to its low byte. -/
def setLow (r : BitVec 32) (x : BitVec 8) : BitVec 32 := r.extractLsb' 8 24 ++ x

def setHigh (r : BitVec 32) (x : BitVec 8) : BitVec 32 := r.extractLsb' 16 16 ++ x ++ r.extractLsb' 0 8

/-- The register after a move to `%dx`. -/
def setWord (r : BitVec 32) (x : BitVec 16) : BitVec 32 := r.extractLsb' 16 16 ++ x

section Parts

variable {r : BitVec 32} {x y : BitVec 8}

theorem extract_extract {m s n s' n' : Nat} {v : BitVec m} (h : s' + n' ≤ n) :
    (v.extractLsb' s n).extractLsb' s' n' = v.extractLsb' (s + s') n' := by
  apply BitVec.eq_of_getLsbD_eq
  intro i hi
  have inside : s' + i < n := by omega
  simp only [BitVec.getLsbD_extractLsb', hi, inside, decide_true, Bool.true_and, Nat.add_assoc]

@[simp]
theorem low_setLow : low (setLow r x) = x := BitVec.extractLsb'_append_eq_right

@[simp]
theorem high_setLow : high (setLow r x) = high r := by
  unfold high setLow
  rw [BitVec.extractLsb'_append_eq_of_le (Nat.le_refl 8)]
  exact extract_extract (by omega)

@[simp]
theorem high_setHigh : high (setHigh r x) = x := by
  unfold high setHigh
  rw [BitVec.extractLsb'_append_eq_of_le (Nat.le_refl 8)]
  exact BitVec.extractLsb'_append_eq_right

@[simp]
theorem low_setHigh : low (setHigh r x) = low r := BitVec.extractLsb'_append_eq_right

/-- The bytes of a rotated register are those of its upper half. -/
theorem low_rotate : low (r.rotateRight 16) = r.extractLsb' 16 8 := by
  apply BitVec.eq_of_getLsbD_eq
  intro i hi
  have below : i < 16 := by omega
  simp [low, BitVec.getLsbD_rotateRight, hi, below]

theorem high_rotate : high (r.rotateRight 16) = r.extractLsb' 24 8 := by
  apply BitVec.eq_of_getLsbD_eq
  intro i hi
  have below : 8 + i < 16 := by omega
  have place : 16 + (8 + i) = 24 + i := by omega
  simp [high, BitVec.getLsbD_rotateRight, hi, below, place]

/-- A register is its four bytes. -/
theorem append_bytes : r.extractLsb' 24 8 ++ r.extractLsb' 16 8 ++ high r ++ low r = r := by
  unfold high low
  rw [BitVec.extractLsb'_append_extractLsb'_eq_extractLsb' (by omega),
    BitVec.extractLsb'_append_extractLsb'_eq_extractLsb' (by omega),
    BitVec.extractLsb'_append_extractLsb'_eq_extractLsb' (by omega)]
  exact BitVec.extractLsb'_eq_self

theorem low_half : r.extractLsb' 0 16 = high r ++ low r :=
  (BitVec.extractLsb'_append_extractLsb'_eq_extractLsb' (x := r) (Nat.zero_add 8).symm).symm

theorem upper_shift : (r <<< 16).extractLsb' 16 16 = high r ++ low r := by
  rw [← low_half]
  apply BitVec.eq_of_getLsbD_eq
  intro i hi
  have inside : 16 + i < 32 := by omega
  have shifted : ¬ 16 + i < 16 := by omega
  have back : 16 + i - 16 = 0 + i := by omega
  simp only [BitVec.getLsbD_extractLsb', BitVec.getLsbD_shiftLeft, hi, inside, shifted, back, decide_true, decide_false,
    Bool.not_false, Bool.true_and]

/-- What is loaded byte by byte, shifted up and completed with a word does not depend on what the register has held. -/
theorem setWord_shift {z t : BitVec 8} : setWord (setLow (setHigh r x) y <<< 16) (z ++ t) = x ++ y ++ z ++ t := by
  have parts : (x ++ y) ++ z ++ t = ((x ++ y) ++ (z ++ t) : BitVec 32) := BitVec.append_assoc
  rw [setWord, upper_shift, high_setLow, high_setHigh, low_setLow, parts]

end Parts

end RegisterBytes
