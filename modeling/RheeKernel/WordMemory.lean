import Mathlib.Algebra.Group.Nat.Defs
import Mathlib.Data.List.Basic

/-- Memory of 16-bit words, and the addresses at which a word has been read or written. -/
structure WordMemory where
  word : BitVec 32 → BitVec 16
  touched : List (BitVec 32)

namespace WordMemory

def touch (m : WordMemory) (a : BitVec 32) : WordMemory := { m with touched := a :: m.touched }

def store (m : WordMemory) (a : BitVec 32) (w : BitVec 16) : WordMemory where
  word := fun b => if b = a then w else m.word b
  touched := a :: m.touched

/-- One turn of `movsl`. -/
def copyLong (m : WordMemory) (dst src : BitVec 32) : WordMemory :=
  (((m.touch src).touch (src + 2)).store dst (m.word src)).store (dst + 2) (m.word (src + 2))

/-- `rep stosw`; the step is 2 after `cld` and -2 after `std`. -/
def stosw (step : BitVec 32) (w : BitVec 16) : Nat → BitVec 32 → WordMemory → WordMemory
  | 0, _, m => m
  | n + 1, dst, m => stosw step w n (dst + step) (m.store dst w)

/-- `rep movsl`, with the register that points to the destination; the step is 4 after `cld` and -4 after `std`. -/
def movsl (step : BitVec 32) : Nat → BitVec 32 → BitVec 32 → WordMemory → WordMemory × BitVec 32
  | 0, dst, _, m => (m, dst)
  | n + 1, dst, src, m => movsl step n (dst + step) (src + step) (m.copyLong dst src)

/-- All words that have been touched lie between `lo` and `hi`. -/
def Within (lo hi : Nat) (m : WordMemory) : Prop := ∀ a ∈ m.touched, lo ≤ a.toNat ∧ a.toNat + 2 ≤ hi

variable {lo hi n : Nat} {m : WordMemory} {a dst src : BitVec 32} {w : BitVec 16}

theorem Within.touch (h : m.Within lo hi) (hlo : lo ≤ a.toNat) (hhi : a.toNat + 2 ≤ hi) : (m.touch a).Within lo hi := by
  intro b hb
  rcases List.mem_cons.mp hb with rfl | hb
  · exact ⟨hlo, hhi⟩
  · exact h b hb

theorem Within.store (h : m.Within lo hi) (hlo : lo ≤ a.toNat) (hhi : a.toNat + 2 ≤ hi) : (m.store a w).Within lo hi := by
  intro b hb
  rcases List.mem_cons.mp hb with rfl | hb
  · exact ⟨hlo, hhi⟩
  · exact h b hb

theorem toNat_add {k : Nat} (h : a.toNat + k < 2 ^ 32) : (a + BitVec.ofNat 32 k).toNat = a.toNat + k := by
  rw [BitVec.toNat_add, BitVec.toNat_ofNat]
  omega

theorem toNat_sub {k : Nat} (h : k ≤ a.toNat) : (a - BitVec.ofNat 32 k).toNat = a.toNat - k := by
  have := a.isLt
  rw [BitVec.toNat_sub, BitVec.toNat_ofNat]
  omega

theorem Within.copyLong (h : m.Within lo hi) (hhi : hi < 2 ^ 32) (hdst : lo ≤ dst.toNat ∧ dst.toNat + 4 ≤ hi)
    (hsrc : lo ≤ src.toNat ∧ src.toNat + 4 ≤ hi) : (m.copyLong dst src).Within lo hi := by
  have hdst' : (dst + 2).toNat = dst.toNat + 2 := toNat_add (k := 2) (by omega)
  have hsrc' : (src + 2).toNat = src.toNat + 2 := toNat_add (k := 2) (by omega)
  refine Within.store (Within.store (Within.touch (h.touch hsrc.1 (by omega)) ?_ ?_) hdst.1 (by omega)) ?_ ?_ <;> omega

theorem Within.stosw (h : m.Within lo hi) (hhi : hi < 2 ^ 32) (hlo : lo ≤ dst.toNat) (hdst : dst.toNat + 2 * n ≤ hi) :
    (stosw 2 w n dst m).Within lo hi := by
  induction n generalizing m dst with
  | zero => exact h
  | succ n ih =>
    have hnext : (dst + 2).toNat = dst.toNat + 2 := toNat_add (k := 2) (by omega)
    exact ih (h.store hlo (by omega)) (by omega) (by omega)

/-- With the direction flag set the words end with the one at `dst`. -/
theorem Within.stosw_down (h : m.Within lo hi) (hlo : lo + 2 * n ≤ dst.toNat + 2) (hpos : 2 ≤ lo) (hdst : dst.toNat + 2 ≤ hi) :
    (WordMemory.stosw (-2) w n dst m).Within lo hi := by
  induction n generalizing m dst with
  | zero => exact h
  | succ n ih =>
    have hnext : (dst + -2).toNat = dst.toNat - 2 := by
      rw [← BitVec.sub_eq_add_neg]
      exact toNat_sub (k := 2) (by omega)
    exact ih (h.store (by omega) hdst) (by omega) (by omega)

theorem Within.movsl (h : m.Within lo hi) (hhi : hi < 2 ^ 32) (hdst : lo ≤ dst.toNat ∧ dst.toNat + 4 * n ≤ hi)
    (hsrc : lo ≤ src.toNat ∧ src.toNat + 4 * n ≤ hi) :
    (movsl 4 n dst src m).1.Within lo hi ∧ (WordMemory.movsl 4 n dst src m).2.toNat = dst.toNat + 4 * n := by
  induction n generalizing m dst src with
  | zero => exact ⟨h, rfl⟩
  | succ n ih =>
    have hdst' : (dst + 4).toNat = dst.toNat + 4 := toNat_add (k := 4) (by omega)
    have hsrc' : (src + 4).toNat = src.toNat + 4 := toNat_add (k := 4) (by omega)
    obtain ⟨hm, hend⟩ := @ih (m.copyLong dst src) (dst + 4) (src + 4) (h.copyLong hhi (by omega) (by omega)) (by omega) (by omega)
    exact ⟨hm, hend.trans (by omega)⟩

/-- With the direction flag set the double words end with those at `dst` and `src`. -/
theorem Within.movsl_down (h : m.Within lo hi) (hhi : hi < 2 ^ 32) (hpos : 4 ≤ lo) (hdst : lo + 4 * n ≤ dst.toNat + 4 ∧ dst.toNat + 4 ≤ hi)
    (hsrc : lo + 4 * n ≤ src.toNat + 4 ∧ src.toNat + 4 ≤ hi) :
    (WordMemory.movsl (-4) n dst src m).1.Within lo hi ∧ (WordMemory.movsl (-4) n dst src m).2.toNat + 4 * n = dst.toNat := by
  induction n generalizing m dst src with
  | zero => exact ⟨h, rfl⟩
  | succ n ih =>
    have hdst' : (dst + -4).toNat = dst.toNat - 4 := by
      rw [← BitVec.sub_eq_add_neg]
      exact toNat_sub (k := 4) (by omega)
    have hsrc' : (src + -4).toNat = src.toNat - 4 := by
      rw [← BitVec.sub_eq_add_neg]
      exact toNat_sub (k := 4) (by omega)
    obtain ⟨hm, hend⟩ := @ih (m.copyLong dst src) (dst + -4) (src + -4) (h.copyLong hhi (by omega) (by omega)) (by omega) (by omega)
    refine ⟨hm, ?_⟩
    change (WordMemory.movsl (-4) n (dst + -4) (src + -4) (m.copyLong dst src)).2.toNat + 4 * (n + 1) = dst.toNat
    omega

end WordMemory
