import Mathlib.Data.List.Basic
import Mathlib.Data.UInt

/-! Memory as a function from addresses to bytes, with little-endian 32-bit words and strings that end
with a zero byte. -/

namespace ByteMemory

variable {m m' : Nat → UInt8} {a b x v : Nat}

def getLong (m : Nat → UInt8) (a : Nat) : Nat :=
  (m a).toNat + 2 ^ 8 * (m (a + 1)).toNat + 2 ^ 16 * (m (a + 2)).toNat + 2 ^ 24 * (m (a + 3)).toNat

def putLong (m : Nat → UInt8) (a v : Nat) : Nat → UInt8 := fun x =>
  if x = a then UInt8.ofNat v
  else if x = a + 1 then UInt8.ofNat (v / 2 ^ 8)
  else if x = a + 2 then UInt8.ofNat (v / 2 ^ 16)
  else if x = a + 3 then UInt8.ofNat (v / 2 ^ 24)
  else m x

theorem putLong_other (h : x < a ∨ a + 4 ≤ x) : putLong m a v x = m x := by
  unfold putLong
  rw [if_neg (by omega), if_neg (by omega), if_neg (by omega), if_neg (by omega)]

theorem getLong_congr (h : ∀ x, a ≤ x → x < a + 4 → m' x = m x) : getLong m' a = getLong m a := by
  unfold getLong
  rw [h a (by omega) (by omega), h (a + 1) (by omega) (by omega), h (a + 2) (by omega) (by omega),
    h (a + 3) (by omega) (by omega)]

theorem getLong_putLong (hv : v < 2 ^ 32) : getLong (putLong m a v) a = v := by
  have h0 : putLong m a v a = UInt8.ofNat v := if_pos rfl
  have h1 : putLong m a v (a + 1) = UInt8.ofNat (v / 2 ^ 8) := by simp [putLong]
  have h2 : putLong m a v (a + 2) = UInt8.ofNat (v / 2 ^ 16) := by simp [putLong]
  have h3 : putLong m a v (a + 3) = UInt8.ofNat (v / 2 ^ 24) := by simp [putLong]
  unfold getLong
  rw [h0, h1, h2, h3]
  simp only [UInt8.toNat_ofNat']
  omega

theorem getLong_putLong_other (h : b + 4 ≤ a ∨ a + 4 ≤ b) : getLong (putLong m a v) b = getLong m b :=
  getLong_congr fun x hl hu => putLong_other (by omega)

theorem getLong_lt : getLong m a < 2 ^ 32 := by
  have h0 := (m a).toNat_lt
  have h1 := (m (a + 1)).toNat_lt
  have h2 := (m (a + 2)).toNat_lt
  have h3 := (m (a + 3)).toNat_lt
  unfold getLong
  omega

def getHalf (m : Nat → UInt8) (a : Nat) : Nat := (m a).toNat + 2 ^ 8 * (m (a + 1)).toNat

def putHalf (m : Nat → UInt8) (a v : Nat) : Nat → UInt8 := fun x =>
  if x = a then UInt8.ofNat v else if x = a + 1 then UInt8.ofNat (v / 2 ^ 8) else m x

theorem putHalf_other (h : x < a ∨ a + 2 ≤ x) : putHalf m a v x = m x := by
  unfold putHalf
  rw [if_neg (by omega), if_neg (by omega)]

theorem getHalf_putHalf (hv : v < 2 ^ 16) : getHalf (putHalf m a v) a = v := by
  have h0 : putHalf m a v a = UInt8.ofNat v := if_pos rfl
  have h1 : putHalf m a v (a + 1) = UInt8.ofNat (v / 2 ^ 8) := by simp [putHalf]
  unfold getHalf
  rw [h0, h1]
  simp only [UInt8.toNat_ofNat']
  omega

theorem getHalf_lt : getHalf m a < 2 ^ 16 := by
  have h0 := (m a).toNat_lt
  have h1 := (m (a + 1)).toNat_lt
  unfold getHalf
  omega

theorem getLong_shift (h : ∀ k, k < 4 → m' (b + k) = m (a + k)) : getLong m' b = getLong m a := by
  unfold getLong
  rw [← h 1 (by omega), ← h 2 (by omega), ← h 3 (by omega), show m' b = m a from h 0 (by omega)]

theorem getHalf_congr (h : ∀ x, a ≤ x → x < a + 2 → m' x = m x) : getHalf m' a = getHalf m a := by
  unfold getHalf
  rw [h a (by omega) (by omega), h (a + 1) (by omega) (by omega)]

/-- The memory after some stores, given as the byte stored at each address. -/
def patch (p : Nat → Option UInt8) (m : Nat → UInt8) : Nat → UInt8 := fun x => (p x).getD (m x)

/-- The stores of `n` bytes from address `a` on. -/
def block (src : Nat → UInt8) (a n : Nat) : Nat → Option UInt8 := fun x =>
  if a ≤ x ∧ x < a + n then some (src (x - a)) else none

theorem patch_patch {p q : Nat → Option UInt8} : patch q (patch p m) = patch (fun x => (q x).or (p x)) m := by
  funext x
  unfold patch
  cases hq : q x with
  | none => simp [hq]
  | some c => simp [hq]

theorem patch_some {p : Nat → Option UInt8} {c : UInt8} (h : p x = some c) : patch p m x = c := by
  simp [patch, h]

theorem patch_none {p : Nat → Option UInt8} (h : p x = none) : patch p m x = m x := by
  simp [patch, h]

theorem block_inside {src : Nat → UInt8} {n k : Nat} (hk : k < n) : block src a n (a + k) = some (src k) := by
  unfold block
  rw [if_pos (by omega), Nat.add_sub_cancel_left]

theorem block_isSome {src : Nat → UInt8} {n : Nat} : (block src a n x).isSome = true ↔ a ≤ x ∧ x < a + n := by
  unfold block
  split
  next h => simp [h]
  next h => simp [h]

@[simp]
theorem patch_block_zero {src : Nat → UInt8} : patch (block src a 0) m = m := by
  funext x
  exact patch_none (if_neg (by omega))

theorem block_append {src : Nat → UInt8} {n k : Nat} :
    (fun x => (block (fun j => src (n + j)) (a + n) k x).or (block src a n x)) = block src a (n + k) := by
  funext x
  unfold block
  by_cases hlow : a ≤ x ∧ x < a + n
  · rw [if_neg (by omega), if_pos hlow, if_pos (by omega)]
    rfl
  · by_cases hhigh : a + n ≤ x ∧ x < a + n + k
    · rw [if_pos hhigh, if_neg hlow, if_pos (by omega), ← show n + (x - (a + n)) = x - a by omega]
      rfl
    · rw [if_neg hhigh, if_neg hlow, if_neg (by omega)]
      rfl

theorem block_congr {src src' : Nat → UInt8} {n : Nat} (h : ∀ k < n, src k = src' k) : block src a n = block src' a n := by
  funext x
  unfold block
  split
  next hx => rw [h (x - a) (by omega)]
  next => rfl

/-- The first byte of a block is stored before the rest. -/
theorem patch_block_succ {src : Nat → UInt8} {n : Nat} :
    patch (block (fun k => src (k + 1)) (a + 1) n) (Function.update m a (src 0)) = patch (block src a (n + 1)) m := by
  funext x
  unfold patch block
  by_cases hx : x = a
  · subst hx
    rw [if_neg (by omega), if_pos (by omega), Nat.sub_self, Option.getD_none, Function.update_self, Option.getD_some]
  · by_cases hin : a + 1 ≤ x ∧ x < a + 1 + n
    · rw [if_pos hin, if_pos (by omega), Option.getD_some, Option.getD_some]
      dsimp only
      rw [show x - (a + 1) + 1 = x - a by omega]
    · rw [if_neg hin, if_neg (by omega), Option.getD_none, Option.getD_none, Function.update_of_ne hx]

/-- The bytes stand in memory from address `a` on. -/
def Holds (m : Nat → UInt8) (a : Nat) (bs : List UInt8) : Prop := ∀ k (h : k < bs.length), m (a + k) = bs[k]

theorem holds_append {bs cs : List UInt8} : Holds m a (bs ++ cs) ↔ Holds m a bs ∧ Holds m (a + bs.length) cs := by
  constructor
  · intro h
    refine ⟨fun k hk => ?_, fun k hk => ?_⟩
    · have hget := h k (by rw [List.length_append]; omega)
      rwa [List.getElem_append_left hk] at hget
    · have hget := h (bs.length + k) (by rw [List.length_append]; omega)
      rw [List.getElem_append_right (by omega)] at hget
      simpa [Nat.add_assoc] using hget
  · intro h k hk
    by_cases hlt : k < bs.length
    · rw [List.getElem_append_left hlt]
      exact h.1 k hlt
    · rw [List.length_append] at hk
      rw [List.getElem_append_right (by omega), ← h.2 (k - bs.length) (by omega)]
      congr 1
      omega

theorem Holds.congr {bs : List UInt8} (h : Holds m a bs) (hm : ∀ x, a ≤ x → x < a + bs.length → m' x = m x) :
    Holds m' a bs := by
  intro k hk
  rw [hm (a + k) (by omega) (by omega)]
  exact h k hk

/-- The address after the zero byte that ends the string at `a`, looked for among `n` bytes. -/
def skipString (m : Nat → UInt8) : Nat → Nat → Option Nat
  | 0, _ => none
  | n + 1, a => if m a = 0 then some (a + 1) else skipString m n (a + 1)

theorem skipString_eq {bs : List UInt8} {n : Nat} (h : Holds m a (bs ++ [0])) (hbs : 0 ∉ bs) (hn : bs.length < n) :
    skipString m n a = some (a + bs.length + 1) := by
  induction bs generalizing a n with
  | nil =>
    cases n with
    | zero => omega
    | succ n =>
      have hzero : m a = 0 := h 0 (by simp)
      simp [skipString, hzero]
  | cons c bs ih =>
    cases n with
    | zero => omega
    | succ n =>
      have hc : m a = c := h 0 (by simp)
      have hne : c ≠ 0 := fun heq => hbs (by simp [heq])
      have hsplit : Holds m a [c] ∧ Holds m (a + 1) (bs ++ [0]) := holds_append.mp h
      have hrest := hsplit.2
      have hlen : bs.length < n := by
        simp only [List.length_cons] at hn
        omega
      unfold skipString
      rw [hc, if_neg hne, ih hrest (fun hmem => hbs (List.mem_cons_of_mem _ hmem)) hlen]
      simp only [List.length_cons]
      congr 1
      omega

/-- Strings one after the other, each with its zero byte. -/
def flat (strs : List (List UInt8)) : List UInt8 := strs.flatMap (· ++ [0])

@[simp]
theorem flat_nil : flat [] = [] := rfl

@[simp]
theorem flat_cons {s : List UInt8} {strs : List (List UInt8)} : flat (s :: strs) = s ++ [0] ++ flat strs := by
  simp [flat]

theorem flat_append {xs ys : List (List UInt8)} : flat (xs ++ ys) = flat xs ++ flat ys := by
  simp [flat]

theorem length_le_flat {strs : List (List UInt8)} : strs.length ≤ (flat strs).length := by
  induction strs with
  | nil => simp
  | cons s strs ih =>
    simp only [flat_cons, List.length_append, List.length_cons, List.length_nil]
    omega

/-- Every string of a block starts where the strings before it end. -/
theorem Holds.flat_getElem {strs : List (List UInt8)} (h : Holds m a (flat strs)) {i : Nat} (hi : i < strs.length) :
    Holds m (a + (flat (strs.take i)).length) (strs[i] ++ [0]) := by
  have hsplit : strs = strs.take i ++ strs[i] :: strs.drop (i + 1) := by
    rw [List.getElem_cons_drop, List.take_append_drop]
  have hflat : flat strs = flat (strs.take i) ++ (strs[i] ++ [0] ++ flat (strs.drop (i + 1))) := by
    conv_lhs => rw [hsplit]
    rw [flat_append, flat_cons]
  rw [hflat] at h
  exact (holds_append.mp (holds_append.mp h).2).1

end ByteMemory
