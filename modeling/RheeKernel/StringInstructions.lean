import Mathlib.Logic.Function.Basic
import Mathlib.Data.BitVec
import Mathlib.Data.UInt

/-! The string instructions of the processor on a flat memory, and strings that end with a zero byte. -/

namespace StringOps

abbrev Addr := BitVec 32

/-- The registers and flags that string instructions go by. `less` says that the sign flag differs from the overflow flag. -/
structure Processor where
  eax : BitVec 32
  ecx : BitVec 32
  edx : BitVec 32
  esi : Addr
  edi : Addr
  zf : Bool
  cf : Bool
  less : Bool
  df : Bool
  mem : Addr → UInt8

namespace Processor

def al (c : Processor) : UInt8 := UInt8.ofBitVec (c.eax.setWidth 8)

def setAl (c : Processor) (b : UInt8) : Processor := { c with eax := (c.eax.extractLsb' 8 24 ++ b.toBitVec : BitVec 32) }

/-- How far the index registers move. -/
def stride (c : Processor) : Addr := if c.df then -1 else 1

/-- The flags after `a - b`. -/
def compare (c : Processor) (a b : UInt8) : Processor :=
  { c with zf := decide (a = b), cf := decide (a < b), less := decide (a.toInt8 < b.toInt8) }

def testAl (c : Processor) : Processor := { c with zf := decide (c.al = 0), cf := false, less := decide (c.al.toInt8 < 0) }

def lodsb (c : Processor) : Processor := { c.setAl (c.mem c.esi) with esi := c.esi + c.stride }

def stosb (c : Processor) : Processor := { c with mem := Function.update c.mem c.edi c.al, edi := c.edi + c.stride }

def movsb (c : Processor) : Processor :=
  { c with mem := Function.update c.mem c.edi (c.mem c.esi), esi := c.esi + c.stride, edi := c.edi + c.stride }

def scasb (c : Processor) : Processor := { c.compare c.al (c.mem c.edi) with edi := c.edi + c.stride }

def cmpsb (c : Processor) : Processor :=
  { c.compare (c.mem c.esi) (c.mem c.edi) with esi := c.esi + c.stride, edi := c.edi + c.stride }

/-- `rep` with so many turns left in `ecx`. -/
def rep (op : Processor → Processor) : Nat → Processor → Processor
  | 0, c => c
  | n + 1, c => rep op n { op c with ecx := c.ecx - 1 }

/-- `repe` or `repne`: it also ends when the zero flag is not `z`. -/
def repWhile (z : Bool) (op : Processor → Processor) : Nat → Processor → Processor
  | 0, c => c
  | n + 1, c =>
    let c := { op c with ecx := c.ecx - 1 }
    if c.zf = z then repWhile z op n c else c

def repMovsb (c : Processor) : Processor := rep movsb c.ecx.toNat c

def repStosb (c : Processor) : Processor := rep stosb c.ecx.toNat c

def repneScasb (c : Processor) : Processor := repWhile false scasb c.ecx.toNat c

def repeCmpsb (c : Processor) : Processor := repWhile true cmpsb c.ecx.toNat c

/-- `decl %ecx` and `js` in front of a turn of a loop. -/
def counted (turn : Processor → Bool × Processor) (c : Processor) : Bool × Processor :=
  let c := { c with ecx := c.ecx - 1 }
  if c.ecx.msb then (false, c) else turn c

end Processor

/-- The bytes from an address on. -/
def Bytes (m : Addr → UInt8) : Addr → List UInt8 → Prop
  | _, [] => True
  | a, b :: l => m a = b ∧ Bytes m (a + 1) l

/-- The string at an address, without the zero byte that ends it. -/
def Text (m : Addr → UInt8) : Addr → List UInt8 → Prop
  | a, [] => m a = 0
  | a, b :: l => m a = b ∧ b ≠ 0 ∧ Text m (a + 1) l

variable {m m' : Addr → UInt8} {a : Addr} {b x y : UInt8} {l : List UInt8} {n : Nat} {c : Processor}

/-! ### Addresses -/

theorem add_ofNat_succ (a : Addr) (n : Nat) : a + 1 + BitVec.ofNat 32 n = a + BitVec.ofNat 32 (n + 1) := by
  rw [BitVec.ofNat_add, BitVec.add_assoc]
  exact congrArg (a + ·) (BitVec.add_comm _ _)

theorem add_ofNat_add (a : Addr) (i k : Nat) : a + BitVec.ofNat 32 i + BitVec.ofNat 32 k = a + BitVec.ofNat 32 (i + k) := by
  rw [BitVec.ofNat_add, BitVec.add_assoc]

theorem sub_ofNat_succ (a : Addr) (n : Nat) : a - 1 - BitVec.ofNat 32 n = a - BitVec.ofNat 32 (n + 1) := by
  rw [BitVec.ofNat_add, sub_sub]
  exact congrArg (a - ·) (BitVec.add_comm _ _)

@[simp] theorem al_setAl : (c.setAl b).al = b := by
  unfold Processor.setAl Processor.al
  rw [BitVec.setWidth_append, dif_pos (Nat.le_refl 8), BitVec.setWidth_eq]

theorem al_zero (zero : c.eax = 0) : c.al = 0 := by
  unfold Processor.al
  rw [zero]
  rfl

/-! ### Strings -/

theorem Bytes.append_iff {l' : List UInt8} : Bytes m a (l ++ l') ↔ Bytes m a l ∧ Bytes m (a + BitVec.ofNat 32 l.length) l' := by
  induction l generalizing a with
  | nil =>
    rw [List.nil_append, show a + BitVec.ofNat 32 ([] : List UInt8).length = a from BitVec.add_zero a]
    exact (and_iff_right trivial).symm
  | cons b l ih =>
    rw [List.cons_append, Bytes, Bytes, ih, add_ofNat_succ, and_assoc]
    rfl

theorem Text.bytes (h : Text m a l) : Bytes m a (l ++ [0]) := by
  induction l generalizing a with
  | nil => exact ⟨h, trivial⟩
  | cons b l ih => exact ⟨h.1, ih h.2.2⟩

theorem Text.nonzero (h : Text m a l) : (0 : UInt8) ∉ l := by
  induction l generalizing a with
  | nil => exact List.not_mem_nil
  | cons b l ih => exact fun zero => (List.mem_cons.mp zero).elim (fun first => h.2.1 first.symm) (ih h.2.2)

/-! ### Scans -/

theorem stride_forward (forward : c.df = false) : c.stride = 1 := by
  unfold Processor.stride
  rw [forward]
  rfl

theorem repWhile_stop {op : Processor → Processor} {z : Bool} (stop : (op c).zf ≠ z) :
    Processor.repWhile z op (n + 1) c = { op c with ecx := c.ecx - 1 } := if_neg stop

theorem repWhile_go {op : Processor → Processor} {z : Bool} (go : (op c).zf = z) :
    Processor.repWhile z op (n + 1) c = Processor.repWhile z op n { op c with ecx := c.ecx - 1 } := if_pos go

theorem scasb_same (forward : c.df = false) (here : c.mem c.edi = c.al) :
    { c.scasb with ecx := c.ecx - 1 } = { c with edi := c.edi + 1, ecx := c.ecx - 1, zf := true, cf := false, less := false } := by
  unfold Processor.scasb Processor.compare
  rw [here, stride_forward forward]
  simp

theorem scasb_other (forward : c.df = false) (here : c.mem c.edi = x) (other : c.al ≠ x) :
    { c.scasb with ecx := c.ecx - 1 } =
      { c with edi := c.edi + 1, ecx := c.ecx - 1, zf := false, cf := decide (c.al < x), less := decide (c.al.toInt8 < x.toInt8) } := by
  unfold Processor.scasb Processor.compare
  rw [here, stride_forward forward, decide_eq_false other]

theorem repne_scasb_found (forward : c.df = false) (bytes : Bytes c.mem c.edi (l ++ [c.al])) (fresh : c.al ∉ l) (room : l.length < n) :
    Processor.repWhile false Processor.scasb n c = { c with
      edi := c.edi + BitVec.ofNat 32 (l.length + 1), ecx := c.ecx - BitVec.ofNat 32 (l.length + 1), zf := true, cf := false, less := false } := by
  induction l generalizing c n with
  | nil =>
    obtain ⟨k, rfl⟩ : ∃ k, n = k + 1 := ⟨n - 1, by omega⟩
    have here : c.mem c.edi = c.al := bytes.1
    have scanned : c.scasb.zf = true := by
      unfold Processor.scasb Processor.compare
      exact decide_eq_true here.symm
    rw [repWhile_stop (by rw [scanned]; decide), scasb_same forward here]
    rfl
  | cons x l ih =>
    obtain ⟨k, rfl⟩ : ∃ k, n = k + 1 := ⟨n - 1, by omega⟩
    obtain ⟨here, rest⟩ := bytes
    obtain ⟨other, later⟩ := not_or.mp (List.mem_cons.not.mp fresh)
    have scanned : c.scasb.zf = false := by
      unfold Processor.scasb Processor.compare
      exact decide_eq_false (here ▸ other)
    rw [repWhile_go scanned, scasb_other forward here other]
    refine (ih (c := { c with edi := c.edi + 1, ecx := c.ecx - 1, zf := false, cf := _, less := _ }) forward rest later
      (Nat.lt_of_succ_lt_succ room)).trans ?_
    simp only [add_ofNat_succ, sub_ofNat_succ]
    rfl

theorem repne_scasb_missing (forward : c.df = false) (bytes : Bytes c.mem c.edi l) (fresh : c.al ∉ l) :
    ∃ cf less, Processor.repWhile false Processor.scasb l.length c = { c with
      edi := c.edi + BitVec.ofNat 32 l.length, ecx := c.ecx - BitVec.ofNat 32 l.length, zf := c.zf && l.isEmpty, cf := cf, less := less } := by
  induction l generalizing c with
  | nil =>
    refine ⟨c.cf, c.less, ?_⟩
    simp [Processor.repWhile]
  | cons x l ih =>
    obtain ⟨here, rest⟩ := bytes
    obtain ⟨other, later⟩ := not_or.mp (List.mem_cons.not.mp fresh)
    have scanned : c.scasb.zf = false := by
      unfold Processor.scasb Processor.compare
      exact decide_eq_false (here ▸ other)
    obtain ⟨cf, less, scan⟩ :=
      ih (c := { c with edi := c.edi + 1, ecx := c.ecx - 1, zf := false, cf := decide (c.al < x), less := decide (c.al.toInt8 < x.toInt8) })
        forward rest later
    refine ⟨cf, less, ?_⟩
    rw [List.length_cons, repWhile_go scanned, scasb_other forward here other, scan]
    simp only [add_ofNat_succ, sub_ofNat_succ, List.isEmpty_cons, Bool.and_false, Bool.false_and]

/-! ### Comparisons -/

theorem cmpsb_same (forward : c.df = false) (first : c.mem c.esi = x) (second : c.mem c.edi = x) :
    { c.cmpsb with ecx := c.ecx - 1 } =
      { c with esi := c.esi + 1, edi := c.edi + 1, ecx := c.ecx - 1, zf := true, cf := false, less := false } := by
  unfold Processor.cmpsb Processor.compare
  rw [first, second, stride_forward forward]
  simp

theorem cmpsb_zf : c.cmpsb.zf = decide (c.mem c.esi = c.mem c.edi) := rfl

theorem repe_cmpsb_same (forward : c.df = false) (bytes : Bytes c.mem c.esi l) (bytes' : Bytes c.mem c.edi l) :
    ∃ cf less, Processor.repWhile true Processor.cmpsb l.length c = { c with
      esi := c.esi + BitVec.ofNat 32 l.length, edi := c.edi + BitVec.ofNat 32 l.length, ecx := c.ecx - BitVec.ofNat 32 l.length,
      zf := c.zf || !l.isEmpty, cf := cf, less := less } := by
  induction l generalizing c with
  | nil =>
    refine ⟨c.cf, c.less, ?_⟩
    simp [Processor.repWhile]
  | cons x l ih =>
    have compared : c.cmpsb.zf = true := by
      rw [cmpsb_zf, bytes.1, bytes'.1]
      exact decide_eq_true rfl
    obtain ⟨cf, less, comparison⟩ :=
      ih (c := { c with esi := c.esi + 1, edi := c.edi + 1, ecx := c.ecx - 1, zf := true, cf := false, less := false })
        forward bytes.2 bytes'.2
    refine ⟨cf, less, ?_⟩
    rw [List.length_cons, repWhile_go compared, cmpsb_same forward bytes.1 bytes'.1, comparison]
    simp only [add_ofNat_succ, sub_ofNat_succ, List.isEmpty_cons, Bool.not_false, Bool.or_true, Bool.true_or]

theorem repe_cmpsb_different (forward : c.df = false) (bytes : Bytes c.mem c.esi (l ++ [x])) (bytes' : Bytes c.mem c.edi (l ++ [y])) (differ : x ≠ y)
    (room : l.length < n) : Processor.repWhile true Processor.cmpsb n c = { c with
      esi := c.esi + BitVec.ofNat 32 (l.length + 1), edi := c.edi + BitVec.ofNat 32 (l.length + 1),
      ecx := c.ecx - BitVec.ofNat 32 (l.length + 1), zf := false, cf := decide (x < y), less := decide (x.toInt8 < y.toInt8) } := by
  induction l generalizing c n with
  | nil =>
    obtain ⟨k, rfl⟩ : ∃ k, n = k + 1 := ⟨n - 1, by omega⟩
    have compared : c.cmpsb.zf = false := by
      rw [cmpsb_zf, bytes.1, bytes'.1]
      exact decide_eq_false differ
    rw [repWhile_stop (by rw [compared]; decide)]
    unfold Processor.cmpsb Processor.compare
    rw [bytes.1, bytes'.1, stride_forward forward, decide_eq_false differ]
    rfl
  | cons z l ih =>
    obtain ⟨k, rfl⟩ : ∃ k, n = k + 1 := ⟨n - 1, by omega⟩
    have compared : c.cmpsb.zf = true := by
      rw [cmpsb_zf, bytes.1, bytes'.1]
      exact decide_eq_true rfl
    rw [repWhile_go compared, cmpsb_same forward bytes.1 bytes'.1]
    refine (ih (c := { c with esi := c.esi + 1, edi := c.edi + 1, ecx := c.ecx - 1, zf := true, cf := false, less := false }) forward
      bytes.2 bytes'.2 (Nat.lt_of_succ_lt_succ room)).trans ?_
    simp only [add_ofNat_succ, sub_ofNat_succ]
    rfl

/-! ### Counted turns -/

theorem count_pred (small : n + 1 < 2 ^ 31) : BitVec.ofNat 32 (n + 1) - 1 = BitVec.ofNat 32 n ∧ (BitVec.ofNat 32 n).msb = false := by
  have next : BitVec.ofNat 32 (n + 1) = BitVec.ofNat 32 n + 1 := BitVec.ofNat_add ..
  refine ⟨by rw [next]; exact BitVec.add_sub_cancel _ 1, ?_⟩
  rw [BitVec.msb_eq_false_iff_two_mul_lt, BitVec.toNat_ofNat, Nat.mod_eq_of_lt (by omega)]
  omega

/-- The count has run out, or there is a turn. -/
theorem counted_spec (turn : Processor → Bool × Processor) (count : c.ecx = BitVec.ofNat 32 n) (small : n < 2 ^ 31) :
    n = 0 ∧ (c.counted turn).1 = false ∧ (c.counted turn).2.ecx.msb = true ∧ (c.counted turn).2 = { c with ecx := -1 } ∨
      ∃ k, n = k + 1 ∧ c.counted turn = turn { c with ecx := BitVec.ofNat 32 k } ∧ (BitVec.ofNat 32 k).msb = false := by
  unfold Processor.counted
  dsimp only
  rw [count]
  cases n with
  | zero =>
    have wraps : (BitVec.ofNat 32 0 - 1).msb = true := by decide
    rw [if_pos wraps]
    exact Or.inl ⟨rfl, rfl, wraps, rfl⟩
  | succ k =>
    obtain ⟨pred, positive⟩ := count_pred small
    rw [pred, positive]
    exact Or.inr ⟨k, rfl, rfl, positive⟩

/-! ### Copies -/

/-- What `rep movsb` leaves at an address. Where the destination lies in front of the end of the source, the bytes between the two repeat. -/
def moved (m : Addr → UInt8) (dest src s : Addr) (n : Nat) (a : Addr) : UInt8 :=
  let k := (s * (a - dest)).toNat
  if k < n then m (src + s * BitVec.ofNat 32 (k % (s * (dest - src)).toNat)) else m a

theorem stride_unit : c.stride * c.stride = 1 := by
  unfold Processor.stride
  cases c.df with
  | false => rfl
  | true => rfl

theorem succ_mod (j d : Nat) : (j + 1) % d = if j % d + 1 = d then 0 else j % d + 1 := by
  have parts : j + 1 = j % d + 1 + d * (j / d) := by
    have := Nat.mod_add_div j d
    omega
  rw [parts, Nat.add_mul_mod_self_left]
  by_cases last : j % d + 1 = d
  · rw [if_pos last, last, Nat.mod_self]
  rw [if_neg last]
  rcases Nat.eq_zero_or_pos d with rfl | positive
  · rw [Nat.mod_zero]
  · have := Nat.mod_lt j positive
    exact Nat.mod_eq_of_lt (by omega)

variable {dest src s : Addr}

theorem moved_zero : moved m dest src s 0 = m := by
  funext a
  unfold moved
  exact if_neg (Nat.not_lt_zero _)

/-- The byte that the next turn reads, when the first one has been written already. -/
theorem moved_next (unit : s * s = 1) {j : Nat} (small : j + 1 < 2 ^ 32) :
    Function.update m dest (m src) (src + s + s * BitVec.ofNat 32 (j % (s * (dest - src)).toNat)) =
      m (src + s * BitVec.ofNat 32 ((j + 1) % (s * (dest - src)).toNat)) := by
  have here : src + s * (s * (dest - src)) = dest := by
    rw [← mul_assoc, unit, one_mul, add_sub_cancel]
  have next (r : Nat) : src + s + s * BitVec.ofNat 32 r = src + s * BitVec.ofNat 32 (r + 1) := by
    rw [BitVec.ofNat_add, mul_add, add_comm (s * _), ← add_assoc]
    exact congrArg (src + · + _) (mul_one s).symm
  rw [next, succ_mod]
  by_cases last : j % (s * (dest - src)).toNat + 1 = (s * (dest - src)).toNat
  · rw [if_pos last, last, BitVec.ofNat_toNat, BitVec.setWidth_eq, here, Function.update_self]
    exact congrArg m (by rw [BitVec.mul_zero, BitVec.add_zero])
  · have other : src + s * BitVec.ofNat 32 (j % (s * (dest - src)).toNat + 1) ≠ dest := by
      intro same
      have gap : s * (dest - src) = BitVec.ofNat 32 (j % (s * (dest - src)).toNat + 1) := by
        conv_lhs => rw [← same]
        rw [add_sub_cancel_left, ← mul_assoc, unit, one_mul]
      have bound := Nat.mod_le j (s * (dest - src)).toNat
      have length := congrArg BitVec.toNat gap
      rw [BitVec.toNat_ofNat, Nat.mod_eq_of_lt (by omega)] at length
      exact last length.symm
    rw [if_neg last, Function.update_of_ne other]

theorem moved_succ (unit : s * s = 1) (small : n + 1 < 2 ^ 32) :
    moved (Function.update m dest (m src)) (dest + s) (src + s) s n = moved m dest src s (n + 1) := by
  funext a
  have gap : s * (dest + s - (src + s)) = s * (dest - src) := by rw [add_sub_add_right_eq_sub]
  have place : s * (a - (dest + s)) = s * (a - dest) - 1 := by rw [← sub_sub, mul_sub, unit]
  unfold moved
  dsimp only
  rw [gap, place]
  by_cases first : a = dest
  · rw [first, sub_self, mul_zero, if_neg (show ¬ ((0 : BitVec 32) - 1).toNat < n from ?_), Function.update_self]
    · rw [show (0 : BitVec 32).toNat = 0 from rfl, if_pos (Nat.succ_pos n), Nat.zero_mod]
      exact congrArg m (by rw [BitVec.mul_zero, BitVec.add_zero])
    · rw [show ((0 : BitVec 32) - 1).toNat = 4294967295 from rfl]
      omega
  · obtain ⟨j, index⟩ : ∃ j, (s * (a - dest)).toNat = j + 1 := by
      refine Nat.exists_eq_succ_of_ne_zero fun zero => first ?_
      have none : s * (a - dest) = 0 := BitVec.eq_of_toNat_eq zero
      rw [← sub_eq_zero, ← one_mul (a - dest), ← unit, mul_assoc, none, mul_zero]
    have bound := (s * (a - dest)).isLt
    have before : (s * (a - dest) - 1).toNat = j := by
      rw [BitVec.toNat_sub_of_le (by rw [BitVec.le_def, index]; exact Nat.succ_pos j), index]
      rfl
    rw [before, index]
    by_cases inside : j < n
    · rw [if_pos inside, if_pos (Nat.succ_lt_succ inside), moved_next unit (by omega)]
    · rw [if_neg inside, if_neg (fun h => inside (Nat.lt_of_succ_lt_succ h)), Function.update_of_ne first]

theorem moved_one : moved m dest src 1 1 = Function.update m dest (m src) := by
  rw [← moved_succ (n := 0) (show (1 : BitVec 32) * 1 = 1 from rfl) (by decide), moved_zero]

theorem rep_movsb (small : n < 2 ^ 32) : Processor.rep Processor.movsb n c = { c with
    mem := moved c.mem c.edi c.esi c.stride n, esi := c.esi + c.stride * BitVec.ofNat 32 n, edi := c.edi + c.stride * BitVec.ofNat 32 n,
    ecx := c.ecx - BitVec.ofNat 32 n } := by
  induction n generalizing c with
  | zero =>
    rw [moved_zero]
    simp [Processor.rep]
  | succ n ih =>
    have next (a : Addr) : a + c.stride + c.stride * BitVec.ofNat 32 n = a + c.stride * BitVec.ofNat 32 (n + 1) := by
      rw [BitVec.ofNat_add, mul_add, add_comm (c.stride * _), ← add_assoc]
      exact congrArg (a + · + _) (mul_one c.stride).symm
    unfold Processor.rep
    rw [ih (Nat.lt_of_succ_lt small)]
    unfold Processor.movsb
    rw [← moved_succ stride_unit small, ← sub_ofNat_succ, ← next, ← next]
    rfl

/-- What `rep stosb` leaves at an address. -/
def filled (m : Addr → UInt8) (dest : Addr) (b : UInt8) (n : Nat) (a : Addr) : UInt8 := if (a - dest).toNat < n then b else m a

theorem filled_succ : filled (Function.update m dest b) (dest + 1) b n = filled m dest b (n + 1) := by
  funext a
  unfold filled
  by_cases first : a = dest
  · rw [first, sub_self, show (0 : BitVec 32).toNat = 0 from rfl, if_pos (Nat.succ_pos n), Function.update_self, ite_self]
  · obtain ⟨j, index⟩ : ∃ j, (a - dest).toNat = j + 1 :=
      Nat.exists_eq_succ_of_ne_zero fun zero => first (sub_eq_zero.mp (BitVec.eq_of_toNat_eq zero))
    have before : (a - (dest + 1)).toNat = j := by
      rw [← sub_sub, BitVec.toNat_sub_of_le (by rw [BitVec.le_def, index]; exact Nat.succ_pos j), index]
      rfl
    rw [before, index, Function.update_of_ne first]
    by_cases inside : j < n
    · rw [if_pos inside, if_pos (Nat.succ_lt_succ inside)]
    · rw [if_neg inside, if_neg (fun h => inside (Nat.lt_of_succ_lt_succ h))]

theorem rep_stosb (forward : c.df = false) (small : n < 2 ^ 32) : Processor.rep Processor.stosb n c = { c with
    mem := filled c.mem c.edi c.al n, edi := c.edi + BitVec.ofNat 32 n, ecx := c.ecx - BitVec.ofNat 32 n } := by
  induction n generalizing c with
  | zero =>
    have same : filled c.mem c.edi c.al 0 = c.mem := by
      funext a
      unfold filled
      exact if_neg (Nat.not_lt_zero _)
    rw [same]
    simp [Processor.rep]
  | succ n ih =>
    unfold Processor.rep
    refine (ih (c := { c.stosb with ecx := c.ecx - 1 }) forward (Nat.lt_of_succ_lt small)).trans ?_
    unfold Processor.stosb
    rw [stride_forward forward, ← filled_succ, ← sub_ofNat_succ, ← add_ofNat_succ]
    rfl

theorem ahead_toNat {k : Nat} (small : k < 2 ^ 32) : (dest + BitVec.ofNat 32 k - dest).toNat = k := by
  rw [add_sub_cancel_left, BitVec.toNat_ofNat]
  exact Nat.mod_eq_of_lt small

theorem update_ahead {k : Nat} (small : k < 2 ^ 32) (other : (a - dest).toNat ≠ k) :
    Function.update m (dest + BitVec.ofNat 32 k) b a = m a :=
  Function.update_of_ne (fun same => other (by rw [same, ahead_toNat small])) b m

/-- Where the two overlap the wrong way, the bytes in front of the destination repeat. -/
theorem moved_ahead {k : Nat} (inside : k < n) (small : n < 2 ^ 32) :
    moved m dest src 1 n (dest + BitVec.ofNat 32 k) = m (src + BitVec.ofNat 32 (k % (dest - src).toNat)) := by
  unfold moved
  dsimp only
  rw [one_mul, one_mul, one_mul, ahead_toNat (inside.trans small), if_pos inside]

theorem moved_outside (outside : n ≤ (a - dest).toNat) : moved m dest src 1 n a = m a := by
  unfold moved
  dsimp only
  rw [one_mul, if_neg (Nat.not_lt.mpr outside)]

/-! ### Texts that are copied -/

theorem Text.copied {m' : Addr → UInt8} {a' : Addr} (text : Text m a l)
    (same : ∀ k ≤ l.length, m' (a' + BitVec.ofNat 32 k) = m (a + BitVec.ofNat 32 k)) : Text m' a' l := by
  have here := same 0 (Nat.zero_le _)
  rw [show a' + BitVec.ofNat 32 0 = a' from BitVec.add_zero a', show a + BitVec.ofNat 32 0 = a from BitVec.add_zero a] at here
  induction l generalizing a a' with
  | nil => exact here.trans text
  | cons b l ih =>
    obtain ⟨first, nonzero, rest⟩ := text
    have later (k : Nat) (inside : k ≤ l.length) : m' (a' + 1 + BitVec.ofNat 32 k) = m (a + 1 + BitVec.ofNat 32 k) := by
      rw [add_ofNat_succ, add_ofNat_succ]
      exact same (k + 1) (Nat.succ_le_succ inside)
    refine ⟨here.trans first, nonzero, ih rest later ?_⟩
    have second := later 0 (Nat.zero_le _)
    rwa [show a' + 1 + BitVec.ofNat 32 0 = a' + 1 from BitVec.add_zero _, show a + 1 + BitVec.ofNat 32 0 = a + 1 from BitVec.add_zero _] at second

theorem Text.ne_zero (text : Text m a l) {k : Nat} (inside : k < l.length) : m (a + BitVec.ofNat 32 k) ≠ 0 := by
  induction l generalizing a k with
  | nil => exact absurd inside (Nat.not_lt_zero k)
  | cons b l ih =>
    obtain ⟨first, nonzero, rest⟩ := text
    cases k with
    | zero => rw [show a + BitVec.ofNat 32 0 = a from BitVec.add_zero a, first]; exact nonzero
    | succ k =>
      rw [← add_ofNat_succ]
      exact ih rest (Nat.lt_of_succ_lt_succ inside)

theorem Text.append {front : List UInt8} (bytes : Bytes m a front) (nonzero : (0 : UInt8) ∉ front)
    (text : Text m (a + BitVec.ofNat 32 front.length) l) : Text m a (front ++ l) := by
  induction front generalizing a with
  | nil =>
    rw [show a + BitVec.ofNat 32 ([] : List UInt8).length = a from BitVec.add_zero a] at text
    exact text
  | cons b front ih =>
    obtain ⟨first, rest⟩ := bytes
    rw [List.length_cons, ← add_ofNat_succ] at text
    exact ⟨first, fun zero => nonzero (by rw [← zero]; exact List.mem_cons_self), ih rest (fun later => nonzero (List.mem_cons_of_mem b later)) text⟩

theorem Bytes.copied {m' : Addr → UInt8} (bytes : Bytes m a l) (same : ∀ k < l.length, m' (a + BitVec.ofNat 32 k) = m (a + BitVec.ofNat 32 k)) :
    Bytes m' a l := by
  induction l generalizing a with
  | nil => trivial
  | cons b l ih =>
    have here := same 0 (Nat.succ_pos _)
    rw [show a + BitVec.ofNat 32 0 = a from BitVec.add_zero a] at here
    refine ⟨here.trans bytes.1, ih bytes.2 fun k inside => ?_⟩
    rw [add_ofNat_succ]
    exact same (k + 1) (Nat.succ_lt_succ inside)

theorem Text.getD (text : Text m a l) {k : Nat} (inside : k ≤ l.length) : m (a + BitVec.ofNat 32 k) = l.getD k 0 := by
  induction l generalizing a k with
  | nil =>
    obtain rfl : k = 0 := Nat.le_zero.mp inside
    exact (congrArg m (BitVec.add_zero a)).trans text
  | cons b l ih =>
    obtain ⟨first, -, rest⟩ := text
    cases k with
    | zero => exact (congrArg m (BitVec.add_zero a)).trans first
    | succ k =>
      rw [← add_ofNat_succ, List.getD_cons_succ]
      exact ih rest (Nat.le_of_succ_le_succ inside)

theorem Text.of_getD (nonzero : (0 : UInt8) ∉ l) (values : ∀ k ≤ l.length, m (a + BitVec.ofNat 32 k) = l.getD k 0) : Text m a l := by
  have here := values 0 (Nat.zero_le _)
  rw [show a + BitVec.ofNat 32 0 = a from BitVec.add_zero a] at here
  induction l generalizing a with
  | nil => exact here
  | cons b l ih =>
    have later (k : Nat) (inside : k ≤ l.length) : m (a + 1 + BitVec.ofNat 32 k) = l.getD k 0 := by
      rw [add_ofNat_succ]
      exact values (k + 1) (Nat.succ_le_succ inside)
    refine ⟨here, fun zero => nonzero (by rw [zero]; exact List.mem_cons_self), ih (fun member => nonzero (List.mem_cons_of_mem b member)) later ?_⟩
    exact (congrArg m (BitVec.add_zero _).symm).trans (later 0 (Nat.zero_le _))

theorem Text.drop {front : List UInt8} (text : Text m a (front ++ l)) : Text m (a + BitVec.ofNat 32 front.length) l := by
  induction front generalizing a with
  | nil =>
    rw [show a + BitVec.ofNat 32 ([] : List UInt8).length = a from BitVec.add_zero a]
    exact text
  | cons b front ih =>
    rw [List.length_cons, ← add_ofNat_succ]
    exact ih text.2.2

end StringOps
