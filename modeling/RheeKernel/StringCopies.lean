import Mathlib.Tactic.Ring
import RheeKernel.StringSearches

namespace RheeKernel.Strings

open StringOps

/-! ### `string.h`: the functions that write -/

def memcpy (c : Processor) (dest src : Addr) (n : BitVec 32) : Processor :=
  { c with ecx := n, esi := src, edi := dest, df := false }.repMovsb

/-- The copy goes down from the last byte where the destination does not lie in front of the source. -/
def memmove (c : Processor) (dest src : Addr) (n : BitVec 32) : Processor :=
  if dest < src then memcpy c dest src n
  else { { c with ecx := n, esi := n - 1 + src, edi := n - 1 + dest, df := true }.repMovsb with df := false }

def memset (c : Processor) (s : Addr) (ch count : BitVec 32) : Processor :=
  { c with eax := ch, edi := s, ecx := count, df := false }.repStosb

/-- From label 1 of `strcpy` and of `strcat`. -/
def copyTurn (c : Processor) : Bool × Processor :=
  let c := c.lodsb.stosb.testAl
  (!c.zf, c)

def strcpy (c : Processor) (dest src : Addr) (fuel : Nat) : Option Processor :=
  WhileLoop.run (fun c => some (copyTurn c)) some fuel { c with esi := src, edi := dest, df := false }

/-- To the end of the text at `dest`. -/
def seekEnd (c : Processor) : Processor :=
  let c := c.repneScasb
  { c with edi := c.edi - 1 }

def strcat (c : Processor) (dest src : Addr) (fuel : Nat) : Option Processor :=
  let c := { c with esi := src, edi := dest, eax := 0, ecx := 0xffffffff, df := false }
  WhileLoop.run (fun c => some (copyTurn c)) some fuel (seekEnd c)

/-- The bytes that are left get zeros, unless the count has run out. -/
def strncpy (c : Processor) (dest src : Addr) (count : BitVec 32) (fuel : Nat) : Option Processor :=
  let c := { c with esi := src, edi := dest, ecx := count, df := false }
  (WhileLoop.run (fun c => some (c.counted copyTurn)) some fuel c).map fun c => if c.ecx.msb then c else c.repStosb

def strncat (c : Processor) (dest src : Addr) (count : BitVec 32) (fuel : Nat) : Option Processor :=
  let c := seekEnd { c with esi := src, edi := dest, eax := 0, ecx := 0xffffffff, df := false }
  (WhileLoop.run (fun c => some (c.counted copyTurn)) some fuel { c with ecx := count }).map fun c => { c with eax := 0 }.stosb

variable {c d : Processor} {m : Addr → UInt8} {dest src a : Addr} {b : UInt8} {l : List UInt8} {k n fuel : Nat}

/-! ### Blocks -/

theorem memcpy_mem (small : n < 2 ^ 32) : (memcpy c dest src (BitVec.ofNat 32 n)).mem = moved c.mem dest src 1 n := by
  unfold memcpy Processor.repMovsb
  dsimp only
  rw [count_toNat small, rep_movsb small]
  rfl

/-- Where the blocks overlap the wrong way the bytes in front of the destination repeat. -/
theorem memcpy_at (inside : k < n) (small : n < 2 ^ 32) : (memcpy c dest src (BitVec.ofNat 32 n)).mem (dest + BitVec.ofNat 32 k) =
    c.mem (src + BitVec.ofNat 32 (k % (dest - src).toNat)) := by
  rw [memcpy_mem small]
  exact moved_ahead inside small

theorem memcpy_outside (small : n < 2 ^ 32) (outside : n ≤ (a - dest).toNat) : (memcpy c dest src (BitVec.ofNat 32 n)).mem a = c.mem a := by
  rw [memcpy_mem small]
  exact moved_outside outside

theorem memcpy_right_iff (small : n < 2 ^ 32) :
    (∀ k < n, (memcpy c dest src (BitVec.ofNat 32 n)).mem (dest + BitVec.ofNat 32 k) = c.mem (src + BitVec.ofNat 32 k)) ↔
      ∀ k < n, c.mem (src + BitVec.ofNat 32 (k % (dest - src).toNat)) = c.mem (src + BitVec.ofNat 32 k) := by
  constructor
  · intro right k inside
    rw [← right k inside, memcpy_at inside small]
  · intro repeats k inside
    rw [memcpy_at inside small, repeats k inside]

theorem memcpy_right_iff_ab : ¬ ∀ k < 2, (memcpy twoTexts 9 8 2).mem (9 + BitVec.ofNat 32 k) = twoTexts.mem (8 + BitVec.ofNat 32 k) :=
  (memcpy_right_iff (n := 2) (by decide)).not.mpr (by decide)

/-- `memmove` from the last byte down, where the destination is not within the source. -/
theorem backward_mem (small : n < 2 ^ 32) : ({ c with
    ecx := BitVec.ofNat 32 n, esi := BitVec.ofNat 32 n - 1 + src, edi := BitVec.ofNat 32 n - 1 + dest, df := true } : Processor).repMovsb.mem =
      moved c.mem (BitVec.ofNat 32 n - 1 + dest) (BitVec.ofNat 32 n - 1 + src) (-1) n := by
  unfold Processor.repMovsb
  dsimp only
  rw [count_toNat small, rep_movsb small]
  rfl

theorem backward_index (x : BitVec 32) (positive : 0 < n) (small : n < 2 ^ 32) :
    (BitVec.ofNat 32 n - 1 - x).toNat = (n - 1 + (2 ^ 32 - x.toNat)) % 2 ^ 32 := by
  have less : (BitVec.ofNat 32 n - 1).toNat = n - 1 := by
    have := count_toNat small
    bv_omega
  rw [BitVec.toNat_sub, less, Nat.add_comm]

/-- A gap that is no gap, or one behind the end of the block. -/
theorem mod_gap {g : Nat} (far : g = 0 ∨ n ≤ g) (inside : k < n) : k % g = k := by
  rcases far with rfl | behind
  · exact Nat.mod_zero k
  · exact Nat.mod_eq_of_lt (inside.trans_le behind)

/-- The copy is exact where nothing that it reads has been written. -/
theorem moved_exact (far : (dest - src).toNat = 0 ∨ n ≤ (dest - src).toNat) (inside : k < n) (small : n < 2 ^ 32) :
    moved m dest src 1 n (dest + BitVec.ofNat 32 k) = m (src + BitVec.ofNat 32 k) := by
  rw [moved_ahead inside small, mod_gap far inside]

theorem gap_toNat (gap : dest = src ∨ n < (dest - src).toNat) : (dest - src).toNat = 0 ∨ n + 1 ≤ (dest - src).toNat := by
  rcases gap with rfl | far
  · rw [sub_self]
    exact Or.inl rfl
  · exact Or.inr far

theorem memmove_exact (small : n < 2 ^ 32) (source : src.toNat + n ≤ 2 ^ 32) (target : dest.toNat + n ≤ 2 ^ 32) :
    (∀ k < n, (memmove c dest src (BitVec.ofNat 32 n)).mem (dest + BitVec.ofNat 32 k) = c.mem (src + BitVec.ofNat 32 k)) ∧
      ∀ a, n ≤ (a - dest).toNat → (memmove c dest src (BitVec.ofNat 32 n)).mem a = c.mem a := by
  unfold memmove
  by_cases before : dest < src
  · rw [if_pos before]
    refine ⟨fun k inside => ?_, fun a outside => memcpy_outside small outside⟩
    rw [memcpy_at inside small, mod_gap (Or.inr ?_) inside]
    rw [BitVec.lt_def] at before
    rw [BitVec.toNat_sub]
    omega
  rw [if_neg before]
  dsimp only
  rw [backward_mem small]
  unfold moved
  dsimp only
  have index (a : Addr) : -1 * (a - (BitVec.ofNat 32 n - 1 + dest)) = BitVec.ofNat 32 n - 1 - (a - dest) := by ring
  have gap : -1 * (BitVec.ofNat 32 n - 1 + dest - (BitVec.ofNat 32 n - 1 + src)) = src - dest := by ring
  rw [gap]
  refine ⟨fun k inside => ?_, fun a outside => ?_⟩
  · have place : (-1 * (dest + BitVec.ofNat 32 k - (BitVec.ofNat 32 n - 1 + dest))).toNat = n - 1 - k := by
      rw [index, backward_index _ (by omega) small, ahead_toNat (inside.trans small)]
      omega
    have far : (src - dest).toNat = 0 ∨ n ≤ (src - dest).toNat := by
      rw [BitVec.lt_def] at before
      rw [BitVec.toNat_sub]
      omega
    have there : BitVec.ofNat 32 n = BitVec.ofNat 32 (n - 1 - k) + 1 + BitVec.ofNat 32 k := by
      have parts : n = n - 1 - k + 1 + k := by omega
      conv => lhs; rw [parts]
      rw [BitVec.ofNat_add, BitVec.ofNat_add]
      rfl
    rw [place, if_pos (by omega), mod_gap far (by omega), there]
    exact congrArg c.mem (by ring)
  · refine if_neg ?_
    rcases Nat.eq_zero_or_pos n with rfl | positive
    · exact Nat.not_lt_zero _
    rw [index, backward_index _ positive small]
    have := (a - dest).isLt
    omega

theorem memmove_exact_ab : (∀ k < 2, (memmove twoTexts 9 8 2).mem (9 + BitVec.ofNat 32 k) = twoTexts.mem (8 + BitVec.ofNat 32 k)) ∧
    ∀ a : Addr, 2 ≤ (a - 9).toNat → (memmove twoTexts 9 8 2).mem a = twoTexts.mem a :=
  memmove_exact (n := 2) (by decide) (by decide) (by decide)

theorem memset_mem {ch : BitVec 32} (small : n < 2 ^ 32) :
    (memset c dest ch (BitVec.ofNat 32 n)).mem = filled c.mem dest (UInt8.ofBitVec (ch.setWidth 8)) n := by
  unfold memset Processor.repStosb
  dsimp only
  rw [count_toNat small, rep_stosb rfl small]
  rfl

/-! ### Texts -/

theorem copyTurn_spec (forward : c.df = false) : (copyTurn c).1 = !decide (c.mem c.esi = 0) ∧
    (copyTurn c).2.mem = Function.update c.mem c.edi (c.mem c.esi) ∧ (copyTurn c).2.esi = c.esi + 1 ∧ (copyTurn c).2.edi = c.edi + 1 ∧
      (copyTurn c).2.df = false ∧ (copyTurn c).2.ecx = c.ecx ∧ (copyTurn c).2.al = c.mem c.esi := by
  have step : c.lodsb.stosb = { c.lodsb with mem := Function.update c.mem c.edi (c.mem c.esi), edi := c.edi + 1 } := by
    unfold Processor.stosb
    rw [lodsb_al, show c.lodsb.stride = 1 from stride_forward forward]
    rfl
  unfold copyTurn Processor.testAl
  dsimp only
  rw [step]
  exact ⟨congrArg (fun b => !decide (b = 0)) lodsb_al, rfl, lodsb_esi forward, rfl, forward, rfl, lodsb_al⟩

/-- The byte behind the source stays as it is while the text is copied. -/
theorem text_kept (text : Text m (a + 1) l) (gap : dest = a ∨ l.length + 1 < (dest - a).toNat) :
    Text (Function.update m dest (m a)) (a + 1) l := by
  rcases gap with rfl | far
  · rw [Function.update_eq_self]
    exact text
  · refine text.copied fun k inside => Function.update_of_ne (fun same => ?_) _ _
    rw [add_ofNat_succ] at same
    have length : (a + BitVec.ofNat 32 (k + 1) - a).toNat = k + 1 := ahead_toNat (by omega)
    rw [same] at length
    omega

theorem strcpy_run (forward : c.df = false) (text : Text c.mem c.esi l) (room : l.length + 1 < 2 ^ 32)
    (gap : c.edi = c.esi ∨ l.length < (c.edi - c.esi).toNat) (enough : l.length < fuel) :
    ∃ d, WhileLoop.run (fun c => some (copyTurn c)) some fuel c = some d ∧ d.mem = moved c.mem c.edi c.esi 1 (l.length + 1) := by
  induction l generalizing c fuel with
  | nil =>
    obtain ⟨fuel, rfl⟩ : ∃ k, fuel = k + 1 := ⟨fuel - 1, by omega⟩
    obtain ⟨turn, mem, -⟩ := copyTurn_spec forward
    have zero : c.mem c.esi = 0 := text
    rw [zero] at turn
    exact ⟨_, turn_stop turn, mem.trans moved_one.symm⟩
  | cons b l ih =>
    obtain ⟨fuel, rfl⟩ : ∃ k, fuel = k + 1 := ⟨fuel - 1, by omega⟩
    obtain ⟨here, nonzero, rest⟩ := text
    obtain ⟨turn, mem, esi, edi, df, -⟩ := copyTurn_spec forward
    rw [here, decide_eq_false nonzero] at turn
    have kept := text_kept rest gap
    rw [← mem, ← esi] at kept
    have distance : (copyTurn c).2.edi - (copyTurn c).2.esi = c.edi - c.esi := by rw [esi, edi, add_sub_add_right_eq_sub]
    obtain ⟨d, run, copied⟩ := ih df kept (Nat.lt_of_succ_lt room)
      (gap.imp (fun same => by rw [esi, edi, same]) fun far => by rw [distance]; exact Nat.lt_of_succ_lt far) (Nat.lt_of_succ_lt_succ enough)
    refine ⟨d, (turn_go turn).trans run, copied.trans ?_⟩
    rw [mem, esi, edi]
    exact moved_succ (show (1 : BitVec 32) * 1 = 1 from rfl) room

/-- The turns when the end of the text is overwritten before it is read: the bytes in front of the cursor are never zero. -/
theorem strcpy_endless {g : Nat} (forward : c.df = false) (gap : c.edi = c.esi + BitVec.ofNat 32 (g + 1)) (small : g + 1 < 2 ^ 32)
    (nonzero : ∀ k ≤ g, c.mem (c.esi + BitVec.ofNat 32 k) ≠ 0) : WhileLoop.run (fun c => some (copyTurn c)) some fuel c = none := by
  induction fuel generalizing c with
  | zero => rfl
  | succ fuel ih =>
    obtain ⟨turn, mem, esi, edi, df, -⟩ := copyTurn_spec forward
    have first := nonzero 0 (Nat.zero_le g)
    rw [show c.esi + BitVec.ofNat 32 0 = c.esi from BitVec.add_zero _] at first
    rw [decide_eq_false first] at turn
    refine (turn_go turn).trans (ih df ?_ fun k inside => ?_)
    · rw [esi, edi, gap, BitVec.add_assoc, BitVec.add_assoc, BitVec.add_comm 1]
    rw [mem, esi, add_ofNat_succ]
    by_cases last : k = g
    · rw [last, ← gap, Function.update_self]
      exact first
    · rw [Function.update_of_ne]
      · exact nonzero (k + 1) (by omega)
      · intro same
        rw [gap] at same
        have length := congrArg (fun x => (x - c.esi).toNat) same
        rw [ahead_toNat (by omega), ahead_toNat small] at length
        omega

theorem strcpy_halts (text : Text c.mem src l) (room : l.length + 1 < 2 ^ 32) :
    if dest = src ∨ l.length < (dest - src).toNat then ∀ fuel, l.length < fuel →
      ∃ d, strcpy c dest src fuel = some d ∧ Text d.mem dest l ∧ ∀ a, l.length < (a - dest).toNat → d.mem a = c.mem a
    else ∀ fuel, strcpy c dest src fuel = none := by
  split_ifs with gap
  · intro fuel enough
    obtain ⟨d, run, mem⟩ := strcpy_run (c := { c with esi := src, edi := dest, df := false }) rfl text room gap enough
    refine ⟨d, run, text.copied fun k inside => ?_, fun a outside => ?_⟩
    · rw [mem]
      exact moved_exact (gap_toNat gap) (Nat.lt_succ_of_le inside) room
    · rw [mem]
      exact moved_outside outside
  · obtain ⟨apart, near⟩ := not_or.mp gap
    obtain ⟨g, index⟩ : ∃ g, (dest - src).toNat = g + 1 :=
      Nat.exists_eq_succ_of_ne_zero fun zero => apart (sub_eq_zero.mp (BitVec.eq_of_toNat_eq zero))
    rw [index] at near
    refine fun fuel => strcpy_endless (g := g) rfl ?_ (by omega) fun k inside => text.ne_zero (by omega)
    show dest = src + BitVec.ofNat 32 (g + 1)
    rw [← index, BitVec.ofNat_toNat, BitVec.setWidth_eq, add_sub_cancel]

theorem strcpy_halts_ab : strcpy twoTexts 9 8 1000 = none := by
  have law := @strcpy_halts twoTexts 9 8 [97, 98] twoTexts_ab (by decide)
  rw [if_neg (by decide)] at law
  exact law 1000

theorem seekEnd_spec {front : List UInt8} (forward : c.df = false) (zero : c.al = 0) (full : c.ecx = 0xffffffff) (text : Text c.mem c.edi front)
    (room : front.length + 1 < 2 ^ 32) : (seekEnd c).mem = c.mem ∧ (seekEnd c).esi = c.esi ∧
      (seekEnd c).edi = c.edi + BitVec.ofNat 32 front.length ∧ (seekEnd c).df = false := by
  obtain ⟨-, scan⟩ := strlen_scan forward zero full text room
  unfold seekEnd
  dsimp only
  rw [scan]
  refine ⟨rfl, rfl, ?_, forward⟩
  rw [BitVec.ofNat_add, ← BitVec.add_assoc]
  exact BitVec.add_sub_cancel _ 1

/-- What a copy behind a text makes of it. -/
theorem joined {front : List UInt8} {m' : Addr → UInt8} (text : Text m dest front) (room : front.length + l.length + 1 < 2 ^ 32)
    (behind : Text m' (dest + BitVec.ofNat 32 front.length) l)
    (others : ∀ a, l.length + 1 < (a - (dest + BitVec.ofNat 32 front.length)).toNat → m' a = m a) :
    Text m' dest (front ++ l) := by
  refine Text.append (Bytes.copied (Bytes.append_iff.mp text.bytes).1 fun k inside => others _ ?_) text.nonzero behind
  have index : dest + BitVec.ofNat 32 k - (dest + BitVec.ofNat 32 front.length) = BitVec.ofNat 32 k - BitVec.ofNat 32 front.length :=
    add_sub_add_left_eq_sub _ _ _
  rw [index, BitVec.toNat_sub, count_toNat (by omega), count_toNat (by omega)]
  omega

theorem strcat_appends {front : List UInt8} (text : Text c.mem dest front) (text' : Text c.mem src l) (room : front.length + l.length + 1 < 2 ^ 32)
    (gap : dest + BitVec.ofNat 32 front.length = src ∨ l.length < (dest + BitVec.ofNat 32 front.length - src).toNat) (enough : l.length < fuel) :
    ∃ d, strcat c dest src fuel = some d ∧ Text d.mem dest (front ++ l) ∧
      ∀ a, l.length < (a - (dest + BitVec.ofNat 32 front.length)).toNat → d.mem a = c.mem a := by
  obtain ⟨mem, esi, edi, df⟩ := seekEnd_spec (c := { c with esi := src, edi := dest, eax := 0, ecx := 0xffffffff, df := false }) rfl (al_zero rfl) rfl text
    (by omega)
  unfold strcat
  dsimp only at mem esi edi ⊢
  generalize seekEnd _ = e at mem esi edi df ⊢
  have source : Text e.mem e.esi l := by
    rw [mem, esi]
    exact text'
  obtain ⟨d, run, copied⟩ := strcpy_run df source (by omega) (by rw [edi, esi]; exact gap) enough
  rw [mem, edi, esi] at copied
  have others (a : Addr) (outside : l.length < (a - (dest + BitVec.ofNat 32 front.length)).toNat) : d.mem a = c.mem a := by
    rw [copied]
    exact moved_outside outside
  refine ⟨d, run, joined text room (text'.copied fun k inside => ?_) fun a far => others a (Nat.lt_of_succ_lt far), others⟩
  rw [copied]
  exact moved_exact (gap_toNat gap) (Nat.lt_succ_of_le inside) (by omega)

/-! ### Counted copies -/

/-- The loop of `strncpy` and of `strncat`: the count runs out within the text, or the text is copied with its zero and the count goes on. -/
theorem counted_run (forward : c.df = false) (text : Text c.mem c.esi l) (count : c.ecx = BitVec.ofNat 32 n) (small : n < 2 ^ 31)
    (room : l.length + 1 < 2 ^ 32) (gap : c.edi = c.esi ∨ l.length < (c.edi - c.esi).toNat) (enough : l.length < fuel) :
    ∃ d, WhileLoop.run (fun c => some (c.counted copyTurn)) some fuel c = some d ∧ d.df = false ∧
      (n ≤ l.length ∧ d.ecx.msb = true ∧ d.mem = moved c.mem c.edi c.esi 1 n ∧ d.edi = c.edi + BitVec.ofNat 32 n ∨
        l.length < n ∧ d.ecx.msb = false ∧ d.ecx = BitVec.ofNat 32 (n - (l.length + 1)) ∧ d.al = 0 ∧
          d.mem = moved c.mem c.edi c.esi 1 (l.length + 1) ∧ d.edi = c.edi + BitVec.ofNat 32 (l.length + 1)) := by
  have unit : (1 : BitVec 32) * 1 = 1 := rfl
  induction l generalizing c n fuel with
  | nil =>
    obtain ⟨fuel, rfl⟩ : ∃ k, fuel = k + 1 := ⟨fuel - 1, by omega⟩
    have zero : c.mem c.esi = 0 := text
    rcases counted_spec copyTurn count small with ⟨rfl, stop, ran, last⟩ | ⟨k, rfl, counted, positive⟩
    · refine ⟨_, turn_stop stop, by rw [last]; exact forward, Or.inl ⟨Nat.le_refl 0, ran, ?_, ?_⟩⟩
      · rw [last, moved_zero]
      · rw [last]
        exact (BitVec.add_zero _).symm
    · obtain ⟨turn, mem, -, edi, df, ecx, al⟩ := copyTurn_spec (c := { c with ecx := BitVec.ofNat 32 k }) forward
      rw [← counted] at turn mem edi df ecx al
      refine ⟨_, turn_stop (turn.trans (by simp [zero])), df, Or.inr ⟨Nat.succ_pos k, by rw [ecx]; exact positive, ecx, al.trans zero, ?_, edi⟩⟩
      exact mem.trans moved_one.symm
  | cons b l ih =>
    obtain ⟨fuel, rfl⟩ : ∃ k, fuel = k + 1 := ⟨fuel - 1, by omega⟩
    obtain ⟨here, nonzero, rest⟩ := text
    rcases counted_spec copyTurn count small with ⟨rfl, stop, ran, last⟩ | ⟨k, rfl, counted, positive⟩
    · refine ⟨_, turn_stop stop, by rw [last]; exact forward, Or.inl ⟨Nat.zero_le _, ran, ?_, ?_⟩⟩
      · rw [last, moved_zero]
      · rw [last]
        exact (BitVec.add_zero _).symm
    · obtain ⟨turn, mem, esi, edi, df, ecx, -⟩ := copyTurn_spec (c := { c with ecx := BitVec.ofNat 32 k }) forward
      rw [← counted] at turn mem esi edi df ecx
      rw [show ({ c with ecx := BitVec.ofNat 32 k } : Processor).mem c.esi = b from here, decide_eq_false nonzero] at turn
      have kept := text_kept rest gap
      rw [show Function.update c.mem c.edi (c.mem c.esi) = _ from mem.symm, show c.esi + 1 = _ from esi.symm] at kept
      have distance : (c.counted copyTurn).2.edi - (c.counted copyTurn).2.esi = c.edi - c.esi := by rw [esi, edi, add_sub_add_right_eq_sub]
      obtain ⟨d, run, df', ends⟩ := ih df kept ecx (by omega) (Nat.lt_of_succ_lt room)
        (gap.imp (fun same => by rw [esi, edi, same]) fun far => by rw [distance]; exact Nat.lt_of_succ_lt far) (Nat.lt_of_succ_lt_succ enough)
      refine ⟨d, (turn_go turn).trans run, df', ?_⟩
      have moves {t : Nat} (room : t + 1 < 2 ^ 32) : moved (c.counted copyTurn).2.mem (c.counted copyTurn).2.edi (c.counted copyTurn).2.esi 1 t =
          moved c.mem c.edi c.esi 1 (t + 1) := by
        rw [mem, esi, edi]
        exact moved_succ unit room
      have ahead (t : Nat) : (c.counted copyTurn).2.edi + BitVec.ofNat 32 t = c.edi + BitVec.ofNat 32 (t + 1) := by
        rw [edi]
        exact add_ofNat_succ _ _
      rcases ends with ⟨within, ran, copied, cursor⟩ | ⟨outside, ran, left, al, copied, cursor⟩
      · exact Or.inl ⟨Nat.succ_le_succ within, ran, copied.trans (moves (by omega)), cursor.trans (ahead k)⟩
      · refine Or.inr ⟨Nat.succ_lt_succ outside, ran, ?_, al, copied.trans (moves room), cursor.trans (ahead _)⟩
        rw [left, List.length_cons]
        exact congrArg _ (by omega)

/-- `strncpy` writes just so many bytes, zeros behind the end of the text. -/
theorem strncpy_fills (text : Text c.mem src l) (small : n < 2 ^ 31) (room : l.length + 1 < 2 ^ 32)
    (gap : dest = src ∨ l.length < (dest - src).toNat) (enough : l.length < fuel) : ∃ d, strncpy c dest src (BitVec.ofNat 32 n) fuel = some d ∧
      (∀ k < n, d.mem (dest + BitVec.ofNat 32 k) = l.getD k 0) ∧ ∀ a, n ≤ (a - dest).toNat → d.mem a = c.mem a := by
  obtain ⟨d, run, df, ends⟩ := counted_run (c := { c with esi := src, edi := dest, ecx := BitVec.ofNat 32 n, df := false }) rfl text rfl small room gap enough
  have far := gap_toNat gap
  unfold strncpy
  dsimp only
  rw [run, Option.map_some]
  refine ⟨_, rfl, ?_⟩
  rcases ends with ⟨within, ran, copied, -⟩ | ⟨outside, ran, left, al, copied, cursor⟩
  · rw [if_pos ran, copied]
    refine ⟨fun k inside => ?_, fun a outside => moved_outside outside⟩
    rw [← text.getD (inside.le.trans within)]
    exact moved_exact (show (dest - src).toNat = 0 ∨ n ≤ (dest - src).toNat from far.imp id (by omega)) inside (by omega)
  · have stored : d.repStosb.mem = filled d.mem (dest + BitVec.ofNat 32 (l.length + 1)) 0 (n - (l.length + 1)) := by
      unfold Processor.repStosb
      rw [left, count_toNat (by omega), rep_stosb df (by omega), al, cursor]
    rw [if_neg (by rw [ran]; decide), stored, copied]
    have index (a : Addr) : a - (dest + BitVec.ofNat 32 (l.length + 1)) = a - dest - BitVec.ofNat 32 (l.length + 1) := (sub_sub _ _ _).symm
    unfold filled
    refine ⟨fun k inside => ?_, fun a beyond => ?_⟩
    · rw [index, BitVec.toNat_sub, ahead_toNat (by omega), count_toNat room]
      by_cases copying : k ≤ l.length
      · rw [if_neg (by omega), ← text.getD copying]
        exact moved_exact far (by omega) room
      · rw [if_pos (by omega), List.getD_eq_getElem?_getD, List.getElem?_eq_none (by omega), Option.getD_none]
    · rw [index, BitVec.toNat_sub, count_toNat room]
      have := (a - dest).isLt
      rw [if_neg (by omega)]
      exact moved_outside (show l.length + 1 ≤ (a - dest).toNat by omega)

/-- The last `stosb` of `strncat`. -/
theorem closed_mem : ({ d with eax := 0 } : Processor).stosb.mem = Function.update d.mem d.edi 0 :=
  congrArg (Function.update d.mem d.edi) (al_zero rfl)

/-- `strncat` ends the text, and where that is shorter than the count it clears the byte behind the text's zero as well. -/
theorem strncat_appends {front : List UInt8} (text : Text c.mem dest front) (text' : Text c.mem src l) (small : n < 2 ^ 31)
    (room : front.length + l.length + 1 < 2 ^ 32)
    (gap : dest + BitVec.ofNat 32 front.length = src ∨ l.length < (dest + BitVec.ofNat 32 front.length - src).toNat) (enough : l.length < fuel) :
    ∃ d, strncat c dest src (BitVec.ofNat 32 n) fuel = some d ∧ Text d.mem dest (front ++ l.take n) ∧
      (l.length < n → d.mem (dest + BitVec.ofNat 32 front.length + BitVec.ofNat 32 (l.length + 1)) = 0) ∧
        ∀ a, l.length + 1 < (a - (dest + BitVec.ofNat 32 front.length)).toNat → d.mem a = c.mem a := by
  obtain ⟨mem, esi, edi, df⟩ := seekEnd_spec (c := { c with esi := src, edi := dest, eax := 0, ecx := 0xffffffff, df := false }) rfl (al_zero rfl) rfl text
    (by omega)
  unfold strncat
  dsimp only at mem esi edi ⊢
  generalize seekEnd _ = e at mem esi edi df ⊢
  have source : Text e.mem e.esi l := by
    rw [mem, esi]
    exact text'
  obtain ⟨d, run, -, ends⟩ := counted_run (c := { e with ecx := BitVec.ofNat 32 n }) df source rfl small (by omega) (by rw [edi, esi]; exact gap) enough
  dsimp only at ends
  rw [mem, edi, esi] at ends
  rw [run, Option.map_some]
  refine ⟨_, rfl, ?_⟩
  rw [closed_mem]
  have far := gap_toNat gap
  rcases ends with ⟨within, -, copied, cursor⟩ | ⟨outside, -, -, -, copied, cursor⟩
  · have taken : (l.take n).length = n := List.length_take_of_le within
    rw [cursor, copied]
    have others (a : Addr) (beyond : n + 1 < (a - (dest + BitVec.ofNat 32 front.length)).toNat) :=
      (update_ahead (m := moved c.mem (dest + BitVec.ofNat 32 front.length) src 1 n) (b := 0) (by omega) (Nat.ne_of_gt (Nat.lt_of_succ_lt beyond))).trans
        (moved_outside (by omega))
    refine ⟨joined text (by omega) (Text.of_getD (fun zero => text'.nonzero (List.mem_of_mem_take zero)) fun k inside => ?_)
      (by rw [taken]; exact others), fun longer => absurd within (Nat.not_le.mpr longer), fun a beyond => others a (by omega)⟩
    rw [taken] at inside
    by_cases last : k = n
    · rw [last, Function.update_self, List.getD_eq_getElem?_getD, List.getElem?_eq_none taken.le, Option.getD_none]
    · rw [update_ahead (by omega) (by rw [ahead_toNat (by omega)]; exact last), moved_exact (far.imp id (by omega)) (by omega) (by omega),
        text'.getD (by omega), List.getD_eq_getElem?_getD, List.getD_eq_getElem?_getD, List.getElem?_take_of_lt (by omega)]
  · rw [cursor, copied, List.take_of_length_le outside.le]
    have others (a : Addr) (beyond : l.length + 1 < (a - (dest + BitVec.ofNat 32 front.length)).toNat) :=
      (update_ahead (m := moved c.mem (dest + BitVec.ofNat 32 front.length) src 1 (l.length + 1)) (b := 0) (by omega) (Nat.ne_of_gt beyond)).trans
        (moved_outside beyond.le)
    refine ⟨joined text room (Text.of_getD text'.nonzero fun k inside => ?_) others, fun _ => Function.update_self .., others⟩
    rw [update_ahead (by omega) (by rw [ahead_toNat (by omega)]; omega), moved_exact far (by omega) (by omega), text'.getD inside]

theorem strncat_appends_ab : ∃ d, strncat twoTexts 16 8 3 3 = some d ∧ Text d.mem 16 [98, 97, 98] ∧ (2 < 3 → d.mem 20 = 0) ∧
    ∀ a : Addr, 3 < (a - 17).toNat → d.mem a = twoTexts.mem a :=
  strncat_appends (n := 3) twoTexts_b twoTexts_ab (by decide) (by decide) (Or.inr (by decide)) (by decide)

end RheeKernel.Strings
