import RheeKernel.StringSearches

namespace RheeKernel.Strings

open StringOps

/-! ### `string.h`: the functions that compare -/

/-- `sbbl %eax,%eax` and `orb $1,%al`. -/
def carrySign (c : Processor) : BitVec 32 := (if c.cf then -1 else 0) ||| 1

/-- From label 1 of `strcmp`; `strncmp` counts these turns. -/
def strcmpTurn (c : Processor) : Bool × Processor :=
  let c := c.lodsb.scasb
  if c.zf then
    let c := c.testAl
    (!c.zf, c)
  else (false, c)

def strcmp (c : Processor) (cs ct : Addr) (fuel : Nat) : Option (BitVec 32) :=
  let c := { c with esi := cs, edi := ct, df := false }
  (WhileLoop.run (fun c => some (strcmpTurn c)) some fuel c).map fun c => if c.zf then 0 else carrySign c

def strncmp (c : Processor) (cs ct : Addr) (count : BitVec 32) (fuel : Nat) : Option (BitVec 32) :=
  let c := { c with esi := cs, edi := ct, ecx := count, df := false }
  (WhileLoop.run (fun c => some (c.counted strcmpTurn)) some fuel c).map fun c => if c.ecx.msb || c.zf then 0 else carrySign c

def memcmp (c : Processor) (cs ct : Addr) (count : BitVec 32) : BitVec 32 :=
  let c := { c with edi := cs, esi := ct, ecx := count, eax := 0, df := false }.repeCmpsb
  if c.zf then 0 else if c.less then 1 else -1

variable {c d : Processor} {m : Addr → UInt8} {s cs ct : Addr} {b : UInt8} {l set : List UInt8} {fuel : Nat}

/-! ### Texts -/

/-- The sign of a comparison of two strings by their unsigned bytes. -/
def order (l l' : List UInt8) : BitVec 32 := if l = l' then 0 else if l < l' then -1 else 1

theorem order_cons {x y : UInt8} {l l' : List UInt8} : order (x :: l) (y :: l') = if x = y then order l l' else if x < y then -1 else 1 := by
  unfold order
  by_cases same : x = y
  · rw [if_pos same]
    simp only [same, List.cons.injEq, true_and, List.cons_lt_cons_iff, UInt8.lt_irrefl, false_or]
  · rw [if_neg same, if_neg fun all => same (List.cons.inj all).1]
    simp only [List.cons_lt_cons_iff, same, false_and, or_false]

theorem strcmpTurn_same (forward : c.df = false) (same : c.mem c.esi = c.mem c.edi) : (strcmpTurn c).1 = !decide (c.mem c.esi = 0) ∧
    (strcmpTurn c).2.zf = decide (c.mem c.esi = 0) ∧ (strcmpTurn c).2.esi = c.esi + 1 ∧ (strcmpTurn c).2.edi = c.edi + 1 ∧
      (strcmpTurn c).2.mem = c.mem ∧ (strcmpTurn c).2.df = false ∧ (strcmpTurn c).2.ecx = c.ecx := by
  have compared : c.lodsb.scasb.zf = true := by
    unfold Processor.scasb Processor.compare
    exact decide_eq_true (lodsb_al.trans same)
  have tested : c.lodsb.scasb.testAl.zf = decide (c.mem c.esi = 0) := congrArg (fun b => decide (b = 0)) lodsb_al
  have stride : c.stride = 1 := stride_forward forward
  unfold strcmpTurn
  dsimp only
  rw [if_pos compared, tested]
  refine ⟨rfl, rfl, ?_, ?_, rfl, forward, rfl⟩
  · exact congrArg (c.esi + ·) stride
  · exact congrArg (c.edi + ·) stride

theorem strcmpTurn_differ (differ : c.mem c.esi ≠ c.mem c.edi) : (strcmpTurn c).1 = false ∧ (strcmpTurn c).2.zf = false ∧
    carrySign (strcmpTurn c).2 = (if c.mem c.esi < c.mem c.edi then -1 else 1) ∧ (strcmpTurn c).2.ecx = c.ecx := by
  have compared : c.lodsb.scasb.zf = false := by
    unfold Processor.scasb Processor.compare
    exact decide_eq_false fun same => differ (lodsb_al.symm.trans same)
  have carry : c.lodsb.scasb.cf = decide (c.mem c.esi < c.mem c.edi) := congrArg (fun b => decide (b < c.mem c.edi)) lodsb_al
  unfold strcmpTurn
  dsimp only
  rw [if_neg (by rw [compared]; decide)]
  refine ⟨rfl, compared, ?_, rfl⟩
  unfold carrySign
  rw [carry]
  by_cases below : c.mem c.esi < c.mem c.edi
  · rw [if_pos (decide_eq_true below), if_pos below]
    rfl
  · rw [if_neg (by simpa using below), if_neg below]
    rfl

theorem strcmp_run {l' : List UInt8} (forward : c.df = false) (text : Text c.mem c.esi l) (text' : Text c.mem c.edi l') (enough : l.length < fuel) :
    ∃ d, WhileLoop.run (fun c => some (strcmpTurn c)) some fuel c = some d ∧ (if d.zf then 0 else carrySign d) = order l l' := by
  induction l generalizing c l' fuel with
  | nil =>
    obtain ⟨fuel, rfl⟩ : ∃ k, fuel = k + 1 := ⟨fuel - 1, by omega⟩
    have zero : c.mem c.esi = 0 := text
    cases l' with
    | nil =>
      have zero' : c.mem c.edi = 0 := text'
      obtain ⟨turn, zf, -⟩ := strcmpTurn_same forward (zero.trans zero'.symm)
      rw [zero] at turn zf
      exact ⟨_, turn_stop turn, if_pos zf⟩
    | cons y l' =>
      obtain ⟨here, nonzero, -⟩ := text'
      obtain ⟨turn, zf, sign, -⟩ := strcmpTurn_differ (c := c) (by rw [zero, here]; exact nonzero.symm)
      refine ⟨_, turn_stop turn, ?_⟩
      rw [if_neg (by rw [zf]; decide), sign, zero, here, if_pos (UInt8.pos_iff_ne_zero.mpr nonzero)]
      rfl
  | cons x l ih =>
    obtain ⟨fuel, rfl⟩ : ∃ k, fuel = k + 1 := ⟨fuel - 1, by omega⟩
    obtain ⟨here, nonzero, rest⟩ := text
    cases l' with
    | nil =>
      have zero : c.mem c.edi = 0 := text'
      obtain ⟨turn, zf, sign, -⟩ := strcmpTurn_differ (c := c) (by rw [zero, here]; exact nonzero)
      refine ⟨_, turn_stop turn, ?_⟩
      rw [if_neg (by rw [zf]; decide), sign, zero, here, if_neg (UInt8.not_lt_zero)]
      rfl
    | cons y l' =>
      obtain ⟨there, -, rest'⟩ := text'
      rw [order_cons]
      by_cases same : x = y
      · obtain ⟨turn, -, esi, edi, mem, df, -⟩ := strcmpTurn_same forward (here.trans (same.trans there.symm))
        rw [here, decide_eq_false nonzero] at turn
        rw [← esi, ← mem] at rest
        rw [← edi, ← mem] at rest'
        obtain ⟨d, run, result⟩ := ih df rest rest' (Nat.lt_of_succ_lt_succ enough)
        exact ⟨d, (turn_go turn).trans run, by rw [result, if_pos same]⟩
      · obtain ⟨turn, zf, sign, -⟩ := strcmpTurn_differ (c := c) (by rw [here, there]; exact same)
        refine ⟨_, turn_stop turn, ?_⟩
        rw [if_neg (by rw [zf]; decide), sign, here, there, if_neg same]

theorem strcmp_eq {l' : List UInt8} (text : Text c.mem cs l) (text' : Text c.mem ct l') (enough : l.length < fuel) :
    strcmp c cs ct fuel = some (order l l') := by
  obtain ⟨d, run, result⟩ := strcmp_run (c := { c with esi := cs, edi := ct, df := false }) rfl text text' enough
  unfold strcmp
  dsimp only
  rw [run, Option.map_some, result]

theorem strncmp_run {l' : List UInt8} {n : Nat} (forward : c.df = false) (text : Text c.mem c.esi l) (text' : Text c.mem c.edi l')
    (count : c.ecx = BitVec.ofNat 32 n) (small : n < 2 ^ 31) (enough : l.length < fuel) :
    ∃ d, WhileLoop.run (fun c => some (c.counted strcmpTurn)) some fuel c = some d ∧
      (if d.ecx.msb || d.zf then 0 else carrySign d) = order (l.take n) (l'.take n) := by
  induction l generalizing c l' n fuel with
  | nil =>
    obtain ⟨fuel, rfl⟩ : ∃ k, fuel = k + 1 := ⟨fuel - 1, by omega⟩
    have zero : c.mem c.esi = 0 := text
    rcases counted_spec strcmpTurn count small with ⟨rfl, stop, beyond, -⟩ | ⟨k, rfl, turn, positive⟩
    · exact ⟨_, turn_stop stop, by rw [beyond]; rfl⟩
    cases l' with
    | nil =>
      have zero' : c.mem c.edi = 0 := text'
      obtain ⟨stop, zf, -⟩ := strcmpTurn_same (c := { c with ecx := BitVec.ofNat 32 k }) forward (zero.trans zero'.symm)
      rw [← turn] at stop zf
      refine ⟨_, turn_stop (stop.trans ?_), ?_⟩
      · simp [zero]
      · rw [zf]
        simp [zero, order]
    | cons y l' =>
      obtain ⟨here, nonzero, -⟩ := text'
      obtain ⟨stop, zf, sign, ecx⟩ := strcmpTurn_differ (c := { c with ecx := BitVec.ofNat 32 k }) (show c.mem c.esi ≠ c.mem c.edi by
        rw [zero, here]
        exact nonzero.symm)
      rw [← turn] at stop zf sign ecx
      refine ⟨_, turn_stop stop, ?_⟩
      rw [ecx, zf, positive, sign]
      show (if c.mem c.esi < c.mem c.edi then (-1 : BitVec 32) else 1) = _
      rw [zero, here, if_pos (UInt8.pos_iff_ne_zero.mpr nonzero)]
      rfl
  | cons x l ih =>
    obtain ⟨fuel, rfl⟩ : ∃ k, fuel = k + 1 := ⟨fuel - 1, by omega⟩
    obtain ⟨here, nonzero, rest⟩ := text
    rcases counted_spec strcmpTurn count small with ⟨rfl, stop, beyond, -⟩ | ⟨k, rfl, turn, positive⟩
    · exact ⟨_, turn_stop stop, by rw [beyond]; rfl⟩
    cases l' with
    | nil =>
      have zero : c.mem c.edi = 0 := text'
      obtain ⟨stop, zf, sign, ecx⟩ := strcmpTurn_differ (c := { c with ecx := BitVec.ofNat 32 k }) (show c.mem c.esi ≠ c.mem c.edi by
        rw [zero, here]
        exact nonzero)
      rw [← turn] at stop zf sign ecx
      refine ⟨_, turn_stop stop, ?_⟩
      rw [ecx, zf, positive, sign]
      show (if c.mem c.esi < c.mem c.edi then (-1 : BitVec 32) else 1) = _
      rw [zero, here, if_neg (UInt8.not_lt_zero)]
      rfl
    | cons y l' =>
      obtain ⟨there, -, rest'⟩ := text'
      rw [List.take_succ_cons, List.take_succ_cons, order_cons]
      by_cases same : x = y
      · obtain ⟨go, -, esi, edi, mem, df, ecx⟩ := strcmpTurn_same (c := { c with ecx := BitVec.ofNat 32 k }) forward
          (here.trans (same.trans there.symm))
        rw [← turn] at go esi edi mem df ecx
        rw [show ({ c with ecx := BitVec.ofNat 32 k } : Processor).mem c.esi = x from here, decide_eq_false nonzero] at go
        rw [show c.esi + 1 = _ from esi.symm, show c.mem = _ from mem.symm] at rest
        rw [show c.edi + 1 = _ from edi.symm, show c.mem = _ from mem.symm] at rest'
        obtain ⟨d, run, result⟩ := ih df rest rest' ecx (by omega) (Nat.lt_of_succ_lt_succ enough)
        exact ⟨d, (turn_go go).trans run, by rw [result, if_pos same]⟩
      · obtain ⟨stop, zf, sign, ecx⟩ := strcmpTurn_differ (c := { c with ecx := BitVec.ofNat 32 k }) (show c.mem c.esi ≠ c.mem c.edi by
          rw [here, there]
          exact same)
        rw [← turn] at stop zf sign ecx
        refine ⟨_, turn_stop stop, ?_⟩
        rw [ecx, zf, positive, sign, if_neg same]
        show (if c.mem c.esi < c.mem c.edi then (-1 : BitVec 32) else 1) = _
        rw [here, there]

theorem strncmp_eq {l' : List UInt8} {n : Nat} (text : Text c.mem cs l) (text' : Text c.mem ct l') (small : n < 2 ^ 31) (enough : l.length < fuel) :
    strncmp c cs ct (BitVec.ofNat 32 n) fuel = some (order (l.take n) (l'.take n)) := by
  obtain ⟨d, run, result⟩ := strncmp_run (c := { c with esi := cs, edi := ct, ecx := BitVec.ofNat 32 n, df := false }) rfl text text' rfl small enough
  unfold strncmp
  dsimp only
  rw [run, Option.map_some, result]

theorem comparisons_order {l' : List UInt8} {n : Nat} (text : Text c.mem cs l) (text' : Text c.mem ct l') (small : n < 2 ^ 31)
    (enough : l.length < fuel) : strcmp c cs ct fuel = some (order l l') ∧
      strncmp c cs ct (BitVec.ofNat 32 n) fuel = some (order (l.take n) (l'.take n)) :=
  ⟨strcmp_eq text text' enough, strncmp_eq text text' small enough⟩

theorem comparisons_order_ab : strcmp twoTexts 8 16 3 = some (-1) ∧ strncmp twoTexts 8 16 1 3 = some (-1) :=
  comparisons_order (n := 1) twoTexts_ab twoTexts_b (by decide) (by decide)

/-! ### Blocks -/

theorem memcmp_same {n : Nat} (bytes : Bytes c.mem cs l) (bytes' : Bytes c.mem ct l) (length : l.length = n) (positive : 0 < n) (small : n < 2 ^ 32) :
    memcmp c cs ct (BitVec.ofNat 32 n) = 0 := by
  subst length
  obtain ⟨cf, less, comparison⟩ := repe_cmpsb_same
    (c := { c with edi := cs, esi := ct, ecx := BitVec.ofNat 32 l.length, eax := 0, df := false }) rfl bytes' bytes
  have filled : l.isEmpty = false := by
    cases l with
    | nil => exact absurd positive (Nat.lt_irrefl 0)
    | cons b l => rfl
  unfold memcmp Processor.repeCmpsb
  dsimp only
  rw [count_toNat small, comparison]
  simp [filled]

/-- `memcmp` compares signed bytes. -/
theorem memcmp_differ {n : Nat} {common rest rest' : List UInt8} {x y : UInt8} (bytes : Bytes c.mem cs (common ++ x :: rest))
    (bytes' : Bytes c.mem ct (common ++ y :: rest')) (differ : x ≠ y) (room : common.length < n) (small : n < 2 ^ 32) :
    memcmp c cs ct (BitVec.ofNat 32 n) = if y.toInt8 < x.toInt8 then 1 else -1 := by
  rw [List.append_cons] at bytes bytes'
  have comparison := repe_cmpsb_different (c := { c with edi := cs, esi := ct, ecx := BitVec.ofNat 32 n, eax := 0, df := false }) (n := n) rfl
    (Bytes.append_iff.mp bytes').1 (Bytes.append_iff.mp bytes).1 differ.symm room
  unfold memcmp Processor.repeCmpsb
  dsimp only
  rw [count_toNat small, comparison]
  simp

/-- With a count of zero the result is up to the flags that `memcmp` finds. -/
theorem memcmp_none : memcmp c cs ct 0 = 0 ↔ c.zf = true := by
  show (if c.zf then (0 : BitVec 32) else if c.less then 1 else -1) = 0 ↔ c.zf = true
  split_ifs with flag less
  · exact iff_of_true rfl flag
  · exact iff_of_false (by decide) flag
  · exact iff_of_false (by decide) flag

theorem memcmp_zero_iff {n : Nat} {l' : List UInt8} (bytes : Bytes c.mem cs l) (bytes' : Bytes c.mem ct l') (length : l.length = n)
    (length' : l'.length = n) (small : n < 2 ^ 32) : memcmp c cs ct (BitVec.ofNat 32 n) = 0 ↔ l = l' ∧ (n = 0 → c.zf = true) := by
  rcases Nat.eq_zero_or_pos n with rfl | positive
  · rw [List.length_eq_zero_iff.mp length, List.length_eq_zero_iff.mp length', and_iff_right rfl]
    exact memcmp_none.trans ⟨fun flag _ => flag, fun flag => flag rfl⟩
  have some_bytes : n = 0 → c.zf = true := fun none => absurd none positive.ne'
  rw [and_iff_left some_bytes]
  by_cases same : l = l'
  · subst same
    exact iff_of_true (memcmp_same bytes bytes' length positive small) rfl
  refine iff_of_false ?_ same
  obtain ⟨common, y, rest', parts', ended | ⟨x, rest, parts, differ⟩⟩ :=
    mismatch (fun inside => same (inside.eq_of_length (length'.trans length.symm)).symm)
  · rw [parts', ← ended, List.length_append, List.length_cons] at length'
    omega
  · rw [parts] at bytes length
    rw [parts'] at bytes'
    rw [List.length_append, List.length_cons] at length
    rw [memcmp_differ bytes bytes' differ (by omega) small]
    split_ifs <;> decide

theorem order_append {common rest rest' : List UInt8} {x y : UInt8} (differ : x ≠ y) :
    order (common ++ x :: rest) (common ++ y :: rest') = if x < y then -1 else 1 := by
  induction common with
  | nil => rw [List.nil_append, List.nil_append, order_cons, if_neg differ]
  | cons z common ih => rw [List.cons_append, List.cons_append, order_cons, if_pos rfl, ih]

/-- Signed and unsigned bytes are in the same order when both or none have the top bit. -/
theorem signed_order_iff {x y : UInt8} (differ : x ≠ y) : (y.toInt8 < x.toInt8 ↔ y < x) ↔ (x < 128 ↔ y < 128) := by
  have differ' : x.toNat ≠ y.toNat := fun same => differ (UInt8.toNat_inj.mp same)
  have hx := x.toNat_lt
  have hy := y.toNat_lt
  rw [Int8.lt_iff_toInt_lt, UInt8.lt_iff_toNat_lt, UInt8.lt_iff_toNat_lt, UInt8.lt_iff_toNat_lt]
  have value (z : UInt8) : z.toInt8.toInt = if z.toNat < 128 then (z.toNat : Int) else z.toNat - 256 := by
    show z.toBitVec.toInt = _
    rw [BitVec.toInt_eq_toNat_cond]
    show (if 2 * z.toNat < 256 then (z.toNat : Int) else z.toNat - 256) = _
    split_ifs <;> omega
  rw [value, value]
  show _ ↔ (x.toNat < 128 ↔ y.toNat < 128)
  split_ifs <;> omega

/-- `memcmp` against the order of `strcmp`: they agree unless just one of the first bytes that differ is from `0x80` on. -/
theorem memcmp_unsigned_iff {n : Nat} {common rest rest' : List UInt8} {x y : UInt8} (bytes : Bytes c.mem cs (common ++ x :: rest))
    (bytes' : Bytes c.mem ct (common ++ y :: rest')) (differ : x ≠ y) (room : common.length < n) (small : n < 2 ^ 32) :
    memcmp c cs ct (BitVec.ofNat 32 n) = order (common ++ x :: rest) (common ++ y :: rest') ↔ (x < 128 ↔ y < 128) := by
  rw [memcmp_differ bytes bytes' differ room small, order_append differ, ← signed_order_iff differ]
  have turned : y < x ↔ ¬ x < y := by
    have differ' : x.toNat ≠ y.toNat := fun same => differ (UInt8.toNat_inj.mp same)
    rw [UInt8.lt_iff_toNat_lt, UInt8.lt_iff_toNat_lt]
    omega
  rw [turned]
  by_cases below : x < y
  · by_cases signed : y.toInt8 < x.toInt8
    · simp [below, signed]
    · simp [below, signed]
  · by_cases signed : y.toInt8 < x.toInt8
    · simp [below, signed]
    · simp [below, signed]

theorem memcmp_unsigned_iff_ab : memcmp twoTexts 8 16 1 = order [97] [98] ↔ ((97 : UInt8) < 128 ↔ (98 : UInt8) < 128) := by
  have bytes : Bytes twoTexts.mem 8 ([] ++ [97]) := ⟨rfl, trivial⟩
  have bytes' : Bytes twoTexts.mem 16 ([] ++ [98]) := ⟨rfl, trivial⟩
  exact memcmp_unsigned_iff (n := 1) bytes bytes' (by decide) (by decide) (by decide)

end RheeKernel.Strings
