import Mathlib.Data.List.GetD
import Mathlib.Data.Nat.Digits.Lemmas
import RheeKernel.Printk
import RheeKernel.WhileLoop

namespace RheeKernel

namespace NumberText

/-- A result of the arithmetic on an `int`. -/
def int (x : Int) : Int := x.bmod 4294967296

/-- The variables of `number`; `str` has what is stored through the pointer of this name, and `num` is the register that `divl` takes. -/
structure Vars where
  str : List Char
  tmp : Nat → Char
  num : Nat
  i : Int
  size : Int
  precision : Int

/-- `*str++ = c` -/
def put (c : Char) (v : Vars) : Vars := { v with str := v.str ++ [c] }

/-- `tmp[i++] = c`; there is no result outside of the 36 bytes. -/
def store (c : Char) (v : Vars) : Option Vars :=
  if 0 ≤ v.i ∧ v.i < 36 then some { v with tmp := Function.update v.tmp v.i.toNat c, i := int (v.i + 1) } else none

/-- `tmp[i]` -/
def load (v : Vars) : Option Char := if 0 ≤ v.i ∧ v.i < 36 then some (v.tmp v.i.toNat) else none

/-- `digits[do_div(num,base)]`, with the quotient in `num`. -/
def divide (base : Nat) (small : Bool) (v : Vars) : Option (Char × Vars) :=
  (digits small)[v.num % base]?.map fun c => (c, { v with num := v.num / base })

/-- The digits go to `tmp`, the last one first. -/
def convert (fuel base : Nat) (small : Bool) (v : Vars) : Option Vars :=
  if v.num = 0 then store '0' v
  else WhileLoop.run (fun v => some (v.num ≠ 0, v)) (fun v => (divide base small v).bind fun (c, v) => store c v) fuel v

/-- `while(size-->0) *str++ = c;` -/
def pad (fuel : Nat) (c : Char) (v : Vars) : Option Vars :=
  WhileLoop.run (fun v => some (0 < v.size, { v with size := int (v.size - 1) })) (fun v => some (put c v)) fuel v

/-- Such a loop under an `if` that does not let it run for some flags. -/
def padUnless (skip : Bool) (fuel : Nat) (c : Char) (v : Vars) : Option Vars := if skip then some v else pad fuel c v

/-- `while(i<precision--) *str++ = '0';` -/
def putZeros (fuel : Nat) (v : Vars) : Option Vars :=
  WhileLoop.run (fun v => some (v.i < v.precision, { v with precision := int (v.precision - 1) })) (fun v => some (put '0' v)) fuel v

/-- `while(i-->0) *str++ = tmp[i];` -/
def putDigits (fuel : Nat) (v : Vars) : Option Vars :=
  WhileLoop.run (fun v => some (0 < v.i, { v with i := int (v.i - 1) })) (fun v => (load v).map fun c => put c v) fuel v

/-- The sign character, if one is shown, with the number that is left to print. -/
def signOf (num : Nat) (type : NumberFlags) : Option Char × Nat :=
  if type.sign ∧ asInt num < 0 then (some '-', (4294967296 - num) % 4294967296)
  else (if type.plus then some '+' else if type.space then some ' ' else none, num)

/-- What is left of the width when the sign and the prefix have their places. -/
def reserve (size : Int) (base : Nat) (sign : Option Char) (type : NumberFlags) : Int :=
  let size := if sign.isSome then int (size - 1) else size
  if type.special then
    if base = 16 then int (size - 2) else if base = 8 then int (size - 1) else size
  else size

/-- The sign and the prefix. -/
def putHead (base : Nat) (sign : Option Char) (type : NumberFlags) (v : Vars) : Option Vars :=
  let v := match sign with
    | some c => put c v
    | none => v
  if type.special then
    if base = 8 then some (put '0' v)
    else if base = 16 then (digits type.small)[33]?.map fun x => put x (put '0' v)
    else some v
  else some v

/-- From the first padding on. -/
def emit (fuel base : Nat) (sign : Option Char) (type : NumberFlags) (c : Char) (v : Vars) : Option (List Char) := do
  let v ← padUnless (type.zeropad || type.left) fuel ' ' v
  let v ← putHead base sign type v
  let v ← padUnless type.left fuel c v
  let v ← putZeros fuel v
  let v ← putDigits fuel v
  let v ← pad fuel ' ' v
  return v.str

/-- With the digits in `tmp` the precision is at least their number, and the width loses it. -/
def settle (v : Vars) : Vars :=
  let v := if v.i > v.precision then { v with precision := v.i } else v
  { v with size := int (v.size - v.precision) }

/-- `number`. A null pointer is returned for a base that it does not know; here this is no result, as is a loop that takes more than `fuel`
tests or an access outside of `tmp`. -/
def number (fuel num base : Nat) (size precision : Int) (type : NumberFlags) : Option (List Char) :=
  let type := if type.left then { type with zeropad := false } else type
  if base < 2 ∨ 36 < base then none
  else
    let c := if type.zeropad then '0' else ' '
    let sign := (signOf num type).1
    let num := (signOf num type).2
    let size := reserve size base sign type
    (convert fuel base type.small ⟨[], fun _ => ' ', num, 0, size, precision⟩).bind fun v =>
      emit fuel base sign type c (settle v)

section Loops

variable {fuel base n : Nat} {c : Char} {small : Bool} {v : Vars} {text : List Char}

theorem int_eq {x : Int} (low : -2147483648 ≤ x) (high : x ≤ 2147483647) : int x = x := by
  unfold int
  rw [Int.bmod_eq_of_le] <;> omega

/-- The variables behind `k` turns of a padding loop. -/
def padded (c : Char) (v : Vars) (k : Nat) : Vars := { v with str := v.str ++ List.replicate k c, size := v.size - k }

theorem pad_eq (low : -2147483648 < v.size) (high : v.size ≤ 2147483647) (enough : v.size.toNat < fuel) :
    pad fuel c v = some { v with str := v.str ++ padding v.size c, size := drained v.size } := by
  have begins : v = padded c v 0 := by simp [padded]
  refine (congrArg (WhileLoop.run _ _ fuel) begins).trans ?_
  apply WhileLoop.run_states (f := padded c v) (n := v.size.toNat)
  · intro k hk
    have go : 0 < v.size - k := by omega
    refine ⟨{ padded c v k with size := v.size - (k + 1 : Nat) }, ?_, ?_⟩
    · simp only [padded, go, decide_true]
      rw [int_eq (by omega) (by omega)]
      congr 3
      omega
    · simp only [padded, put, List.append_assoc, List.replicate_succ']
  · have done : ¬ 0 < v.size - v.size.toNat := by omega
    simp only [padded, done, decide_false, padding]
    rw [int_eq (by omega) (by omega)]
    have rest : v.size - v.size.toNat - 1 = drained v.size := by
      unfold drained
      omega
    rw [rest]
  · exact enough

/-- The variables behind `k` turns of the loop over the missing digits. -/
def filled (v : Vars) (k : Nat) : Vars := { v with str := v.str ++ List.replicate k '0', precision := v.precision - k }

theorem putZeros_eq (low : 0 ≤ v.i) (room : v.i ≤ v.precision) (high : v.precision ≤ 2147483647)
    (enough : v.precision.toNat < fuel) :
    putZeros fuel v = some { v with str := v.str ++ padding (v.precision - v.i) '0', precision := v.i - 1 } := by
  have begins : v = filled v 0 := by simp [filled]
  refine (congrArg (WhileLoop.run _ _ fuel) begins).trans ?_
  apply WhileLoop.run_states (f := filled v) (n := (v.precision - v.i).toNat)
  · intro k hk
    have go : v.i < v.precision - k := by omega
    refine ⟨{ filled v k with precision := v.precision - (k + 1 : Nat) }, ?_, ?_⟩
    · simp only [filled, go, decide_true]
      rw [int_eq (by omega) (by omega)]
      congr 3
      omega
    · simp only [filled, put, List.append_assoc, List.replicate_succ']
  · have done : ¬ v.i < v.precision - (v.precision - v.i).toNat := by omega
    simp only [filled, done, decide_false, padding]
    rw [int_eq (by omega) (by omega)]
    congr 3
    omega
  · omega

/-- `tmp` holds these characters. -/
def Tmp (v : Vars) (text : List Char) : Prop := v.i = text.length ∧ text.length ≤ 36 ∧ ∀ (j : Nat) (h : j < text.length), v.tmp j = text[j]

/-- The variables behind `k` turns of the loop that writes the digits. -/
def written (text : List Char) (v : Vars) (k : Nat) : Vars := { v with str := v.str ++ text.reverse.take k, i := text.length - k }

theorem putDigits_eq (tmp : Tmp v text) (enough : text.length < fuel) :
    putDigits fuel v = some { v with str := v.str ++ text.reverse, i := -1 } := by
  obtain ⟨count, short, chars⟩ := tmp
  have begins : v = written text v 0 := by simp [written, ← count]
  have whole : text.reverse.take text.length = text.reverse := List.take_of_length_le (Nat.le_of_eq List.length_reverse)
  refine (congrArg (WhileLoop.run _ _ fuel) begins).trans ?_
  apply WhileLoop.run_states (f := written text v) (n := text.length)
  · intro k hk
    have go : 0 < (text.length : Int) - k := by omega
    refine ⟨{ written text v k with i := text.length - (k + 1 : Nat) }, ?_, ?_⟩
    · simp only [written, go, decide_true]
      rw [int_eq (by omega) (by omega)]
      congr 3
      omega
    · have place : ((text.length : Int) - (k + 1 : Nat)).toNat = text.length - 1 - k := by omega
      have inside : 0 ≤ (text.length : Int) - (k + 1 : Nat) ∧ (text.length : Int) - (k + 1 : Nat) < 36 := by omega
      have next : text.reverse.take (k + 1) = text.reverse.take k ++ [text[text.length - 1 - k]] := by
        rw [List.take_succ_eq_append_getElem (by rw [List.length_reverse]; exact hk), List.getElem_reverse]
      rw [load, if_pos inside]
      simp only [written, put, place, Option.map_some, next, chars _ (show text.length - 1 - k < text.length by omega),
        List.append_assoc]
  · have done : ¬ 0 < (text.length : Int) - text.length := by omega
    simp only [written, done, decide_false, whole]
    rw [int_eq (by omega) (by omega)]
    congr 3
    omega
  · exact enough

theorem digits_length : (digits small).length = 36 := by
  cases small
  all_goals rfl

/-- The number of digits, at most those of a word in base two. -/
theorem digitText_length {num : Nat} (hbase : 2 ≤ base) (hnum : num < 4294967296) :
    0 < (digitText base num small).length ∧ (digitText base num small).length ≤ 32 := by
  unfold digitText
  split
  next => exact ⟨Nat.one_pos, by decide⟩
  next positive =>
    have some := List.length_pos_of_ne_nil (Nat.digits_ne_nil_iff_ne_zero (b := base).mpr positive)
    have large : num < base ^ 32 := hnum.trans_le (Nat.pow_le_pow_left hbase 32)
    have few := (Nat.digits_length_le_iff (show 1 < base by omega) num).mpr large
    rw [List.length_map]
    exact ⟨some, few⟩

/-- A digit of the text is that of the remainder. -/
theorem digitText_getElem? {num k : Nat} (hbase : 2 ≤ base) (hbase' : base ≤ 36) (hnum : num ≠ 0)
    (hk : k < (Nat.digits base num).length) :
    (digits small)[num / base ^ k % base]? = some ((digitText base num small).getD k ' ') := by
  have inside : num / base ^ k % base < (digits small).length := by
    have := Nat.mod_lt (num / base ^ k) (show 0 < base by omega)
    rw [digits_length]
    omega
  have digit := Nat.getD_digits num k hbase
  rw [List.getD_eq_getElem _ _ hk] at digit
  rw [digitText, if_neg hnum, List.getD_eq_getElem _ _ (by rwa [List.length_map]), List.getElem_map, digit,
    List.getD_eq_getElem _ _ inside, List.getElem?_eq_getElem inside]

/-- The variables behind `k` divisions. -/
def divided (base : Nat) (text : List Char) (v : Vars) (k : Nat) : Vars :=
  { v with num := v.num / base ^ k, i := k, tmp := fun j => if j < k then text.getD j ' ' else v.tmp j }

theorem convert_eq (hbase : 2 ≤ base) (hbase' : base ≤ 36) (hnum : v.num < 4294967296) (start : v.i = 0) (enough : 36 < fuel) :
    ∃ v', convert fuel base small v = some v' ∧ Tmp v' (digitText base v.num small) ∧ v'.str = v.str ∧ v'.size = v.size ∧
      v'.precision = v.precision := by
  obtain ⟨-, short⟩ := @digitText_length base small v.num hbase hnum
  by_cases zero : v.num = 0
  · refine ⟨{ v with tmp := Function.update v.tmp 0 '0', i := 1 }, ?_, ?_, rfl, rfl, rfl⟩
    · rw [convert, if_pos zero, store, start, if_pos (by omega)]
      rfl
    · rw [digitText, if_pos zero]
      refine ⟨rfl, by decide, ?_⟩
      intro j hj
      have first : j = 0 := Nat.lt_one_iff.mp hj
      subst first
      exact Function.update_self 0 '0' v.tmp
  · have length : (digitText base v.num small).length = (Nat.digits base v.num).length := by
      rw [digitText, if_neg zero, List.length_map]
    refine ⟨divided base (digitText base v.num small) v (Nat.digits base v.num).length, ?_, ?_, rfl, rfl, rfl⟩
    · have begins : v = divided base (digitText base v.num small) v 0 := by simp [divided, ← start]
      rw [convert, if_neg zero]
      refine (congrArg (WhileLoop.run _ _ fuel) begins).trans ?_
      apply WhileLoop.run_states (f := divided base (digitText base v.num small) v)
      · intro k hk
        have positive : v.num / base ^ k ≠ 0 := by
          have large := (Nat.lt_digits_length_iff (show 1 < base by omega) v.num).mp hk
          have := Nat.div_pos large (Nat.pow_pos (show 0 < base by omega))
          omega
        have digit := @digitText_getElem? base small v.num k hbase hbase' zero hk
        refine ⟨divided base (digitText base v.num small) v k, ?_, ?_⟩
        · simp only [divided, positive, ne_eq, not_false_eq_true, decide_true]
        · simp only [divide, divided, digit, Option.map_some, Option.bind_some, store]
          rw [if_pos (by omega), int_eq (by omega) (by omega), Nat.div_div_eq_div_mul, ← pow_succ]
          have stored : Function.update (fun j => if j < k then (digitText base v.num small).getD j ' ' else v.tmp j)
              (k : Int).toNat ((digitText base v.num small).getD k ' ') =
              fun j => if j < k + 1 then (digitText base v.num small).getD j ' ' else v.tmp j := by
            funext j
            rw [Int.toNat_natCast, Function.update_apply]
            by_cases same : j = k
            · rw [if_pos same, if_pos (by omega), same]
            · rw [if_neg same]
              by_cases before : j < k
              · rw [if_pos before, if_pos (by omega)]
              · rw [if_neg before, if_neg (by omega)]
          rw [stored]
          rfl
      · have done : v.num / base ^ (Nat.digits base v.num).length = 0 :=
          Nat.div_eq_of_lt (Nat.lt_base_pow_length_digits (show 1 < base by omega))
        simp [divided, done]
      · omega
    · refine ⟨by rw [length]; rfl, by omega, ?_⟩
      intro j hj
      have below : j < (Nat.digits base v.num).length := by omega
      simp only [divided, below, if_true]
      exact List.getD_eq_getElem _ _ hj

variable {type : NumberFlags} {sign : Option Char}

theorem padUnless_eq {skip : Bool} (tmp : Tmp v text) (low : -2147483648 < v.size) (high : v.size ≤ 2147483647)
    (enough : v.size.toNat < fuel) :
    ∃ v', padUnless skip fuel c v = some v' ∧ Tmp v' text ∧ v'.precision = v.precision ∧
      v'.str = v.str ++ (if skip then [] else padding v.size c) ∧ v'.size = if skip then v.size else drained v.size := by
  cases skip with
  | true => exact ⟨v, rfl, tmp, rfl, (List.append_nil _).symm, rfl⟩
  | false => exact ⟨_, pad_eq low high enough, tmp, rfl, rfl, rfl⟩

theorem putHead_eq : putHead base sign type v = some { v with str := v.str ++ sign.toList ++ specialText base type } := by
  have x : (digits type.small)[33]? = some ((digits type.small).getD 33 ' ') := by
    cases type.small
    all_goals rfl
  have signed : (match sign with
      | some c => put c v
      | none => v) = { v with str := v.str ++ sign.toList } := by
    cases sign with
    | none => simp
    | some c => rfl
  unfold putHead specialText
  rw [signed, x]
  split
  next =>
    split
    next => rfl
    next =>
      split
      next => simp [put]
      next => simp
  next => simp

/-- A padding loop takes at most one off the lower bound of the running `size`. -/
theorem padUnless_size {skip : Bool} {low x : Int} (hlow : low ≤ x) (hneg : low ≤ 0) (high : x ≤ 1073741824) :
    low - 1 ≤ (if skip then x else drained x) ∧ (if skip then x else drained x) ≤ 1073741824 := by
  unfold drained
  split <;> omega

/-- What is written from the first padding on. -/
theorem emit_eq (tmp : Tmp v text) (low : -2147483640 ≤ v.size) (high : v.size ≤ 1073741824) (room : v.i ≤ v.precision)
    (precision : v.precision ≤ 1073741824) (enough : 1073741824 < fuel) :
    emit fuel base sign type c v =
      let size₂ := if type.zeropad || type.left then v.size else drained v.size
      let size₃ := if type.left then size₂ else drained size₂
      some (v.str ++ (if type.zeropad || type.left then [] else padding v.size ' ') ++ sign.toList ++ specialText base type ++
        (if type.left then [] else padding size₂ c) ++ padding (v.precision - text.length) '0' ++ text.reverse ++ padding size₃ ' ') := by
  have count := tmp.1
  have short := tmp.2.1
  obtain ⟨v₁, run₁, tmp₁, precision₁, str₁, size₁⟩ := @padUnless_eq fuel ' ' v text (type.zeropad || type.left) tmp (by omega) (by omega)
    (by omega)
  obtain ⟨low₁, high₁⟩ := @padUnless_size (type.zeropad || type.left) _ _ low (by omega) high
  rw [← size₁] at low₁ high₁
  obtain ⟨v₂, run₂, tmp₂, precision₂, str₂, size₂⟩ : ∃ v₂, putHead base sign type v₁ = some v₂ ∧ Tmp v₂ text ∧
      v₂.precision = v₁.precision ∧ v₂.str = v₁.str ++ sign.toList ++ specialText base type ∧ v₂.size = v₁.size :=
    ⟨_, putHead_eq, tmp₁, rfl, rfl, rfl⟩
  obtain ⟨v₃, run₃, tmp₃, precision₃, str₃, size₃⟩ := @padUnless_eq fuel c v₂ text type.left tmp₂ (by omega) (by omega) (by omega)
  obtain ⟨low₃, high₃⟩ := @padUnless_size type.left _ _ low₁ (by omega) high₁
  rw [← size₂, ← size₃] at low₃ high₃
  have count₃ := tmp₃.1
  obtain ⟨v₄, run₄, tmp₄, str₄, size₄⟩ : ∃ v₄, putZeros fuel v₃ = some v₄ ∧ Tmp v₄ text ∧
      v₄.str = v₃.str ++ padding (v₃.precision - v₃.i) '0' ∧ v₄.size = v₃.size :=
    ⟨_, putZeros_eq (by omega) (by omega) (by omega) (by omega), tmp₃, rfl, rfl⟩
  obtain ⟨v₅, run₅, str₅, size₅⟩ : ∃ v₅, putDigits fuel v₄ = some v₅ ∧ v₅.str = v₄.str ++ text.reverse ∧ v₅.size = v₄.size :=
    ⟨_, putDigits_eq tmp₄ (by omega), rfl, rfl⟩
  obtain ⟨v₆, run₆, str₆⟩ : ∃ v₆, pad fuel ' ' v₅ = some v₆ ∧ v₆.str = v₅.str ++ padding v₅.size ' ' :=
    ⟨_, pad_eq (by omega) (by omega) (by omega), rfl⟩
  have ran : emit fuel base sign type c v = some v₆.str := by
    unfold emit
    simp only [Option.bind_eq_bind, run₁, run₂, run₃, run₄, run₅, run₆, Option.bind_some]
    rfl
  rw [ran, str₆, str₅, str₄, str₃, str₂, str₁, size₅, size₄, size₃, size₂, size₁, precision₃, precision₂, precision₁, count₃]

/-- The sign that `number` shows and the number that it takes apart. -/
theorem signOf_eq {num : Nat} : (signOf num type).1.toList = signText num type ∧ (signOf num type).2 = (magnitude num type).1 := by
  unfold signOf signText magnitude
  by_cases negative : type.sign ∧ asInt num < 0
  · rw [if_pos negative, if_pos negative]
    exact ⟨rfl, rfl⟩
  · rw [if_neg negative, if_neg negative]
    refine ⟨?_, rfl⟩
    dsimp only
    rw [if_neg Bool.false_ne_true]
    split
    next => rfl
    next => split <;> rfl

theorem reserve_eq {size : Int} (low : -1 ≤ size) (high : size ≤ 1073741824) :
    reserve size base sign type = size - sign.toList.length - (specialText base type).length ∧
      -4 ≤ reserve size base sign type ∧ reserve size base sign type ≤ 1073741824 := by
  obtain ⟨rest, taken, signed, bounds⟩ : ∃ rest, (if sign.isSome then int (size - 1) else size) = rest ∧
      rest = size - sign.toList.length ∧ -2 ≤ rest ∧ rest ≤ 1073741824 := by
    cases sign with
    | none => exact ⟨size, rfl, (Int.sub_zero size).symm, by omega, high⟩
    | some c => exact ⟨size - 1, int_eq (by omega) (by omega), rfl, by omega, by omega⟩
  unfold reserve specialText
  rw [taken]
  dsimp only
  split
  next =>
    by_cases eight : base = 8
    · rw [if_neg (by omega), if_pos eight, if_pos eight, int_eq (by omega) (by omega), signed]
      refine ⟨rfl, ?_, ?_⟩ <;> omega
    · rw [if_neg eight, if_neg eight]
      split
      next =>
        rw [int_eq (by omega) (by omega), signed]
        refine ⟨rfl, ?_, ?_⟩ <;> omega
      next =>
        rw [signed]
        refine ⟨(Int.sub_zero _).symm, ?_, ?_⟩ <;> omega
  next =>
    rw [signed]
    refine ⟨(Int.sub_zero _).symm, ?_, ?_⟩ <;> omega

variable {num : Nat} {size precision : Int}

theorem magnitude_lt (h : num < 4294967296) : (magnitude num type).1 < 4294967296 := by
  unfold magnitude
  split
  next => exact Nat.mod_lt _ (by omega)
  next => exact h

theorem settle_eq (tmp : Tmp v text) (low : -4 ≤ v.size) (high : v.size ≤ 1073741824) (hprecision : v.precision ≤ 1073741824) :
    ∃ v', settle v = v' ∧ Tmp v' text ∧ v'.str = v.str ∧
      v'.precision = (if text.length > v.precision then (text.length : Int) else v.precision) ∧
      v'.size = v.size - v'.precision := by
  have count := tmp.1
  have short := tmp.2.1
  unfold settle
  rw [← count]
  split
  next more =>
    have fits : int (v.size - v.i) = v.size - v.i := int_eq (by omega) (by omega)
    exact ⟨_, rfl, tmp, rfl, rfl, fits⟩
  next less =>
    have fits : int (v.size - v.precision) = v.size - v.precision := int_eq (by omega) (by omega)
    exact ⟨_, rfl, tmp, rfl, rfl, fits⟩

/-- What comes behind the conversion, for flags of which ZEROPAD has been cleared where they have LEFT. -/
theorem emit_settle (tmp : Tmp v (digitText base (magnitude num type).1 type.small)) (empty : v.str = [])
    (rest : v.size = reserve size base (signOf num type).1 type) (kept : v.precision = precision)
    (hsize : -1 ≤ size ∧ size ≤ 1073741824) (hprecision : precision ≤ 1073741824) (enough : 1073741824 < fuel)
    (cleared : (type.zeropad && !type.left) = type.zeropad) :
    emit fuel base (signOf num type).1 type (if type.zeropad then '0' else ' ') (settle v) =
      some (RheeKernel.number num base size precision type) := by
  obtain ⟨reserved, low, high⟩ := @reserve_eq base type (signOf num type).1 size hsize.1 hsize.2
  rw [← rest] at low high
  have short := tmp.2.1
  obtain ⟨v', settled, tmp', str, most, less⟩ := settle_eq tmp low high (by omega)
  have count := tmp'.1
  have range : 0 ≤ v'.precision ∧ v'.precision ≤ 1073741824 ∧ v'.i ≤ v'.precision := by
    rw [most, count]
    split <;> omega
  rw [settled, emit_eq tmp' (by omega) (by omega) range.2.2 range.2.1 enough]
  dsimp only
  rw [RheeKernel.number, cleared, less, rest, reserved, (@signOf_eq type num).1, str, empty, most, kept]
  rfl

theorem number_cleared (h : type.left = true) :
    RheeKernel.number num base size precision { type with zeropad := false } = RheeKernel.number num base size precision type := by
  unfold RheeKernel.number
  simp only [h, Bool.not_true, Bool.and_false]
  rfl

/-- The loops of `number` write its text, and no access is outside of `tmp`. -/
theorem number_eq (hbase : 2 ≤ base) (hbase' : base ≤ 36) (hnum : num < 4294967296)
    (hsize : -1 ≤ size ∧ size ≤ 1073741824) (hprecision : precision ≤ 1073741824) (enough : 1073741824 < fuel) :
    number fuel num base size precision type = some (RheeKernel.number num base size precision type) := by
  have body {t : NumberFlags} (cleared : (t.zeropad && !t.left) = t.zeropad) :
      ((convert fuel base t.small ⟨[], fun _ => ' ', (signOf num t).2, 0, reserve size base (signOf num t).1 t, precision⟩).bind
        fun v => emit fuel base (signOf num t).1 t (if t.zeropad then '0' else ' ') (settle v)) =
        some (RheeKernel.number num base size precision t) := by
    have taken := (@signOf_eq t num).2
    have smaller := @magnitude_lt t num hnum
    obtain ⟨v, run, tmp, str, rest, kept⟩ := @convert_eq fuel base t.small
      ⟨[], fun _ => ' ', (signOf num t).2, 0, reserve size base (signOf num t).1 t, precision⟩ hbase hbase' (by rwa [taken]) rfl (by omega)
    rw [taken] at tmp
    rw [run, Option.bind_some]
    exact emit_settle tmp str rest kept hsize hprecision enough cleared
  have known : ¬ (base < 2 ∨ 36 < base) := by omega
  rw [number, if_neg known]
  by_cases left : type.left = true
  · rw [if_pos left, ← number_cleared left]
    exact body (t := { type with zeropad := false }) rfl
  · rw [if_neg left]
    apply body
    rw [Bool.eq_false_iff.mpr left, Bool.not_false, Bool.and_true]

end Loops

end NumberText

end RheeKernel
