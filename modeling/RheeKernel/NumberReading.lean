import RheeKernel.NumberText

namespace RheeKernel

namespace NumberText

/-- The value of a digit. -/
def digitValue (c : Char) : Nat :=
  if c.toNat ≤ '9'.toNat then c.toNat - '0'.toNat
  else if c.toNat ≤ 'Z'.toNat then c.toNat - 'A'.toNat + 10
  else c.toNat - 'a'.toNat + 10

def readDigits (base : Nat) (text : List Char) : Nat := text.foldl (fun n c => n * base + digitValue c) 0

def skipSign (text : List Char) : List Char := if text.head? = some '+' ∨ text.head? = some '-' then text.tail else text

/-- A number is read behind blanks, a sign and a prefix of `p` characters, up to the next blank. -/
def readBack (base p : Nat) (text : List Char) : Nat :=
  readDigits base (((skipSign (text.dropWhile (· = ' '))).drop p).takeWhile (· ≠ ' '))

/-- Whether a sign character is shown. -/
def signLength (num : Nat) (type : NumberFlags) : Nat :=
  if (type.sign ∧ asInt num < 0) ∨ type.plus ∨ type.space then 1 else 0

def prefixLength (base : Nat) (type : NumberFlags) : Nat :=
  if type.special then if base = 16 then 2 else if base = 8 then 1 else 0 else 0

/-- The number that the text is to show: with SIGN the absolute value of a negative number, and otherwise the unsigned one. -/
def shownValue (num : Nat) (type : NumberFlags) : Nat := if type.sign ∧ asInt num < 0 then (asInt num).natAbs else num

def digitCount (base m : Nat) : Nat := if m = 0 then 1 else (Nat.digits base m).length

section Reading

variable {base num m z : Nat} {small : Bool} {type : NumberFlags} {text l : List Char} {size precision : Int}

theorem signText_length : (signText num type).length = signLength num type := by
  unfold signText signLength
  by_cases negative : type.sign ∧ asInt num < 0
  · have minus : (magnitude num type).2 = true := by rw [magnitude, if_pos negative]
    rw [if_pos minus, if_pos (Or.inl negative)]
    rfl
  · have kept : ¬ (magnitude num type).2 = true := by
      rw [magnitude, if_neg negative]
      exact Bool.false_ne_true
    rw [if_neg kept]
    split
    next plus => rw [if_pos (Or.inr (Or.inl plus))]; rfl
    next plain =>
      split
      next space => rw [if_pos (Or.inr (Or.inr space))]; rfl
      next none => rw [if_neg (by simp [negative, plain, none])]; rfl

theorem specialText_length : (specialText base type).length = prefixLength base type := by
  unfold specialText prefixLength
  split
  next =>
    by_cases eight : base = 8
    · rw [if_pos eight, if_neg (by omega), if_pos eight]
      rfl
    · rw [if_neg eight, if_neg eight]
      split
      next => rfl
      next => rfl
  next => rfl

theorem digitText_count : (digitText base m small).length = digitCount base m := by
  unfold digitText digitCount
  split
  next => rfl
  next => exact List.length_map _

theorem magnitude_shown (hnum : num < 4294967296) : (magnitude num type).1 = shownValue num type := by
  unfold magnitude shownValue
  split
  next negative =>
    have below := negative.2
    unfold asInt at below ⊢
    split at below
    next => omega
    next wrapped =>
      rw [if_neg wrapped]
      dsimp only
      omega
  next => rfl

/-- A digit is no blank and no sign, and it has its value. -/
theorem digit_reads : ∀ small, ∀ d < 16, digitValue ((digits small).getD d ' ') = d ∧ (digits small).getD d ' ' ≠ ' ' ∧
    (digits small).getD d ' ' ≠ '+' ∧ (digits small).getD d ' ' ≠ '-' := by
  decide

theorem readDigits_append (c : Char) : readDigits base (l ++ [c]) = readDigits base l * base + digitValue c := by
  rw [readDigits, List.foldl_append]
  rfl

theorem readDigits_zeros : readDigits base (List.replicate z '0' ++ l) = readDigits base l := by
  have none : (List.replicate z '0').foldl (fun n c => n * base + digitValue c) 0 = 0 := by
    induction z with
    | zero => rfl
    | succ z ih => rw [List.replicate_succ, List.foldl_cons, Nat.zero_mul, Nat.zero_add]; exact ih
  rw [readDigits, List.foldl_append, none]
  rfl

theorem readDigits_reverse {ds : List Nat} (small : Bool) (h : ∀ d ∈ ds, d < 16) :
    readDigits base (ds.map fun d => (digits small).getD d ' ').reverse = Nat.ofDigits base ds := by
  induction ds with
  | nil => rfl
  | cons d ds ih =>
    have value := (digit_reads small d (h d List.mem_cons_self)).1
    rw [List.map_cons, List.reverse_cons, readDigits_append, ih fun e he => h e (List.mem_cons_of_mem d he), value, Nat.ofDigits_cons,
      Nat.mul_comm, Nat.add_comm]

/-- The digits of a number read as the number. -/
theorem readDigits_digitText (hbase : 2 ≤ base) (hbase' : base ≤ 16) : readDigits base (digitText base m small).reverse = m := by
  unfold digitText
  split
  next zero => simp [readDigits, digitValue, zero]
  next =>
    rw [readDigits_reverse small]
    · exact Nat.ofDigits_digits base m
    · intro d hd
      have := Nat.digits_lt_base (show 1 < base by omega) hd
      omega

/-- A text without blanks and signs. -/
def Plain (text : List Char) : Prop := ∀ c ∈ text, c ≠ ' ' ∧ c ≠ '+' ∧ c ≠ '-'

theorem plain_append (first : Plain text) (second : Plain l) : Plain (text ++ l) := by
  intro c hc
  rcases List.mem_append.mp hc with hc | hc
  · exact first c hc
  · exact second c hc

theorem plain_zeros : Plain (List.replicate z '0') := by
  intro c hc
  rw [List.eq_of_mem_replicate hc]
  decide

theorem plain_special : Plain (specialText base type) := by
  unfold specialText
  cases type.small
  all_goals
    intro c hc
    split at hc
    next =>
      split at hc
      next =>
        cases List.mem_singleton.mp hc
        decide
      next =>
        split at hc
        next =>
          rcases List.mem_pair.mp hc with rfl | rfl
          all_goals decide
        next => cases hc
    next => cases hc

theorem plain_digits (hbase : 2 ≤ base) (hbase' : base ≤ 16) : Plain (digitText base m small) := by
  unfold digitText
  split
  next => exact @plain_zeros 1
  next =>
    intro c hc
    obtain ⟨d, hd, rfl⟩ := List.mem_map.mp hc
    have below := Nat.digits_lt_base (show 1 < base by omega) hd
    exact (digit_reads small d (by omega)).2

theorem signText_cases : signText num type = [] ∨ signText num type = [' '] ∨ signText num type = ['+'] ∨ signText num type = ['-'] := by
  unfold signText
  split
  next => exact Or.inr (Or.inr (Or.inr rfl))
  next =>
    split
    next => exact Or.inr (Or.inr (Or.inl rfl))
    next =>
      split
      next => exact Or.inr (Or.inl rfl)
      next => exact Or.inl rfl

/-- The blanks in front and the sign are skipped. -/
theorem skipSign_dropWhile {a : Nat} (plain : Plain text) (some : text ≠ []) :
    skipSign ((List.replicate a ' ' ++ signText num type ++ text ++ l).dropWhile (· = ' ')) = text ++ l := by
  have blanks : ∀ c ∈ List.replicate a ' ', decide (c = ' ') = true := by
    intro c hc
    exact decide_eq_true (List.eq_of_mem_replicate hc)
  rw [List.append_assoc, List.append_assoc, List.dropWhile_append_of_pos blanks]
  cases text with
  | nil => exact absurd rfl some
  | cons c text =>
    obtain ⟨blank, plus, minus⟩ := plain c List.mem_cons_self
    rcases @signText_cases num type with sign | sign | sign | sign
    all_goals
      rw [sign]
      simp [skipSign, blank, plus, minus]

/-- The digits end with the blanks behind them. -/
theorem takeWhile_plain {b : Nat} (plain : Plain text) : (text ++ List.replicate b ' ').takeWhile (· ≠ ' ') = text := by
  have inside : ∀ c ∈ text, decide (c ≠ ' ') = true := by
    intro c hc
    exact decide_eq_true (plain c hc).1
  rw [List.takeWhile_append_of_pos inside]
  have stop : (List.replicate b ' ').takeWhile (· ≠ ' ') = [] := by
    cases b with
    | zero => rfl
    | succ b => rfl
  rw [stop, List.append_nil]

/-- Just one of the padding loops writes: blanks in front, zeros behind the prefix or blanks at the end. -/
theorem number_parts : ∃ a z b, RheeKernel.number num base size precision type =
    List.replicate a ' ' ++ signText num type ++ (specialText base type ++ (List.replicate z '0' ++
      (digitText base (magnitude num type).1 type.small).reverse)) ++ List.replicate b ' ' := by
  unfold RheeKernel.number padding
  cases type.left with
  | true =>
    simp only [Bool.not_true, Bool.and_false, Bool.or_true, ↓reduceIte, List.nil_append, List.append_nil, List.append_assoc]
    exact ⟨0, _, _, rfl⟩
  | false =>
    cases type.zeropad with
    | true =>
      simp only [Bool.not_false, Bool.and_true, Bool.or_false, Bool.false_eq_true, ↓reduceIte, List.nil_append, List.append_assoc,
        drained_toNat]
      have zeros {x y : Nat} {l : List Char} : List.replicate x '0' ++ (List.replicate y '0' ++ l) = List.replicate (x + y) '0' ++ l := by
        rw [← List.append_assoc, List.replicate_append_replicate]
      rw [zeros]
      exact ⟨0, _, 0, rfl⟩
    | false =>
      simp only [Bool.and_true, Bool.not_false, Bool.or_false, Bool.false_eq_true, ↓reduceIte, List.append_assoc, drained_toNat,
        List.replicate_zero, List.nil_append]
      exact ⟨_, _, 0, rfl⟩

/-- What is read back is the number that has been taken apart. -/
theorem readBack_number (hbase : 2 ≤ base) (hbase' : base ≤ 16) (hnum : num < 4294967296) :
    readBack base (prefixLength base type) (RheeKernel.number num base size precision type) = (magnitude num type).1 := by
  obtain ⟨a, z, b, parts⟩ := @number_parts base num type size precision
  have digits : Plain (digitText base (magnitude num type).1 type.small).reverse := by
    intro c hc
    exact plain_digits hbase hbase' c (List.mem_reverse.mp hc)
  have behind := plain_append (@plain_zeros z) digits
  have some : specialText base type ++ (List.replicate z '0' ++ (digitText base (magnitude num type).1 type.small).reverse) ≠ [] := by
    have digit := (@digitText_length base type.small _ hbase (@magnitude_lt type num hnum)).1
    intro none
    have empty := congrArg List.length none
    simp only [List.length_append, List.length_reverse, List.length_nil] at empty
    omega
  rw [parts, readBack, skipSign_dropWhile (plain_append plain_special behind) some, List.append_assoc, ← specialText_length,
    List.drop_left, takeWhile_plain behind, readDigits_zeros, readDigits_digitText hbase hbase']

/-- Number formatting is exact: a result means that every access was inside of `tmp`, the text has its length, and it reads back as the number. -/
theorem number_exact {fuel : Nat} (hnum : num < 4294967296) (hbase : base = 8 ∨ base = 10 ∨ base = 16)
    (hsize : -1 ≤ size ∧ size ≤ 1073741824) (hprecision : -1 ≤ precision ∧ precision ≤ 1073741824) (enough : 1073741824 < fuel) :
    ∃ text, number fuel num base size precision type = some text ∧
      (text.length : Int) =
        max size (signLength num type + prefixLength base type + max precision (digitCount base (shownValue num type))) ∧
      readBack base (prefixLength base type) text = shownValue num type := by
  have two : 2 ≤ base := by omega
  have sixteen : base ≤ 16 := by omega
  refine ⟨_, number_eq two (by omega) hnum hsize hprecision.2 enough, ?_, ?_⟩
  · rw [number_length, signText_length, specialText_length, digitText_count, magnitude_shown hnum]
    omega
  · rw [readBack_number two sixteen hnum, magnitude_shown hnum]

/-- The most negative number, with its sign. -/
theorem number_exact_minimum : ∃ text, number 1073741825 2147483648 10 (-1) (-1) { noFlags with sign := true } = some text ∧
    (text.length : Int) = max (-1) (signLength 2147483648 { noFlags with sign := true } +
      prefixLength 10 { noFlags with sign := true } +
      max (-1) (digitCount 10 (shownValue 2147483648 { noFlags with sign := true }) : Int)) ∧
    readBack 10 (prefixLength 10 { noFlags with sign := true }) text = shownValue 2147483648 { noFlags with sign := true } := by
  apply number_exact
  · decide
  · decide
  · decide
  · decide
  · decide

end Reading

end NumberText

end RheeKernel
