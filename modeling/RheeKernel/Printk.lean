import Mathlib.Data.Nat.Digits.Defs
import RheeKernel.ByteMemory

open ByteMemory

namespace RheeKernel

/-- The flags of `number`. -/
structure NumberFlags where
  zeropad : Bool
  sign : Bool
  plus : Bool
  space : Bool
  left : Bool
  special : Bool
  small : Bool
deriving DecidableEq

def noFlags : NumberFlags := ⟨false, false, false, false, false, false, false⟩

/-- An argument taken as an `int`. -/
def asInt (w : Nat) : Int := if w < 2 ^ 31 then w else (w : Int) - 2 ^ 32

def digits (small : Bool) : List Char :=
  if small then "0123456789abcdefghijklmnopqrstuvwxyz".toList else "0123456789ABCDEFGHIJKLMNOPQRSTUVWXYZ".toList

/-- The characters of a loop `while(size-->0)`. -/
def padding (size : Int) (c : Char) : List Char := List.replicate size.toNat c

/-- What such a loop leaves in `size`. -/
def drained (size : Int) : Int := min size 0 - 1

/-- The number that is printed behind the sign, and whether the sign is a minus. -/
def magnitude (num : Nat) (type : NumberFlags) : Nat × Bool :=
  if type.sign ∧ asInt num < 0 then ((2 ^ 32 - num) % 2 ^ 32, true) else (num, false)

def signText (num : Nat) (type : NumberFlags) : List Char :=
  if (magnitude num type).2 then ['-'] else if type.plus then ['+'] else if type.space then [' '] else []

def specialText (base : Nat) (type : NumberFlags) : List Char :=
  if type.special then
    if base = 8 then ['0'] else if base = 16 then ['0', (digits type.small).getD 33 ' '] else []
  else []

/-- The digits as `tmp` has them, the last one first. -/
def digitText (base num : Nat) (small : Bool) : List Char :=
  if num = 0 then ['0'] else (Nat.digits base num).map fun d => (digits small).getD d ' '

/-- What `number` appends. Its callers have the bases 8, 10 and 16. -/
def number (num base : Nat) (size precision : Int) (type : NumberFlags) : List Char :=
  let zeropad := type.zeropad && !type.left
  let c := if zeropad then '0' else ' '
  let tmp := digitText base (magnitude num type).1 type.small
  let precision := if tmp.length > precision then (tmp.length : Int) else precision
  let size₁ := size - (signText num type).length - (specialText base type).length - precision
  let size₂ := if zeropad || type.left then size₁ else drained size₁
  let size₃ := if type.left then size₂ else drained size₂
  (if zeropad || type.left then [] else padding size₁ ' ') ++ signText num type ++ specialText base type ++
    (if type.left then [] else padding size₂ c) ++ padding (precision - tmp.length) '0' ++ tmp.reverse ++ padding size₃ ' '

theorem drained_toNat {size : Int} : (drained size).toNat = 0 := by
  unfold drained
  omega

theorem padding_length {size : Int} {c : Char} : (padding size c).length = size.toNat :=
  List.length_replicate

/-- The length of a number: the width, or what its sign, its prefix and its digits need. -/
theorem number_length {num base : Nat} {size precision : Int} {type : NumberFlags} :
    (number num base size precision type).length =
      max size.toNat ((signText num type).length + (specialText base type).length +
        max precision.toNat (digitText base (magnitude num type).1 type.small).length) := by
  unfold number
  -- Just one of the three loops pads the number.
  cases type.left with
  | true =>
    simp only [Bool.not_true, Bool.and_false, Bool.or_true, ↓reduceIte, List.length_append, List.length_nil, padding_length,
      List.length_reverse]
    split <;> omega
  | false =>
    cases type.zeropad with
    | true =>
      simp only [Bool.not_false, Bool.and_true, Bool.or_false, Bool.false_eq_true, ↓reduceIte, List.length_append, List.length_nil,
        padding_length, List.length_reverse, drained_toNat]
      split <;> omega
    | false =>
      simp only [Bool.and_true, Bool.not_false, Bool.or_false, Bool.false_eq_true, ↓reduceIte, List.length_append, padding_length,
        List.length_reverse, drained_toNat]
      split <;> omega

/-- The buffer at address `buf`, with `len` characters stored by now, in the memory of the kernel. -/
structure PrintBuf where
  buf : Nat
  mem : Nat → UInt8
  len : Nat

namespace PrintBuf

def put (o : PrintBuf) (b : UInt8) : PrintBuf := { o with mem := Function.update o.mem (o.buf + o.len) b, len := o.len + 1 }

def puts (o : PrintBuf) (text : List Char) : PrintBuf := text.foldl (fun o c => o.put (UInt8.ofNat c.toNat)) o

/-- The bytes of a string go to the buffer one by one, also where the string is in the buffer itself. -/
def copy (o : PrintBuf) : Nat → Nat → PrintBuf
  | 0, _ => o
  | n + 1, s => (o.put (o.mem s)).copy n (s + 1)

theorem puts_len {text : List Char} {o : PrintBuf} : (o.puts text).len = o.len + text.length := by
  induction text generalizing o with
  | nil => rfl
  | cons c text ih =>
    rw [puts, List.foldl_cons, ← puts, ih, List.length_cons]
    change o.len + 1 + text.length = _
    omega

theorem copy_len {n s : Nat} {o : PrintBuf} : (o.copy n s).len = o.len + n := by
  induction n generalizing s o with
  | zero => rfl
  | succ n ih =>
    rw [copy, ih]
    change o.len + 1 + n = _
    omega

/-- Text goes to the next bytes of the buffer only. -/
theorem puts_other {text : List Char} {o : PrintBuf} {x : Nat} (h : x < o.buf + o.len ∨ o.buf + o.len + text.length ≤ x) :
    (o.puts text).mem x = o.mem x := by
  induction text generalizing o with
  | nil => rfl
  | cons c text ih =>
    rw [List.length_cons] at h
    rw [puts, List.foldl_cons, ← puts, ih]
    · exact Function.update_of_ne (by omega) _ _
    · change x < o.buf + (o.len + 1) ∨ o.buf + (o.len + 1) + text.length ≤ x
      omega

end PrintBuf

/-- `strlen`, inside of the segment of the kernel; there is no length where no zero byte comes before its limit. -/
def strlen (limit : Nat) (m : Nat → UInt8) (s : Nat) : Option Nat := (skipString m (limit - s) s).map fun e => e - s - 1

/-- What stands before the conversion character, with the rest of the format from that character on and the number of the next argument. -/
structure Directive where
  flags : NumberFlags
  width : Int
  precision : Int
  rest : List Char
  next : Nat

def skipAtoi : List Char → Nat → Nat × List Char
  | [], i => (i, [])
  | c :: fmt, i => if c.isDigit then skipAtoi fmt (i * 10 + (c.toNat - '0'.toNat)) else (i, c :: fmt)

def parseFlags : List Char → NumberFlags → NumberFlags × List Char
  | '-' :: fmt, f => parseFlags fmt { f with left := true }
  | '+' :: fmt, f => parseFlags fmt { f with plus := true }
  | ' ' :: fmt, f => parseFlags fmt { f with space := true }
  | '#' :: fmt, f => parseFlags fmt { f with special := true }
  | '0' :: fmt, f => parseFlags fmt { f with zeropad := true }
  | fmt, f => (f, fmt)

/-- The field width. A `*` takes its argument, but `fmt` stays where it is. -/
def parseWidth (args : Nat → Nat) (d : Directive) : Directive :=
  match d.rest with
  | [] => d
  | c :: _ =>
    if c.isDigit then { d with width := (skipAtoi d.rest 0).1, rest := (skipAtoi d.rest 0).2 }
    else if c = '*' then
      if asInt (args d.next) < 0 then
        { d with width := -asInt (args d.next), flags := { d.flags with left := true }, next := d.next + 1 }
      else { d with width := asInt (args d.next), next := d.next + 1 }
    else d

def parsePrecision (args : Nat → Nat) (d : Directive) : Directive :=
  match d.rest with
  | '.' :: fmt =>
    match fmt with
    | [] => { d with precision := 0, rest := fmt }
    | c :: _ =>
      if c.isDigit then { d with precision := (skipAtoi fmt 0).1, rest := (skipAtoi fmt 0).2 }
      else if c = '*' then { d with precision := max (asInt (args d.next)) 0, rest := fmt, next := d.next + 1 }
      else { d with precision := 0, rest := fmt }
  | _ => d

def skipQualifier (d : Directive) : Directive :=
  match d.rest with
  | 'h' :: fmt => { d with rest := fmt }
  | 'l' :: fmt => { d with rest := fmt }
  | 'L' :: fmt => { d with rest := fmt }
  | _ => d

/-- The format behind a `%`. -/
def parseDirective (args : Nat → Nat) (fmt : List Char) (next : Nat) : Directive :=
  skipQualifier (parsePrecision args (parseWidth args
    ⟨(parseFlags fmt noFlags).1, -1, -1, (parseFlags fmt noFlags).2, next⟩))

/-- The case `c`. -/
def printChar (d : Directive) (w : Nat) (o : PrintBuf) : PrintBuf :=
  if d.flags.left then ((o.put (UInt8.ofNat w)).puts (padding (d.width - 1) ' '))
  else (o.puts (padding (d.width - 1) ' ')).put (UInt8.ofNat w)

/-- So many bytes of a string of `n` bytes are printed. -/
def Directive.chars (d : Directive) (n : Nat) : Nat :=
  if d.precision < 0 then n else if n > d.precision then d.precision.toNat else n

/-- The case `s`, for a string of `n` bytes at address `s`. -/
def printString (d : Directive) (s n : Nat) (o : PrintBuf) : PrintBuf :=
  if d.flags.left then (o.copy (d.chars n) s).puts (padding (d.width - d.chars n) ' ')
  else (o.puts (padding (d.width - d.chars n) ' ')).copy (d.chars n) s

def printNumber (d : Directive) (w base : Nat) (type : NumberFlags) (o : PrintBuf) : PrintBuf :=
  o.puts (number w base d.width d.precision type)

/-- The conversion, with the argument it takes. A string that has no end before the limit is a fault. -/
def convert (limit : Nat) (args : Nat → Nat) (d : Directive) (o : PrintBuf) : Option (Nat × PrintBuf) :=
  match d.rest with
  | [] => some (d.next, o.puts ['%'])
  | 'c' :: _ => some (d.next + 1, printChar d (args d.next) o)
  | 's' :: _ => (strlen limit o.mem (args d.next)).map fun n => (d.next + 1, printString d (args d.next) n o)
  | 'o' :: _ => some (d.next + 1, printNumber d (args d.next) 8 d.flags o)
  | 'p' :: _ =>
    if d.width = -1 then
      some (d.next + 1, printNumber { d with width := 8 } (args d.next) 16 { d.flags with zeropad := true } o)
    else some (d.next + 1, printNumber d (args d.next) 16 d.flags o)
  | 'x' :: _ => some (d.next + 1, printNumber d (args d.next) 16 { d.flags with small := true } o)
  | 'X' :: _ => some (d.next + 1, printNumber d (args d.next) 16 d.flags o)
  | 'd' :: _ => some (d.next + 1, printNumber d (args d.next) 10 { d.flags with sign := true } o)
  | 'i' :: _ => some (d.next + 1, printNumber d (args d.next) 10 { d.flags with sign := true } o)
  | 'u' :: _ => some (d.next + 1, printNumber d (args d.next) 10 d.flags o)
  | 'n' :: _ => some (d.next + 1, { o with mem := putLong o.mem (args d.next) o.len })
  | '%' :: _ => some (d.next, o.puts ['%'])
  | c :: _ => some (d.next, o.puts ['%', c])

theorem skipAtoi_length {fmt : List Char} {i : Nat} : (skipAtoi fmt i).2.length ≤ fmt.length := by
  induction fmt generalizing i with
  | nil => exact Nat.le_refl 0
  | cons c fmt ih =>
    unfold skipAtoi
    split
    next => exact Nat.le_succ_of_le ih
    next => exact Nat.le_refl _

theorem parseFlags_length {fmt : List Char} {f : NumberFlags} : (parseFlags fmt f).2.length ≤ fmt.length := by
  fun_induction parseFlags fmt f <;> simp_all <;> omega

theorem parseWidth_length {args : Nat → Nat} {d : Directive} : (parseWidth args d).rest.length ≤ d.rest.length := by
  unfold parseWidth
  split
  next => exact Nat.le_refl _
  next =>
    split
    next => exact skipAtoi_length
    next =>
      split
      next => split <;> exact Nat.le_refl _
      next => exact Nat.le_refl _

theorem parsePrecision_length {args : Nat → Nat} {d : Directive} : (parsePrecision args d).rest.length ≤ d.rest.length := by
  unfold parsePrecision
  split
  next fmt hrest =>
    have hlen : fmt.length ≤ d.rest.length := by
      rw [hrest]
      exact Nat.le_succ _
    split
    next => exact hlen
    next =>
      split
      next => exact Nat.le_trans skipAtoi_length hlen
      next => split <;> exact hlen
  next => exact Nat.le_refl _

theorem skipQualifier_length {d : Directive} : (skipQualifier d).rest.length ≤ d.rest.length := by
  unfold skipQualifier
  split
  next hrest => rw [hrest]; exact Nat.le_succ _
  next hrest => rw [hrest]; exact Nat.le_succ _
  next hrest => rw [hrest]; exact Nat.le_succ _
  next => exact Nat.le_refl _

theorem parseDirective_length {args : Nat → Nat} {fmt : List Char} {k : Nat} :
    (parseDirective args fmt k).rest.length ≤ fmt.length :=
  Nat.le_trans skipQualifier_length (Nat.le_trans parsePrecision_length (Nat.le_trans parseWidth_length parseFlags_length))

/-- How `vsprintf` ends: with the zero byte stored and `args` at the argument `next`, or in a fault inside of a string. -/
inductive PrintEnd
  | done (o : PrintBuf) (next : Nat)
  | fault (o : PrintBuf)

/-- A format is the list of its characters, without the zero byte. -/
def vsprintf (limit : Nat) (args : Nat → Nat) : List Char → Nat → PrintBuf → PrintEnd
  | [], k, o => .done (o.put 0) k
  | c :: fmt, k, o =>
    if c ≠ '%' then vsprintf limit args fmt k (o.put (UInt8.ofNat c.toNat))
    else
      match convert limit args (parseDirective args fmt k) o with
      | none => .fault o
      | some (k', o') => vsprintf limit args (parseDirective args fmt k).rest.tail k' o'
termination_by fmt => fmt.length
decreasing_by
  · exact Nat.lt_succ_self _
  · have hrest := @parseDirective_length args fmt k
    rw [List.length_tail, List.length_cons]
    omega

/-- How many bytes of the buffer are stored. -/
def PrintEnd.written : PrintEnd → Nat
  | .done o _ => o.len
  | .fault o => o.len

/-- The characters of a number. -/
def Directive.numberLength (d : Directive) (w base : Nat) (type : NumberFlags) : Nat :=
  max d.width.toNat ((signText w type).length + (specialText base type).length +
    max d.precision.toNat (digitText base (magnitude w type).1 type.small).length)

/-- The characters that a directive makes of its argument `w`, or of a string of `n` bytes. -/
def Directive.length (d : Directive) (w n : Nat) : Nat :=
  match d.rest with
  | [] => 1
  | 'c' :: _ => max d.width.toNat 1
  | 's' :: _ => max d.width.toNat (d.chars n)
  | 'o' :: _ => d.numberLength w 8 d.flags
  | 'p' :: _ =>
    if d.width = -1 then { d with width := 8 }.numberLength w 16 { d.flags with zeropad := true } else d.numberLength w 16 d.flags
  | 'x' :: _ => d.numberLength w 16 { d.flags with small := true }
  | 'X' :: _ => d.numberLength w 16 d.flags
  | 'd' :: _ => d.numberLength w 10 { d.flags with sign := true }
  | 'i' :: _ => d.numberLength w 10 { d.flags with sign := true }
  | 'u' :: _ => d.numberLength w 10 d.flags
  | 'n' :: _ => 0
  | '%' :: _ => 1
  | _ :: _ => 2

section Lengths

variable {limit k k' w n base : Nat} {args : Nat → Nat} {d : Directive} {o o' : PrintBuf} {type : NumberFlags}

theorem printNumber_len : (printNumber d w base type o).len = o.len + d.numberLength w base type := by
  rw [printNumber, PrintBuf.puts_len, number_length]
  rfl

theorem printChar_len : (printChar d w o).len = o.len + max d.width.toNat 1 := by
  unfold printChar
  split
  next =>
    rw [PrintBuf.puts_len, padding_length]
    change o.len + 1 + _ = _
    omega
  next =>
    change (o.puts _).len + 1 = _
    rw [PrintBuf.puts_len, padding_length]
    omega

theorem printString_len : (printString d w n o).len = o.len + max d.width.toNat (d.chars n) := by
  unfold printString
  split
  next =>
    rw [PrintBuf.puts_len, PrintBuf.copy_len, padding_length]
    omega
  next =>
    rw [PrintBuf.copy_len, PrintBuf.puts_len, padding_length]
    omega

/-- A directive appends as many characters as its length says. -/
theorem convert_length (h : convert limit args d o = some (k', o')) :
    o'.len = o.len + d.length (args d.next) ((strlen limit o.mem (args d.next)).getD 0) := by
  unfold Directive.length
  unfold convert at h
  split at h
  next => cases h; exact PrintBuf.puts_len
  next => cases h; exact printChar_len
  next =>
    obtain ⟨n, hn, h⟩ := Option.map_eq_some_iff.mp h
    rw [hn]
    cases h
    exact printString_len
  next => cases h; exact printNumber_len
  next =>
    split at h
    next hwidth =>
      rw [if_pos hwidth]
      cases h
      exact printNumber_len
    next hwidth =>
      rw [if_neg hwidth]
      cases h
      exact printNumber_len
  next => cases h; exact printNumber_len
  next => cases h; exact printNumber_len
  next => cases h; exact printNumber_len
  next => cases h; exact printNumber_len
  next => cases h; exact printNumber_len
  next => cases h; rfl
  next => cases h; exact PrintBuf.puts_len
  next => cases h; exact PrintBuf.puts_len

/-- Text without a `%` goes to the buffer as it is. -/
theorem vsprintf_text {text fmt : List Char} (h : '%' ∉ text) :
    vsprintf limit args (text ++ fmt) k o = vsprintf limit args fmt k (o.puts text) := by
  induction text generalizing o with
  | nil => rfl
  | cons c text ih =>
    have hc : c ≠ '%' := fun heq => h (heq ▸ List.mem_cons_self)
    rw [List.cons_append, vsprintf, if_pos hc, ih fun hmem => h (List.mem_cons_of_mem c hmem)]
    rfl

/-- The directive `%s`, without flags, width and precision. -/
theorem vsprintf_string {fmt : List Char} : vsprintf limit args ('%' :: 's' :: fmt) k o =
    match strlen limit o.mem (args k) with
    | none => .fault o
    | some n => vsprintf limit args fmt (k + 1) (printString ⟨noFlags, -1, -1, 's' :: fmt, k⟩ (args k) n o) := by
  have hdir : parseDirective args ('s' :: fmt) k = ⟨noFlags, -1, -1, 's' :: fmt, k⟩ := rfl
  rw [vsprintf, if_neg (not_not.mpr rfl), hdir]
  unfold convert
  dsimp only
  cases strlen limit o.mem (args k) with
  | none => rfl
  | some n => rfl

/-- The directive `%d`, without flags, width and precision. -/
theorem vsprintf_decimal {fmt : List Char} : vsprintf limit args ('%' :: 'd' :: fmt) k o =
    vsprintf limit args fmt (k + 1) (o.puts (number (args k) 10 (-1) (-1) { noFlags with sign := true })) := by
  have hdir : parseDirective args ('d' :: fmt) k = ⟨noFlags, -1, -1, 'd' :: fmt, k⟩ := rfl
  rw [vsprintf, if_neg (not_not.mpr rfl), hdir]
  rfl

/-- A format of text only, at its end. -/
theorem vsprintf_last {text : List Char} (h : '%' ∉ text) : vsprintf limit args text k o = .done ((o.puts text).put 0) k := by
  have htext := @vsprintf_text limit k args o text [] h
  rw [List.append_nil] at htext
  rw [htext, vsprintf]

/-- A number that is not negative has as many characters as digits. -/
theorem decimal_length (h : w < 2 ^ 31) :
    (number w 10 (-1) (-1) { noFlags with sign := true }).length = max 1 (Nat.digits 10 w).length := by
  have hint : asInt w = w := if_pos h
  have hmag : magnitude w { noFlags with sign := true } = (w, false) := by
    unfold magnitude
    rw [hint, if_neg fun hneg => absurd hneg.2 (by omega)]
  have hsign : signText w { noFlags with sign := true } = [] := by
    unfold signText
    rw [hmag]
    rfl
  have hdigits : (digitText 10 w false).length = max 1 (Nat.digits 10 w).length := by
    unfold digitText
    split
    next hzero =>
      rw [hzero]
      rfl
    next hne =>
      have hnil : Nat.digits 10 w ≠ [] := Nat.digits_ne_nil_iff_ne_zero.mpr hne
      have hpos := List.length_pos_of_ne_nil hnil
      rw [List.length_map]
      omega
  rw [number_length, hsign, hmag]
  change max 0 (0 + 0 + max 0 (digitText 10 w false).length) = _
  rw [hdigits]
  omega

end Lengths

/-- The limit of the data segment of the kernel, 8 MB. -/
def kernelLimit : Nat := 0x800000

/-- `printk` up to the call of `tty_write`, with its arguments on the stack. The text goes to the static buffer at `buf`. -/
def printk (kern : Nat → UInt8) (buf : Nat) (fmt : List Char) (args : Nat → Nat) : PrintEnd :=
  vsprintf kernelLimit args fmt 0 ⟨buf, kern, 0⟩

def printBytes : Nat := 1024

end RheeKernel
