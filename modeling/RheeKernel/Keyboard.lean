import RheeKernel.KeyQueue
import RheeKernel.Machine

namespace RheeKernel

open RegisterBytes

/-- The routines that `key_table` points to. -/
inductive KeyRoutine
  | none
  | doSelf
  | ctrl
  | unctrl
  | alt
  | unalt
  | lshift
  | unlshift
  | rshift
  | unrshift
  | caps
  | uncaps
  | scroll
  | num
  | cursor
  | func
  | minus
deriving DecidableEq

namespace KeyRoutine

/-- The entries of `key_table` from 0x1C to 0x3B; those before them are `do_self`, less the first one. -/
def middleKeys : List KeyRoutine :=
  [doSelf, ctrl, doSelf, doSelf] ++ List.replicate 10 doSelf ++ [lshift, doSelf] ++ List.replicate 9 doSelf ++
    [minus, rshift, doSelf, alt, doSelf, caps, func]

/-- From 0x3C to 0x58. -/
def upperKeys : List KeyRoutine :=
  List.replicate 9 func ++ [num, scroll, cursor, cursor, cursor, doSelf, cursor, cursor, cursor, doSelf] ++ List.replicate 5 cursor ++
    [none, none, doSelf, func, func]

/-- The entries for the codes of keys that are let go, from 0x80 on. -/
def breaks : List KeyRoutine :=
  List.replicate 29 none ++ [unctrl] ++ List.replicate 12 none ++ [unlshift] ++ List.replicate 11 none ++ [unrshift, none, unalt, none, uncaps]

def keyTable : List KeyRoutine :=
  none :: List.replicate 27 doSelf ++ middleKeys ++ upperKeys ++ List.replicate 39 none ++ breaks ++ List.replicate 69 none

end KeyRoutine

def ascii (s : String) : List (BitVec 8) := s.toList.map fun c => BitVec.ofNat 8 c.toNat

def numTable : List (BitVec 8) := ascii "789 456 1230,"
def curTable : List (BitVec 8) := ascii "HA5 DGC YB623"

/-- `'esc [ [ A'` and so on. -/
def funcTable : List (BitVec 32) :=
  [0x415b5b1b, 0x425b5b1b, 0x435b5b1b, 0x445b5b1b, 0x455b5b1b, 0x465b5b1b, 0x475b5b1b, 0x485b5b1b, 0x495b5b1b, 0x4a5b5b1b, 0x4b5b5b1b,
    0x4c5b5b1b]

/-- The end of all three maps, with the bytes for `-`, `+` and the key beside the left shift. -/
def keyPad (minus plus less : BitVec 8) : List (BitVec 8) :=
  List.replicate 16 0 ++ [minus, 0, 0, 0, plus] ++ List.replicate 7 0 ++ [less] ++ List.replicate 10 0

def keyMap : List (BitVec 8) :=
  [0, 27] ++ ascii "1234567890-=" ++ [127, 9] ++ ascii "qwertyuiop[]" ++ [10, 0] ++ ascii "asdfghjkl;'" ++ [0x60] ++ [0] ++ [0x5c] ++
    ascii "zxcvbnm,./" ++ [0, 0x2a, 0, 32] ++ keyPad 0x2d 0x2b 0x3c

/-- The line of `Z` has one byte more than in the other maps. -/
def shiftMap : List (BitVec 8) :=
  [0, 27] ++ ascii "!@#$%^&*()_+" ++ [127, 9] ++ [0x51, 0x57, 0x45, 0x52, 0x54, 0x59, 0x55, 0x49, 0x4f, 0x50, 0x7b, 0x7d] ++ [10, 0] ++
    ascii "ASDFGHJKL:" ++ [0x22, 0x7e] ++ [0] ++ ascii "|ZXCVBNM<>?_" ++ [0, 0x2a, 0, 32] ++ keyPad 0x2d 0x2b 0x3e

def altMap : List (BitVec 8) :=
  [0, 0] ++ [0, 0x40, 0, 0x24, 0, 0, 0x7b, 0x5b, 0x5d, 0x7d, 0x5c, 0] ++ [0, 0] ++ List.replicate 11 0 ++ [0x7e, 10, 0] ++
    List.replicate 11 0 ++ [0, 0] ++ List.replicate 11 0 ++ [0, 0, 0, 0] ++ keyPad 0 0 0x7c

/-- What the keyboard interrupt works on: the registers with the queue of the console, its three bytes, and the bytes that it has sent to the
keyboard. -/
structure KeyboardCpu where
  cpu : KeyCpu
  mode : BitVec 8
  leds : BitVec 8
  e0 : BitVec 8
  sent : List (BitVec 8)

namespace KeyboardCpu

def setEax (s : KeyboardCpu) (v : BitVec 32) : KeyboardCpu := { s with cpu := { s.cpu with eax := v } }
def setEbx (s : KeyboardCpu) (v : BitVec 32) : KeyboardCpu := { s with cpu := { s.cpu with ebx := v } }

def putQueue (s : KeyboardCpu) : Option KeyboardCpu := (s.cpu.putQueue 8).map fun cpu => { s with cpu := cpu }

/-- `ctrl` and `alt`, with the bit in `al`. -/
def hold (s : KeyboardCpu) (al : BitVec 8) : KeyboardCpu :=
  let al := if s.e0 = 0 then al else al + al
  { s with mode := s.mode ||| al }

/-- `unctrl` and `unalt`. -/
def drop (s : KeyboardCpu) (al : BitVec 8) : KeyboardCpu :=
  let al := if s.e0 = 0 then al else al + al
  { s with mode := s.mode &&& ~~~al }

def setLeds (s : KeyboardCpu) : KeyboardCpu := { s with sent := s.sent ++ [0xed, s.leds] }

def caps (s : KeyboardCpu) : KeyboardCpu :=
  if s.mode &&& 0x80 ≠ 0 then s
  else
    let s := { s with leds := s.leds ^^^ 4 }
    let s := { s with mode := s.mode ^^^ 0x40 }
    let s := { s with mode := s.mode ||| 0x80 }
    s.setLeds

def scroll (s : KeyboardCpu) : KeyboardCpu := { s with leds := s.leds ^^^ 1 }.setLeds

def num (s : KeyboardCpu) : KeyboardCpu := { s with leds := s.leds ^^^ 2 }.setLeds

def cur (s : KeyboardCpu) (al : BitVec 8) : Option KeyboardCpu :=
  let al := curTable.getD al.toNat 0
  let ah : BitVec 8 := if 0x39 < al then 0 else 0x7e
  let eax := (ah ++ al).setWidth 32 <<< 16
  ((s.setEax (setWord eax 0x5b1b)).setEbx 0).putQueue

def cur2 (s : KeyboardCpu) (al : BitVec 8) : Option KeyboardCpu :=
  if s.e0 = 1 then s.cur al
  else if s.leds &&& 2 = 0 then s.cur al
  else if s.mode &&& 3 ≠ 0 then s.cur al
  else ((s.setEax ((numTable.getD al.toNat 0).setWidth 32)).setEbx 0).putQueue

/-- There is no way back from `reboot`. -/
def cursor (s : KeyboardCpu) (al : BitVec 8) : Option KeyboardCpu :=
  if al < 0x47 then some s
  else
    let al := al - 0x47
    if 12 < al then some s
    else if al ≠ 12 then s.cur2 al
    else if s.mode &&& 0x0c = 0 then s.cur2 al
    else if s.mode &&& 0x30 ≠ 0 then none
    else s.cur2 al

/-- `ok_func`; what is in `ecx` is what the interrupted code had there. -/
def okFunc (s : KeyboardCpu) (al : BitVec 8) : Option KeyboardCpu :=
  if s.cpu.ecx.slt 4 then some s else ((s.setEax (funcTable.getD al.toNat 0)).setEbx 0).putQueue

def func (s : KeyboardCpu) (al : BitVec 8) : Option KeyboardCpu :=
  if al < 0x3b then some s
  else
    let al := al - 0x3b
    if al ≤ 9 then s.okFunc al
    else
      let al := al - 18
      if al < 10 then some s else if 11 < al then some s else s.okFunc al

def doSelf (s : KeyboardCpu) (al : BitVec 8) : Option KeyboardCpu :=
  let ebx := if s.mode &&& 0x20 ≠ 0 then altMap else if s.mode &&& 0x03 ≠ 0 then shiftMap else keyMap
  let al := ebx.getD al.toNat 0
  if al = 0 then some s
  else
    let al := if s.mode &&& 0x4c = 0 then al else if al < 0x61 then al else if 0x7a < al then al else al - 32
    let al := if s.mode &&& 0x0c = 0 then al else if al < 64 then al else if 64 + 32 ≤ al then al else al - 64
    let al := if s.mode &&& 0x10 = 0 then al else al ||| 0x80
    ((s.setEax (al.setWidth 32)).setEbx 0).putQueue

def minus (s : KeyboardCpu) (al : BitVec 8) : Option KeyboardCpu :=
  if s.e0 ≠ 1 then s.doSelf al else ((s.setEax 0x2f).setEbx 0).putQueue

/-- `call *key_table(,%eax,4)` -/
def call (s : KeyboardCpu) (al : BitVec 8) : KeyRoutine → Option KeyboardCpu
  | .none => some s
  | .doSelf => s.doSelf al
  | .ctrl => some (s.hold 0x04)
  | .unctrl => some (s.drop 0x04)
  | .alt => some (s.hold 0x10)
  | .unalt => some (s.drop 0x10)
  | .lshift => some { s with mode := s.mode ||| 0x01 }
  | .unlshift => some { s with mode := s.mode &&& 0xfe }
  | .rshift => some { s with mode := s.mode ||| 0x02 }
  | .unrshift => some { s with mode := s.mode &&& 0xfd }
  | .caps => some s.caps
  | .uncaps => some { s with mode := s.mode &&& 0x7f }
  | .scroll => some s.scroll
  | .num => some s.num
  | .cursor => s.cursor al
  | .func => s.func al
  | .minus => s.minus al

/-- `keyboard_interrupt` up to the call of `do_tty_interrupt`, with what the keyboard gives and the registers of the interrupted code. -/
def interrupt (s : KeyboardCpu) (scan : BitVec 8) (ebx ecx edx : BitVec 32) : Option KeyboardCpu :=
  let s := { s with cpu := { s.cpu with eax := scan.setWidth 32, ebx := ebx, ecx := ecx, edx := edx } }
  if scan = 0xe0 then some { s with e0 := 1 }
  else if scan = 0xe1 then some { s with e0 := 2 }
  else (s.call scan (KeyRoutine.keyTable.getD scan.toNat .none)).map fun s => { s with e0 := 0 }

end KeyboardCpu

/-- A step of the keyboard's interrupt, or of the other code: that leaves the indices of the queue in range. -/
inductive KeyEvent
  | code (scan : BitVec 8) (ebx ecx edx : BitVec 32)
  | other (cpu : KeyCpu)

def keyboardStep (s : KeyboardCpu) : KeyEvent → Option KeyboardCpu
  | .code scan ebx ecx edx => s.interrupt scan ebx ecx edx
  | .other cpu => if cpu.queue.head.toNat < ttyBufSize ∧ cpu.queue.tail.toNat < ttyBufSize then some { s with cpu := cpu } else none

/-- The three bytes as they are assembled. -/
def keyboardInit (cpu : KeyCpu) : KeyboardCpu where
  cpu := cpu
  mode := 0
  leds := 2
  e0 := 0
  sent := []

inductive KeyPrefix
  | none
  | e0
  | e1
deriving DecidableEq

/-- A keyboard as its user sees it: the keys that are held, the locks, and the prefix that stands before the next code. -/
structure Keyboard where
  lshift : Bool
  rshift : Bool
  lctrl : Bool
  rctrl : Bool
  lalt : Bool
  altgr : Bool
  capsLock : Bool
  capsDown : Bool
  numLock : Bool
  scrollLock : Bool
  pre : KeyPrefix
deriving DecidableEq

namespace Keyboard

def init : Keyboard := ⟨false, false, false, false, false, false, false, false, true, false, .none⟩

def modeByte (k : Keyboard) : BitVec 8 :=
  BitVec.ofBoolListLE [k.lshift, k.rshift, k.lctrl, k.rctrl, k.lalt, k.altgr, k.capsLock, k.capsDown]

def ledByte (k : Keyboard) : BitVec 8 := BitVec.ofBoolListLE [k.scrollLock, k.numLock, k.capsLock, false, false, false, false, false]

def prefixByte (k : Keyboard) : BitVec 8 :=
  match k.pre with
  | .none => 0
  | .e0 => 1
  | .e1 => 2

def routine (scan : BitVec 8) : KeyRoutine := KeyRoutine.keyTable.getD scan.toNat .none

/-- What a key does to what is held and locked. -/
def touch (k : Keyboard) : KeyRoutine → Keyboard
  | .ctrl => if k.pre = .none then { k with lctrl := true } else { k with rctrl := true }
  | .unctrl => if k.pre = .none then { k with lctrl := false } else { k with rctrl := false }
  | .alt => if k.pre = .none then { k with lalt := true } else { k with altgr := true }
  | .unalt => if k.pre = .none then { k with lalt := false } else { k with altgr := false }
  | .lshift => { k with lshift := true }
  | .unlshift => { k with lshift := false }
  | .rshift => { k with rshift := true }
  | .unrshift => { k with rshift := false }
  | .caps => if k.capsDown then k else { k with capsDown := true, capsLock := !k.capsLock }
  | .uncaps => { k with capsDown := false }
  | .num => { k with numLock := !k.numLock }
  | .scroll => { k with scrollLock := !k.scrollLock }
  | .none | .doSelf | .cursor | .func | .minus => k

def next (k : Keyboard) (scan : BitVec 8) : Keyboard :=
  if scan = 0xe0 then { k with pre := .e0 }
  else if scan = 0xe1 then { k with pre := .e1 }
  else { k.touch (routine scan) with pre := .none }

def shift (k : Keyboard) : Bool := k.lshift || k.rshift
def ctrl (k : Keyboard) : Bool := k.lctrl || k.rctrl
def alt (k : Keyboard) : Bool := k.lalt || k.altgr

/-- The character of a normal key, if it has one. -/
def char (k : Keyboard) (scan : BitVec 8) : List (BitVec 8) :=
  let c := (if k.altgr then altMap else if k.shift then shiftMap else keyMap).getD scan.toNat 0
  if c = 0 then []
  else
    let c := if (k.ctrl || k.capsLock) ∧ 0x61 ≤ c ∧ c ≤ 0x7a then c - 32 else c
    let c := if k.ctrl ∧ 64 ≤ c ∧ c < 96 then c - 64 else c
    [if k.lalt then c ||| 0x80 else c]

/-- The number of a key of the cursor block, and of a function key. -/
def cursorKey (scan : BitVec 8) : Nat := scan.toNat - 0x47
def funcKey (scan : BitVec 8) : Nat := if scan.toNat ≤ 0x44 then scan.toNat - 0x3b else scan.toNat - 0x57 + 10

/-- A cursor key gives an escape sequence or, with the lock for numbers and no shift, its number. -/
def cursorChars (k : Keyboard) (scan : BitVec 8) : List (BitVec 8) :=
  if k.pre = .e0 ∨ k.numLock = false ∨ k.shift then
    let c := curTable.getD (cursorKey scan) 0
    if c ≤ 0x39 then [0x1b, 0x5b, c, 0x7e] else [0x1b, 0x5b, c]
  else [numTable.getD (cursorKey scan) 0]

/-- The characters for a code; those of a function key only with room as the register of the interrupted code says. -/
def typed (k : Keyboard) (scan : BitVec 8) (ecx : BitVec 32) : List (BitVec 8) :=
  if scan = 0xe0 ∨ scan = 0xe1 then []
  else
    match routine scan with
    | .doSelf => k.char scan
    | .minus => if k.pre = .e0 then [0x2f] else k.char scan
    | .cursor => k.cursorChars scan
    | .func => if ecx.slt 4 then [] else [0x1b, 0x5b, 0x5b, BitVec.ofNat 8 (0x41 + funcKey scan)]
    | _ => []

/-- The delete key with a control key and an alt key. -/
def reboots (k : Keyboard) (scan : BitVec 8) : Bool := scan == 0x53 && k.ctrl && k.alt

/-- What is sent to the keyboard: the lights, when a lock has changed. -/
def commands (k : Keyboard) (scan : BitVec 8) : List (BitVec 8) :=
  if scan = 0xe0 ∨ scan = 0xe1 then []
  else
    match routine scan with
    | .num | .scroll => [0xed, (k.next scan).ledByte]
    | .caps => if k.capsDown then [] else [0xed, (k.next scan).ledByte]
    | _ => []

end Keyboard

/-- The three bytes stand for the keyboard. -/
structure KeyboardCpu.Shows (s : KeyboardCpu) (k : Keyboard) : Prop where
  mode : s.mode = k.modeByte
  leds : s.leds = k.ledByte
  e0 : s.e0 = k.prefixByte

section Bytes

variable {eax : BitVec 32} {n : Nat} {k : Keyboard}

theorem inEax_low {i : Nat} : (inEax (pairOf 0 eax) i).toNat = eax.toNat / 2 ^ (8 * i) := by
  have pair : (pairOf 0 eax).toNat = eax.toNat := by
    unfold pairOf
    rw [BitVec.toNat_append]
    simp
  have size := eax.isLt
  have less := Nat.div_le_self eax.toNat (2 ^ (8 * i))
  unfold inEax
  rw [BitVec.toNat_setWidth, BitVec.toNat_ushiftRight, pair, Nat.shiftRight_eq_div_pow]
  exact Nat.mod_eq_of_lt (by omega)

/-- The bytes of a register that are taken end with its highest one that is not zero. -/
theorem taken_low (some : 1 ≤ n) (below : eax.toNat < 2 ^ (8 * n)) (above : n = 1 ∨ 2 ^ (8 * (n - 1)) ≤ eax.toNat) :
    Taken (pairOf 0 eax) n := by
  refine ⟨some, ?_, fun i first more zero => ?_⟩
  · apply BitVec.eq_of_toNat_eq
    rw [inEax_low, Nat.div_eq_of_lt below]
    rfl
  · have value := congrArg BitVec.toNat zero
    rw [inEax_low] at value
    have small : eax.toNat < 2 ^ (8 * i) := (Nat.div_eq_zero_iff_lt (Nat.two_pow_pos _)).mp value
    have order : 2 ^ (8 * i) ≤ 2 ^ (8 * (n - 1)) := Nat.pow_le_pow_right (by decide) (by omega)
    omega

theorem keyByte_low {i : Nat} : (keyByte (pairOf 0 eax) i).toNat = eax.toNat / 2 ^ (8 * i) % 256 := by
  have pair : (pairOf 0 eax).toNat = eax.toNat := by
    unfold pairOf
    rw [BitVec.toNat_append]
    simp
  unfold keyByte
  rw [BitVec.toNat_setWidth, BitVec.toNat_ushiftRight, pair, Nat.shiftRight_eq_div_pow]

/-- One character in the register. -/
theorem taken_char {c : BitVec 8} : Taken (pairOf 0 (c.setWidth 32)) 1 ∧ keyBytes (pairOf 0 (c.setWidth 32)) 1 = [c] := by
  have size := c.isLt
  have value : (c.setWidth 32).toNat = c.toNat := by
    rw [BitVec.toNat_setWidth]
    omega
  constructor
  · exact taken_low (by decide) (by omega) (Or.inl rfl)
  · have first : keyByte (pairOf 0 (c.setWidth 32)) 0 = c := by
      apply BitVec.eq_of_toNat_eq
      rw [keyByte_low, value]
      omega
    exact congrArg (fun b => [b]) first

end Bytes

/-- `put_queue` takes these characters from a register, with nothing in `%ebx`. -/
def Holds (eax : BitVec 32) (cs : List (BitVec 8)) : Prop := ∃ n ≤ 8, Taken (pairOf 0 eax) n ∧ keyBytes (pairOf 0 eax) n = cs

theorem holds_char {c : BitVec 8} : Holds (c.setWidth 32) [c] := ⟨1, by decide, taken_char⟩

/-- The word that `cur` makes for a key of the cursor block. -/
def cursorWord (al : BitVec 8) : BitVec 32 := setWord (((if 0x39 < al then (0 : BitVec 8) else 0x7e) ++ al).setWidth 32 <<< 16) 0x5b1b

theorem holds_cursor {i : Nat} (h : i ≤ 12) :
    Holds (cursorWord (curTable.getD i 0))
      (if curTable.getD i 0 ≤ 0x39 then [0x1b, 0x5b, curTable.getD i 0, 0x7e] else [0x1b, 0x5b, curTable.getD i 0]) := by
  have values : ∀ i ≤ 12, (if curTable.getD i 0 ≤ 0x39 then
      2 ^ 24 ≤ (cursorWord (curTable.getD i 0)).toNat ∧ keyBytes (pairOf 0 (cursorWord (curTable.getD i 0))) 4 = [0x1b, 0x5b, curTable.getD i 0, 0x7e]
    else (2 ^ 16 ≤ (cursorWord (curTable.getD i 0)).toNat ∧ (cursorWord (curTable.getD i 0)).toNat < 2 ^ 24) ∧
      keyBytes (pairOf 0 (cursorWord (curTable.getD i 0))) 3 = [0x1b, 0x5b, curTable.getD i 0]) := by decide
  have value := values i h
  by_cases digit : curTable.getD i 0 ≤ 0x39
  · rw [if_pos digit] at value
    rw [if_pos digit]
    exact ⟨4, by decide, taken_low (by decide) (cursorWord _).isLt (Or.inr value.1), value.2⟩
  · rw [if_neg digit] at value
    rw [if_neg digit]
    exact ⟨3, by decide, taken_low (by decide) value.1.2 (Or.inr value.1.1), value.2⟩

theorem holds_func {i : Nat} (h : i ≤ 11) : Holds (funcTable.getD i 0) [0x1b, 0x5b, 0x5b, BitVec.ofNat 8 (0x41 + i)] := by
  have values : ∀ i ≤ 11, 2 ^ 24 ≤ (funcTable.getD i 0).toNat ∧
    keyBytes (pairOf 0 (funcTable.getD i 0)) 4 = [0x1b, 0x5b, 0x5b, BitVec.ofNat 8 (0x41 + i)] := by decide
  have value := values i h
  exact ⟨4, by decide, taken_low (by decide) (funcTable.getD i 0).isLt (Or.inr value.1), value.2⟩

section Bits

variable (k : Keyboard)

theorem mode_tests : (k.modeByte &&& 0x80 = 0 ↔ k.capsDown = false) ∧ (k.modeByte &&& 3 = 0 ↔ k.shift = false) ∧
    (k.modeByte &&& 0x0c = 0 ↔ k.ctrl = false) ∧ (k.modeByte &&& 0x30 = 0 ↔ k.alt = false) ∧
    (k.modeByte &&& 0x20 = 0 ↔ k.altgr = false) ∧ (k.modeByte &&& 0x4c = 0 ↔ (k.ctrl || k.capsLock) = false) ∧
    (k.modeByte &&& 0x10 = 0 ↔ k.lalt = false) := by
  obtain ⟨a, b, c, d, e, f, g, h, n, l, p⟩ := k
  unfold Keyboard.modeByte Keyboard.shift Keyboard.ctrl Keyboard.alt
  dsimp only
  clear n l p
  revert a b c d e f g h
  decide +kernel

theorem led_test : k.ledByte &&& 2 = 0 ↔ k.numLock = false := by
  obtain ⟨a, b, c, d, e, f, g, h, n, l, p⟩ := k
  unfold Keyboard.ledByte
  dsimp only
  clear a b c d e f h p
  revert g n l
  decide

/-- Setting a bit and clearing it, for the keys that are held. -/
theorem mode_updates :
    (k.modeByte ||| 0x01 = { k with lshift := true }.modeByte ∧ k.modeByte &&& 0xfe = { k with lshift := false }.modeByte) ∧
      (k.modeByte ||| 0x02 = { k with rshift := true }.modeByte ∧ k.modeByte &&& 0xfd = { k with rshift := false }.modeByte) ∧
      (k.modeByte ||| 0x04 = { k with lctrl := true }.modeByte ∧ k.modeByte &&& ~~~0x04 = { k with lctrl := false }.modeByte) ∧
      (k.modeByte ||| 0x08 = { k with rctrl := true }.modeByte ∧ k.modeByte &&& ~~~0x08 = { k with rctrl := false }.modeByte) ∧
      (k.modeByte ||| 0x10 = { k with lalt := true }.modeByte ∧ k.modeByte &&& ~~~0x10 = { k with lalt := false }.modeByte) ∧
      (k.modeByte ||| 0x20 = { k with altgr := true }.modeByte ∧ k.modeByte &&& ~~~0x20 = { k with altgr := false }.modeByte) ∧
      (k.modeByte ^^^ 0x40 ||| 0x80 = { k with capsDown := true, capsLock := !k.capsLock }.modeByte ∧
        k.modeByte &&& 0x7f = { k with capsDown := false }.modeByte) := by
  obtain ⟨a, b, c, d, e, f, g, h, n, l, p⟩ := k
  revert a b c d e f g h
  unfold Keyboard.modeByte
  dsimp only
  clear n l p
  decide +kernel

theorem led_updates : k.ledByte ^^^ 4 = { k with capsLock := !k.capsLock }.ledByte ∧ k.ledByte ^^^ 2 = { k with numLock := !k.numLock }.ledByte ∧
    k.ledByte ^^^ 1 = { k with scrollLock := !k.scrollLock }.ledByte := by
  obtain ⟨a, b, c, d, e, f, g, h, n, l, p⟩ := k
  unfold Keyboard.ledByte
  dsimp only
  clear a b c d e f h p
  revert g n l
  decide

theorem prefix_zero : k.prefixByte = 0 ↔ k.pre = .none := by
  unfold Keyboard.prefixByte
  cases k.pre with
  | none => exact iff_of_true rfl rfl
  | e0 => exact iff_of_false (by decide) (by decide)
  | e1 => exact iff_of_false (by decide) (by decide)

theorem prefix_one : k.prefixByte = 1 ↔ k.pre = .e0 := by
  unfold Keyboard.prefixByte
  cases k.pre with
  | none => exact iff_of_false (by decide) (by decide)
  | e0 => exact iff_of_true rfl rfl
  | e1 => exact iff_of_false (by decide) (by decide)

end Bits

/-- A routine has done to the three bytes, the queue and the keyboard what it should. -/
structure KeyboardCpu.Answers (s s' : KeyboardCpu) (q : TtyQueue) (k : Keyboard) (cs out : List (BitVec 8)) : Prop where
  mode : s'.mode = k.modeByte
  leds : s'.leds = k.ledByte
  queue : s'.cpu.queue.Shows (q.putQueue q cs)
  sent : s'.sent = s.sent ++ out

section Routines

variable {s : KeyboardCpu} {k : Keyboard} {q : TtyQueue} {al scan : BitVec 8}

/-- A routine that leaves the queue and the keyboard alone. -/
theorem answers_quiet {mode : BitVec 8} {k' : Keyboard} (shown : s.Shows k) (held : s.cpu.queue.Shows q) (byte : mode = k'.modeByte)
    (lights : k.ledByte = k'.ledByte) : s.Answers { s with mode := mode } q k' [] [] :=
  ⟨byte, shown.leds.trans lights, held, (List.append_nil _).symm⟩

theorem put_shows {v : BitVec 32} {cs : List (BitVec 8)} (chars : Holds v cs) (shown : s.Shows k) (held : s.cpu.queue.Shows q) :
    ∃ s', ((s.setEax v).setEbx 0).putQueue = some s' ∧ s.Answers s' q k cs [] := by
  obtain ⟨n, short, taken, bytes⟩ := chars
  obtain ⟨cpu, run, queue, -⟩ := putQueue_shows (s := ((s.setEax v).setEbx 0).cpu) taken short held
  refine ⟨_, congrArg (Option.map _) run, shown.mode, shown.leds, ?_, (List.append_nil _).symm⟩
  rw [← bytes]
  exact queue

theorem hold_shows (shown : s.Shows k) (held : s.cpu.queue.Shows q) :
    s.Answers (s.hold 0x04) q (k.touch .ctrl) [] [] ∧ s.Answers (s.hold 0x10) q (k.touch .alt) [] [] := by
  have updates := mode_updates k
  have none : s.e0 = 0 ↔ k.pre = .none := by
    rw [shown.e0]
    exact prefix_zero k
  unfold KeyboardCpu.hold Keyboard.touch
  by_cases plain : k.pre = .none
  · simp only [if_pos plain, if_pos (none.mpr plain)]
    rw [shown.mode]
    exact ⟨answers_quiet shown held updates.2.2.1.1 rfl, answers_quiet shown held updates.2.2.2.2.1.1 rfl⟩
  · have other : ¬ s.e0 = 0 := fun zero => plain (none.mp zero)
    simp only [if_neg plain, if_neg other]
    rw [shown.mode]
    exact ⟨answers_quiet shown held updates.2.2.2.1.1 rfl, answers_quiet shown held updates.2.2.2.2.2.1.1 rfl⟩

theorem drop_shows (shown : s.Shows k) (held : s.cpu.queue.Shows q) :
    s.Answers (s.drop 0x04) q (k.touch .unctrl) [] [] ∧ s.Answers (s.drop 0x10) q (k.touch .unalt) [] [] := by
  have updates := mode_updates k
  have none : s.e0 = 0 ↔ k.pre = .none := by
    rw [shown.e0]
    exact prefix_zero k
  unfold KeyboardCpu.drop Keyboard.touch
  by_cases plain : k.pre = .none
  · simp only [if_pos plain, if_pos (none.mpr plain)]
    rw [shown.mode]
    exact ⟨answers_quiet shown held updates.2.2.1.2 rfl, answers_quiet shown held updates.2.2.2.2.1.2 rfl⟩
  · have other : ¬ s.e0 = 0 := fun zero => plain (none.mp zero)
    simp only [if_neg plain, if_neg other]
    rw [shown.mode]
    exact ⟨answers_quiet shown held updates.2.2.2.1.2 rfl, answers_quiet shown held updates.2.2.2.2.2.1.2 rfl⟩

theorem caps_shows (shown : s.Shows k) (held : s.cpu.queue.Shows q) :
    s.Answers s.caps q (k.touch .caps) [] (if k.capsDown then [] else [0xed, (k.touch .caps).ledByte]) := by
  have down := (mode_tests k).1
  have lights := (led_updates k).1
  unfold KeyboardCpu.caps Keyboard.touch
  rw [shown.mode]
  cases pressed : k.capsDown with
  | true =>
    have set : k.modeByte &&& 0x80 ≠ 0 := fun zero => by
      rw [down.mp zero] at pressed
      cases pressed
    rw [if_pos set]
    exact ⟨shown.mode, shown.leds, held, (List.append_nil _).symm⟩
  | false =>
    rw [if_neg (fun set => set (down.mpr pressed))]
    refine ⟨(mode_updates k).2.2.2.2.2.2.1, ?_, held, ?_⟩
    · exact (congrArg (· ^^^ 4) shown.leds).trans lights
    · change s.sent ++ [0xed, s.leds ^^^ 4] = s.sent ++ [0xed, { k with capsLock := !k.capsLock }.ledByte]
      rw [shown.leds, lights]

theorem lock_shows (shown : s.Shows k) (held : s.cpu.queue.Shows q) :
    s.Answers s.scroll q (k.touch .scroll) [] [0xed, (k.touch .scroll).ledByte] ∧
      s.Answers s.num q (k.touch .num) [] [0xed, (k.touch .num).ledByte] := by
  obtain ⟨-, num, scroll⟩ := led_updates k
  rw [← shown.leds] at num scroll
  refine ⟨⟨shown.mode, scroll, held, ?_⟩, ⟨shown.mode, num, held, ?_⟩⟩
  · exact congrArg (fun v => s.sent ++ [0xed, v]) scroll
  · exact congrArg (fun v => s.sent ++ [0xed, v]) num

/-- A character in a range is changed when a test of the mode byte is met. -/
theorem change_range {test above upto : Prop} [Decidable test] [Decidable above] [Decidable upto] {on : Bool} {c d lo : BitVec 8}
    (h : test ↔ on = false) (h' : above ↔ ¬ upto) :
    (if test then c else if c < lo then c else if above then c else d) = if on = true ∧ lo ≤ c ∧ upto then d else c := by
  cases on with
  | false => rw [if_pos (h.mpr rfl), if_neg (fun both => Bool.false_ne_true both.1)]
  | true =>
    have off : ¬ test := fun met => Bool.false_ne_true (h.mp met).symm
    rw [if_neg off]
    by_cases below : c < lo
    · rw [if_pos below, if_neg (fun both => BitVec.not_le.mpr below both.2.1)]
    · rw [if_neg below]
      by_cases beyond : above
      · rw [if_pos beyond, if_neg (fun both => h'.mp beyond both.2.2)]
      · rw [if_neg beyond, if_pos ⟨rfl, BitVec.not_lt.mp below, not_not.mp (fun no => beyond (h'.mpr no))⟩]

theorem doSelf_shows (shown : s.Shows k) (held : s.cpu.queue.Shows q) :
    ∃ s', s.doSelf scan = some s' ∧ s.Answers s' q k (k.char scan) [] := by
  obtain ⟨-, shift, ctrl, -, altgr, upper, lalt⟩ := mode_tests k
  rw [← shown.mode] at shift ctrl altgr upper lalt
  have map : (if s.mode &&& 0x20 ≠ 0 then altMap else if s.mode &&& 0x03 ≠ 0 then shiftMap else keyMap) =
      if k.altgr then altMap else if k.shift then shiftMap else keyMap := by
    simp only [ne_eq, altgr, shift, Bool.not_eq_false]
  unfold KeyboardCpu.doSelf Keyboard.char
  dsimp only
  rw [map]
  generalize (if k.altgr then altMap else if k.shift then shiftMap else keyMap).getD scan.toNat 0 = c
  by_cases no : c = 0
  · rw [if_pos no, if_pos no]
    exact ⟨s, rfl, shown.mode, shown.leds, held, (List.append_nil _).symm⟩
  · have high : ∀ c : BitVec 8, (if s.mode &&& 0x10 = 0 then c else c ||| 0x80) = if k.lalt then c ||| 0x80 else c := by
      intro c
      simp only [lalt]
      cases k.lalt with
      | false => rfl
      | true => rfl
    rw [if_neg no, if_neg no, change_range upper BitVec.not_le.symm, change_range ctrl BitVec.not_lt.symm, high]
    exact put_shows holds_char shown held

theorem minus_shows (shown : s.Shows k) (held : s.cpu.queue.Shows q) :
    ∃ s', s.minus scan = some s' ∧ s.Answers s' q k (if k.pre = .e0 then [0x2f] else k.char scan) [] := by
  have slash := prefix_one k
  rw [← shown.e0] at slash
  unfold KeyboardCpu.minus
  by_cases pad : k.pre = .e0
  · rw [if_neg (fun other => other (slash.mpr pad)), if_pos pad]
    exact put_shows (holds_char (c := 0x2f)) shown held
  · rw [if_pos (fun one => pad (slash.mp one)), if_neg pad]
    exact doSelf_shows shown held

theorem cur2_shows {i : Nat} (number : al.toNat = i) (size : i ≤ 12) (key : Keyboard.cursorKey scan = i) (shown : s.Shows k)
    (held : s.cpu.queue.Shows q) : ∃ s', s.cur2 al = some s' ∧ s.Answers s' q k (k.cursorChars scan) [] := by
  have one := prefix_one k
  have lock := led_test k
  have shift := (mode_tests k).2.1
  rw [← shown.e0] at one
  rw [← shown.leds] at lock
  rw [← shown.mode] at shift
  have moves : ∃ s', s.cur al = some s' ∧ s.Answers s' q k
      (if curTable.getD i 0 ≤ 0x39 then [0x1b, 0x5b, curTable.getD i 0, 0x7e] else [0x1b, 0x5b, curTable.getD i 0]) [] := by
    unfold KeyboardCpu.cur
    rw [number]
    exact put_shows (holds_cursor size) shown held
  unfold KeyboardCpu.cur2 Keyboard.cursorChars
  rw [key]
  by_cases pad : k.pre = .e0
  · rw [if_pos (one.mpr pad), if_pos (Or.inl pad)]
    exact moves
  · rw [if_neg (fun e0 => pad (one.mp e0))]
    by_cases off : k.numLock = false
    · rw [if_pos (lock.mpr off), if_pos (Or.inr (Or.inl off))]
      exact moves
    · rw [if_neg (fun led => off (lock.mp led))]
      by_cases up : k.shift = false
      · have letters : ¬ (k.pre = .e0 ∨ k.numLock = false ∨ k.shift = true) := by
          rintro (e0 | led | down)
          · exact pad e0
          · exact off led
          · rw [up] at down
            exact Bool.false_ne_true down
        rw [if_neg (fun down => down (shift.mpr up)), if_neg letters, number]
        exact put_shows holds_char shown held
      · have down : k.shift = true := Bool.not_eq_false _ |>.mp up
        rw [if_pos (fun zero => up (shift.mp zero)), if_pos (Or.inr (Or.inr down))]
        exact moves

theorem cursor_codes (key : Keyboard.routine scan = .cursor) : 0x47 ≤ scan.toNat ∧ scan.toNat ≤ 0x53 := by
  have codes : ∀ n < 256, KeyRoutine.keyTable.getD n .none = .cursor → 0x47 ≤ n ∧ n ≤ 0x53 := by decide +kernel
  exact codes scan.toNat scan.isLt key

theorem func_codes (key : Keyboard.routine scan = .func) :
    0x3b ≤ scan.toNat ∧ scan.toNat ≤ 0x44 ∨ 0x57 ≤ scan.toNat ∧ scan.toNat ≤ 0x58 := by
  have codes : ∀ n < 256, KeyRoutine.keyTable.getD n .none = .func → 0x3b ≤ n ∧ n ≤ 0x44 ∨ 0x57 ≤ n ∧ n ≤ 0x58 := by decide +kernel
  exact codes scan.toNat scan.isLt key

/-- The way through `cursor` for the codes that come there. -/
theorem cursor_eq (key : Keyboard.routine scan = .cursor) (shown : s.Shows k) :
    s.cursor scan = if k.reboots scan then none else s.cur2 (scan - 0x47) := by
  obtain ⟨first, last⟩ := cursor_codes key
  have ctrl := (mode_tests k).2.2.1
  have alt := (mode_tests k).2.2.2.1
  rw [← shown.mode] at ctrl alt
  have low : ¬ scan < 0x47 := by bv_omega
  have high : ¬ 12 < scan - 0x47 := by bv_omega
  have delete : scan - 0x47 = 12 ↔ scan = 0x53 := by
    constructor
    · bv_omega
    · bv_omega
  unfold KeyboardCpu.cursor Keyboard.reboots
  dsimp only
  rw [if_neg low, if_neg high]
  by_cases other : scan = 0x53
  · rw [if_neg (fun no => no (delete.mpr other)), beq_iff_eq.mpr other]
    by_cases up : k.ctrl = false
    · rw [if_pos (ctrl.mpr up), up]
      rfl
    · rw [if_neg (fun zero => up (ctrl.mp zero)), Bool.not_eq_false _ |>.mp up]
      by_cases alone : k.alt = false
      · rw [if_neg (fun no => no (alt.mpr alone)), alone]
        rfl
      · rw [if_pos (fun zero => alone (alt.mp zero)), Bool.not_eq_false _ |>.mp alone]
        rfl
  · rw [if_pos (fun twelve => other (delete.mp twelve)), beq_eq_false_iff_ne.mpr other]
    rfl

theorem cursor_shows (key : Keyboard.routine scan = .cursor) (stays : k.reboots scan = false) (shown : s.Shows k) (held : s.cpu.queue.Shows q) :
    ∃ s', s.cursor scan = some s' ∧ s.Answers s' q k (k.cursorChars scan) [] := by
  obtain ⟨first, last⟩ := cursor_codes key
  have number : (scan - 0x47).toNat = Keyboard.cursorKey scan := by
    unfold Keyboard.cursorKey
    bv_omega
  have size : Keyboard.cursorKey scan ≤ 12 := by
    unfold Keyboard.cursorKey
    omega
  rw [cursor_eq key shown, stays, if_neg Bool.false_ne_true]
  exact cur2_shows number size rfl shown held

theorem okFunc_shows {i : Nat} (number : al.toNat = i) (size : i ≤ 11) (shown : s.Shows k) (held : s.cpu.queue.Shows q) :
    ∃ s', s.okFunc al = some s' ∧
      s.Answers s' q k (if s.cpu.ecx.slt 4 then [] else [0x1b, 0x5b, 0x5b, BitVec.ofNat 8 (0x41 + i)]) [] := by
  unfold KeyboardCpu.okFunc
  cases s.cpu.ecx.slt 4 with
  | true => exact ⟨s, rfl, shown.mode, shown.leds, held, (List.append_nil _).symm⟩
  | false =>
    rw [if_neg Bool.false_ne_true, if_neg Bool.false_ne_true, number]
    exact put_shows (holds_func size) shown held

theorem func_shows (key : Keyboard.routine scan = .func) (shown : s.Shows k) (held : s.cpu.queue.Shows q) :
    ∃ s', s.func scan = some s' ∧
      s.Answers s' q k (if s.cpu.ecx.slt 4 then [] else [0x1b, 0x5b, 0x5b, BitVec.ofNat 8 (0x41 + Keyboard.funcKey scan)]) [] := by
  have codes := func_codes key
  have low : ¬ scan < 0x3b := by bv_omega
  unfold KeyboardCpu.func Keyboard.funcKey
  dsimp only
  rw [if_neg low]
  by_cases ten : scan.toNat ≤ 0x44
  · have early : scan - 0x3b ≤ 9 := by bv_omega
    rw [if_pos early, if_pos ten]
    exact okFunc_shows (by bv_omega) (by omega) shown held
  · have late : ¬ scan - 0x3b ≤ 9 := by bv_omega
    have more : ¬ scan - 0x3b - 18 < 10 := by bv_omega
    have less : ¬ 11 < scan - 0x3b - 18 := by bv_omega
    rw [if_neg late, if_neg more, if_neg less, if_neg ten]
    exact okFunc_shows (by bv_omega) (by omega) shown held

theorem call_shows (plain : ¬ (scan = 0xe0 ∨ scan = 0xe1)) (stays : k.reboots scan = false) (shown : s.Shows k) (held : s.cpu.queue.Shows q) :
    ∃ s', s.call scan (Keyboard.routine scan) = some s' ∧
      s.Answers s' q (k.touch (Keyboard.routine scan)) (k.typed scan s.cpu.ecx) (k.commands scan) := by
  have lights : (k.next scan).ledByte = (k.touch (Keyboard.routine scan)).ledByte := by
    unfold Keyboard.next
    rw [if_neg (fun e0 => plain (Or.inl e0)), if_neg (fun e1 => plain (Or.inr e1))]
    rfl
  have updates := mode_updates k
  rw [← shown.mode] at updates
  unfold Keyboard.typed Keyboard.commands
  rw [if_neg plain, if_neg plain, lights]
  cases key : Keyboard.routine scan with
  | none => exact ⟨s, rfl, shown.mode, shown.leds, held, (List.append_nil _).symm⟩
  | doSelf => exact doSelf_shows shown held
  | ctrl => exact ⟨_, rfl, (hold_shows shown held).1⟩
  | unctrl => exact ⟨_, rfl, (drop_shows shown held).1⟩
  | alt => exact ⟨_, rfl, (hold_shows shown held).2⟩
  | unalt => exact ⟨_, rfl, (drop_shows shown held).2⟩
  | lshift => exact ⟨_, rfl, answers_quiet shown held updates.1.1 rfl⟩
  | unlshift => exact ⟨_, rfl, answers_quiet shown held updates.1.2 rfl⟩
  | rshift => exact ⟨_, rfl, answers_quiet shown held updates.2.1.1 rfl⟩
  | unrshift => exact ⟨_, rfl, answers_quiet shown held updates.2.1.2 rfl⟩
  | caps => exact ⟨_, rfl, caps_shows shown held⟩
  | uncaps => exact ⟨_, rfl, answers_quiet shown held updates.2.2.2.2.2.2.2 rfl⟩
  | scroll => exact ⟨_, rfl, (lock_shows shown held).1⟩
  | num => exact ⟨_, rfl, (lock_shows shown held).2⟩
  | cursor => exact cursor_shows key stays shown held
  | func => exact func_shows key shown held
  | minus => exact minus_shows shown held

/-- One interrupt, unless it reboots. -/
theorem interrupt_shows {ebx ecx edx : BitVec 32} (stays : k.reboots scan = false) (shown : s.Shows k) (held : s.cpu.queue.Shows q) :
    ∃ s', s.interrupt scan ebx ecx edx = some s' ∧ s'.Shows (k.next scan) ∧ s'.cpu.queue.Shows (q.putQueue q (k.typed scan ecx)) ∧
      s'.sent = s.sent ++ k.commands scan := by
  unfold KeyboardCpu.interrupt
  by_cases e0 : scan = 0xe0
  · have quiet : k.typed scan ecx = [] ∧ k.commands scan = [] := ⟨if_pos (Or.inl e0), if_pos (Or.inl e0)⟩
    have next : k.next scan = { k with pre := .e0 } := if_pos e0
    rw [quiet.1, quiet.2, next]
    exact ⟨_, if_pos e0, ⟨shown.mode, shown.leds, rfl⟩, held, (List.append_nil _).symm⟩
  · by_cases e1 : scan = 0xe1
    · have quiet : k.typed scan ecx = [] ∧ k.commands scan = [] := ⟨if_pos (Or.inr e1), if_pos (Or.inr e1)⟩
      have next : k.next scan = { k with pre := .e1 } := (if_neg e0).trans (if_pos e1)
      rw [quiet.1, quiet.2, next]
      exact ⟨_, (if_neg e0).trans (if_pos e1), ⟨shown.mode, shown.leds, rfl⟩, held, (List.append_nil _).symm⟩
    · have plain : ¬ (scan = 0xe0 ∨ scan = 0xe1) := fun either => either.elim e0 e1
      have next : k.next scan = { k.touch (Keyboard.routine scan) with pre := .none } := (if_neg e0).trans (if_neg e1)
      have entered : KeyboardCpu.Shows { s with cpu := { s.cpu with eax := scan.setWidth 32, ebx := ebx, ecx := ecx, edx := edx } } k :=
        ⟨shown.mode, shown.leds, shown.e0⟩
      obtain ⟨s', run, answers⟩ := call_shows plain stays entered held
      rw [next]
      refine ⟨{ s' with e0 := 0 }, ?_, ⟨answers.mode, answers.leds, rfl⟩, answers.queue, answers.sent⟩
      exact (if_neg e0).trans ((if_neg e1).trans (congrArg (Option.map _) run))

theorem interrupt_reboots {ebx ecx edx : BitVec 32} (reboots : k.reboots scan = true) (shown : s.Shows k) :
    s.interrupt scan ebx ecx edx = none := by
  have delete : scan = 0x53 := by
    unfold Keyboard.reboots at reboots
    rw [Bool.and_eq_true, Bool.and_eq_true] at reboots
    exact beq_iff_eq.mp reboots.1.1
  have key : Keyboard.routine scan = .cursor := by
    rw [delete]
    rfl
  have entered : KeyboardCpu.Shows { s with cpu := { s.cpu with eax := scan.setWidth 32, ebx := ebx, ecx := ecx, edx := edx } } k :=
    ⟨shown.mode, shown.leds, shown.e0⟩
  have call : KeyboardCpu.call { s with cpu := { s.cpu with eax := scan.setWidth 32, ebx := ebx, ecx := ecx, edx := edx } } scan
      (Keyboard.routine scan) = none := by
    rw [key]
    exact (cursor_eq key entered).trans (if_pos reboots)
  have e0 : ¬ scan = 0xe0 := by
    rw [delete]
    decide
  have e1 : ¬ scan = 0xe1 := by
    rw [delete]
    decide
  unfold KeyboardCpu.interrupt
  exact (if_neg e0).trans ((if_neg e1).trans (congrArg (Option.map _) call))

end Routines

def KeyEvent.codes : List KeyEvent → List (BitVec 8)
  | [] => []
  | .code scan _ _ _ :: events => scan :: codes events
  | .other _ :: events => codes events

namespace Keyboard

def after (k : Keyboard) (codes : List (BitVec 8)) : Keyboard := codes.foldl next k

/-- What is sent to the keyboard for these codes. -/
def lights : Keyboard → List (BitVec 8) → List (BitVec 8)
  | _, [] => []
  | k, scan :: codes => k.commands scan ++ (k.next scan).lights codes

end Keyboard

section Runs

variable {s s' : KeyboardCpu} {k : Keyboard} {q : TtyQueue} {cpu : KeyCpu} {events : List KeyEvent} {scan : BitVec 8}

/-- The queue holds all of the characters behind what it has held, or none of them. -/
theorem appended {m m' : ReadQueue} {cs : List (BitVec 8)} (before : m.Shows q) (after : m'.Shows (q.putQueue q cs)) :
    m'.tail = m.tail ∧ (m.contents.length + cs.length < 1024 → m'.contents = m.contents ++ cs) ∧
      (1024 ≤ m.contents.length + cs.length → m'.contents = m.contents) := by
  have length : m.contents.length = q.chars := by rw [before.contents, TtyQueue.length_contents]
  have left := @TtyQueue.left_eq q
  unfold ttyBufSize at left
  refine ⟨?_, fun fits => ?_, fun crowded => ?_⟩
  · apply BitVec.eq_of_toNat_eq
    rw [after.tail, before.tail, TtyQueue.putQueue_tail rfl]
  · have room : cs.length ≤ q.left.val := by omega
    rw [TtyQueue.putQueue_room room] at after
    rw [after.contents, before.contents, (TtyQueue.contents_putAll room).1]
  · have size := @TtyQueue.chars_lt q
    unfold ttyBufSize at size
    have full : q.left.val < cs.length := by omega
    rw [after.contents, before.contents, (TtyQueue.putQueue_full full rfl (List.append_nil _).symm).2]

/-- The indices of the queue are in range. -/
def KeyCpu.InRange (cpu : KeyCpu) : Prop := cpu.queue.head.toNat < ttyBufSize ∧ cpu.queue.tail.toNat < ttyBufSize

theorem shows_range (held : cpu.queue.Shows q) : cpu.InRange := by
  constructor
  · rw [held.head]
    exact q.head.isLt
  · rw [held.tail]
    exact q.tail.isLt

theorem keyboard_run (shown : s.Shows k) (range : s.cpu.InRange) (run : Machine.exec keyboardStep s events = some s') :
    s'.Shows (k.after (KeyEvent.codes events)) ∧ s'.cpu.InRange ∧ s'.sent = s.sent ++ k.lights (KeyEvent.codes events) := by
  induction events generalizing s k with
  | nil =>
    cases Option.some.inj run
    exact ⟨shown, range, (List.append_nil _).symm⟩
  | cons e events ih =>
    obtain ⟨t, step, rest⟩ := Option.bind_eq_some_iff.mp run
    cases e with
    | code scan ebx ecx edx =>
      have step : s.interrupt scan ebx ecx edx = some t := step
      have stays : k.reboots scan = false := by
        by_contra reboots
        rw [interrupt_reboots (Bool.not_eq_false _ |>.mp reboots) shown] at step
        cases step
      obtain ⟨t', call, shows, queue, sent⟩ := @interrupt_shows _ _ _ _ ebx ecx edx stays shown
        (ReadQueue.shows_tty range.1 range.2)
      cases Option.some.inj (step.symm.trans call)
      obtain ⟨final, inside, all⟩ := ih shows (shows_range queue) rest
      refine ⟨final, inside, ?_⟩
      rw [all, sent, List.append_assoc]
      rfl
    | other cpu =>
      obtain ⟨inside, same⟩ := Option.ite_none_right_eq_some.mp step
      cases Option.some.inj same
      exact ih (s := { s with cpu := cpu }) ⟨shown.mode, shown.leds, shown.e0⟩ inside rest

theorem init_shows : (keyboardInit cpu).Shows Keyboard.init := ⟨rfl, rfl, rfl⟩

/-- After any run the three bytes say which keys are held, which locks are on and which prefix has been read, and the lights have been sent
to the keyboard as it says. The next code puts what the keyboard has for it into the queue, all of it or, without the room, nothing; only the
delete key with a control key and an alt key does not come back. -/
theorem keyboard_refines (range : cpu.InRange) (run : Machine.exec keyboardStep (keyboardInit cpu) events = some s) (ebx ecx edx : BitVec 32) :
    s.Shows (Keyboard.init.after (KeyEvent.codes events)) ∧ s.sent = Keyboard.init.lights (KeyEvent.codes events) ∧
      ((Keyboard.init.after (KeyEvent.codes events)).reboots scan = true ↔ keyboardStep s (.code scan ebx ecx edx) = none) ∧
      ∀ s', keyboardStep s (.code scan ebx ecx edx) = some s' →
        s'.cpu.queue.tail = s.cpu.queue.tail ∧
          s'.cpu.queue.contents =
            if s.cpu.queue.contents.length + ((Keyboard.init.after (KeyEvent.codes events)).typed scan ecx).length < 1024 then
              s.cpu.queue.contents ++ (Keyboard.init.after (KeyEvent.codes events)).typed scan ecx
            else s.cpu.queue.contents := by
  obtain ⟨shown, inside, sent⟩ := keyboard_run init_shows range run
  generalize Keyboard.init.after (KeyEvent.codes events) = k at shown ⊢
  refine ⟨shown, sent, ⟨fun reboots => interrupt_reboots reboots shown, fun gone => ?_⟩, fun s' step => ?_⟩
  · by_contra stays
    obtain ⟨t, call, -⟩ := @interrupt_shows _ _ _ _ ebx ecx edx (Bool.not_eq_true _ |>.mp stays) shown
      (ReadQueue.shows_tty inside.1 inside.2)
    have gone : s.interrupt scan ebx ecx edx = none := gone
    rw [call] at gone
    cases gone
  · have step : s.interrupt scan ebx ecx edx = some s' := step
    have stays : k.reboots scan = false := by
      by_contra reboots
      rw [interrupt_reboots (Bool.not_eq_false _ |>.mp reboots) shown] at step
      cases step
    obtain ⟨t, call, -, queue, -⟩ := @interrupt_shows _ _ _ _ ebx ecx edx stays shown
      (ReadQueue.shows_tty inside.1 inside.2)
    cases Option.some.inj (step.symm.trans call)
    obtain ⟨tail, fits, crowded⟩ := appended (ReadQueue.shows_tty inside.1 inside.2) queue
    refine ⟨tail, ?_⟩
    split
    next room => exact fits room
    next full => exact crowded (not_lt.mp full)

/-- An empty queue. -/
def idleKeys : KeyCpu where
  eax := 0
  ebx := 0
  ecx := 0
  edx := 0
  zf := false
  stack := []
  tableList := 0x20000
  queue := { data := 0, head := 0, tail := 0, procList := 0, buf := fun _ => 0 }
  state := fun _ => 1

/-- Control, alt and delete. -/
theorem keyboard_refines_reboot :
    ∃ s, Machine.exec keyboardStep (keyboardInit idleKeys) [.code 0x1d 0 0 0, .code 0x38 0 0 0] = some s ∧
      s.Shows { Keyboard.init with lctrl := true, lalt := true } ∧ keyboardStep s (.code 0x53 0 0 0) = none := by
  refine ⟨_, rfl, ?_⟩
  obtain ⟨shown, -, reboots, -⟩ := @keyboard_refines _ idleKeys [.code 0x1d 0 0 0, .code 0x38 0 0 0] 0x53 ⟨by decide, by decide⟩ rfl 0 0 0
  exact ⟨shown, reboots.mp (by decide)⟩

/-- The keys whose bits are in the mode byte. -/
inductive Modifier
  | lshift
  | rshift
  | lctrl
  | rctrl
  | lalt
  | altgr
deriving DecidableEq

namespace Modifier

def bit : Modifier → BitVec 8
  | lshift => 0x01
  | rshift => 0x02
  | lctrl => 0x04
  | rctrl => 0x08
  | lalt => 0x10
  | altgr => 0x20

def isHeld (k : Keyboard) : Modifier → Bool
  | lshift => k.lshift
  | rshift => k.rshift
  | lctrl => k.lctrl
  | rctrl => k.rctrl
  | lalt => k.lalt
  | altgr => k.altgr

/-- Whether a code presses the key or lets it go; any prefix makes a control or alt key the right one, and none matters to a shift key. -/
def touched (m : Modifier) (pre : KeyPrefix) (scan : BitVec 8) : Option Bool :=
  match Keyboard.routine scan, m with
  | .lshift, lshift | .rshift, rshift => some true
  | .unlshift, lshift | .unrshift, rshift => some false
  | .ctrl, lctrl | .alt, lalt => if pre = .none then some true else none
  | .unctrl, lctrl | .unalt, lalt => if pre = .none then some false else none
  | .ctrl, rctrl | .alt, altgr => if pre = .none then none else some true
  | .unctrl, rctrl | .unalt, altgr => if pre = .none then none else some false
  | _, _ => none

def prefixAfter (scan : BitVec 8) : KeyPrefix := if scan = 0xe0 then .e0 else if scan = 0xe1 then .e1 else .none

/-- What happens to the key, in order. -/
def touches (m : Modifier) : KeyPrefix → List (BitVec 8) → List Bool
  | _, [] => []
  | pre, scan :: codes => (m.touched pre scan).toList ++ m.touches (prefixAfter scan) codes

variable {m : Modifier}

theorem touched_prefix (h : scan = 0xe0 ∨ scan = 0xe1) {pre : KeyPrefix} : m.touched pre scan = none := by
  have key : Keyboard.routine scan = .none := by
    rcases h with rfl | rfl
    · rfl
    · rfl
  unfold touched
  rw [key]

theorem isHeld_touch {r : KeyRoutine} (key : Keyboard.routine scan = r) : m.isHeld (k.touch r) = (m.touched k.pre scan).getD (m.isHeld k) := by
  unfold touched Keyboard.touch
  rw [key]
  by_cases plain : k.pre = .none
  · cases r <;> cases m <;> simp only [plain, if_true, isHeld, Option.getD_some, Option.getD_none, apply_ite, ite_self]
  · cases r <;> cases m <;> simp only [plain, if_false, isHeld, Option.getD_some, Option.getD_none, apply_ite, ite_self]

theorem isHeld_pre {p : KeyPrefix} : m.isHeld { k with pre := p } = m.isHeld k := by cases m <;> rfl

theorem isHeld_next : m.isHeld (k.next scan) = (m.touched k.pre scan).getD (m.isHeld k) ∧ (k.next scan).pre = prefixAfter scan := by
  unfold Keyboard.next prefixAfter
  by_cases e0 : scan = 0xe0
  · rw [if_pos e0, if_pos e0, touched_prefix (Or.inl e0)]
    exact ⟨isHeld_pre, rfl⟩
  · rw [if_neg e0, if_neg e0]
    by_cases e1 : scan = 0xe1
    · rw [if_pos e1, if_pos e1, touched_prefix (Or.inr e1)]
      exact ⟨isHeld_pre, rfl⟩
    · rw [if_neg e1, if_neg e1, isHeld_pre]
      exact ⟨isHeld_touch rfl, rfl⟩

theorem isHeld_after {codes : List (BitVec 8)} : m.isHeld (k.after codes) = (m.touches k.pre codes).getLast?.getD (m.isHeld k) := by
  induction codes generalizing k with
  | nil => rfl
  | cons scan codes ih =>
    obtain ⟨held, pre⟩ := @isHeld_next k scan m
    have first : m.isHeld (k.after (scan :: codes)) = m.isHeld ((k.next scan).after codes) := rfl
    rw [first, ih, held, pre, touches, List.getLast?_append]
    cases (m.touches (prefixAfter scan) codes).getLast? with
    | some last => rfl
    | none =>
      cases m.touched k.pre scan with
      | some down => rfl
      | none => rfl

theorem bit_modeByte (k : Keyboard) (m : Modifier) : k.modeByte &&& m.bit ≠ 0 ↔ m.isHeld k = true := by
  obtain ⟨a, b, c, d, e, f, g, h, n, l, p⟩ := k
  unfold Keyboard.modeByte isHeld bit
  dsimp only
  clear n l p
  cases m with
  | lshift => revert a b c d e f g h; decide +kernel
  | rshift => revert a b c d e f g h; decide +kernel
  | lctrl => revert a b c d e f g h; decide +kernel
  | rctrl => revert a b c d e f g h; decide +kernel
  | lalt => revert a b c d e f g h; decide +kernel
  | altgr => revert a b c d e f g h; decide +kernel

end Modifier

theorem ledByte_ite {test : Prop} [Decidable test] {k' : Keyboard} {c : BitVec 8} (h : k.ledByte = c) (h' : k'.ledByte = c) :
    (if test then k else k').ledByte = c := by
  split
  next => exact h
  next => exact h'

/-- What is sent is the command for the lights and the byte of the locks; a code that sends nothing leaves them alone. -/
theorem commands_next (k : Keyboard) (scan : BitVec 8) :
    k.commands scan = [] ∧ (k.next scan).ledByte = k.ledByte ∨ k.commands scan = [0xed, (k.next scan).ledByte] := by
  unfold Keyboard.commands
  by_cases e0 : scan = 0xe0
  · rw [if_pos (Or.inl e0), Keyboard.next, if_pos e0]
    exact Or.inl ⟨rfl, rfl⟩
  · by_cases e1 : scan = 0xe1
    · rw [if_pos (Or.inr e1), Keyboard.next, if_neg e0, if_pos e1]
      exact Or.inl ⟨rfl, rfl⟩
    · rw [if_neg (fun either => either.elim e0 e1), Keyboard.next, if_neg e0, if_neg e1]
      cases Keyboard.routine scan with
      | caps =>
        unfold Keyboard.touch
        cases k.capsDown with
        | true => exact Or.inl ⟨rfl, rfl⟩
        | false => exact Or.inr rfl
      | scroll | num => exact Or.inr rfl
      | ctrl | unctrl | alt | unalt => exact Or.inl ⟨rfl, ledByte_ite rfl rfl⟩
      | none | doSelf | lshift | unlshift | rshift | unrshift | uncaps | cursor | func | minus => exact Or.inl ⟨rfl, rfl⟩

theorem lights_after {codes : List (BitVec 8)} :
    k.lights codes = [] ∧ (k.after codes).ledByte = k.ledByte ∨ (k.lights codes).getLast? = some (k.after codes).ledByte := by
  induction codes generalizing k with
  | nil => exact Or.inl ⟨rfl, rfl⟩
  | cons scan codes ih =>
    have later : k.after (scan :: codes) = (k.next scan).after codes := rfl
    rw [Keyboard.lights, later, List.getLast?_append]
    rcases @ih (k.next scan) with ⟨quiet, same⟩ | last
    · rw [quiet, same]
      rcases commands_next k scan with ⟨none, kept⟩ | sent
      · exact Or.inl ⟨by rw [none, List.append_nil], kept⟩
      · rw [sent]
        exact Or.inr rfl
    · rw [last]
      exact Or.inr rfl

/-- A bit of the mode byte says whether the last code for its key was a press. The lights show the lock for capitals that the mode byte has,
and the byte that was sent last is the byte of the lights. -/
theorem modifiers_last (range : cpu.InRange) (run : Machine.exec keyboardStep (keyboardInit cpu) events = some s) :
    (∀ m : Modifier, s.mode &&& m.bit ≠ 0 ↔ (m.touches .none (KeyEvent.codes events)).getLast? = some true) ∧
      (s.leds &&& 4 ≠ 0 ↔ s.mode &&& 0x40 ≠ 0) ∧ (s.sent = [] ∧ s.leds = 2 ∨ s.sent.getLast? = some s.leds) := by
  obtain ⟨shown, -, sent⟩ := keyboard_run init_shows range run
  refine ⟨fun m => ?_, ?_, ?_⟩
  · have up : m.isHeld Keyboard.init = false := by cases m <;> rfl
    rw [shown.mode, Modifier.bit_modeByte, Modifier.isHeld_after, up]
    change (m.touches .none _).getLast?.getD false = true ↔ _
    cases (m.touches .none (KeyEvent.codes events)).getLast? with
    | none => exact iff_of_false Bool.false_ne_true (fun h => nomatch h)
    | some down => exact Option.some_inj.symm
  · rw [shown.leds, shown.mode]
    obtain ⟨a, b, c, d, e, f, g, h, n, l, p⟩ := Keyboard.init.after (KeyEvent.codes events)
    unfold Keyboard.ledByte Keyboard.modeByte
    dsimp only
    clear p
    revert a b c d e f g h n l
    decide +kernel
  · have sent : s.sent = Keyboard.init.lights (KeyEvent.codes events) := sent
    rw [sent, shown.leds]
    exact lights_after

/-- The left control key is down when the right one has been let go. -/
theorem modifiers_last_control :
    ∃ s, Machine.exec keyboardStep (keyboardInit idleKeys) [.code 0x1d 0 0 0, .code 0xe0 0 0 0, .code 0x1d 0 0 0, .code 0xe0 0 0 0,
        .code 0x9d 0 0 0] = some s ∧ s.mode &&& 0x04 ≠ 0 ∧ ¬ s.mode &&& 0x08 ≠ 0 := by
  refine ⟨_, rfl, ?_⟩
  obtain ⟨bits, -⟩ := @modifiers_last _ idleKeys [.code 0x1d 0 0 0, .code 0xe0 0 0 0, .code 0x1d 0 0 0, .code 0xe0 0 0 0, .code 0x9d 0 0 0]
    ⟨by decide, by decide⟩ rfl
  exact ⟨(bits .lctrl).mpr (by decide), fun set => absurd ((bits .rctrl).mp set) (by decide)⟩

end Runs

end RheeKernel
