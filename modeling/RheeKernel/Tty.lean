import RheeKernel.Console
import RheeKernel.TtyQueue

namespace RheeKernel

structure Termios where
  iflag : BitVec 32
  lflag : BitVec 32
  cc : Nat → BitVec 8

namespace Termios

def crnl (t : Termios) : Bool := t.iflag &&& 0o400 ≠ 0
def nocr (t : Termios) : Bool := t.iflag &&& 0o200 ≠ 0
def nlcr (t : Termios) : Bool := t.iflag &&& 0o100 ≠ 0
def uclc (t : Termios) : Bool := t.iflag &&& 0o1000 ≠ 0
def isig (t : Termios) : Bool := t.lflag &&& 0o1 ≠ 0
def canon (t : Termios) : Bool := t.lflag &&& 0o2 ≠ 0
def echo (t : Termios) : Bool := t.lflag &&& 0o10 ≠ 0
def echoctl (t : Termios) : Bool := t.lflag &&& 0o1000 ≠ 0

def intr (t : Termios) : BitVec 8 := t.cc 0
def erase (t : Termios) : BitVec 8 := t.cc 2
def eof (t : Termios) : BitVec 8 := t.cc 4
def start (t : Termios) : BitVec 8 := t.cc 8
def stop (t : Termios) : BitVec 8 := t.cc 9

end Termios

/-- A terminal; without a console it is a serial line. `upper` says what `isupper` finds for a negative character, in front of `_ctype`. -/
structure Tty where
  termios : Termios
  stopped : Bool
  console : Option Console
  upper : BitVec 8 → Bool
  readQ : TtyQueue
  writeQ : TtyQueue
  secondary : TtyQueue

/-- `INIT_C_CC`. -/
def initCc : List (BitVec 8) := [3, 28, 127, 21, 4, 0, 1, 0, 17, 19, 25, 0, 18, 15, 23, 22, 0]

/-- `tty_table`: the console has ICANON, ECHO, ECHOCTL and ECHOKE, a line no flags. -/
def ttyInit (console : Option Console) (upper : BitVec 8 → Bool) : Tty where
  termios := { iflag := 0, lflag := if console.isSome then 0o2 ||| 0o10 ||| 0o1000 ||| 0o4000 else 0, cc := fun i => initCc.getD i 0 }
  stopped := false
  console := console
  upper := upper
  readQ := .init
  writeQ := .init
  secondary := .init

/-- What is left to do of the calls under way: the loop of `copy_to_cooked`, what that does behind the echo of a character that is kept or
erased, `tty->write`, the loop of `con_write` with `nr` characters to go, and `respond`. -/
inductive TtyFrame
  | cooked
  | put (c : BitVec 8)
  | dec
  | write
  | conWrite (nr : Nat)
  | respond
deriving DecidableEq

structure TtyRun where
  tty : Tty
  frames : List TtyFrame

/-- A `signed char` against an `unsigned char`. -/
def sameChar (c cc : BitVec 8) : Bool := c.toInt = cc.toNat

namespace Tty

def isUpper (t : Tty) (c : BitVec 8) : Bool :=
  if 0 ≤ c.toInt then 65 ≤ c.toInt ∧ c.toInt ≤ 90 else if c.toInt = -1 then false else t.upper c

def toLower (t : Tty) (c : BitVec 8) : BitVec 8 := if t.isUpper c then c + (97 + 65) else c

/-- The character that the input flags make of `c`; a CR may be ignored. -/
def mapped (t : Tty) (c : BitVec 8) : Option (BitVec 8) :=
  let c := if c = 13 then if t.termios.crnl then some 10 else if t.termios.nocr then none else some 13
    else if c = 10 ∧ t.termios.nlcr then some 13 else some c
  c.map fun c => if t.termios.uclc then t.toLower c else c

def isEnd (t : Tty) (c : BitVec 8) : Bool := c = 10 || sameChar c t.termios.eof

/-- The characters that the echo of `c` puts into the write queue. -/
def echoed (t : Tty) (c : BitVec 8) : List (BitVec 8) :=
  if c = 10 then [10, 13]
  else if c.toInt < 32 then if t.termios.echoctl then [Console.byte '^', c + 64] else []
  else [c]

/-- The end of the loop for a character that is kept. -/
def keep (t : Tty) (c : BitVec 8) (k : List TtyFrame) : TtyRun :=
  let t := if t.isEnd c then { t with secondary := { t.secondary with data := t.secondary.data + 1 } } else t
  if t.termios.echo then ⟨{ t with writeQ := t.writeQ.putAll (t.echoed c) }, .write :: .put c :: .cooked :: k⟩
  else ⟨{ t with secondary := t.secondary.putch c }, .cooked :: k⟩

/-- The characters that the echo of an erased `c` puts into the write queue. -/
def rubbed (c : BitVec 8) : List (BitVec 8) := if c.toInt < 32 then [127, 127] else [127]

def eraseLast (t : Tty) (k : List TtyFrame) : TtyRun :=
  if t.secondary.isEmpty ∨ t.isEnd t.secondary.last then ⟨t, .cooked :: k⟩
  else if t.termios.echo then ⟨{ t with writeQ := t.writeQ.putAll (rubbed t.secondary.last) }, .write :: .dec :: .cooked :: k⟩
  else ⟨{ t with secondary := t.secondary.dec }, .cooked :: k⟩

/-- The loop for the character `c`. -/
def cook (t : Tty) (c : BitVec 8) (k : List TtyFrame) : TtyRun :=
  if t.termios.canon ∧ sameChar c t.termios.erase then t.eraseLast k
  else if t.termios.canon ∧ sameChar c t.termios.stop then ⟨{ t with stopped := true }, .cooked :: k⟩
  else if t.termios.canon ∧ sameChar c t.termios.start then ⟨{ t with stopped := false }, .cooked :: k⟩
  else if ¬ t.termios.isig ∧ sameChar c t.termios.intr then ⟨t, .cooked :: k⟩
  else t.keep c k

def copyToCooked (t : Tty) (k : List TtyFrame) : TtyRun :=
  if t.readQ.isEmpty ∨ t.secondary.isFull then ⟨t, k⟩
  else
    let c := t.readQ.first
    let t := { t with readQ := t.readQ.getch }
    (t.mapped c).elim ⟨t, .cooked :: k⟩ fun c => t.cook c k

/-- `tty->write`; `rs_write` only lets the line ask for characters. -/
def write (t : Tty) (k : List TtyFrame) : TtyRun :=
  if t.console.isSome then ⟨t, .conWrite t.writeQ.chars :: k⟩ else ⟨t, k⟩

/-- The loop of `con_write` with a character to go. -/
def conWrite (t : Tty) (s : Console) (nr : Nat) (k : List TtyFrame) : TtyRun :=
  let c := t.writeQ.first
  ⟨{ t with writeQ := t.writeQ.getch, console := some (s.write t.termios.erase c) },
    if s.asks c then .respond :: .conWrite nr :: k else .conWrite nr :: k⟩

/-- `RESPONSE`. -/
def response : List (BitVec 8) := [27, Console.byte '[', Console.byte '?', Console.byte '1', Console.byte ';', Console.byte '2', Console.byte 'c']

def respond (t : Tty) (k : List TtyFrame) : TtyRun := ⟨{ t with readQ := t.readQ.putAll response }, .cooked :: k⟩

end Tty

/-- The next step of the innermost call. -/
def TtyRun.next (s : TtyRun) : Option TtyRun :=
  match s.frames with
  | [] => none
  | .cooked :: k => some (s.tty.copyToCooked k)
  | .put c :: k => some ⟨{ s.tty with secondary := s.tty.secondary.putch c }, k⟩
  | .dec :: k => some ⟨{ s.tty with secondary := s.tty.secondary.dec }, k⟩
  | .write :: k => some (s.tty.write k)
  | .conWrite 0 :: k => some ⟨s.tty, k⟩
  | .conWrite (nr + 1) :: k => s.tty.console.map fun c => s.tty.conWrite c nr k
  | .respond :: k => some (s.tty.respond k)

/-- A step of the calls under way, or one from outside: an interrupt of the keyboard or the line, a character or the end of a stretch of
`tty_write`, a character for `tty_read`, new flags. -/
inductive TtyEvent
  | next
  | keyboard (cs : List (BitVec 8))
  | receive (c : BitVec 8)
  | transmit
  | put (c : BitVec 8)
  | flush
  | read
  | ioctl (termios : Termios)

namespace TtyRun

/-- `tty_read` takes a character. -/
def read (t : Tty) : Tty :=
  let c := t.secondary.first
  let q := t.secondary.getch
  { t with secondary := if t.isEnd c then { q with data := q.data - 1 } else q }

end TtyRun

/-- The line interrupts only where no call is under way that is an interrupt of the line itself. -/
def ttyStep (s : TtyRun) : TtyEvent → Option TtyRun
  | .next => s.next
  | .keyboard cs => if s.tty.console.isSome then
      some ⟨{ s.tty with readQ := s.tty.readQ.putQueue s.tty.readQ cs }, .cooked :: s.frames⟩ else none
  | .receive c => if s.tty.console.isNone ∧ (s.frames = [] ∨ s.frames = [.write]) then
      some ⟨{ s.tty with readQ := s.tty.readQ.putQueue s.tty.readQ [c] },
        if s.tty.readQ.isFull then s.frames else .cooked :: s.frames⟩ else none
  | .transmit => if s.tty.console.isNone ∧ (s.frames = [] ∨ s.frames = [.write]) then
      some (if s.tty.writeQ.isEmpty then s else { s with tty := { s.tty with writeQ := s.tty.writeQ.getch } }) else none
  | .put c => if s.frames = [] ∧ s.tty.writeQ.isFull = false then
      some { s with tty := { s.tty with writeQ := s.tty.writeQ.putch c } } else none
  | .flush => if s.frames = [] then some { s with frames := [.write] } else none
  | .ioctl termios => if s.frames = [] then some { s with tty := { s.tty with termios := termios } } else none
  | .read => if s.frames = [] ∧ s.tty.secondary.isEmpty = false then some { s with tty := TtyRun.read s.tty } else none

end RheeKernel
