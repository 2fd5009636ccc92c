import RheeKernel.Machine
import RheeKernel.Scheduler
import RheeKernel.TtyTurns

namespace RheeKernel

namespace Termios

def vtime (t : Termios) : BitVec 8 := t.cc 5
def vmin (t : Termios) : BitVec 8 := t.cc 6

end Termios

/-- The bits of SIGINT and SIGALRM; `alrmMask` is `ALRMMASK`. -/
def sigInt : Nat := 1
def sigAlrm : Nat := 13
def alrmMask : Nat := 2 ^ sigAlrm

def eintr : Int := 4

/-- Where a call of `tty_read` stands: at the head of its loop, in `sleep_if_empty`, at the head of the inner loop, in `put_fs_byte`, behind the
inner loop, or it has returned. -/
inductive TtyReadAt
  | loop
  | sleep
  | copy
  | store (c : BitVec 8)
  | tail
  | done (result : Int)
deriving DecidableEq

/-- A call of `tty_read` with the characters that it has stored at `buf`. The code does not look at the last three fields: whether the caller's
own alarm has expired, and whether a SIGALRM is pending that the timer of the call has caused, or something else. -/
structure TtyReading where
  tty : Tty
  current : SchedTask
  jiffies : Int
  pos : TtyReadAt
  got : List (BitVec 8)
  nr : Int
  minimum : Int
  time : Int
  flag : Bool
  oldalarm : Int
  expired : Bool
  timedOut : Bool
  alrmed : Bool

/-- The timer of the call runs out before the caller's alarm, if there is one. -/
def timerFirst (oldalarm time jiffies : Int) : Bool := oldalarm = 0 ∨ long (time + jiffies) < oldalarm

/-- `tty_read` up to its loop. -/
def ttyRead (tty : Tty) (current : SchedTask) (jiffies : Int) (channel : Nat) (nr : Int) : TtyReading :=
  let call : TtyReading :=
    { tty := tty, current := current, jiffies := jiffies, pos := .done (-1), got := [], nr := nr, minimum := 0, time := 0, flag := false
      oldalarm := current.alarm, expired := false, timedOut := false, alrmed := current.signal.testBit sigAlrm }
  if 2 < channel ∨ nr < 0 then call
  else
    let time : Int := 10 * tty.termios.vtime.toNat
    let minimum : Int := tty.termios.vmin.toNat
    let timed := decide (time ≠ 0 ∧ minimum = 0)
    let flag := timed && timerFirst current.alarm time jiffies
    let minimum := if timed then 1 else minimum
    { call with
      current := if flag then { current with alarm := long (time + jiffies) } else current
      pos := .loop
      minimum := if nr < minimum then nr else minimum
      time := time
      flag := flag }

namespace TtyReading

def alrmPending (s : TtyReading) : Bool := s.current.signal.testBit sigAlrm

def canon (s : TtyReading) : Bool := s.tty.termios.canon

/-- There is nothing to read, or no line has come to its end and there is room for more. -/
def waits (s : TtyReading) : Bool :=
  s.tty.secondary.isEmpty ∨ s.canon ∧ s.tty.secondary.data = 0 ∧ 20 < s.tty.secondary.left.val

/-- What follows the loop. -/
def leave (s : TtyReading) : TtyReading :=
  { s with
    current := { s.current with alarm := s.oldalarm }
    pos := .done (if s.current.signal ≠ 0 ∧ s.got = [] then -eintr else s.got.length) }

/-- `current->signal &= ~ALRMMASK`. -/
def clearAlrm (s : TtyReading) : TtyReading :=
  { s with
    current := { s.current with signal := s.current.signal &&& (2 ^ 32 - 1 - alrmMask) }
    timedOut := false
    alrmed := false }

/-- The loop up to the inner loop. -/
def head (s : TtyReading) : TtyReading :=
  if s.nr ≤ 0 then s.leave
  else if s.flag ∧ s.alrmPending then s.clearAlrm.leave
  else if s.current.signal ≠ 0 then s.leave
  else if s.waits then { s with pos := .sleep }
  else { s with pos := .copy }

/-- The next character ends the file. -/
def atEof (s : TtyReading) : Bool := sameChar s.tty.secondary.first s.tty.termios.eof && s.canon

/-- The inner loop up to `put_fs_byte`; an end of the file ends the call. -/
def copyNext (s : TtyReading) : TtyReading :=
  { s with
    tty := TtyRun.read s.tty
    pos := if s.atEof then .done s.got.length else .store s.tty.secondary.first }

def storeNext (s : TtyReading) (c : BitVec 8) : TtyReading :=
  { s with
    got := s.got ++ [c]
    nr := s.nr - 1
    pos := if 0 < s.nr - 1 ∧ s.tty.secondary.isEmpty = false then .copy else .tail }

/-- The timer is set anew for the next character, unless the caller's alarm comes first. -/
def rearm (s : TtyReading) : TtyReading :=
  if s.time ≠ 0 ∧ s.canon = false then
    { s with
      flag := timerFirst s.oldalarm s.time s.jiffies
      current := { s.current with alarm := if timerFirst s.oldalarm s.time s.jiffies then long (s.time + s.jiffies) else s.oldalarm } }
  else s

/-- The call has read enough: a line or a part of one, or the minimum. -/
def enough (s : TtyReading) : Bool := if s.canon then s.got ≠ [] else s.minimum ≤ s.got.length

/-- The loop behind the inner loop. -/
def tailNext (s : TtyReading) : TtyReading := if s.rearm.enough then s.rearm.leave else { s.rearm with pos := .loop }

def returned (s : TtyReading) : Bool :=
  match s.pos with
  | .done _ => true
  | _ => false

theorem not_returned {s : TtyReading} {a : TtyReadAt} (hpos : s.pos = a) (hlive : ∀ r, a ≠ .done r) : s.returned = false := by
  unfold returned
  split
  next r hr => exact absurd (hpos.symm.trans hr) (hlive r)
  next => rfl

/-- Other tasks can run: the call sleeps, or `put_fs_byte` waits for the page. -/
def away (s : TtyReading) : Bool :=
  match s.pos with
  | .sleep | .store _ => true
  | _ => false

/-- The next step of the call; it goes on sleeping as long as there is neither a character nor a signal. -/
def next (s : TtyReading) : Option TtyReading :=
  match s.pos with
  | .loop => some s.head
  | .sleep => if s.current.signal = 0 ∧ s.tty.secondary.isEmpty then none else some { s with pos := .loop }
  | .copy => some s.copyNext
  | .store c => some (s.storeNext c)
  | .tail => some s.tailNext
  | .done _ => none

/-- An alarm of the running task is over. -/
def rings (s : TtyReading) : Bool := s.current.alarm ≠ 0 ∧ s.current.alarm < s.jiffies

/-- The first loop of a `schedule` by whoever runs. -/
def scheduled (s : TtyReading) : TtyReading :=
  { s with
    current := s.current.check s.jiffies
    expired := s.expired || s.rings && !s.flag
    timedOut := s.timedOut || s.rings && s.flag
    alrmed := s.alrmed || s.rings && !s.flag }

def signalled (s : TtyReading) (sig : Nat) : TtyReading :=
  { s with
    current := { s.current with signal := s.current.signal ||| 2 ^ sig }
    alrmed := s.alrmed || sig == sigAlrm }

end TtyReading

/-- A step of the call, or one from outside: the clock, another task's `schedule` or signal, the INTR character, a turn of `copy_to_cooked` that
keeps a character or erases one, a character for another reader. -/
inductive TtyReadEvent
  | next
  | tick
  | schedule
  | signal (sig : Nat)
  | put (c : BitVec 8)
  | rub
  | take
deriving DecidableEq

/-- The call is over when it has returned. -/
def ttyReadStep (s : TtyReading) (e : TtyReadEvent) : Option TtyReading :=
  if s.returned then none
  else
    match e with
    | .next => s.next
    | .tick => some { s with jiffies := long (s.jiffies + 1) }
    | .schedule => if s.away then some s.scheduled else none
    | .signal sig => if s.away ∨ sig = sigInt then some (s.signalled sig) else none
    | .put c => if s.tty.secondary.isFull then none else some { s with tty := { s.tty with secondary := (s.tty.counted c).putch c } }
    | .rub => if s.tty.secondary.isEmpty ∨ s.tty.isEnd s.tty.secondary.last then none
        else some { s with tty := { s.tty with secondary := s.tty.secondary.dec } }
    | .take => if s.away ∧ s.tty.secondary.isEmpty = false then some { s with tty := TtyRun.read s.tty } else none

end RheeKernel
