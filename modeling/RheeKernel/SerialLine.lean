import RheeKernel.KeyQueue
import RheeKernel.Machine
import RheeKernel.TtyTurns
import RheeKernel.Uart

namespace RheeKernel

/-- What the routines of `rs_io.s` work on: the queue that the second entry of `table_list` points to, the chip, and the words that begin the
task structures, their states. -/
structure RsCpu where
  queue : ReadQueue
  uart : Uart
  state : BitVec 32 → BitVec 32

namespace RsCpu

/-- A task that waits for the queue is woken. -/
def wake (s : RsCpu) : RsCpu :=
  let ebx := s.queue.procList
  if ebx = 0 then s else { s with state := Function.update s.state ebx 0 }

def writeBufferEmpty (s : RsCpu) : RsCpu :=
  let s := s.wake
  let al := s.uart.ier
  { s with uart := s.uart.setIer (al &&& 0xd) }

/-- `write_char` from its label 1 on. -/
def send (s : RsCpu) : RsCpu :=
  let ebx := s.queue.tail
  let al := s.queue.buf ebx.toNat
  let s := { s with uart := s.uart.out al }
  let ebx := ebx + 1
  let ebx := ebx &&& (1024 - 1)
  let s := { s with queue := { s.queue with tail := ebx } }
  if ebx = s.queue.head then s.writeBufferEmpty else s

def writeChar (s : RsCpu) : RsCpu :=
  let ebx := s.queue.head
  let ebx := ebx - s.queue.tail
  let ebx := ebx &&& (1024 - 1)
  if ebx = 0 then s.writeBufferEmpty
  else if 256 < ebx then s.send
  else s.wake.send

/-- `read_char` on the read queue; the second component says whether `do_tty_interrupt` is called. -/
def readChar (s : RsCpu) : RsCpu × Bool :=
  let (al, uart) := s.uart.readData
  let s := { s with uart := uart }
  let ebx := s.queue.head
  let s := { s with queue := { s.queue with buf := Function.update s.queue.buf ebx.toNat al } }
  let ebx := ebx + 1
  let ebx := ebx &&& (1024 - 1)
  if ebx = s.queue.tail then (s, false) else ({ s with queue := { s.queue with head := ebx } }, true)

end RsCpu

/-- A terminal on a line with its chip. `waiter` says that the task that waits for the write queue sleeps, `owed` that `tty_write` has put
characters since `rs_write` was called last; `received` lists the characters that `read_char` has read from the chip. -/
structure SerialLine where
  run : TtyRun
  uart : Uart
  waiter : Bool
  owed : Bool
  received : List (BitVec 8)

/-- The interrupts that `init` leaves enabled. -/
def serialInit (upper : BitVec 8 → Bool) : SerialLine where
  run := ⟨ttyInit none upper, []⟩
  uart := { ier := 0x0d, thr := none, thre := true, rbr := none, line := false, modem := false, sent := [], lost := [] }
  waiter := false
  owed := false
  received := []

namespace SerialLine

def writeQ (s : SerialLine) : TtyQueue := s.run.tty.writeQ
def readQ (s : SerialLine) : TtyQueue := s.run.tty.readQ

def rsWrite (s : SerialLine) : SerialLine :=
  let s := { s with owed := false }
  if s.writeQ.isEmpty then s else { s with uart := s.uart.setIer (s.uart.ier ||| 2) }

def writeBufferEmpty (s : SerialLine) : SerialLine := { s with waiter := false, uart := s.uart.setIer (s.uart.ier &&& 0xd) }

/-- The chip gets the first character of the write queue. -/
def take (s : SerialLine) : SerialLine :=
  { s with
    uart := s.uart.out s.writeQ.first
    run := { s.run with tty := { s.run.tty with writeQ := s.writeQ.getch } } }

def send (s : SerialLine) : SerialLine := if s.take.writeQ.isEmpty then s.take.writeBufferEmpty else s.take

def writeChar (s : SerialLine) : SerialLine :=
  if s.writeQ.isEmpty then s.writeBufferEmpty
  else if 256 < s.writeQ.chars then s.send
  else { s with waiter := false }.send

/-- A character that has no room in the read queue is written behind its head. -/
def readChar (s : SerialLine) : SerialLine :=
  let (al, uart) := s.uart.readData
  let frames := if s.readQ.isFull then s.run.frames else .cooked :: s.run.frames
  { s with
    uart := uart
    run := ⟨{ s.run.tty with readQ := s.readQ.putQueue s.readQ [al] }, frames⟩
    received := s.received ++ [al] }

/-- A turn of `rep_int`. -/
def repInt (s : SerialLine) : SerialLine :=
  let (al, uart) := s.uart.readIdent
  let s := { s with uart := uart }
  if al.getLsbD 0 then s
  else if 6 < al then s
  else if al = 0 then { s with uart := s.uart.readModem }
  else if al = 2 then s.writeChar
  else if al = 4 then s.readChar
  else { s with uart := s.uart.readLine }

/-- A step of a call of the terminal code; `rs_write` is what `tty->write` does. -/
def next (s : SerialLine) : Option SerialLine :=
  s.run.next.map fun run =>
    let s' := { s with run := run }
    if s.run.frames.head? = some .write then s'.rsWrite else s'

end SerialLine

/-- A step of a call or of a task, a task that goes to sleep in `sleep_if_full`, a turn of the interrupt routine, or the chip: a character has
been sent or has come in, the state of the line or of the modem has changed. -/
inductive SerialEvent
  | next
  | put (c : BitVec 8)
  | flush
  | read
  | ioctl (termios : Termios)
  | sleep
  | interrupt
  | shift
  | arrive (c : BitVec 8)
  | lineStatus
  | modemStatus

/-- The line interrupts only where no call is under way that is an interrupt of the line itself. -/
def serialStep (s : SerialLine) : SerialEvent → Option SerialLine
  | .next => s.next
  | .put c => (ttyStep s.run (.put c)).map fun run => { s with run := run, owed := true }
  | .flush => (ttyStep s.run .flush).map fun run => { s with run := run }
  | .read => (ttyStep s.run .read).map fun run => { s with run := run }
  | .ioctl termios => (ttyStep s.run (.ioctl termios)).map fun run => { s with run := run }
  | .sleep => if s.run.frames = [] ∧ s.owed = false ∧ s.writeQ.left.val < 128 then some { s with waiter := true } else none
  | .interrupt => if s.run.frames = [] ∨ s.run.frames = [.write] then some s.repInt else none
  | .shift => s.uart.shift.map fun uart => { s with uart := uart }
  | .arrive c => some { s with uart := s.uart.arrive c }
  | .lineStatus => some { s with uart := { s.uart with line := true } }
  | .modemStatus => some { s with uart := { s.uart with modem := true } }

section Memory

variable {s : RsCpu} {l : SerialLine} {q : TtyQueue}

/-- The memory of the routines holds the write queue of the line and the task that waits for it, and they reach its chip. -/
structure RsCpu.ShowsWrite (s : RsCpu) (l : SerialLine) : Prop where
  queue : s.queue.Shows l.writeQ
  uart : s.uart = l.uart
  waiter : l.waiter = decide (s.queue.procList ≠ 0 ∧ s.state s.queue.procList ≠ 0)

theorem RsCpu.wake_keeps : s.wake.queue = s.queue ∧ s.wake.uart = s.uart ∧
    ¬ (s.queue.procList ≠ 0 ∧ s.wake.state s.queue.procList ≠ 0) := by
  unfold RsCpu.wake
  dsimp only
  split
  next none => exact ⟨rfl, rfl, fun h => h.1 none⟩
  next => exact ⟨rfl, rfl, fun h => h.2 (Function.update_self _ _ _)⟩

theorem RsCpu.wake_shows (h : s.ShowsWrite l) : s.wake.ShowsWrite { l with waiter := false } := by
  obtain ⟨queue, uart, awake⟩ := @wake_keeps s
  refine ⟨?_, uart.trans h.uart, ?_⟩
  · rw [queue]
    exact h.queue
  · rw [queue]
    exact (decide_eq_false awake).symm

theorem RsCpu.writeBufferEmpty_shows (h : s.ShowsWrite l) : s.writeBufferEmpty.ShowsWrite l.writeBufferEmpty := by
  have woken := wake_shows h
  refine ⟨woken.queue, ?_, woken.waiter⟩
  change s.wake.uart.setIer (s.wake.uart.ier &&& 0xd) = l.uart.setIer (l.uart.ier &&& 0xd)
  rw [woken.uart]

/-- The index behind one in range, as the code masks it. -/
theorem masked_succ {i : BitVec 32} {k : Fin ttyBufSize} (h : i.toNat = k.val) : ((i + 1) &&& (1024 - 1)).toNat = (k + 1).val := by
  have bound := k.isLt
  rw [TtyQueue.succ_val, BitVec.toNat_and, BitVec.toNat_add, h]
  change (k.val + 1) % 2 ^ 32 &&& (2 ^ 10 - 1) = _
  rw [Nat.and_two_pow_sub_one_eq_mod]
  unfold ttyBufSize at *
  omega

theorem masked_eq {i j : BitVec 32} {k m : Fin ttyBufSize} (h : i.toNat = k.val) (h' : j.toNat = m.val) : i = j ↔ k = m := by
  rw [← BitVec.toNat_inj, h, h', Fin.ext_iff]

theorem RsCpu.send_shows (h : s.ShowsWrite l) : s.send.ShowsWrite l.send := by
  have next := masked_succ h.queue.tail
  have first : s.queue.buf s.queue.tail.toNat = l.writeQ.first := by
    rw [h.queue.tail, h.queue.buf]
    rfl
  have taken : RsCpu.ShowsWrite { s with uart := s.uart.out l.writeQ.first, queue := { s.queue with tail := (s.queue.tail + 1) &&& (1024 - 1) } }
      l.take :=
    ⟨⟨h.queue.data, h.queue.head, next, h.queue.buf⟩, congrArg (Uart.out · l.writeQ.first) h.uart, h.waiter⟩
  have last : (s.queue.tail + 1) &&& (1024 - 1) = s.queue.head ↔ l.take.writeQ.isEmpty = true := by
    rw [masked_eq next h.queue.head, eq_comm]
    exact decide_eq_true_iff.symm
  unfold RsCpu.send SerialLine.send
  dsimp only
  rw [first]
  by_cases ends : (s.queue.tail + 1) &&& (1024 - 1) = s.queue.head
  · rw [if_pos ends, if_pos (last.mp ends)]
    exact writeBufferEmpty_shows taken
  · rw [if_neg ends, if_neg fun h => ends (last.mpr h)]
    exact taken

/-- `write_char` of the assembly code is the one of the line. -/
theorem RsCpu.writeChar_shows (h : s.ShowsWrite l) : s.writeChar.ShowsWrite l.writeChar := by
  have chars : ((s.queue.head - s.queue.tail) &&& (1024 - 1)).toNat = l.writeQ.chars := h.queue.chars
  have none : (s.queue.head - s.queue.tail) &&& (1024 - 1) = 0 ↔ l.writeQ.isEmpty = true := by
    rw [← BitVec.toNat_inj, chars, TtyQueue.isEmpty_iff]
    exact Iff.rfl
  have many : (256 : BitVec 32) < (s.queue.head - s.queue.tail) &&& (1024 - 1) ↔ 256 < l.writeQ.chars := by
    rw [BitVec.lt_def, chars]
    exact Iff.rfl
  unfold RsCpu.writeChar SerialLine.writeChar
  dsimp only
  by_cases empty : l.writeQ.isEmpty = true
  · rw [if_pos (none.mpr empty), if_pos empty]
    exact writeBufferEmpty_shows h
  rw [if_neg fun zero => empty (none.mp zero), if_neg empty]
  by_cases more : 256 < l.writeQ.chars
  · rw [if_pos (many.mpr more), if_pos more]
    exact send_shows h
  · rw [if_neg fun big => more (many.mp big), if_neg more]
    exact send_shows (wake_shows h)

/-- `read_char` of the assembly code does to the read queue what the one of the line does. -/
theorem RsCpu.readChar_shows (queue : s.queue.Shows l.readQ) (uart : s.uart = l.uart) :
    s.readChar.1.queue.Shows l.readChar.readQ ∧ s.readChar.1.uart = l.readChar.uart ∧
      l.readChar.run.frames = if s.readChar.2 then .cooked :: l.run.frames else l.run.frames := by
  have next := masked_succ queue.head
  have full : (s.queue.head + 1) &&& (1024 - 1) = s.queue.tail ↔ l.readQ.isFull = true := by
    rw [masked_eq next queue.tail, TtyQueue.isFull_iff_left, Fin.ext_iff, TtyQueue.succ_val, TtyQueue.left_eq, TtyQueue.chars_eq]
    have sizes := RingBuffer.size_cases l.readQ.head.isLt l.readQ.tail.isLt
    have bound := l.readQ.head.isLt
    have bound' := l.readQ.tail.isLt
    unfold ttyBufSize at *
    omega
  have stored : Function.update s.queue.buf s.queue.head.toNat s.uart.readData.1 = (l.readQ.putch l.uart.readData.1).buf := by
    rw [queue.head, queue.buf, uart]
    rfl
  have chip : s.uart.readData.2 = l.readChar.uart := by
    rw [uart]
    rfl
  have put : l.readChar.readQ = l.readQ.putQueue l.readQ [l.uart.readData.1] := rfl
  rw [put, TtyQueue.putQueue]
  by_cases beyond : l.readQ.isFull = true
  · have asm : s.readChar = (_, false) := if_pos (full.mpr beyond)
    have frames : l.readChar.run.frames = l.run.frames := if_pos beyond
    rw [asm, frames, if_pos beyond]
    exact ⟨⟨queue.data, queue.head, queue.tail, stored⟩, chip, rfl⟩
  · have asm : s.readChar = (_, true) := if_neg fun h => beyond (full.mp h)
    have frames : l.readChar.run.frames = .cooked :: l.run.frames := if_neg beyond
    rw [asm, frames, if_neg beyond]
    exact ⟨⟨queue.data, next, queue.tail, stored⟩, chip, rfl⟩

end Memory

/-- The frames that calls on a line have. -/
def TtyFrame.onLine : TtyFrame → Bool
  | .conWrite _ => false
  | .respond => false
  | _ => true

/-- What a step of the terminal code does to the queues of a line that the chip works on. -/
structure TtyRun.Effect (r r' : TtyRun) : Prop where
  console : r'.tty.console = none
  frames : ∀ f ∈ r'.frames, f.onLine = true
  readQ : r'.tty.readQ.stored = r.tty.readQ.stored
  writeQ : ∃ cs, r'.tty.writeQ = r.tty.writeQ.putAll cs

namespace TtyRun

variable {r r' : TtyRun} {t : Tty} {k : List TtyFrame}

theorem copyToCooked_effect (console : t.console = none) (frames : ∀ f ∈ k, f.onLine = true) :
    Effect ⟨t, .cooked :: k⟩ (t.copyToCooked k) ∧ (∀ f ∈ k, f ∈ (t.copyToCooked k).frames) ∧
      ((t.copyToCooked k).tty.writeQ = t.writeQ ∨ .write ∈ (t.copyToCooked k).frames) := by
  have more (fs : List TtyFrame) (h : ∀ f ∈ fs, f.onLine = true) : ∀ f ∈ fs ++ k, f.onLine = true := by
    intro f hf
    obtain hf | hf := List.mem_append.mp hf
    · exact h f hf
    · exact frames f hf
  by_cases exit : t.readQ.isEmpty = true ∨ t.secondary.isFull = true
  · rw [Tty.copyToCooked_exit exit]
    exact ⟨⟨console, frames, rfl, [], rfl⟩, fun f hf => hf, Or.inl rfl⟩
  obtain ⟨read, room⟩ := not_or.mp exit
  have turn := Tty.turn (k := k) (Bool.eq_false_iff.mpr read) (Bool.eq_false_iff.mpr room)
  generalize t.copyToCooked k = y at turn ⊢
  cases turn with
  | skip stopped ignored =>
    exact ⟨⟨console, more [.cooked] (by decide), rfl, [], rfl⟩, fun f hf => List.mem_cons_of_mem _ hf, Or.inl rfl⟩
  | rub c ignored hc erase live echo =>
    exact ⟨⟨console, more [.cooked] (by decide), rfl, [], rfl⟩, fun f hf => List.mem_cons_of_mem _ hf, Or.inl rfl⟩
  | keep c ignored hc erase echo =>
    exact ⟨⟨console, more [.cooked] (by decide), rfl, [], rfl⟩, fun f hf => List.mem_cons_of_mem _ hf, Or.inl rfl⟩
  | rubEcho c ignored hc erase live echo =>
    exact ⟨⟨console, more [.write, .dec, .cooked] (by decide), rfl, _, rfl⟩,
      fun f hf => List.mem_append_right ([.write, .dec, .cooked] : List TtyFrame) hf, Or.inr List.mem_cons_self⟩
  | keepEcho c ignored hc erase echo =>
    refine ⟨⟨console, more [.write, .put c, .cooked] ?_, rfl, _, rfl⟩,
      fun f hf => List.mem_append_right ([.write, .put c, .cooked] : List TtyFrame) hf, Or.inr List.mem_cons_self⟩
    intro f hf
    simp only [List.mem_cons, List.not_mem_nil, or_false] at hf
    obtain rfl | rfl | rfl := hf
    · rfl
    · rfl
    · rfl

/-- Where characters are put into the write queue a call of `tty->write` is still to come, and such a call is not passed over. -/
theorem next_effect (console : r.tty.console = none) (frames : ∀ f ∈ r.frames, f.onLine = true) (h : r.next = some r') :
    r.Effect r' ∧ (.write ∈ r.frames → .write ∈ r'.frames ∨ r.frames.head? = some .write) ∧
      (r'.tty.writeQ = r.tty.writeQ ∨ .write ∈ r'.frames) := by
  obtain ⟨t, fs⟩ := r
  cases fs with
  | nil => exact nomatch h
  | cons f k =>
    have rest : ∀ f ∈ k, f.onLine = true := fun g hg => frames g (List.mem_cons_of_mem _ hg)
    have own := frames f List.mem_cons_self
    cases f with
    | cooked =>
      cases Option.some.inj h
      obtain ⟨effect, kept, follows⟩ := copyToCooked_effect console rest
      refine ⟨effect, fun hw => Or.inl (kept _ ?_), follows⟩
      exact (List.mem_cons.mp hw).resolve_left (fun h => nomatch h)
    | put c =>
      cases Option.some.inj h
      refine ⟨⟨console, rest, rfl, [], rfl⟩, fun hw => Or.inl ?_, Or.inl rfl⟩
      exact (List.mem_cons.mp hw).resolve_left (fun h => nomatch h)
    | dec =>
      cases Option.some.inj h
      refine ⟨⟨console, rest, rfl, [], rfl⟩, fun hw => Or.inl ?_, Or.inl rfl⟩
      exact (List.mem_cons.mp hw).resolve_left (fun h => nomatch h)
    | write =>
      have line : r' = ⟨t, k⟩ := by
        have silent : ¬ t.console.isSome = true := by rw [show t.console = none from console]; exact Bool.false_ne_true
        exact (Option.some.inj h).symm.trans (if_neg silent)
      rw [line]
      exact ⟨⟨console, rest, rfl, [], rfl⟩, fun _ => Or.inr rfl, Or.inl rfl⟩
    | conWrite nr => exact nomatch own
    | respond => exact nomatch own

end TtyRun

namespace TtyQueue

variable {q : TtyQueue} {c : BitVec 8} {cs : List (BitVec 8)}

theorem putAll_fetched : (q.putAll cs).fetched = q.fetched := by
  induction cs generalizing q with
  | nil => rfl
  | cons c cs ih => exact ih (q := q.putch c)

/-- As long as nothing has been put into a full queue it is whole. -/
theorem putAll_whole (h : q.overrun = false → q.Whole) (overrun : (q.putAll cs).overrun = false) : (q.putAll cs).Whole := by
  cases before : q.overrun with
  | false => exact (contents_putAll ((putAll_overrun before).mp overrun)).2.2.2 (h before)
  | true =>
    have sticky : ∀ (cs : List (BitVec 8)) (q : TtyQueue), q.overrun = true → (q.putAll cs).overrun = true := by
      intro cs
      induction cs with
      | nil => exact fun _ h => h
      | cons c cs ih =>
        intro q h
        refine ih (q.putch c) ?_
        change (q.overrun || q.isFull) = true
        rw [h, Bool.true_or]
    rw [sticky cs q before] at overrun
    exact nomatch overrun

end TtyQueue

namespace SerialLine

/-- What holds all the time: no character that has been taken from the write queue is lost, and none is invented. -/
structure Base (s : SerialLine) : Prop where
  console : s.run.tty.console = none
  frames : ∀ f ∈ s.run.frames, f.onLine = true
  order : s.writeQ.fetched = s.uart.written
  whole : s.writeQ.overrun = false → s.writeQ.Whole
  taken : s.readQ.stored.Sublist s.received

/-- What holds between the steps: the chip is asked to interrupt for characters in the write queue unless a call of `rs_write` is still to
come, and as long as a task waits for that queue. -/
structure Inv (s : SerialLine) : Prop extends s.Base where
  uart : s.uart.Sound
  enabled : s.writeQ.isEmpty = false → s.uart.ier.getLsbD 1 = true ∨ s.owed = true ∨ .write ∈ s.run.frames
  waits : s.waiter = true → s.uart.ier.getLsbD 1 = true

variable {s s' : SerialLine} {r : TtyRun} {c : BitVec 8} {e : SerialEvent}

theorem init_inv {upper : BitVec 8 → Bool} : (serialInit upper).Inv where
  console := rfl
  frames := fun _ h => nomatch h
  order := rfl
  whole := fun _ => ⟨rfl, rfl, rfl⟩
  taken := List.Sublist.refl _
  uart := ⟨fun h => absurd h (by decide : ¬ (0x0d : BitVec 8).getLsbD 1 = true), fun _ => rfl, rfl⟩
  enabled := fun h => nomatch h
  waits := fun h => nomatch h

/-- A step of the terminal code, with `owed` as it is behind it. -/
theorem Base.effect (h : s.Base) {owed : Bool} (effect : s.run.Effect r) : Base { s with run := r, owed := owed } := by
  obtain ⟨cs, put⟩ := effect.writeQ
  have writeQ : writeQ { s with run := r, owed := owed } = s.writeQ.putAll cs := put
  refine ⟨effect.console, effect.frames, ?_, fun overrun => ?_, ?_⟩
  · rw [writeQ, TtyQueue.putAll_fetched]
    exact h.order
  · rw [writeQ] at overrun ⊢
    exact TtyQueue.putAll_whole h.whole overrun
  · change r.tty.readQ.stored.Sublist s.received
    rw [effect.readQ]
    exact h.taken

theorem Inv.effect (h : s.Inv) {owed : Bool} (effect : s.run.Effect r)
    (due : r.tty.writeQ = s.writeQ ∧ (s.owed = true ∨ .write ∈ s.run.frames → owed = true ∨ .write ∈ r.frames) ∨
      owed = true ∨ .write ∈ r.frames) : Inv { s with run := r, owed := owed } := by
  refine ⟨h.toBase.effect effect, h.uart, fun some_char => ?_, h.waits⟩
  obtain ⟨same, kept⟩ | due := due
  · change r.tty.writeQ.isEmpty = false at some_char
    rw [same] at some_char
    exact (h.enabled some_char).imp id kept
  · exact Or.inr due

theorem ier_on : (s.uart.ier ||| 2).getLsbD 1 = true := by
  rw [BitVec.getLsbD_or, show (2 : BitVec 8).getLsbD 1 = true by rfl, Bool.or_true]

theorem ier_off : (s.uart.ier &&& 0xd).getLsbD 1 = false := by
  rw [BitVec.getLsbD_and, show (0xd : BitVec 8).getLsbD 1 = false by rfl, Bool.and_false]

/-- Behind `rs_write` the interrupt is enabled when there is a character, whatever calls are still to come. -/
theorem Base.rsWrite (h : s.Base) (uart : s.uart.Sound) (waits : s.waiter = true → s.uart.ier.getLsbD 1 = true) : s.rsWrite.Inv := by
  have same : Base { s with owed := false } := ⟨h.console, h.frames, h.order, h.whole, h.taken⟩
  unfold SerialLine.rsWrite
  dsimp only
  split
  next empty =>
    refine ⟨same, uart, fun some_char => ?_, waits⟩
    rw [empty] at some_char
    exact nomatch some_char
  next => exact ⟨⟨h.console, h.frames, h.order, h.whole, h.taken⟩, uart.setIer, fun _ => Or.inl ier_on, fun _ => ier_on⟩

theorem Base.writeBufferEmpty (h : s.Base) (empty : s.writeQ.isEmpty = true) (uart : (s.uart.setIer (s.uart.ier &&& 0xd)).Sound) :
    s.writeBufferEmpty.Inv := by
  refine ⟨⟨h.console, h.frames, h.order, h.whole, h.taken⟩, uart, fun some_char => ?_, (fun waits => nomatch waits)⟩
  change s.writeQ.isEmpty = false at some_char
  rw [empty] at some_char
  exact nomatch some_char

/-- A free chip gets the first character of a queue that has one. -/
theorem Base.send (h : s.Base) (some_char : s.writeQ.isEmpty = false) (free : s.uart.thr = none) (kept : s.uart.lost = [])
    (on : s.uart.ier.getLsbD 1 = true) : s.send.Inv := by
  have sound := Uart.out_sound (c := s.writeQ.first) free kept
  have base : s.take.Base := by
    refine ⟨h.console, h.frames, ?_, fun overrun => (h.whole overrun).getch some_char, h.taken⟩
    change s.writeQ.fetched ++ [s.writeQ.first] = (s.uart.out s.writeQ.first).written
    rw [Uart.written_out free, h.order]
  unfold SerialLine.send
  split
  next empty => exact base.writeBufferEmpty empty sound.setIer
  next => exact ⟨base, sound, fun _ => Or.inl on, fun _ => on⟩

theorem Base.writeChar (h : s.Base) (free : s.uart.thr = none) (kept : s.uart.lost = []) (on : s.uart.ier.getLsbD 1 = true) :
    s.writeChar.Inv := by
  have awake : Base { s with waiter := false } := ⟨h.console, h.frames, h.order, h.whole, h.taken⟩
  unfold SerialLine.writeChar
  split
  next empty => exact h.writeBufferEmpty empty (Uart.setIer_sound free kept ier_off)
  next some_char =>
    have some_char := Bool.eq_false_iff.mpr some_char
    split
    next => exact h.send some_char free kept on
    next => exact awake.send some_char free kept on

theorem Inv.readChar (h : s.Inv) : s.readChar.Inv := by
  have more : ∀ f ∈ s.readChar.run.frames, f = .cooked ∨ f ∈ s.run.frames := by
    intro f hf
    change f ∈ (if s.readQ.isFull = true then s.run.frames else .cooked :: s.run.frames) at hf
    split at hf
    next => exact Or.inr hf
    next => exact List.mem_cons.mp hf
  refine ⟨⟨h.console, fun f hf => ?_, h.order, h.whole, ?_⟩, h.uart.readData, fun some_char => ?_, h.waits⟩
  · obtain rfl | old := more f hf
    · rfl
    · exact h.frames f old
  · change (s.readQ.putQueue s.readQ [s.uart.readData.1]).stored.Sublist (s.received ++ [s.uart.readData.1])
    rw [TtyQueue.putQueue]
    split
    next => exact h.taken.trans (List.sublist_append_left _ _)
    next => exact h.taken.append (List.Sublist.refl _)
  · refine (h.enabled some_char).imp id (Or.imp id fun hw => ?_)
    change .write ∈ (if s.readQ.isFull = true then s.run.frames else .cooked :: s.run.frames)
    split
    next => exact hw
    next => exact List.mem_cons_of_mem _ hw

theorem Inv.chip (h : s.Inv) {u : Uart} (sound : u.Sound) (written : u.written = s.uart.written) (ier : u.ier = s.uart.ier) :
    Inv { s with uart := u } :=
  ⟨⟨h.console, h.frames, h.order.trans written.symm, h.whole, h.taken⟩, sound, ier ▸ h.enabled, ier ▸ h.waits⟩

/-- The entry of `jmp_table` that a turn of the interrupt routine takes. -/
theorem repInt_cases : s.repInt = { s with uart := s.uart.readLine } ∨ (s.uart.ident = 4 ∧ s.repInt = s.readChar) ∨
    (s.uart.ident = 2 ∧ s.repInt = { s with uart := { s.uart with thre := false } }.writeChar) ∨
    s.repInt = { s with uart := s.uart.readModem } ∨ s.repInt = s := by
  unfold SerialLine.repInt Uart.readIdent
  dsimp only
  obtain six | four | two | zero | none := @Uart.ident_cases s.uart
  · rw [six]
    exact Or.inl rfl
  · rw [four]
    exact Or.inr (Or.inl ⟨rfl, rfl⟩)
  · rw [two]
    exact Or.inr (Or.inr (Or.inl ⟨rfl, rfl⟩))
  · rw [zero]
    exact Or.inr (Or.inr (Or.inr (Or.inl rfl)))
  · rw [none]
    exact Or.inr (Or.inr (Or.inr (Or.inr rfl)))

theorem Inv.repInt (h : s.Inv) : s.repInt.Inv := by
  obtain line | ⟨-, char⟩ | ⟨two, char⟩ | modem | none := @repInt_cases s
  · rw [line]
    exact h.chip h.uart.readLine rfl rfl
  · rw [char]
    exact h.readChar
  · obtain ⟨-, -, on, asks⟩ := Uart.ident_two.mp two
    have base : Base { s with uart := { s.uart with thre := false } } := ⟨h.console, h.frames, h.order, h.whole, h.taken⟩
    rw [char]
    exact base.writeChar (h.uart.free asks) h.uart.kept on
  · rw [modem]
    exact h.chip h.uart.readModem rfl rfl
  · rw [none]
    exact h

theorem Inv.next (h : s.Inv) (hs : s.next = some s') : s'.Inv := by
  obtain ⟨r, step, rfl⟩ := Option.map_eq_some_iff.mp hs
  obtain ⟨effect, write, follows⟩ := TtyRun.next_effect h.console h.frames step
  dsimp only
  by_cases calls : s.run.frames.head? = some .write
  · rw [if_pos calls]
    exact (@Base.effect _ _ h.toBase s.owed effect).rsWrite h.uart h.waits
  · rw [if_neg calls]
    refine h.effect effect (follows.imp (fun same => ⟨same, Or.imp id fun hw => ?_⟩) Or.inr)
    exact (write hw).resolve_right calls

/-- What the driver keeps, step by step. -/
theorem Inv.step (h : s.Inv) (hs : serialStep s e = some s') : s'.Inv := by
  cases e with
  | next => exact h.next hs
  | put c =>
    obtain ⟨r, step, rfl⟩ := Option.map_eq_some_iff.mp hs
    obtain ⟨idle, eq⟩ := Option.ite_none_right_eq_some.mp step
    cases Option.some.inj eq
    exact h.effect ⟨h.console, h.frames, rfl, [c], rfl⟩ (Or.inr (Or.inl rfl))
  | flush =>
    obtain ⟨r, step, rfl⟩ := Option.map_eq_some_iff.mp hs
    obtain ⟨idle, eq⟩ := Option.ite_none_right_eq_some.mp step
    cases Option.some.inj eq
    have call : ∀ f ∈ [TtyFrame.write], f.onLine = true := by decide
    exact h.effect ⟨h.console, call, rfl, [], rfl⟩ (Or.inr (Or.inr List.mem_cons_self))
  | read =>
    obtain ⟨r, step, rfl⟩ := Option.map_eq_some_iff.mp hs
    obtain ⟨idle, eq⟩ := Option.ite_none_right_eq_some.mp step
    cases Option.some.inj eq
    exact h.effect ⟨h.console, h.frames, rfl, [], rfl⟩ (Or.inl ⟨rfl, id⟩)
  | ioctl termios =>
    obtain ⟨r, step, rfl⟩ := Option.map_eq_some_iff.mp hs
    obtain ⟨idle, eq⟩ := Option.ite_none_right_eq_some.mp step
    cases Option.some.inj eq
    exact h.effect ⟨h.console, h.frames, rfl, [], rfl⟩ (Or.inl ⟨rfl, id⟩)
  | sleep =>
    obtain ⟨idle, eq⟩ := Option.ite_none_right_eq_some.mp hs
    cases Option.some.inj eq
    obtain ⟨frames, owed, full⟩ := idle
    have some_char : s.writeQ.isEmpty = false := by
      rw [Bool.eq_false_iff]
      intro empty
      rw [TtyQueue.left_eq, TtyQueue.isEmpty_iff.mp empty] at full
      unfold ttyBufSize at full
      omega
    refine ⟨⟨h.console, h.frames, h.order, h.whole, h.taken⟩, h.uart, h.enabled, fun _ => (h.enabled some_char).resolve_right ?_⟩
    rw [owed, frames]
    decide
  | interrupt =>
    obtain ⟨idle, eq⟩ := Option.ite_none_right_eq_some.mp hs
    cases Option.some.inj eq
    exact h.repInt
  | shift =>
    obtain ⟨u, sent, rfl⟩ := Option.map_eq_some_iff.mp hs
    obtain ⟨sound, written, ier⟩ := h.uart.shift sent
    exact h.chip sound written ier
  | arrive c =>
    cases Option.some.inj hs
    exact h.chip h.uart.arrive rfl rfl
  | lineStatus =>
    cases Option.some.inj hs
    exact h.chip ⟨h.uart.asks, h.uart.free, h.uart.kept⟩ rfl rfl
  | modemStatus =>
    cases Option.some.inj hs
    exact h.chip ⟨h.uart.asks, h.uart.free, h.uart.kept⟩ rfl rfl

theorem rsWrite_run : s.rsWrite.run = s.run := by
  unfold SerialLine.rsWrite
  dsimp only
  split
  next => rfl
  next => rfl

theorem send_run : s.send.run = { s.run with tty := { s.run.tty with writeQ := s.writeQ.getch } } := by
  unfold SerialLine.send
  split
  next => rfl
  next => rfl

theorem writeChar_run :
    s.writeChar.run = if s.writeQ.isEmpty then s.run else { s.run with tty := { s.run.tty with writeQ := s.writeQ.getch } } := by
  unfold SerialLine.writeChar
  split
  next => rfl
  next =>
    split
    next => exact send_run
    next => exact send_run

/-- The driver and the chip do to the terminal what a step of it does, or nothing. -/
theorem Inv.refines (h : s.Inv) (hs : serialStep s e = some s') : s'.run = s.run ∨ ∃ e, ttyStep s.run e = some s'.run := by
  cases e with
  | next =>
    obtain ⟨r, step, rfl⟩ := Option.map_eq_some_iff.mp hs
    refine Or.inr ⟨.next, step.trans (congrArg some ?_)⟩
    dsimp only
    split
    next => exact (rsWrite_run (s := { s with run := r })).symm
    next => rfl
  | put c =>
    obtain ⟨r, step, rfl⟩ := Option.map_eq_some_iff.mp hs
    exact Or.inr ⟨_, step⟩
  | flush =>
    obtain ⟨r, step, rfl⟩ := Option.map_eq_some_iff.mp hs
    exact Or.inr ⟨_, step⟩
  | read =>
    obtain ⟨r, step, rfl⟩ := Option.map_eq_some_iff.mp hs
    exact Or.inr ⟨_, step⟩
  | ioctl termios =>
    obtain ⟨r, step, rfl⟩ := Option.map_eq_some_iff.mp hs
    exact Or.inr ⟨_, step⟩
  | sleep =>
    obtain ⟨idle, eq⟩ := Option.ite_none_right_eq_some.mp hs
    cases Option.some.inj eq
    exact Or.inl rfl
  | interrupt =>
    obtain ⟨idle, eq⟩ := Option.ite_none_right_eq_some.mp hs
    cases Option.some.inj eq
    have line : s.run.tty.console.isNone = true := by rw [h.console]; rfl
    obtain status | ⟨-, char⟩ | ⟨-, char⟩ | modem | none := @repInt_cases s
    · rw [status]
      exact Or.inl rfl
    · rw [char]
      exact Or.inr ⟨.receive (s.uart.rbr.getD 0), if_pos ⟨line, idle⟩⟩
    · rw [char, writeChar_run]
      exact Or.inr ⟨.transmit, if_pos ⟨line, idle⟩⟩
    · rw [modem]
      exact Or.inl rfl
    · rw [none]
      exact Or.inl rfl
  | shift =>
    obtain ⟨u, sent, rfl⟩ := Option.map_eq_some_iff.mp hs
    exact Or.inl rfl
  | arrive c =>
    cases Option.some.inj hs
    exact Or.inl rfl
  | lineStatus =>
    cases Option.some.inj hs
    exact Or.inl rfl
  | modemStatus =>
    cases Option.some.inj hs
    exact Or.inl rfl

theorem reach_inv {upper : BitVec 8 → Bool} (h : Machine.Reach serialStep (fun _ _ => True) (serialInit upper) s) : s.Inv :=
  Machine.Reach.invariant (I := Inv) init_inv (fun _ _ _ inv _ step => inv.step step) h

/-- The steps of the chip and its interrupts. -/
def Alone (_ : SerialLine) (e : SerialEvent) : Prop := e = .interrupt ∨ e = .shift

/-- The chip sends the character that it has, if it has one. -/
theorem Inv.idle (h : s.Inv) : ∃ u, Machine.Reach serialStep Alone s { s with uart := u } ∧ u.thr = none ∧ u.written = s.uart.written ∧
    u.ier = s.uart.ier ∧ u.rbr = s.uart.rbr ∧ u.line = s.uart.line ∧ (s.uart.ier.getLsbD 1 = true → u.thre = true) := by
  cases thr : s.uart.thr with
  | none =>
    refine ⟨s.uart, .start, thr, rfl, rfl, rfl, rfl, fun on => (h.uart.asks on).resolve_left ?_⟩
    rw [thr]
    exact Bool.false_ne_true
  | some c =>
    have sent : s.uart.shift = some { s.uart with thr := none, thre := true, sent := s.uart.sent ++ [c] } := by
      rw [Uart.shift, thr, Option.map_some]
    obtain ⟨-, written, -⟩ := h.uart.shift sent
    refine ⟨_, .next .start (Or.inr rfl) (congrArg (Option.map _) sent), rfl, written, rfl, rfl, rfl, fun _ => rfl⟩

/-- With nothing to read and a free transmitter a turn of the interrupt routine is for that. -/
theorem repInt_free (on : s.uart.ier.getLsbD 1 = true) (asks : s.uart.thre = true) (read : s.uart.rbr = none)
    (line : s.uart.line = false) : s.repInt = { s with uart := { s.uart with thre := false } }.writeChar := by
  have two : s.uart.ident = 2 := by
    rw [Uart.ident_two, read, line]
    exact ⟨fun h => Bool.false_ne_true h.2, fun h => Bool.false_ne_true h.2, on, asks⟩
  unfold SerialLine.repInt Uart.readIdent
  dsimp only
  rw [if_pos two, two]
  rfl

theorem writeChar_send (some_char : s.writeQ.isEmpty = false) : ∃ waiter, s.writeChar = { s with waiter := waiter }.send := by
  unfold SerialLine.writeChar
  rw [if_neg (Bool.eq_false_iff.mp some_char)]
  split
  next => exact ⟨s.waiter, rfl⟩
  next => exact ⟨false, rfl⟩

/-- With nothing to read the chip asks for characters until the queue is empty. -/
theorem Inv.drains {n : Nat} (h : s.Inv) (chars : s.writeQ.chars = n) (idle : s.run.frames = []) (on : s.uart.ier.getLsbD 1 = true)
    (read : s.uart.rbr = none) (line : s.uart.line = false) :
    ∃ s', Machine.Reach serialStep Alone s s' ∧ s'.Inv ∧ s'.writeQ.isEmpty = true ∧ s'.waiter = false ∧
      s'.uart.written = s.uart.written ++ s.writeQ.contents := by
  have reach_inv {s t : SerialLine} (h : s.Inv) (run : Machine.Reach serialStep Alone s t) : t.Inv :=
    Machine.Reach.invariant (I := Inv) h (fun _ _ _ inv _ step => inv.step step) run
  induction n generalizing s with
  | zero =>
    obtain ⟨u, run, free, written, ier, rbr, status, asks⟩ := h.idle
    have turn := repInt_free (s := { s with uart := u }) (ier ▸ on) (asks on) (rbr.trans read) (status.trans line)
    have empty : s.writeQ.isEmpty = true := TtyQueue.isEmpty_iff.mpr chars
    have last : SerialLine.repInt { s with uart := u } = SerialLine.writeBufferEmpty { s with uart := { u with thre := false } } :=
      turn.trans (if_pos empty)
    have run' : Machine.Reach serialStep Alone s (SerialLine.repInt { s with uart := u }) := .next run (Or.inl rfl) (if_pos (Or.inl idle))
    refine ⟨_, run', reach_inv h run', ?_, ?_, ?_⟩
    · rw [last]
      exact empty
    · rw [last]
      rfl
    · rw [last, TtyQueue.isEmpty_iff_contents.mp empty, List.append_nil]
      exact written
  | succ n ih =>
    obtain ⟨u, run, free, written, ier, rbr, status, asks⟩ := h.idle
    have turn := repInt_free (s := { s with uart := u }) (ier ▸ on) (asks on) (rbr.trans read) (status.trans line)
    have some_char : s.writeQ.isEmpty = false := by
      rw [Bool.eq_false_iff]
      intro empty
      rw [TtyQueue.isEmpty_iff.mp empty] at chars
      exact nomatch chars
    obtain ⟨waiter, sends⟩ := writeChar_send (s := { s with uart := { u with thre := false } }) some_char
    have run' : Machine.Reach serialStep Alone s (SerialLine.repInt { s with uart := u }) := .next run (Or.inl rfl) (if_pos (Or.inl idle))
    have inv := reach_inv h run'
    have contents := TtyQueue.contents_getch some_char
    have fewer := TtyQueue.chars_getch some_char
    have out : (Uart.out { u with thre := false } s.writeQ.first).written = s.uart.written ++ [s.writeQ.first] := by
      rw [Uart.written_out (u := { u with thre := false }) free, ← written]
      rfl
    rw [turn, sends] at run' inv
    unfold SerialLine.send at run' inv
    rw [contents]
    split at run'
    next last =>
      rw [if_pos last] at inv
      refine ⟨_, run', inv, last, rfl, ?_⟩
      have rest : s.writeQ.getch.contents = [] := TtyQueue.isEmpty_iff_contents.mp last
      rw [rest]
      exact out
    next more =>
      rw [if_neg more] at inv
      have left : s.writeQ.getch.chars = n := by omega
      obtain ⟨s', rest, inv', empty, awake, all⟩ := ih inv left idle (ier ▸ on) (rbr.trans read) (status.trans line)
      refine ⟨s', run'.trans rest, inv', empty, awake, all.trans ?_⟩
      change (Uart.out { u with thre := false } s.writeQ.first).written ++ s.writeQ.getch.contents = _
      rw [out, List.append_assoc]
      rfl

end SerialLine

/-- In every run of a line with its terminal, its chip and its interrupt routine, the terminal takes steps of its own only; what has been taken
from the write queue has been sent or waits in the chip, in this order, and nothing is overwritten there; what the read queue has got is what
came in, less what had no room. With characters in the write queue and no call of `rs_write` to come, and as long as a task waits for the
queue, the chip sends or asks for a character. -/
theorem serial_line_faithful {upper : BitVec 8 → Bool} {s : SerialLine}
    (h : Machine.Reach serialStep (fun _ _ => True) (serialInit upper) s) :
    Machine.Reach ttyStep (fun _ _ => True) ⟨ttyInit none upper, []⟩ s.run ∧
      s.writeQ.fetched = s.uart.sent ++ s.uart.thr.toList ∧ s.uart.lost = [] ∧
      (s.writeQ.overrun = false → s.writeQ.stored = s.uart.sent ++ s.uart.thr.toList ++ s.writeQ.contents) ∧
      s.readQ.stored.Sublist s.received ∧
      ((s.run.frames = [] ∧ s.owed = false ∧ s.writeQ.isEmpty = false) ∨ s.waiter = true →
        s.uart.ier.getLsbD 1 = true ∧ (s.uart.thr.isSome = true ∨ s.uart.thre = true)) := by
  have inv := SerialLine.reach_inv h
  refine ⟨?_, inv.order, inv.uart.kept, fun overrun => ?_, inv.taken, fun due => ?_⟩
  · clear inv
    induction h with
    | start => exact .start
    | next before _ step ih =>
      obtain same | ⟨e, tty⟩ := (SerialLine.reach_inv before).refines step
      · rw [same]
        exact ih
      · exact .next ih trivial tty
  · rw [(inv.whole overrun).order, inv.order]
    rfl
  · have on : s.uart.ier.getLsbD 1 = true := by
      obtain ⟨frames, owed, some_char⟩ | waits := due
      · refine (inv.enabled some_char).resolve_right ?_
        rw [owed, frames]
        decide
      · exact inv.waits waits
    exact ⟨on, inv.uart.asks on⟩

/-- A character that `tty_write` has put goes to the chip. -/
theorem serial_line_faithful_one :
    ∃ s, Machine.exec serialStep (serialInit fun _ => false) [.put 65, .flush, .next, .interrupt] = some s ∧ s.uart.thr = some 65 ∧
      s.writeQ.fetched = s.uart.sent ++ s.uart.thr.toList := by
  have run : ((Machine.exec serialStep (serialInit fun _ => false) [.put 65, .flush, .next, .interrupt]).map fun s => s.uart.thr) =
      some (some 65) := by decide +kernel
  obtain ⟨s, hs, thr⟩ := Option.map_eq_some_iff.mp run
  exact ⟨s, hs, thr, (serial_line_faithful (Machine.Reach.start.exec (fun _ _ _ => trivial) hs)).2.1⟩

/-- From every state of such a run in which no call is under way and nothing has come in, the chip and its interrupts alone send all that is
in the write queue, and the task that waits for the queue is woken. -/
theorem serial_line_drains {upper : BitVec 8 → Bool} {s : SerialLine}
    (h : Machine.Reach serialStep (fun _ _ => True) (serialInit upper) s) (idle : s.run.frames = []) (owed : s.owed = false)
    (read : s.uart.rbr = none) (line : s.uart.line = false) :
    ∃ s', Machine.Reach serialStep SerialLine.Alone s s' ∧ s'.writeQ.isEmpty = true ∧ s'.waiter = false ∧ s'.uart.thr = none ∧
      s'.uart.sent = s.uart.sent ++ s.uart.thr.toList ++ s.writeQ.contents := by
  have inv := SerialLine.reach_inv h
  have emptied : ∃ s', Machine.Reach serialStep SerialLine.Alone s s' ∧ s'.Inv ∧ s'.writeQ.isEmpty = true ∧ s'.waiter = false ∧
      s'.uart.written = s.uart.written ++ s.writeQ.contents := by
    cases on : s.uart.ier.getLsbD 1 with
    | true => exact inv.drains rfl idle on read line
    | false =>
      have empty : s.writeQ.isEmpty = true := by
        by_contra some_char
        have due := inv.enabled (Bool.eq_false_iff.mpr some_char)
        rw [on, owed, idle] at due
        exact absurd due (by decide)
      have awake : s.waiter = false := by
        rw [Bool.eq_false_iff]
        intro waits
        rw [inv.waits waits] at on
        exact nomatch on
      refine ⟨s, .start, inv, empty, awake, ?_⟩
      rw [TtyQueue.isEmpty_iff_contents.mp empty, List.append_nil]
  obtain ⟨s', run, inv', empty, awake, all⟩ := emptied
  obtain ⟨u, last, free, written, -, -, -, -⟩ := inv'.idle
  refine ⟨_, run.trans last, empty, awake, free, ?_⟩
  have sent := written.trans all
  unfold Uart.written at sent
  rw [free] at sent
  exact (List.append_nil _).symm.trans sent

/-- Two characters, a task asleep or not: the chip sends them one after the other. -/
theorem serial_line_drains_two :
    ∃ s s', Machine.exec serialStep (serialInit fun _ => false) [.put 65, .put 66, .flush, .next] = some s ∧
      Machine.Reach serialStep SerialLine.Alone s s' ∧ s'.uart.sent = [65, 66] := by
  have run : ((Machine.exec serialStep (serialInit fun _ => false) [.put 65, .put 66, .flush, .next]).map fun s =>
      (s.run.frames, s.owed, s.uart.rbr, s.uart.line, s.uart.sent ++ s.uart.thr.toList ++ s.writeQ.contents)) =
      some ([], false, none, false, [65, 66]) := by decide +kernel
  obtain ⟨s, hs, view⟩ := Option.map_eq_some_iff.mp run
  simp only [Prod.mk.injEq] at view
  obtain ⟨frames, owed, read, line, chars⟩ := view
  obtain ⟨s', go, -, -, -, sent⟩ := serial_line_drains (Machine.Reach.start.exec (fun _ _ _ => trivial) hs) frames owed read line
  exact ⟨s, s', hs, go, sent.trans chars⟩

/-- On the machine words of the queues `write_char` and `read_char` do what they do on the line: the write queue loses its first character to
the chip and a task that waits is woken, the interrupt is switched off with an empty queue, and a character without room is not kept. -/
theorem rs_io_refines_line (s : RsCpu) (l : SerialLine) :
    (s.ShowsWrite l → s.writeChar.ShowsWrite l.writeChar) ∧
      (s.queue.Shows l.readQ → s.uart = l.uart → s.readChar.1.queue.Shows l.readChar.readQ ∧ s.readChar.1.uart = l.readChar.uart ∧
        l.readChar.run.frames = if s.readChar.2 then .cooked :: l.run.frames else l.run.frames) :=
  ⟨RsCpu.writeChar_shows, RsCpu.readChar_shows⟩

end RheeKernel
