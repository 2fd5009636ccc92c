import RheeKernel.Machine
import RheeKernel.RingBuffer

namespace RheeKernel

def pageSize : Nat := 4096

/-- The inode of a pipe: the page at `i_size`, the two indices laid over `i_zone`, and `i_count`. -/
structure Pipe where
  page : Nat → UInt8
  head : Nat
  tail : Nat
  count : Nat

namespace Pipe

def size (p : Pipe) : Nat := (((p.head : Int) - p.tail) % pageSize).toNat

def isEmpty (p : Pipe) : Bool := p.head == p.tail

def isFull (p : Pipe) : Bool := p.size == pageSize - 1

def incHead (p : Pipe) : Pipe := { p with head := (p.head + 1) % pageSize }

def incTail (p : Pipe) : Pipe := { p with tail := (p.tail + 1) % pageSize }

def put (p : Pipe) (c : UInt8) : Pipe := { p with page := Function.update p.page p.head c }.incHead

/-- The bytes between the tail and the head, oldest first. -/
def ring (p : Pipe) : List UInt8 := RingBuffer.contents pageSize p.page p.tail p.size

end Pipe

def getPipeInode : Pipe := { page := fun _ => 0, head := 0, tail := 0, count := 2 }

/-- The transfer loop of `read_pipe`, with the bytes it hands to the caller. -/
def readLoop : Nat → Pipe → Pipe × List UInt8
  | 0, p => (p, [])
  | n + 1, p =>
    if p.isEmpty then (p, [])
    else
      let r := readLoop n p.incTail
      (r.1, p.page p.tail :: r.2)

/-- How a stretch of `write_pipe` ends: at `sleep_on` with `b` bytes stored and `n` to go, or with a
return value and possibly a `SIGPIPE`. -/
inductive WriteEnd
  | sleeps (b n : Nat)
  | returns (value : Int) (sigpipe : Bool)
deriving DecidableEq

/-- The loop of `write_pipe` from the test of `PIPE_FULL` on, `b` bytes already stored and `n` to go. -/
def writeLoop (buf : Nat → UInt8) : Nat → Nat → Pipe → Pipe × List UInt8 × WriteEnd
  | 0, b, p => (p, [], .returns b false)
  | n + 1, b, p =>
    if p.isFull then
      if p.count ≠ 2 then (p, [], .returns b true) else (p, [], .sleeps b (n + 1))
    else
      let r := writeLoop buf n (b + 1) (p.put (buf b))
      (r.1, buf b :: r.2.1, r.2.2)

/-- A call of `read_pipe` or `write_pipe`: not made yet, asleep inside, or returned. -/
inductive PipeCall
  | fresh
  | reading (count : Int)
  | writing (buf : Nat → UInt8) (b n : Nat)
  | read (count value : Int)
  | wrote (buf : Nat → UInt8) (value : Int) (sigpipe : Bool)

/-- A pipe with its calls. `delivered` and `stored` list the bytes that readers got and writers put, in
this order, each with the call that moved it. -/
structure PipeSystem where
  pipe : Pipe
  call : Nat → PipeCall
  delivered : List (Nat × UInt8)
  stored : List (Nat × UInt8)

namespace PipeSystem

def got (s : PipeSystem) (i : Nat) : List UInt8 := (s.delivered.filter (·.1 == i)).map Prod.snd

def sent (s : PipeSystem) (i : Nat) : List UInt8 := (s.stored.filter (·.1 == i)).map Prod.snd

/-- The body of `read_pipe` from its first test on, up to its return or its `sleep_on`. -/
def readPipe (s : PipeSystem) (i : Nat) (count : Int) : PipeSystem :=
  if s.pipe.isEmpty then
    if s.pipe.count ≠ 2 then { s with call := Function.update s.call i (.read count 0) }
    else { s with call := Function.update s.call i (.reading count) }
  else
    let r := readLoop count.toNat s.pipe
    { s with
      pipe := r.1
      call := Function.update s.call i (.read count r.2.length)
      delivered := s.delivered ++ r.2.map fun c => (i, c) }

def writeOn (s : PipeSystem) (i : Nat) (buf : Nat → UInt8) (b n : Nat) : PipeSystem :=
  let r := writeLoop buf n b s.pipe
  { s with
    pipe := r.1
    call := Function.update s.call i <| match r.2.2 with
      | .sleeps b n => .writing buf b n
      | .returns value sigpipe => .wrote buf value sigpipe
    stored := s.stored ++ r.2.1.map fun c => (i, c) }

def writePipe (s : PipeSystem) (i : Nat) (buf : Nat → UInt8) (count : Int) : PipeSystem :=
  if s.pipe.count ≠ 2 then { s with call := Function.update s.call i (.wrote buf (-1) true) }
  else s.writeOn i buf 0 count.toNat

end PipeSystem

def pipeInit : PipeSystem := { pipe := getPipeInode, call := fun _ => .fresh, delivered := [], stored := [] }

inductive PipeEvent
  | readPipe (i : Nat) (count : Int)
  | writePipe (i : Nat) (buf : Nat → UInt8) (count : Int)
  | resume (i : Nat)
  | iput

/-- One stretch of a call between two sleep points. A sleeper may go on at any moment, not only after a
`wake_up`. The `iput` of one end is a step; that of the other end frees the page when no call is left. -/
def pipeStep (s : PipeSystem) : PipeEvent → Option PipeSystem
  | .readPipe i count => match s.call i with
    | .fresh => some (s.readPipe i count)
    | _ => none
  | .writePipe i buf count => match s.call i with
    | .fresh => some (s.writePipe i buf count)
    | _ => none
  | .resume i => match s.call i with
    | .reading count => some (s.readPipe i count)
    | .writing buf b n => some (s.writeOn i buf b n)
    | _ => none
  | .iput => if s.pipe.count = 2 then some { s with pipe := { s.pipe with count := 1 } } else none

namespace Pipe

/-- Both indices lie inside the page. -/
structure Bounded (p : Pipe) : Prop where
  head_lt : p.head < pageSize
  tail_lt : p.tail < pageSize

theorem Bounded.size_eq {p : Pipe} (h : p.Bounded) : p.size = RingBuffer.size pageSize p.head p.tail := by
  have hh := h.head_lt
  have ht := h.tail_lt
  unfold size
  unfold pageSize at hh ht ⊢
  rcases RingBuffer.size_cases hh ht with hc | hc
  · rw [hc.2]
    omega
  · rw [hc.2]
    omega

theorem Bounded.isEmpty_iff {p : Pipe} (h : p.Bounded) : p.isEmpty = true ↔ p.ring = [] := by
  rw [isEmpty, beq_iff_eq, ← RingBuffer.size_eq_zero_iff h.head_lt h.tail_lt, ← h.size_eq,
    ← List.length_eq_zero_iff, ring, RingBuffer.length_contents]

theorem Bounded.ring_length {p : Pipe} (h : p.Bounded) : p.ring.length ≤ pageSize - 1 := by
  have hlt : RingBuffer.size pageSize p.head p.tail < pageSize := RingBuffer.size_lt (by decide)
  rw [ring, RingBuffer.length_contents, h.size_eq]
  omega

theorem Bounded.put {p : Pipe} (h : p.Bounded) (c : UInt8) : (p.put c).Bounded :=
  ⟨Nat.mod_lt _ (by decide), h.tail_lt⟩

theorem Bounded.incTail {p : Pipe} (h : p.Bounded) : p.incTail.Bounded :=
  ⟨h.head_lt, Nat.mod_lt _ (by decide)⟩

theorem Bounded.ring_put {p : Pipe} (h : p.Bounded) (hfull : p.isFull = false) (c : UInt8) :
    (p.put c).ring = p.ring ++ [c] := by
  have hroom : RingBuffer.size pageSize p.head p.tail ≠ pageSize - 1 := by
    rw [← h.size_eq]
    simpa [isFull] using hfull
  have hsize : (p.put c).size = RingBuffer.size pageSize p.head p.tail + 1 :=
    (h.put c).size_eq.trans (RingBuffer.size_push h.head_lt h.tail_lt hroom)
  unfold ring
  rw [hsize, h.size_eq]
  exact RingBuffer.contents_push h.head_lt h.tail_lt

theorem Bounded.ring_incTail {p : Pipe} (h : p.Bounded) (hempty : p.isEmpty = false) :
    p.ring = p.page p.tail :: p.incTail.ring := by
  have hsome : RingBuffer.size pageSize p.head p.tail ≠ 0 := by
    rw [Ne, RingBuffer.size_eq_zero_iff h.head_lt h.tail_lt]
    simpa [isEmpty] using hempty
  have hsize : p.size = p.incTail.size + 1 := by
    rw [h.size_eq, h.incTail.size_eq]
    exact (RingBuffer.size_pop h.head_lt h.tail_lt hsome).symm
  unfold ring
  rw [hsize]
  exact RingBuffer.contents_pop h.tail_lt

end Pipe

/-- What a reader takes comes off the front of the ring. -/
theorem readLoop_spec {n : Nat} {p : Pipe} (h : p.Bounded) :
    (readLoop n p).1.Bounded ∧ (readLoop n p).1.count = p.count ∧ p.ring = (readLoop n p).2 ++ (readLoop n p).1.ring := by
  induction n generalizing p with
  | zero => exact ⟨h, rfl, rfl⟩
  | succ n ih =>
    unfold readLoop
    split
    next => exact ⟨h, rfl, rfl⟩
    next hempty =>
      obtain ⟨hb, hc, hr⟩ := ih h.incTail
      refine ⟨hb, hc, ?_⟩
      rw [h.ring_incTail (by simpa using hempty), hr]
      rfl

/-- A reader that finds the ring filled and wants a byte gets at least one. -/
theorem readLoop_ne_nil {n : Nat} {p : Pipe} (hempty : p.isEmpty = false) : (readLoop (n + 1) p).2 ≠ [] := by
  simp [readLoop, hempty]

/-- What a stretch of `write_pipe` stores goes to the end of the ring: the bytes of its buffer from `b` on. -/
structure WriteSpec (buf : Nat → UInt8) (b : Nat) (p : Pipe) (r : Pipe × List UInt8 × WriteEnd) : Prop where
  bounded : r.1.Bounded
  count : r.1.count = p.count
  ring : r.1.ring = p.ring ++ r.2.1
  bytes : r.2.1 = (List.range' b r.2.1.length).map buf
  sleeps : ∀ b' n', r.2.2 = .sleeps b' n' → b' = b + r.2.1.length
  returns : ∀ v sig, r.2.2 = .returns v sig → v = (b + r.2.1.length : Nat)

theorem writeLoop_spec {buf : Nat → UInt8} {n b : Nat} {p : Pipe} (h : p.Bounded) :
    WriteSpec buf b p (writeLoop buf n b p) := by
  induction n generalizing b p with
  | zero => exact ⟨h, rfl, by simp [writeLoop], rfl, by simp [writeLoop], by simp [writeLoop]⟩
  | succ n ih =>
    unfold writeLoop
    split
    next =>
      split
      next => exact ⟨h, rfl, by simp, rfl, by simp, by simp⟩
      next => exact ⟨h, rfl, by simp, rfl, by simp, by simp⟩
    next hfull =>
      have hr := ih (b := b + 1) (h.put (buf b))
      refine ⟨hr.bounded, hr.count, ?_, ?_, ?_, ?_⟩
      · rw [hr.ring, h.ring_put (by simpa using hfull)]
        simp
      · simp only [List.length_cons, List.range'_succ, List.map_cons]
        rw [← hr.bytes]
      · intro b' n' hend
        have := hr.sleeps b' n' hend
        simp only [List.length_cons]
        omega
      · intro v sig hend
        have := hr.returns v sig hend
        simp only [List.length_cons]
        omega

namespace PipeSystem

def bytes (log : List (Nat × UInt8)) : List UInt8 := log.map Prod.snd

/-- What a call has to show for itself: the bytes logged under its number, and its return value. -/
def CallOk (s : PipeSystem) (i : Nat) : PipeCall → Prop
  | .fresh => s.got i = [] ∧ s.sent i = []
  | .reading _ => s.got i = [] ∧ s.sent i = []
  | .writing buf b _ => s.got i = [] ∧ s.sent i = (List.range b).map buf
  | .read _ value => value = (s.got i).length ∧ s.sent i = []
  | .wrote buf value _ =>
    s.got i = [] ∧ s.sent i = (List.range (s.sent i).length).map buf ∧
      (value = (s.sent i).length ∨ value = -1 ∧ s.sent i = [] ∧ s.pipe.count ≠ 2)

structure Inv (s : PipeSystem) : Prop where
  bounded : s.pipe.Bounded
  fifo : bytes s.delivered ++ s.pipe.ring = bytes s.stored
  calls : ∀ i, s.CallOk i (s.call i)

theorem logged_self {i : Nat} {log : List (Nat × UInt8)} {cs : List UInt8} :
    ((log ++ cs.map fun c => (i, c)).filter (·.1 == i)).map Prod.snd = (log.filter (·.1 == i)).map Prod.snd ++ cs := by
  have hall : (cs.map fun c => (i, c)).filter (·.1 == i) = cs.map fun c => (i, c) := by
    simp [List.filter_eq_self]
  rw [List.filter_append, hall, List.map_append, List.map_map]
  simp [Function.comp_def]

theorem logged_other {i j : Nat} (hj : j ≠ i) {log : List (Nat × UInt8)} {cs : List UInt8} :
    ((log ++ cs.map fun c => (i, c)).filter (·.1 == j)).map Prod.snd = (log.filter (·.1 == j)).map Prod.snd := by
  have hnone : (cs.map fun c => (i, c)).filter (·.1 == j) = [] := by
    simp [List.filter_eq_nil_iff, Ne.symm hj]
  rw [List.filter_append, hnone, List.append_nil]

theorem bytes_logged {i : Nat} {log : List (Nat × UInt8)} {cs : List UInt8} :
    bytes (log ++ cs.map fun c => (i, c)) = bytes log ++ cs := by
  simp [bytes, Function.comp_def]

/-- A call that moved no byte keeps its account; once an end is closed it stays closed. -/
theorem CallOk.congr {s t : PipeSystem} {i : Nat} {c : PipeCall} (hgot : t.got i = s.got i) (hsent : t.sent i = s.sent i)
    (hcount : s.pipe.count ≠ 2 → t.pipe.count ≠ 2) (h : s.CallOk i c) : t.CallOk i c := by
  cases c with
  | fresh => exact ⟨hgot.trans h.1, hsent.trans h.2⟩
  | reading count => exact ⟨hgot.trans h.1, hsent.trans h.2⟩
  | writing buf b n => exact ⟨hgot.trans h.1, hsent.trans h.2⟩
  | read count value => exact ⟨by rw [hgot]; exact h.1, hsent.trans h.2⟩
  | wrote buf value sigpipe =>
    obtain ⟨hg, hb, hv⟩ := h
    refine ⟨hgot.trans hg, by rw [hsent]; exact hb, ?_⟩
    rw [hsent]
    rcases hv with hv | ⟨hv, hs, hc⟩
    · exact .inl hv
    · exact .inr ⟨hv, hs, hcount hc⟩

/-- A step of one call: its own account has to be right, the others are not touched. -/
theorem Inv.of_call {s t : PipeSystem} {i : Nat} {c : PipeCall} (h : s.Inv) (hb : t.pipe.Bounded)
    (hfifo : bytes t.delivered ++ t.pipe.ring = bytes t.stored) (hcount : t.pipe.count = s.pipe.count)
    (hcall : t.call = Function.update s.call i c) (hgot : ∀ j, j ≠ i → t.got j = s.got j)
    (hsent : ∀ j, j ≠ i → t.sent j = s.sent j) (hc : t.CallOk i c) : t.Inv := by
  refine ⟨hb, hfifo, fun j => ?_⟩
  rw [hcall]
  by_cases hj : j = i
  · rw [hj, Function.update_self]
    exact hc
  · rw [Function.update_of_ne hj]
    exact (h.calls j).congr (hgot j hj) (hsent j hj) (by rw [hcount]; exact id)

theorem Inv.readPipe {s : PipeSystem} (h : s.Inv) {i : Nat} {count : Int} (hgot : s.got i = []) (hsent : s.sent i = []) :
    (s.readPipe i count).Inv := by
  unfold PipeSystem.readPipe
  split
  next =>
    split
    next =>
      exact h.of_call h.bounded h.fifo rfl rfl (fun _ _ => rfl) (fun _ _ => rfl)
        (show (0 : Int) = (s.got i).length ∧ s.sent i = [] from ⟨by simp [hgot], hsent⟩)
    next =>
      exact h.of_call h.bounded h.fifo rfl rfl (fun _ _ => rfl) (fun _ _ => rfl)
        (show s.got i = [] ∧ s.sent i = [] from ⟨hgot, hsent⟩)
  next =>
    obtain ⟨hb, hc, hr⟩ := @readLoop_spec count.toNat _ h.bounded
    have hown : ((s.delivered ++ (readLoop count.toNat s.pipe).2.map fun c => (i, c)).filter (·.1 == i)).map Prod.snd =
        (readLoop count.toNat s.pipe).2 := by
      rw [logged_self, show (s.delivered.filter (·.1 == i)).map Prod.snd = [] from hgot, List.nil_append]
    refine h.of_call hb ?_ hc rfl (fun j hj => logged_other hj) (fun _ _ => rfl) ⟨?_, hsent⟩
    · show bytes (_ ++ _) ++ (readLoop count.toNat s.pipe).1.ring = bytes s.stored
      rw [bytes_logged, List.append_assoc, ← hr]
      exact h.fifo
    · show ((readLoop count.toNat s.pipe).2.length : Int) = _
      rw [got, hown]

theorem Inv.writeOn {s : PipeSystem} (h : s.Inv) {i b n : Nat} {buf : Nat → UInt8} (hgot : s.got i = [])
    (hsent : s.sent i = (List.range b).map buf) : (s.writeOn i buf b n).Inv := by
  have hw := @writeLoop_spec buf n b _ h.bounded
  unfold PipeSystem.writeOn
  generalize writeLoop buf n b s.pipe = r at hw
  obtain ⟨p, cs, fin⟩ := r
  have hown : ((s.stored ++ cs.map fun c => (i, c)).filter (·.1 == i)).map Prod.snd =
      (List.range (b + cs.length)).map buf := by
    have hcs : cs = (List.range' b cs.length).map buf := hw.bytes
    rw [logged_self, show (s.stored.filter (·.1 == i)).map Prod.snd = _ from hsent, List.range_eq_range',
      List.range_eq_range', ← List.range'_append_1, List.map_append, Nat.zero_add, ← hcs]
  refine h.of_call hw.bounded ?_ hw.count rfl (fun _ _ => rfl) (fun j hj => logged_other hj) ?_
  · show bytes s.delivered ++ p.ring = bytes (_ ++ _)
    rw [bytes_logged, show p.ring = s.pipe.ring ++ cs from hw.ring, ← h.fifo, List.append_assoc]
  · cases fin with
    | sleeps b' n' =>
      have hb : b' = b + cs.length := hw.sleeps b' n' rfl
      exact ⟨hgot, by rw [hb]; exact hown⟩
    | returns value sigpipe =>
      have hv : value = (b + cs.length : Nat) := hw.returns value sigpipe rfl
      refine ⟨hgot, ?_, .inl ?_⟩
      · rw [sent, hown]
        simp
      · rw [sent, hown, hv]
        simp

theorem Inv.writePipe {s : PipeSystem} (h : s.Inv) {i : Nat} {buf : Nat → UInt8} {count : Int} (hgot : s.got i = [])
    (hsent : s.sent i = []) : (s.writePipe i buf count).Inv := by
  unfold PipeSystem.writePipe
  split
  next hcount =>
    refine h.of_call h.bounded h.fifo rfl rfl (fun _ _ => rfl) (fun _ _ => rfl) ?_
    show s.got i = [] ∧ s.sent i = (List.range (s.sent i).length).map buf ∧
      (-1 = ((s.sent i).length : Int) ∨ (-1 : Int) = -1 ∧ s.sent i = [] ∧ s.pipe.count ≠ 2)
    exact ⟨hgot, by simp [hsent], .inr ⟨rfl, hsent, hcount⟩⟩
  next => exact h.writeOn hgot (by simpa using hsent)

theorem Inv.iput {s : PipeSystem} (h : s.Inv) : Inv { s with pipe := { s.pipe with count := 1 } } := by
  refine ⟨⟨h.bounded.head_lt, h.bounded.tail_lt⟩, h.fifo, fun i => ?_⟩
  exact @CallOk.congr s _ i _ rfl rfl (by simp) (h.calls i)

end PipeSystem

theorem pipeInit_inv : pipeInit.Inv :=
  ⟨⟨by decide, by decide⟩, rfl, fun _ => ⟨rfl, rfl⟩⟩

/-- What a step can be: a stretch of `read_pipe`, the start or a later stretch of `write_pipe`, or the end
of one side. -/
theorem pipeStep_cases {s t : PipeSystem} {e : PipeEvent} (hs : pipeStep s e = some t) :
    (∃ i count, (s.call i = .fresh ∨ s.call i = .reading count) ∧ t = s.readPipe i count) ∨
    (∃ i buf count, s.call i = .fresh ∧ t = s.writePipe i buf count) ∨
    (∃ i buf b n, s.call i = .writing buf b n ∧ t = s.writeOn i buf b n) ∨
    (s.pipe.count = 2 ∧ t = { s with pipe := { s.pipe with count := 1 } }) := by
  cases e with
  | readPipe i count =>
    simp only [pipeStep] at hs
    split at hs
    next hi => exact .inl ⟨i, count, .inl hi, (Option.some.inj hs).symm⟩
    next => simp at hs
  | writePipe i buf count =>
    simp only [pipeStep] at hs
    split at hs
    next hi => exact .inr (.inl ⟨i, buf, count, hi, (Option.some.inj hs).symm⟩)
    next => simp at hs
  | resume i =>
    simp only [pipeStep] at hs
    split at hs
    next count hi => exact .inl ⟨i, count, .inr hi, (Option.some.inj hs).symm⟩
    next buf b n hi => exact .inr (.inr (.inl ⟨i, buf, b, n, hi, (Option.some.inj hs).symm⟩))
    next => simp at hs
  | iput =>
    simp only [pipeStep] at hs
    split at hs
    next hc => exact .inr (.inr (.inr ⟨hc, (Option.some.inj hs).symm⟩))
    next => simp at hs

theorem pipeStep_inv {s t : PipeSystem} {e : PipeEvent} (h : s.Inv) (hs : pipeStep s e = some t) : t.Inv := by
  rcases pipeStep_cases hs with ⟨i, count, hi, rfl⟩ | ⟨i, buf, count, hi, rfl⟩ | ⟨i, buf, b, n, hi, rfl⟩ | ⟨_, rfl⟩
  · have hcall := h.calls i
    rcases hi with hi | hi
    · rw [hi] at hcall
      exact h.readPipe hcall.1 hcall.2
    · rw [hi] at hcall
      exact h.readPipe hcall.1 hcall.2
  · have hcall := h.calls i
    rw [hi] at hcall
    exact h.writePipe hcall.1 hcall.2
  · have hcall := h.calls i
    rw [hi] at hcall
    exact h.writeOn hcall.1 hcall.2
  · exact h.iput

/-- A stretch of `read_pipe` returns 0 to a caller that wants bytes only at the test for writers. -/
theorem readPipe_zero {s : PipeSystem} {i j : Nat} {count c : Int} (hj : s.call j ≠ .read c 0)
    (hz : (s.readPipe i count).call j = .read c 0) (hc : 0 < c) :
    (s.readPipe i count).pipe.isEmpty = true ∧ (s.readPipe i count).pipe.count ≠ 2 := by
  have hji : j = i := by
    by_contra hne
    refine hj (Eq.trans ?_ hz)
    unfold PipeSystem.readPipe
    split
    next => split <;> simp [Function.update_of_ne hne]
    next => simp [Function.update_of_ne hne]
  subst hji
  unfold PipeSystem.readPipe at hz ⊢
  split at hz
  next hempty =>
    split at hz
    next hcount => simp only [hempty, ↓reduceIte, hcount, ne_eq, not_false_eq_true, and_self]
    next => simp at hz
  next hempty =>
    simp only [Function.update_self, PipeCall.read.injEq, Int.natCast_eq_zero, List.length_eq_zero_iff] at hz
    obtain ⟨rfl, hz⟩ := hz
    have hn : count.toNat = (count.toNat - 1) + 1 := by omega
    rw [hn] at hz
    exact absurd hz (readLoop_ne_nil (by simpa using hempty))

theorem pipeStep_zero {s t : PipeSystem} {e : PipeEvent} (hs : pipeStep s e = some t) {j : Nat} {c : Int}
    (hj : s.call j ≠ .read c 0) (hz : t.call j = .read c 0) (hc : 0 < c) : t.pipe.isEmpty = true ∧ t.pipe.count ≠ 2 := by
  have hother : ∀ {i : Nat} {x : PipeCall}, t.call = Function.update s.call i x → x = .read c 0 := by
    intro i x hcall
    rw [hcall] at hz
    by_cases hji : j = i
    · rwa [hji, Function.update_self] at hz
    · rw [Function.update_of_ne hji] at hz
      exact absurd hz hj
  rcases pipeStep_cases hs with ⟨i, count, hi, rfl⟩ | ⟨i, buf, count, hi, rfl⟩ | ⟨i, buf, b, n, hi, rfl⟩ | ⟨_, rfl⟩
  · exact readPipe_zero hj hz hc
  · unfold PipeSystem.writePipe at hother
    split at hother
    next => exact absurd (hother rfl) (by simp)
    next =>
      have := hother rfl
      split at this <;> simp at this
  · have := hother rfl
    split at this <;> simp at this
  · exact absurd hz hj

/-- A reader comes first and sleeps; a writer puts three bytes, the reader takes two and the writer leaves. -/
def sampleTransfer : List PipeEvent :=
  [.readPipe 0 2, .writePipe 1 (fun k => 65 + UInt8.ofNat k) 3, .resume 0, .iput]

end RheeKernel
