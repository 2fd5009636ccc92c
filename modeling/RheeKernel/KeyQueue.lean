import Mathlib.Data.Nat.Find
import RheeKernel.RegisterBytes
import RheeKernel.TtyQueue

namespace RheeKernel

open RegisterBytes

/-- A `struct tty_queue` as the assembly code sees it. -/
structure ReadQueue where
  data : BitVec 32
  head : BitVec 32
  tail : BitVec 32
  procList : BitVec 32
  buf : Nat → BitVec 8

/-- What `put_queue` works on: the registers, the flag of `je`, the stack, the first entry of `table_list` with the queue there, and the
words that begin the task structures, their states. -/
structure KeyCpu where
  eax : BitVec 32
  ebx : BitVec 32
  ecx : BitVec 32
  edx : BitVec 32
  zf : Bool
  stack : List (BitVec 32)
  tableList : BitVec 32
  queue : ReadQueue
  state : BitVec 32 → BitVec 32

namespace KeyCpu

/-- From the label 1 up to the test for a full buffer. -/
def store (s : KeyCpu) : KeyCpu :=
  let s := { s with queue := { s.queue with buf := Function.update s.queue.buf s.ecx.toNat (low s.eax) } }
  let s := { s with ecx := s.ecx + 1 }
  let s := { s with ecx := s.ecx &&& (1024 - 1) }
  { s with zf := s.ecx = s.queue.tail }

/-- `shrdl $8,%ebx,%eax` -/
def shrdl (s : KeyCpu) : KeyCpu :=
  let eax := s.eax >>> 8 ||| s.ebx <<< 24
  { s with eax := eax, zf := eax = 0 }

/-- `shrl $8,%ebx` -/
def shrl (s : KeyCpu) : KeyCpu :=
  let ebx := s.ebx >>> 8
  { s with ebx := ebx, zf := ebx = 0 }

/-- The label 2: the head is stored and a task that waits is woken. -/
def publish (s : KeyCpu) : KeyCpu :=
  let s := { s with queue := { s.queue with head := s.ecx } }
  let s := { s with ecx := s.queue.procList, zf := s.queue.procList = 0 }
  if s.zf then s else { s with state := Function.update s.state s.ecx 0 }

/-- From the label 1 to the label 3, in so many turns. -/
def fill : Nat → KeyCpu → Option KeyCpu
  | 0, _ => none
  | fuel + 1, s =>
    let s := s.store
    if s.zf then some s
    else
      let s := s.shrdl
      if s.zf then some s.publish else fill fuel s.shrl

def pushl (s : KeyCpu) (v : BitVec 32) : KeyCpu := { s with stack := v :: s.stack }

/-- The label 3. -/
def leave (s : KeyCpu) : Option KeyCpu :=
  match s.stack with
  | edx :: ecx :: stack => some { s with edx := edx, ecx := ecx, stack := stack }
  | _ => none

def putQueue (fuel : Nat) (s : KeyCpu) : Option KeyCpu :=
  let s := s.pushl s.ecx
  let s := s.pushl s.edx
  let s := { s with edx := s.tableList }
  let s := { s with ecx := s.queue.head }
  (s.fill fuel).bind leave

end KeyCpu

/-- `%ebx:%eax` -/
def pairOf (ebx eax : BitVec 32) : BitVec 64 := ebx ++ eax

/-- The byte number `i` of `%ebx:%eax`. -/
def keyByte (pair : BitVec 64) (i : Nat) : BitVec 8 := (pair >>> (8 * i)).setWidth 8

/-- What `%eax` holds when the first `i` bytes are shifted out. -/
def inEax (pair : BitVec 64) (i : Nat) : BitVec 32 := (pair >>> (8 * i)).setWidth 32

/-- So many bytes are taken: at least one, and up to the first place where nothing remains in `%eax`. -/
structure Taken (pair : BitVec 64) (n : Nat) : Prop where
  some : 1 ≤ n
  rest : inEax pair n = 0
  more : ∀ i, 1 ≤ i → i < n → inEax pair i ≠ 0

def keyBytes (pair : BitVec 64) (n : Nat) : List (BitVec 8) := (List.range n).map (keyByte pair)

section Pairs

variable {pair : BitVec 64} {eax ebx : BitVec 32} {n : Nat}

theorem keyByte_shift {i : Nat} : keyByte (pair >>> 8) i = keyByte pair (i + 1) := by
  unfold keyByte
  rw [← BitVec.shiftRight_add, Nat.mul_succ, Nat.add_comm]

theorem inEax_shift {i : Nat} : inEax (pair >>> 8) i = inEax pair (i + 1) := by
  unfold inEax
  rw [← BitVec.shiftRight_add, Nat.mul_succ, Nat.add_comm]

theorem keyBytes_succ : keyBytes pair (n + 1) = keyByte pair 0 :: keyBytes (pair >>> 8) n := by
  unfold keyBytes
  rw [List.range_succ_eq_map, List.map_cons, List.map_map]
  congr 1
  apply List.map_congr_left
  intro i _
  exact keyByte_shift.symm

theorem keyBytes_length : (keyBytes pair n).length = n := by
  rw [keyBytes, List.length_map, List.length_range]

/-- With the first byte shifted out the others are taken. -/
theorem Taken.shift (taken : Taken pair (n + 1)) (h : 1 ≤ n) : Taken (pair >>> 8) n := by
  constructor
  · exact h
  · rw [inEax_shift]
    exact taken.rest
  · intro i _ hi
    rw [inEax_shift]
    exact taken.more (i + 1) (Nat.succ_le_succ (Nat.zero_le i)) (Nat.succ_lt_succ hi)

/-- Behind eight bytes nothing remains. -/
theorem taken_exists (pair : BitVec 64) : ∃ n ≤ 8, Taken pair n := by
  have empty : 1 ≤ 8 ∧ inEax pair 8 = 0 := by
    constructor
    · omega
    · unfold inEax
      rw [BitVec.ushiftRight_eq_zero (by omega)]
      rfl
  have ends : ∃ n, 1 ≤ n ∧ inEax pair n = 0 := ⟨8, empty⟩
  refine ⟨Nat.find ends, Nat.find_min' ends empty, (Nat.find_spec ends).1, (Nat.find_spec ends).2, ?_⟩
  intro i positive hi zero
  exact Nat.find_min ends hi ⟨positive, zero⟩

theorem getLsbD_pairOf {i : Nat} : (pairOf ebx eax).getLsbD i = if i < 32 then eax.getLsbD i else ebx.getLsbD (i - 32) :=
  BitVec.getLsbD_append

theorem keyByte_zero : keyByte (pairOf ebx eax) 0 = low eax := by
  apply BitVec.eq_of_getLsbD_eq
  intro i hi
  have inside : i < 32 := by omega
  simp only [keyByte, low, BitVec.getLsbD_setWidth, BitVec.getLsbD_ushiftRight, BitVec.getLsbD_extractLsb', getLsbD_pairOf, hi,
    Nat.mul_zero, Nat.zero_add, inside, if_true]

theorem inEax_one : inEax (pairOf ebx eax) 1 = eax >>> 8 ||| ebx <<< 24 := by
  apply BitVec.eq_of_getLsbD_eq
  intro i hi
  simp only [inEax, BitVec.getLsbD_setWidth, BitVec.getLsbD_ushiftRight, getLsbD_pairOf, BitVec.getLsbD_or,
    BitVec.getLsbD_shiftLeft, hi, Nat.mul_one, decide_true, Bool.true_and]
  by_cases lower : i < 24
  · rw [if_pos (by omega), decide_eq_true lower]
    simp
  · have place : 8 + i - 32 = i - 24 := by omega
    rw [if_neg (by omega), decide_eq_false lower, place, BitVec.getLsbD_of_ge eax _ (by omega)]
    simp

/-- The two shifts move the pair. -/
theorem pair_shift : pairOf (ebx >>> 8) (eax >>> 8 ||| ebx <<< 24) = pairOf ebx eax >>> 8 := by
  rw [← inEax_one]
  apply BitVec.eq_of_getLsbD_eq
  intro i hi
  simp only [inEax, getLsbD_pairOf, BitVec.getLsbD_setWidth, BitVec.getLsbD_ushiftRight, Nat.mul_one]
  by_cases lower : i < 32
  · rw [if_pos lower, decide_eq_true lower, Bool.true_and]
  · have place : 8 + (i - 32) = 8 + i - 32 := by omega
    rw [if_neg lower, if_neg (by omega), place]

end Pairs

namespace TtyQueue

variable {q old : TtyQueue} {cs ds : List (BitVec 8)}

theorem left_putch {c : BitVec 8} (h : q.isFull = false) : (q.putch c).left.val + 1 = q.left.val := by
  have more := chars_putch (c := c) h
  have before := @left_eq q
  have behind := @left_eq (q.putch c)
  have bound := @chars_lt (q.putch c)
  unfold ttyBufSize at *
  omega

theorem isFull_iff_left : q.isFull = true ↔ q.left.val = 0 := decide_eq_true_iff.trans Fin.ext_iff

/-- With room for all of them `put_queue` does what one PUTCH after the other does. -/
theorem putQueue_room (h : cs.length ≤ q.left.val) : putQueue old q cs = q.putAll cs := by
  induction cs generalizing q with
  | nil => rfl
  | cons c cs ih =>
    rw [List.length_cons] at h
    have room : q.isFull = false := Bool.eq_false_iff.mpr fun full => by
      have := isFull_iff_left.mp full
      omega
    have less := left_putch (c := c) room
    rw [putQueue, room, if_neg Bool.false_ne_true, ih (by omega)]
    rfl

/-- Without it the queue holds what it has held. -/
theorem putQueue_full (h : q.left.val < cs.length) (htail : q.tail = old.tail) (hq : q.contents = old.contents ++ ds) :
    (putQueue old q cs).head = old.head ∧ (putQueue old q cs).contents = old.contents := by
  induction cs generalizing q ds with
  | nil => exact absurd h (Nat.not_lt_zero _)
  | cons c cs ih =>
    rw [putQueue]
    cases room : q.isFull with
    | true => exact ⟨rfl, contents_behind htail hq⟩
    | false =>
      have less := left_putch (c := c) room
      rw [List.length_cons] at h
      rw [if_neg Bool.false_ne_true]
      have held : (q.putch c).contents = old.contents ++ (ds ++ [c]) := by
        rw [contents_putch room, hq, List.append_assoc]
      exact ih (by omega) htail held

theorem putAll_head : (q.putAll cs).head.val = (q.head.val + cs.length) % ttyBufSize := by
  induction cs generalizing q with
  | nil => exact (Nat.mod_eq_of_lt q.head.isLt).symm
  | cons c cs ih =>
    have first : (q.putch c).head.val = (q.head.val + 1) % ttyBufSize := succ_val q.head
    change ((q.putch c).putAll cs).head.val = _
    rw [ih, first, Nat.mod_add_mod, List.length_cons, Nat.add_assoc, Nat.add_comm 1]

theorem putQueue_tail (htail : q.tail = old.tail) : (putQueue old q cs).tail = old.tail := by
  induction cs generalizing q with
  | nil => exact htail
  | cons c cs ih =>
    rw [putQueue]
    split
    next => rfl
    next => exact ih htail

end TtyQueue

/-- The words of the queue in memory are those of the queue `q`. -/
structure ReadQueue.Shows (m : ReadQueue) (q : TtyQueue) : Prop where
  data : m.data = q.data
  head : m.head.toNat = q.head.val
  tail : m.tail.toNat = q.tail.val
  buf : m.buf = q.buf

section Fill

variable {s : KeyCpu} {q old : TtyQueue} {n fuel : Nat}

/-- A byte is stored as PUTCH stores it, and the test finds out whether that was one too many. -/
theorem store_shows (place : s.ecx.toNat = q.head.val) (tail : s.queue.tail.toNat = q.tail.val) (buf : s.queue.buf = q.buf) :
    s.store.queue.buf = (q.putch (low s.eax)).buf ∧ s.store.ecx.toNat = (q.putch (low s.eax)).head.val ∧
      s.store.zf = q.isFull := by
  have bound := q.head.isLt
  have bound' := q.tail.isLt
  have next : ((s.ecx + 1) &&& (1024 - 1)).toNat = (q.head + 1).val := by
    rw [TtyQueue.succ_val, BitVec.toNat_and, BitVec.toNat_add, place]
    change (q.head.val + 1) % 2 ^ 32 &&& (2 ^ 10 - 1) = _
    rw [Nat.and_two_pow_sub_one_eq_mod]
    unfold ttyBufSize at *
    omega
  refine ⟨?_, next, ?_⟩
  · simp only [KeyCpu.store, TtyQueue.putch, place, buf]
  · have full : q.isFull = true ↔ q.head + 1 = q.tail := by
      rw [TtyQueue.isFull_iff_left, Fin.ext_iff, TtyQueue.succ_val, TtyQueue.left_eq, TtyQueue.chars_eq]
      have sizes := RingBuffer.size_cases q.head.isLt q.tail.isLt
      unfold ttyBufSize at *
      omega
    rw [Bool.eq_iff_iff, full]
    change decide ((s.ecx + 1) &&& (1024 - 1) = s.queue.tail) = true ↔ _
    rw [decide_eq_true_iff, ← BitVec.toNat_inj, next, tail, Fin.ext_iff]

theorem publish_queue : s.publish.queue = { s.queue with head := s.ecx } ∧ s.publish.stack = s.stack := by
  unfold KeyCpu.publish
  dsimp only
  split
  next => exact ⟨rfl, rfl⟩
  next => exact ⟨rfl, rfl⟩

/-- The loop does to the queue in memory what `TtyQueue.putQueue` does with the bytes that are taken. -/
theorem fill_shows (taken : Taken (pairOf s.ebx s.eax) n) (enough : n ≤ fuel) (place : s.ecx.toNat = q.head.val)
    (buf : s.queue.buf = q.buf) (behind : q.tail = old.tail) (data : q.data = old.data)
    (shown : s.queue.data = old.data ∧ s.queue.head.toNat = old.head.val ∧ s.queue.tail.toNat = old.tail.val) :
    ∃ s', s.fill fuel = some s' ∧ s'.queue.Shows (old.putQueue q (keyBytes (pairOf s.ebx s.eax) n)) ∧ s'.stack = s.stack := by
  induction n generalizing s q fuel with
  | zero => exact absurd taken.some (by omega)
  | succ n ih =>
    cases fuel with
    | zero => omega
    | succ fuel =>
      have tail : s.queue.tail.toNat = q.tail.val := by rw [shown.2.2, behind]
      obtain ⟨stored, next, full⟩ := store_shows place tail buf
      rw [keyBytes_succ, TtyQueue.putQueue, keyByte_zero]
      simp only [KeyCpu.fill, full]
      cases q.isFull with
      | true => exact ⟨s.store, if_pos rfl, ⟨shown.1, shown.2.1, shown.2.2, stored⟩, rfl⟩
      | false =>
        have left : s.store.shrdl.eax = inEax (pairOf s.ebx s.eax) 1 := inEax_one.symm
        rw [if_neg Bool.false_ne_true, if_neg Bool.false_ne_true]
        by_cases last : n = 0
        · subst last
          have empty : s.store.shrdl.zf = true := decide_eq_true (left.trans taken.rest)
          obtain ⟨published, stack⟩ := @publish_queue s.store.shrdl
          refine ⟨s.store.shrdl.publish, if_pos empty, ?_, stack⟩
          rw [published]
          exact ⟨shown.1.trans data.symm, next, tail, stored⟩
        · have more : s.store.shrdl.zf = false := decide_eq_false fun zero =>
            taken.more 1 (by omega) (by omega) (left.symm.trans zero)
          have shifted : pairOf s.store.shrdl.shrl.ebx s.store.shrdl.shrl.eax = pairOf s.ebx s.eax >>> 8 := pair_shift
          have taken' : Taken (pairOf s.store.shrdl.shrl.ebx s.store.shrdl.shrl.eax) n := by
            rw [shifted]
            exact taken.shift (Nat.pos_of_ne_zero last)
          rw [more, if_neg Bool.false_ne_true, ← shifted]
          exact ih taken' (by omega) next stored behind data shown

/-- `put_queue` as a whole; the registers that it saves are as they were. -/
theorem putQueue_shows (taken : Taken (pairOf s.ebx s.eax) n) (enough : n ≤ fuel) (shown : s.queue.Shows q) :
    ∃ s', s.putQueue fuel = some s' ∧ s'.queue.Shows (q.putQueue q (keyBytes (pairOf s.ebx s.eax) n)) ∧
      s'.ecx = s.ecx ∧ s'.edx = s.edx ∧ s'.stack = s.stack := by
  have entered := @fill_shows { (s.pushl s.ecx).pushl s.edx with edx := s.tableList, ecx := s.queue.head } q q n fuel taken enough
    shown.head shown.buf rfl rfl ⟨shown.data, shown.head, shown.tail⟩
  obtain ⟨s', run, result, stack⟩ := entered
  refine ⟨{ s' with edx := s.edx, ecx := s.ecx, stack := s.stack }, ?_, result, rfl, rfl, rfl⟩
  have stack : s'.stack = s.edx :: s.ecx :: s.stack := stack
  unfold KeyCpu.putQueue
  refine (congrArg (Option.bind · KeyCpu.leave) run).trans ?_
  rw [Option.bind_some, KeyCpu.leave, stack]

end Fill

namespace ReadQueue

/-- CHARS -/
def chars (m : ReadQueue) : Nat := ((m.head - m.tail) &&& (1024 - 1)).toNat

/-- The characters between the tail and the head, oldest first. -/
def contents (m : ReadQueue) : List (BitVec 8) := RingBuffer.contents 1024 m.buf m.tail.toNat m.chars

variable {m : ReadQueue} {q : TtyQueue}

/-- A queue whose indices are in range. -/
def tty (m : ReadQueue) (head : m.head.toNat < ttyBufSize) (tail : m.tail.toNat < ttyBufSize) : TtyQueue where
  data := m.data
  head := ⟨m.head.toNat, head⟩
  tail := ⟨m.tail.toNat, tail⟩
  buf := m.buf
  stored := []
  fetched := []
  overrun := false
  underrun := false

theorem shows_tty (head : m.head.toNat < ttyBufSize) (tail : m.tail.toNat < ttyBufSize) : m.Shows (m.tty head tail) :=
  ⟨rfl, rfl, rfl, rfl⟩

theorem Shows.chars (shown : m.Shows q) : m.chars = q.chars := by
  have h := q.head.isLt
  have t := q.tail.isLt
  unfold ReadQueue.chars TtyQueue.chars
  rw [BitVec.toNat_and, BitVec.toNat_sub, shown.head, shown.tail, Fin.val_sub]
  change (2 ^ 32 - q.tail.val + q.head.val) % 2 ^ 32 &&& (2 ^ 10 - 1) = _
  rw [Nat.and_two_pow_sub_one_eq_mod]
  unfold ttyBufSize at *
  omega

theorem Shows.contents (shown : m.Shows q) : m.contents = q.contents := by
  unfold ReadQueue.contents TtyQueue.contents
  rw [shown.chars, shown.buf, shown.tail]

end ReadQueue

/-- `put_queue` appends the bytes that are taken from `%ebx:%eax`, all of them or none: it leaves the head where it is if they do not fit
with one cell left free, and otherwise the head does not get to the tail. -/
theorem putQueue_whole {s : KeyCpu} {fuel : Nat} (enough : 8 ≤ fuel) (head : s.queue.head.toNat < 1024)
    (tail : s.queue.tail.toNat < 1024) :
    ∃ n s', Taken (pairOf s.ebx s.eax) n ∧ s.putQueue fuel = some s' ∧ s'.queue.tail = s.queue.tail ∧
      (s.queue.contents.length + n < 1024 →
        s'.queue.contents = s.queue.contents ++ keyBytes (pairOf s.ebx s.eax) n ∧
        s'.queue.head.toNat = (s.queue.head.toNat + n) % 1024 ∧
        ∀ k, 1 ≤ k → k ≤ n → (s.queue.head.toNat + k) % 1024 ≠ s.queue.tail.toNat) ∧
      (1024 ≤ s.queue.contents.length + n → s'.queue.head = s.queue.head ∧ s'.queue.contents = s.queue.contents) := by
  obtain ⟨n, short, taken⟩ := taken_exists (pairOf s.ebx s.eax)
  have shown := ReadQueue.shows_tty head tail
  have turns : n ≤ fuel := short.trans enough
  obtain ⟨s', run, result, -⟩ := putQueue_shows taken turns shown
  have length := @keyBytes_length (pairOf s.ebx s.eax) n
  have used : s.queue.contents.length = (s.queue.tty head tail).chars := by
    rw [shown.contents, TtyQueue.length_contents]
  have left := @TtyQueue.left_eq (s.queue.tty head tail)
  have size := @TtyQueue.chars_eq (s.queue.tty head tail)
  have place := RingBuffer.size_cases (n := ttyBufSize) head tail
  change (s.queue.tty head tail).chars = RingBuffer.size ttyBufSize s.queue.head.toNat s.queue.tail.toNat at size
  unfold ttyBufSize at left place
  rw [← size] at place
  refine ⟨n, s', taken, run, ?_, ?_, ?_⟩
  · apply BitVec.eq_of_toNat_eq
    rw [result.tail, TtyQueue.putQueue_tail rfl]
    rfl
  · intro fits
    have room : (keyBytes (pairOf s.ebx s.eax) n).length ≤ (s.queue.tty head tail).left.val := by omega
    rw [TtyQueue.putQueue_room room] at result
    refine ⟨?_, ?_, ?_⟩
    · rw [result.contents, (TtyQueue.contents_putAll room).1, shown.contents]
    · rw [result.head, TtyQueue.putAll_head, length]
      rfl
    · intro k positive bound
      omega
  · intro full
    have crowded : (s.queue.tty head tail).left.val < (keyBytes (pairOf s.ebx s.eax) n).length := by omega
    have held : (s.queue.tty head tail).contents = (s.queue.tty head tail).contents ++ [] := (List.append_nil _).symm
    obtain ⟨sameHead, same⟩ := TtyQueue.putQueue_full crowded rfl held
    constructor
    · apply BitVec.eq_of_toNat_eq
      rw [result.head, sameHead]
      rfl
    · rw [result.contents, same, shown.contents]

/-- The three bytes of the cursor key up, for a queue that is empty at its last cell but one. -/
def cursorUp : KeyCpu where
  eax := 0x415b1b
  ebx := 0
  ecx := 0
  edx := 0
  zf := false
  stack := []
  tableList := 0x20000
  queue := { data := 0, head := 1022, tail := 1022, procList := 0, buf := fun _ => 0 }
  state := fun _ => 1

theorem putQueue_whole_cursorUp :
    ∃ n s', Taken (pairOf 0 0x415b1b) n ∧ cursorUp.putQueue 8 = some s' ∧ s'.queue.tail = 1022 ∧
      (0 + n < 1024 → s'.queue.contents = keyBytes (pairOf 0 0x415b1b) n ∧ s'.queue.head.toNat = (1022 + n) % 1024) := by
  obtain ⟨n, s', taken, run, tail, fits, -⟩ := @putQueue_whole cursorUp 8 (by decide) (by decide) (by decide)
  have empty : cursorUp.queue.contents = [] := by decide
  rw [empty] at fits
  refine ⟨n, s', taken, run, tail, ?_⟩
  intro room
  obtain ⟨contents, head, -⟩ := fits room
  exact ⟨contents, head⟩

end RheeKernel
