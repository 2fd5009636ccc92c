import Mathlib.Data.Fin.Basic
import RheeKernel.RingBuffer

namespace RheeKernel

abbrev ttyBufSize : Nat := 1024

@[instance] theorem ttyBufSize_neZero : NeZero ttyBufSize := ⟨by decide⟩

/-- A `tty_queue`. `stored` and `fetched` list what PUTCH has put in and GETCH has taken out, `overrun` and `underrun` say whether the one
was executed on a full queue and the other on an empty one. -/
structure TtyQueue where
  data : BitVec 32
  head : Fin ttyBufSize
  tail : Fin ttyBufSize
  buf : Nat → BitVec 8
  stored : List (BitVec 8)
  fetched : List (BitVec 8)
  overrun : Bool
  underrun : Bool

namespace TtyQueue

def init : TtyQueue where
  data := 0
  head := 0
  tail := 0
  buf := fun _ => 0
  stored := []
  fetched := []
  overrun := false
  underrun := false

def isEmpty (q : TtyQueue) : Bool := q.head = q.tail

def left (q : TtyQueue) : Fin ttyBufSize := q.tail - q.head - 1

def isFull (q : TtyQueue) : Bool := q.left = 0

def chars (q : TtyQueue) : Nat := (q.head - q.tail).val

def last (q : TtyQueue) : BitVec 8 := q.buf (q.head - 1).val

/-- The character that GETCH takes. -/
def first (q : TtyQueue) : BitVec 8 := q.buf q.tail.val

def getch (q : TtyQueue) : TtyQueue :=
  { q with tail := q.tail + 1, fetched := q.fetched ++ [q.first], underrun := q.underrun || q.isEmpty }

def putch (q : TtyQueue) (c : BitVec 8) : TtyQueue :=
  { q with
    buf := Function.update q.buf q.head.val c
    head := q.head + 1
    stored := q.stored ++ [c]
    overrun := q.overrun || q.isFull }

def putAll (q : TtyQueue) (cs : List (BitVec 8)) : TtyQueue := cs.foldl putch q

/-- `DEC(head)` takes back what was put in last. -/
def dec (q : TtyQueue) : TtyQueue := { q with head := q.head - 1, stored := q.stored.dropLast }

/-- `put_queue` puts in all characters or, though it has written some behind the head, none. -/
def putQueue (old : TtyQueue) : TtyQueue → List (BitVec 8) → TtyQueue
  | q, [] => q
  | q, c :: cs => if q.isFull then { old with buf := (q.putch c).buf } else putQueue old (q.putch c) cs

/-- The characters between the tail and the head, oldest first. -/
def contents (q : TtyQueue) : List (BitVec 8) := RingBuffer.contents ttyBufSize q.buf q.tail.val q.chars

/-- Nothing has been lost or invented: what was taken out and what is there is what was put in. -/
structure Whole (q : TtyQueue) : Prop where
  order : q.stored = q.fetched ++ q.contents
  overrun : q.overrun = false
  underrun : q.underrun = false

variable {q old : TtyQueue} {c : BitVec 8} {cs : List (BitVec 8)}

theorem chars_eq : q.chars = RingBuffer.size ttyBufSize q.head.val q.tail.val := by
  unfold chars RingBuffer.size
  rw [Fin.val_sub, Nat.add_comm]

theorem isEmpty_iff : q.isEmpty = true ↔ q.chars = 0 := by
  rw [chars_eq, RingBuffer.size_eq_zero_iff q.head.isLt q.tail.isLt]
  exact decide_eq_true_iff.trans Fin.ext_iff

theorem chars_lt : q.chars < ttyBufSize := (q.head - q.tail).isLt

theorem left_eq : q.left.val = ttyBufSize - 1 - q.chars := by
  have hh := q.head.isLt
  have ht := q.tail.isLt
  have hone : ((1 : Fin ttyBufSize) : Nat) = 1 := rfl
  unfold left chars
  rw [Fin.val_sub, Fin.val_sub, Fin.val_sub, hone]
  unfold ttyBufSize at *
  omega

theorem isFull_iff : q.isFull = true ↔ q.chars = ttyBufSize - 1 := by
  have hleft := @left_eq q
  have hlt := @chars_lt q
  unfold ttyBufSize at *
  refine decide_eq_true_iff.trans (Fin.ext_iff.trans ?_)
  change q.left.val = 0 ↔ _
  omega

theorem length_contents : q.contents.length = q.chars := RingBuffer.length_contents

theorem isEmpty_iff_contents : q.isEmpty = true ↔ q.contents = [] := by
  rw [isEmpty_iff, ← length_contents, List.length_eq_zero_iff]

theorem contents_eq : q.contents = RingBuffer.contents ttyBufSize q.buf q.tail.val (RingBuffer.size ttyBufSize q.head.val q.tail.val) := by
  unfold contents
  rw [chars_eq]

theorem pred_succ (i : Fin ttyBufSize) : i - 1 + 1 = i := by
  have hi := i.isLt
  have hone : ((1 : Fin ttyBufSize) : Nat) = 1 := rfl
  refine Fin.ext ?_
  rw [Fin.val_add, Fin.val_sub, hone]
  unfold ttyBufSize at *
  omega

theorem succ_val (i : Fin ttyBufSize) : (i + 1).val = (i.val + 1) % ttyBufSize := Fin.val_add i 1

/-- On a queue that is not full PUTCH appends the character. -/
theorem contents_putch (h : q.isFull = false) : (q.putch c).contents = q.contents ++ [c] := by
  have hroom : RingBuffer.size ttyBufSize q.head.val q.tail.val ≠ ttyBufSize - 1 := fun hfull => by
    rw [isFull_iff.mpr (chars_eq.trans hfull)] at h
    cases h
  rw [contents_eq, contents_eq]
  unfold putch
  dsimp only
  rw [succ_val, RingBuffer.size_push q.head.isLt q.tail.isLt hroom]
  exact RingBuffer.contents_push q.head.isLt q.tail.isLt

/-- On a full queue PUTCH loses everything. -/
theorem contents_putch_full (h : q.isFull = true) : (q.putch c).contents = [] := by
  have hchars := isFull_iff.mp h
  have hh := q.head.isLt
  have ht := q.tail.isLt
  rw [← List.length_eq_zero_iff, length_contents]
  unfold chars at hchars
  change (q.head + 1 - q.tail).val = 0
  rw [Fin.val_sub] at hchars ⊢
  rw [succ_val]
  unfold ttyBufSize at *
  omega

theorem chars_putch (h : q.isFull = false) : (q.putch c).chars = q.chars + 1 := by
  rw [← length_contents, contents_putch h, List.length_append, length_contents]
  rfl

/-- On a queue that is not empty GETCH takes the first character. -/
theorem contents_getch (h : q.isEmpty = false) : q.contents = q.first :: q.getch.contents := by
  have hpos : RingBuffer.size ttyBufSize q.head.val q.tail.val ≠ 0 := fun hzero => by
    rw [isEmpty_iff.mpr (chars_eq.trans hzero)] at h
    cases h
  have hsize := RingBuffer.size_pop q.head.isLt q.tail.isLt hpos
  rw [contents_eq, ← hsize, RingBuffer.contents_pop q.tail.isLt, contents_eq]
  unfold getch first
  dsimp only
  rw [succ_val]

theorem chars_getch (h : q.isEmpty = false) : q.getch.chars + 1 = q.chars := by
  rw [← length_contents, ← length_contents, contents_getch h]
  rfl

/-- On a queue that is not empty `DEC(head)` takes back the last character. -/
theorem contents_dec (h : q.isEmpty = false) : q.contents = q.dec.contents ++ [q.last] := by
  have hlt := @chars_lt q.dec
  have hpos : 0 < q.chars := Nat.pos_of_ne_zero fun hzero => by
    rw [isEmpty_iff.mpr hzero] at h
    cases h
  have hchars : q.dec.chars + 1 = q.chars := by
    have hh := q.head.isLt
    have ht := q.tail.isLt
    have hone : ((1 : Fin ttyBufSize) : Nat) = 1 := rfl
    unfold chars at hpos
    change (q.head - 1 - q.tail).val + 1 = (q.head - q.tail).val
    rw [Fin.val_sub] at hpos ⊢
    rw [Fin.val_sub, Fin.val_sub, hone]
    unfold ttyBufSize at *
    omega
  have hroom : q.dec.isFull = false := by
    have := @chars_lt q
    refine Bool.eq_false_iff.mpr fun hfull => ?_
    have := isFull_iff.mp hfull
    omega
  have hput := contents_putch (c := q.last) hroom
  have hback : (q.dec.putch q.last).contents = q.contents := by
    unfold contents chars putch dec last
    dsimp only
    rw [pred_succ, Function.update_eq_self]
  rw [← hback, hput]

theorem Whole.putch (h : q.Whole) (hroom : q.isFull = false) : (q.putch c).Whole := by
  refine ⟨?_, ?_, h.underrun⟩
  · change q.stored ++ [c] = q.fetched ++ (q.putch c).contents
    rw [contents_putch hroom, ← List.append_assoc, ← h.order]
  · change (q.overrun || q.isFull) = false
    rw [h.overrun, hroom]
    rfl

theorem Whole.getch (h : q.Whole) (hpos : q.isEmpty = false) : q.getch.Whole := by
  refine ⟨?_, h.overrun, ?_⟩
  · change q.stored = q.fetched ++ [q.first] ++ q.getch.contents
    rw [h.order, contents_getch hpos, List.append_assoc]
    rfl
  · change (q.underrun || q.isEmpty) = false
    rw [h.underrun, hpos]
    rfl

/-- With room for all of them the characters are appended. -/
theorem contents_putAll (h : cs.length ≤ q.left.val) : (q.putAll cs).contents = q.contents ++ cs ∧ (q.putAll cs).chars = q.chars + cs.length ∧
    (q.putAll cs).overrun = q.overrun ∧ (q.Whole → (q.putAll cs).Whole) := by
  induction cs generalizing q with
  | nil => exact ⟨(List.append_nil _).symm, rfl, rfl, id⟩
  | cons c cs ih =>
    have hroom : q.isFull = false := by
      refine Bool.eq_false_iff.mpr fun hfull => ?_
      have hzero : q.left = 0 := of_decide_eq_true hfull
      rw [hzero] at h
      exact Nat.not_succ_le_zero _ h
    have hchars := chars_putch (c := c) hroom
    have hleft := @left_eq q
    have hleft' := @left_eq (q.putch c)
    rw [List.length_cons] at h
    obtain ⟨hcontents, hlen, hover, hwhole⟩ := @ih (q.putch c) (by omega)
    refine ⟨?_, ?_, ?_, fun hq => hwhole (hq.putch hroom)⟩
    · rw [contents_putch hroom, List.append_assoc] at hcontents
      exact hcontents
    · rw [List.length_cons]
      exact hlen.trans (by omega)
    · refine hover.trans ?_
      change (q.overrun || q.isFull) = q.overrun
      rw [hroom, Bool.or_false]

/-- Without a PUTCH on a full queue there was room for all of them. -/
theorem putAll_overrun (h : q.overrun = false) : (q.putAll cs).overrun = false ↔ cs.length ≤ q.left.val := by
  refine ⟨fun hover => ?_, fun hroom => (contents_putAll hroom).2.2.1.trans h⟩
  induction cs generalizing q with
  | nil => exact Nat.zero_le _
  | cons c cs ih =>
    have hsticky : ∀ (cs : List (BitVec 8)) (q : TtyQueue), q.overrun = true → (q.putAll cs).overrun = true := by
      intro cs
      induction cs with
      | nil => exact fun _ h => h
      | cons c cs ih => exact fun q h => ih (q.putch c) (by change (q.overrun || q.isFull) = true; rw [h, Bool.true_or])
    have hfirst : (q.putch c).overrun = false := Bool.eq_false_iff.mpr fun htrue => by
      have := hsticky cs _ htrue
      exact absurd (hover.symm.trans this) Bool.false_ne_true
    have hroom : q.isFull = false := (Bool.or_eq_false_iff.mp hfirst).2
    have hchars := chars_putch (c := c) hroom
    have hlt := @chars_lt (q.putch c)
    have hleft := @left_eq q
    have hleft' := @left_eq (q.putch c)
    have hrest := ih hfirst hover
    unfold ttyBufSize at *
    rw [List.length_cons]
    omega

theorem contents_take {cell : Nat → BitVec 8} {n tail k m : Nat} (h : k ≤ m) :
    RingBuffer.contents n cell tail k = (RingBuffer.contents n cell tail m).take k := by
  unfold RingBuffer.contents
  rw [← List.map_take, List.take_range, Nat.min_eq_left h]

/-- What is written behind the head is not in the queue. -/
theorem contents_behind {ds : List (BitVec 8)} (htail : q.tail = old.tail) (hq : q.contents = old.contents ++ ds) :
    contents { old with buf := (q.putch c).buf } = old.contents := by
  have hpush : RingBuffer.contents ttyBufSize (Function.update q.buf q.head.val c) q.tail.val
      (RingBuffer.size ttyBufSize q.head.val q.tail.val + 1) = _ := RingBuffer.contents_push q.head.isLt q.tail.isLt
  rw [← contents_eq, ← chars_eq, hq, htail] at hpush
  have hlen : old.chars ≤ q.chars + 1 := by
    rw [← length_contents, ← length_contents, hq, List.length_append]
    omega
  change RingBuffer.contents ttyBufSize (Function.update q.buf q.head.val c) old.tail.val old.chars = old.contents
  rw [contents_take hlen, hpush, List.append_assoc, ← length_contents]
  exact List.take_left

/-- `put_queue` appends the characters or gives them up, and it does not execute what PUTCH does on a full queue. -/
theorem putQueue_spec {ds : List (BitVec 8)} (h : q.overrun = old.overrun) (htail : q.tail = old.tail) (hq : q.contents = old.contents ++ ds) :
    (putQueue old q cs).overrun = old.overrun ∧ ∃ ds, (putQueue old q cs).contents = old.contents ++ ds := by
  induction cs generalizing q ds with
  | nil => exact ⟨h, ds, hq⟩
  | cons c cs ih =>
    unfold putQueue
    split
    next => exact ⟨rfl, [], (contents_behind htail hq).trans (List.append_nil _).symm⟩
    next hroom =>
      have hroom := Bool.eq_false_iff.mpr hroom
      refine @ih (q.putch c) (ds ++ [c]) ?_ htail ?_
      · change (q.overrun || q.isFull) = old.overrun
        rw [hroom, Bool.or_false, h]
      · rw [contents_putch hroom, hq, List.append_assoc]

end TtyQueue

end RheeKernel
