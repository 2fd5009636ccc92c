import RheeKernel.Machine
import RheeKernel.ProcessTree
import RheeKernel.TtyQueue

namespace RheeKernel

/-- `c_oflag`. -/
abbrev Oflag := BitVec 32

namespace Oflag

def post (f : Oflag) : Bool := f &&& 0o1 ≠ 0
def lcuc (f : Oflag) : Bool := f &&& 0o2 ≠ 0
def nlcr (f : Oflag) : Bool := f &&& 0o4 ≠ 0
def crnl (f : Oflag) : Bool := f &&& 0o10 ≠ 0
def nlret (f : Oflag) : Bool := f &&& 0o40 ≠ 0

/-- The first test of the inner loop. -/
def mapped (f : Oflag) (c : BitVec 8) : BitVec 8 := if c = 13 ∧ f.crnl then 10 else if c = 10 ∧ f.nlret then 13 else c

/-- The NL that `c` stands for is to come behind a CR. -/
def wantsCr (f : Oflag) (c : BitVec 8) : Bool := f.post && f.mapped c == 10 && f.nlcr

end Oflag

/-- Where a call of `tty_write` stands: at the head of its loop, asleep in `sleep_if_full`, or in the inner loop. -/
inductive TtyWriteAt
  | loop
  | full
  | inner
deriving DecidableEq

/-- A call of `tty_write` with the characters that it still has to write; `half` if it has put the CR of the first one and not that itself. -/
structure TtyWriteCall where
  tty : Nat
  rest : List (BitVec 8)
  pos : TtyWriteAt
  half : Bool
deriving DecidableEq

/-- The terminals and the calls of all tasks, with the static `cr_flag`. `lower` says what `islower` finds for a negative character, in front of
`_ctype`; `written` are the characters that calls have taken from their buffers and `placed` those that they have put into the queue. -/
structure TtyWriting where
  oflag : Nat → Oflag
  lower : BitVec 8 → Bool
  writeQ : Nat → TtyQueue
  crFlag : Bool
  call : Nat → Option TtyWriteCall
  running : Option Nat
  written : Nat → List (BitVec 8)
  placed : Nat → List (BitVec 8)

namespace TtyWriting

def isLower (s : TtyWriting) (c : BitVec 8) : Bool :=
  if 0 ≤ c.toInt then 97 ≤ c.toInt ∧ c.toInt ≤ 122 else if c.toInt = -1 then false else s.lower c

def toUpper (s : TtyWriting) (c : BitVec 8) : BitVec 8 := if s.isLower c then c - 32 else c

/-- The character that the inner loop puts at last. -/
def posted (s : TtyWriting) (f : Oflag) (c : BitVec 8) : BitVec 8 :=
  if f.post then if f.lcuc then s.toUpper (f.mapped c) else f.mapped c else c

def setCall (s : TtyWriting) (p : Nat) (c : Option TtyWriteCall) : TtyWriting := { s with call := Function.update s.call p c }

/-- PUTCH to the write queue of terminal `t`. -/
def putch (s : TtyWriting) (t : Nat) (c : BitVec 8) : TtyWriting :=
  { s with
    writeQ := Function.update s.writeQ t ((s.writeQ t).putch c)
    placed := Function.update s.placed t (s.placed t ++ [c]) }

/-- The call has put the character `b` and is done with it. -/
def consume (s : TtyWriting) (t : Nat) (b : BitVec 8) : TtyWriting :=
  { s with crFlag := false, written := Function.update s.written t (s.written t ++ [b]) }

/-- A turn of the inner loop for the first character `b`. -/
def turn (s : TtyWriting) (p : Nat) (c : TtyWriteCall) (b : BitVec 8) : TtyWriting :=
  let f := s.oflag c.tty
  if f.wantsCr b && !s.crFlag then ({ s with crFlag := true }.putch c.tty 13).setCall p (some { c with half := true })
  else ((s.putch c.tty (s.posted f b)).consume c.tty b).setCall p (some { c with rest := c.rest.tail, half := false })

/-- `sleep_if_full` comes to its end without a signal. -/
def awake (s : TtyWriting) (c : TtyWriteCall) : Bool := if c.pos = .full then 128 ≤ (s.writeQ c.tty).left.val else !(s.writeQ c.tty).isFull

/-- The loop up to the inner loop; the call ends when everything is written or for a signal. -/
def enter (s : TtyWriting) (p : Nat) (c : TtyWriteCall) (signal : Bool) : Option TtyWriting :=
  if c.rest = [] ∨ signal then some (s.setCall p none)
  else if s.awake c then some { s.setCall p (some { c with pos := .inner }) with running := some p }
  else if c.pos = .loop then some (s.setCall p (some { c with pos := .full }))
  else none

/-- The inner loop; behind it `tty->write` is called, and `schedule` if there is more to write. -/
def inner (s : TtyWriting) (p : Nat) (c : TtyWriteCall) : TtyWriting :=
  match c.rest with
  | [] => { s.setCall p (some { c with pos := .loop }) with running := none }
  | b :: _ => if (s.writeQ c.tty).isFull then { s.setCall p (some { c with pos := .loop }) with running := none } else s.turn p c b

end TtyWriting

/-- A task calls `tty_write` or goes on with it, at the head of the loop with or without a signal; or the terminal takes a character from the write
queue, or an echo is put there. -/
inductive TtyWriteEvent
  | call (p t : Nat) (buf : List (BitVec 8))
  | enter (p : Nat) (signal : Bool)
  | inner (p : Nat)
  | drain (t : Nat)
  | echo (t : Nat) (c : BitVec 8)
deriving DecidableEq

/-- In its inner loop a task is not interrupted by others. -/
def ttyWriteStep (s : TtyWriting) : TtyWriteEvent → Option TtyWriting
  | .call p t buf => if s.running = none ∧ s.call p = none ∧ p < nrTasks ∧ t ≤ 2 then
      some (s.setCall p (some ⟨t, buf, .loop, false⟩)) else none
  | .enter p signal => if s.running = none then (s.call p).bind fun c => s.enter p c signal else none
  | .inner p => if s.running = some p then (s.call p).map fun c => s.inner p c else none
  | .drain t => if (s.writeQ t).isEmpty then none else some { s with writeQ := Function.update s.writeQ t (s.writeQ t).getch }
  | .echo t c => some { s with writeQ := Function.update s.writeQ t ((s.writeQ t).putch c) }

/-- No call is under way; the write queues hold what they hold. -/
def ttyWriteInit (oflag : Nat → Oflag) (lower : BitVec 8 → Bool) (writeQ : Nat → TtyQueue) : TtyWriting where
  oflag := oflag
  lower := lower
  writeQ := writeQ
  crFlag := false
  call := fun _ => none
  running := none
  written := fun _ => []
  placed := fun _ => []

/-- What output processing makes of a character: OCRNL and ONLRET map CR and NL, ONLCR puts a CR before a NL, OLCUC makes letters upper case. -/
def opost (f : Oflag) (c : BitVec 8) : List (BitVec 8) :=
  if f.post then
    let b := f.mapped c
    (if b = 10 ∧ f.nlcr then [13] else []) ++ [if f.lcuc ∧ 97 ≤ b.toNat ∧ b.toNat ≤ 122 then b - 32 else b]
  else [c]

namespace TtyWriting

/-- Task `p` has put the CR of a NL to terminal `t`, and not yet the NL. -/
def HalfOn (s : TtyWriting) (t p : Nat) : Prop := ∃ c, s.call p = some c ∧ c.tty = t ∧ c.half = true

/-- The characters put to a terminal are those of the characters written to it, and behind them the CR of a NL that a call is about to put. -/
structure Separate (s : TtyWriting) (t : Nat) : Prop where
  whole : (∀ p, ¬ s.HalfOn t p) → s.placed t = (s.written t).flatMap (opost (s.oflag t))
  half : ∀ p, s.HalfOn t p → s.placed t = (s.written t).flatMap (opost (s.oflag t)) ++ [13]

/-- No other task has put a CR only to terminal `t`. -/
def alone (s : TtyWriting) (p t : Nat) : Bool :=
  (List.range nrTasks).all fun q => q == p || (s.call q).all fun d => d.tty != t || !d.half

/-- The flag says of the call itself whether it has put the CR of `b`, no other call has put one only to the terminal, and `b` is not a character
from 128 on that the code takes for a letter. -/
def tells (s : TtyWriting) (p : Nat) (c : TtyWriteCall) (b : BitVec 8) : Bool :=
  (if c.half then s.crFlag else !((s.oflag c.tty).wantsCr b && s.crFlag)) && s.alone p c.tty &&
    (opost (s.oflag c.tty) b).getLast? == some (s.posted (s.oflag c.tty) b)

/-- A call that goes on finds the flag as it has left it, and is not broken off between a CR and its NL. -/
def finishes (s : TtyWriting) : TtyWriteEvent → Bool
  | .enter p signal => (s.call p).all fun c => !(signal && c.half)
  | .inner p => (s.call p).all fun c => c.rest.head?.all fun b => (s.writeQ c.tty).isFull || s.tells p c b
  | _ => true

/-- A CR is put alone only for a NL, by a task of the table, and to each terminal by one task. -/
structure Inv (s : TtyWriting) : Prop where
  separate : ∀ t, s.Separate t
  first : ∀ p c, s.call p = some c → c.half = true → ∃ b rest, c.rest = b :: rest ∧ (s.oflag c.tty).wantsCr b = true
  task : ∀ p c, s.call p = some c → p < nrTasks

variable {s s' : TtyWriting} {e : TtyWriteEvent} {p q t : Nat} {c d : TtyWriteCall} {b : BitVec 8} {f : Oflag}

theorem setCall_self {o : Option TtyWriteCall} : (s.setCall p o).call p = o := by
  unfold setCall
  exact Function.update_self ..

theorem setCall_ne {o : Option TtyWriteCall} (h : q ≠ p) : (s.setCall p o).call q = s.call q := by
  unfold setCall
  exact Function.update_of_ne h ..

/-- The characters of `c` up to the one put at last. -/
theorem opost_wantsCr (h : f.wantsCr b = true) : opost f b = [13, 10] := by
  unfold Oflag.wantsCr at h
  obtain ⟨h, hnlcr⟩ := Bool.and_eq_true_iff.mp h
  obtain ⟨hpost, hnl⟩ := Bool.and_eq_true_iff.mp h
  have hnl : f.mapped b = 10 := eq_of_beq hnl
  unfold opost
  rw [if_pos hpost]
  dsimp only
  rw [hnl, if_pos ⟨rfl, hnlcr⟩, if_neg fun h => absurd h.2.1 (by decide)]
  rfl

theorem opost_single (h : f.wantsCr b = false) : ∃ x, opost f b = [x] := by
  unfold opost
  split
  next hpost =>
    have hno : ¬ (f.mapped b = 10 ∧ f.nlcr = true) := by
      rintro ⟨hnl, hnlcr⟩
      unfold Oflag.wantsCr at h
      rw [hpost, hnl, hnlcr] at h
      cases h
    dsimp only
    rw [if_neg hno]
    exact ⟨_, rfl⟩
  next => exact ⟨_, rfl⟩

/-- A call is replaced by one that has put a CR alone if the other had. -/
theorem Inv.replace {o : Option TtyWriteCall} (h : s.Inv) (hhalf : ∀ t, (∃ c, o = some c ∧ c.tty = t ∧ c.half = true) ↔ s.HalfOn t p)
    (hfirst : ∀ c, o = some c → c.half = true → ∃ b rest, c.rest = b :: rest ∧ (s.oflag c.tty).wantsCr b = true)
    (htask : ∀ c, o = some c → p < nrTasks) : (s.setCall p o).Inv := by
  have hsame : ∀ t q, (s.setCall p o).HalfOn t q ↔ s.HalfOn t q := by
    intro t q
    by_cases hq : q = p
    · rw [hq]
      refine Iff.trans ?_ (hhalf t)
      unfold HalfOn
      rw [setCall_self]
    · unfold HalfOn
      rw [setCall_ne hq]
  refine ⟨fun t => ⟨fun hnone => ?_, fun q hq => ?_⟩, fun q c hc hh => ?_, fun q c hc => ?_⟩
  · exact (h.separate t).whole fun q hq => hnone q ((hsame t q).mpr hq)
  · exact (h.separate t).half q ((hsame t q).mp hq)
  · by_cases hq : q = p
    · rw [hq, setCall_self] at hc
      exact hfirst c hc hh
    · rw [setCall_ne hq] at hc
      exact h.first q c hc hh
  · by_cases hq : q = p
    · rw [hq, setCall_self] at hc
      exact hq ▸ htask c hc
    · rw [setCall_ne hq] at hc
      exact h.task q c hc

/-- A call that has not put a CR alone can end. -/
theorem Inv.finish (h : s.Inv) (hc : s.call p = some c) (hhalf : c.half = false) : (s.setCall p none).Inv := by
  refine h.replace (fun t => iff_of_false ?_ ?_) (fun d hd => by cases hd) fun d hd => by cases hd
  · rintro ⟨d, hd, _⟩
    cases hd
  · rintro ⟨d, hd, _, hdh⟩
    cases Option.some.inj (hc.symm.trans hd)
    exact absurd (hdh.symm.trans hhalf) (by decide)

/-- A call goes on elsewhere in its loop. -/
theorem Inv.move {pos : TtyWriteAt} (h : s.Inv) (hc : s.call p = some c) : (s.setCall p (some { c with pos := pos })).Inv := by
  refine h.replace (fun t => ⟨?_, ?_⟩) (fun d hd hdh => ?_) fun d _ => h.task p c hc
  · rintro ⟨d, hd, ht, hdh⟩
    cases Option.some.inj hd
    exact ⟨c, hc, ht, hdh⟩
  · rintro ⟨d, hd, ht, hdh⟩
    cases Option.some.inj (hc.symm.trans hd)
    exact ⟨_, rfl, ht, hdh⟩
  · cases Option.some.inj hd
    exact h.first p c hc hdh

/-- Neither the running task nor what the terminals do with their queues matters. -/
theorem Inv.frame {writeQ : Nat → TtyQueue} {running : Option Nat} (h : s.Inv) : Inv { s with writeQ := writeQ, running := running } :=
  ⟨fun t => ⟨(h.separate t).whole, (h.separate t).half⟩, h.first, h.task⟩

theorem Inv.enter {signal : Bool} (h : s.Inv) (hc : s.call p = some c) (hok : (signal && c.half) = false)
    (hs : s.enter p c signal = some s') : s'.Inv := by
  unfold TtyWriting.enter at hs
  split at hs
  next hend =>
    cases Option.some.inj hs
    refine h.finish hc (Bool.eq_false_iff.mpr fun hhalf => ?_)
    rcases hend with hnil | hsignal
    · obtain ⟨b, rest, hrest, _⟩ := h.first p c hc hhalf
      rw [hnil] at hrest
      cases hrest
    · rw [hsignal, hhalf] at hok
      cases hok
  next =>
    split at hs
    next => cases Option.some.inj hs; exact (h.move hc).frame
    next =>
      split at hs
      next => cases Option.some.inj hs; exact h.move hc
      next => cases hs

theorem alone_iff (htask : ∀ q d, s.call q = some d → q < nrTasks) : s.alone p t = true ↔ ∀ q, q ≠ p → ¬ s.HalfOn t q := by
  unfold alone
  rw [List.all_eq_true]
  constructor
  · rintro h q hq ⟨d, hd, hdt, hdh⟩
    have := h q (List.mem_range.mpr (htask q d hd))
    rw [hd, Option.all_some, hdh, hdt, beq_eq_false_iff_ne.mpr hq] at this
    simp at this
  · intro h q _
    by_cases hq : q = p
    · rw [hq, beq_self_eq_true, Bool.true_or]
    · cases hd : s.call q with
      | none => exact Bool.or_true _
      | some d =>
        have hnot : ¬ (d.tty = t ∧ d.half = true) := fun hdt => h q hq ⟨d, hd, hdt⟩
        rw [Option.all_some]
        by_cases ht : d.tty = t
        · rw [Bool.eq_false_iff.mpr fun hh => hnot ⟨ht, hh⟩]
          simp
        · rw [bne_iff_ne.mpr ht]
          simp

/-- What has been put to a terminal on which no other call has put a CR alone. -/
theorem Inv.placed (h : s.Inv) (hc : s.call p = some c) (halone : ∀ q, q ≠ p → ¬ s.HalfOn c.tty q) :
    s.placed c.tty = (s.written c.tty).flatMap (opost (s.oflag c.tty)) ++ if c.half then [13] else [] := by
  cases hhalf : c.half with
  | true => exact (h.separate c.tty).half p ⟨c, hc, rfl, hhalf⟩
  | false =>
    refine ((h.separate c.tty).whole fun q hq => ?_).trans (List.append_nil _).symm
    by_cases hqp : q = p
    · obtain ⟨d, hd, _, hdh⟩ := hq
      rw [hqp, hc] at hd
      cases hd
      exact absurd (hdh.symm.trans hhalf) (by decide)
    · exact halone q hqp hq

/-- A call puts something to its terminal; the other terminals and calls keep what they have. -/
theorem Inv.place (h : s.Inv) (hc : s.call p = some c) (halone : ∀ q, q ≠ p → ¬ s.HalfOn c.tty q) (hd : d.tty = c.tty)
    (hfirst : d.half = true → ∃ b rest, d.rest = b :: rest ∧ (s.oflag c.tty).wantsCr b = true) {crFlag : Bool} {writeQ : Nat → TtyQueue}
    {written placed : Nat → List (BitVec 8)} (hwritten : ∀ u, u ≠ c.tty → written u = s.written u)
    (hplaced : ∀ u, u ≠ c.tty → placed u = s.placed u)
    (hself : placed c.tty = (written c.tty).flatMap (opost (s.oflag c.tty)) ++ if d.half then [13] else []) :
    Inv { s with writeQ := writeQ, crFlag := crFlag, call := Function.update s.call p (some d), written := written, placed := placed } := by
  have hcall : ∀ q, q ≠ p → Function.update s.call p (some d) q = s.call q := fun q hq => Function.update_of_ne hq ..
  have hcallp : Function.update s.call p (some d) p = some d := Function.update_self ..
  have hhalf : ∀ u q, (∃ a, Function.update s.call p (some d) q = some a ∧ a.tty = u ∧ a.half = true) →
      q = p ∧ u = c.tty ∧ d.half = true ∨ q ≠ p ∧ s.HalfOn u q := by
    rintro u q ⟨a, ha, hau, hah⟩
    by_cases hq : q = p
    · rw [hq, hcallp] at ha
      cases ha
      exact .inl ⟨hq, hau.symm.trans hd, hah⟩
    · rw [hcall q hq] at ha
      exact .inr ⟨hq, a, ha, hau, hah⟩
  refine ⟨fun u => ⟨fun hnone => ?_, fun q hq => ?_⟩, fun q a ha hah => ?_, fun q a ha => ?_⟩
  · by_cases hu : u = c.tty
    · have hno : d.half = false := Bool.eq_false_iff.mpr fun hdh => hnone p ⟨d, hcallp, hd.trans hu.symm, hdh⟩
      rw [hno] at hself
      rw [hu]
      exact hself.trans (List.append_nil _)
    · change placed u = (written u).flatMap _
      rw [hplaced u hu, hwritten u hu]
      refine (h.separate u).whole fun q hq => ?_
      by_cases hqp : q = p
      · obtain ⟨a, ha, hau, _⟩ := hq
        rw [hqp, hc] at ha
        cases ha
        exact hu hau.symm
      · obtain ⟨a, ha, hau, hah⟩ := hq
        exact hnone q ⟨a, (hcall q hqp).trans ha, hau, hah⟩
  · rcases hhalf u q hq with ⟨_, hu, hdh⟩ | ⟨hqp, hold⟩
    · rw [hdh] at hself
      rw [hu]
      exact hself
    · have hu : u ≠ c.tty := fun hu => halone q hqp (hu ▸ hold)
      change placed u = (written u).flatMap _ ++ _
      rw [hplaced u hu, hwritten u hu]
      exact (h.separate u).half q hold
  · by_cases hq : q = p
    · rw [hq] at ha
      cases Option.some.inj (hcallp.symm.trans ha)
      rw [show (_ : TtyWriting).oflag d.tty = s.oflag c.tty from congrArg s.oflag hd]
      exact hfirst hah
    · exact h.first q a ((hcall q hq).symm.trans ha) hah
  · by_cases hq : q = p
    · rw [hq]
      exact h.task p c hc
    · exact h.task q a ((hcall q hq).symm.trans ha)

/-- A turn of the inner loop that finds the flag as it should be. -/
theorem Inv.turn (h : s.Inv) (hc : s.call p = some c) {rest : List (BitVec 8)} (hrest : c.rest = b :: rest) (hok : s.tells p c b = true) :
    (s.turn p c b).Inv := by
  unfold tells at hok
  obtain ⟨hok, hlast⟩ := Bool.and_eq_true_iff.mp hok
  obtain ⟨hflag, halone⟩ := Bool.and_eq_true_iff.mp hok
  have halone := (alone_iff h.task).mp halone
  have hlast := eq_of_beq hlast
  have hplaced := h.placed hc halone
  have hput : ∀ x u, u ≠ c.tty → (s.putch c.tty x).placed u = s.placed u := fun x u hu => Function.update_of_ne hu ..
  have hputself : ∀ x, (s.putch c.tty x).placed c.tty = s.placed c.tty ++ [x] := fun x => Function.update_self ..
  unfold TtyWriting.turn
  dsimp only
  by_cases hcr : ((s.oflag c.tty).wantsCr b && !s.crFlag) = true
  · -- The CR of a NL.
    obtain ⟨hwants, hclear⟩ := Bool.and_eq_true_iff.mp hcr
    rw [if_pos hcr]
    have hhalf : c.half = false := Bool.eq_false_iff.mpr fun hhalf => by
      rw [if_pos hhalf] at hflag
      rw [hflag] at hclear
      cases hclear
    refine h.place hc halone (d := { c with half := true }) rfl (fun _ => ⟨b, rest, hrest, hwants⟩) (fun _ _ => rfl) (hput 13) ?_
    rw [hhalf] at hplaced
    exact (hputself 13).trans (by rw [hplaced, if_neg (by decide), List.append_nil]; rfl)
  · rw [if_neg hcr]
    -- The last character of what is made of `b`.
    refine h.place hc halone (d := { c with rest := c.rest.tail, half := false }) rfl (fun hh => Bool.noConfusion hh)
      (fun u hu => Function.update_of_ne hu ..) (hput _) ?_
    refine (hputself _).trans ?_
    change _ = (Function.update s.written c.tty (s.written c.tty ++ [b]) c.tty).flatMap _ ++ _
    rw [Function.update_self, List.flatMap_append, List.flatMap_singleton, if_neg Bool.false_ne_true, List.append_nil, hplaced, List.append_assoc]
    cases hhalf : c.half with
    | true =>
      obtain ⟨b', rest', hrest', hwants⟩ := h.first p c hc hhalf
      rw [hrest] at hrest'
      cases hrest'
      rw [opost_wantsCr hwants] at hlast ⊢
      rw [if_pos rfl, ← Option.some.inj hlast]
      rfl
    | false =>
      rw [hhalf, if_neg Bool.false_ne_true] at hflag
      have hwants : (s.oflag c.tty).wantsCr b = false := Bool.eq_false_iff.mpr fun hwants => by
        rw [hwants] at hflag hcr
        cases hf : s.crFlag <;> rw [hf] at hflag hcr <;> simp at hflag hcr
      obtain ⟨x, hx⟩ := opost_single hwants
      rw [hx] at hlast ⊢
      rw [if_neg Bool.false_ne_true, ← Option.some.inj hlast]
      rfl

theorem Inv.inner (h : s.Inv) (hc : s.call p = some c) (hok : (c.rest.head?.all fun b => (s.writeQ c.tty).isFull || s.tells p c b) = true) :
    (s.inner p c).Inv := by
  unfold TtyWriting.inner
  split
  next => exact (h.move hc).frame
  next b rest hrest =>
    rw [hrest, List.head?_cons, Option.all_some] at hok
    split
    next => exact (h.move hc).frame
    next hroom =>
      rw [Bool.eq_false_iff.mpr hroom, Bool.false_or] at hok
      exact h.turn hc hrest hok

theorem Inv.step (h : s.Inv) (hok : s.finishes e = true) (hs : ttyWriteStep s e = some s') : s'.Inv := by
  cases e with
  | call p t buf =>
    obtain ⟨⟨_, hnone, hp, _⟩, hs⟩ := Option.ite_none_right_eq_some.mp hs
    cases Option.some.inj hs
    refine h.replace (fun u => iff_of_false ?_ ?_) (fun d hd hdh => ?_) fun _ _ => hp
    · rintro ⟨d, hd, _, hdh⟩
      cases Option.some.inj hd
      cases hdh
    · rintro ⟨d, hd, _⟩
      rw [hnone] at hd
      cases hd
    · cases Option.some.inj hd
      cases hdh
  | enter p signal =>
    obtain ⟨_, hs⟩ := Option.ite_none_right_eq_some.mp hs
    obtain ⟨c, hc, hs⟩ := Option.bind_eq_some_iff.mp hs
    have hok : ((s.call p).all fun c => !(signal && c.half)) = true := hok
    rw [hc, Option.all_some, Bool.not_eq_true'] at hok
    exact h.enter hc hok hs
  | inner p =>
    obtain ⟨_, hs⟩ := Option.ite_none_right_eq_some.mp hs
    obtain ⟨c, hc, rfl⟩ := Option.map_eq_some_iff.mp hs
    have hok : ((s.call p).all fun c => c.rest.head?.all fun b => (s.writeQ c.tty).isFull || s.tells p c b) = true := hok
    rw [hc, Option.all_some] at hok
    exact h.inner hc hok
  | drain t =>
    obtain ⟨_, hs⟩ := Option.ite_none_left_eq_some.mp hs
    cases Option.some.inj hs
    exact h.frame
  | echo t c => cases Option.some.inj hs; exact h.frame

theorem init_inv {oflag : Nat → Oflag} {lower : BitVec 8 → Bool} {writeQ : Nat → TtyQueue} : (ttyWriteInit oflag lower writeQ).Inv :=
  ⟨fun _ => ⟨fun _ => rfl, fun _ ⟨_, hc, _⟩ => nomatch hc⟩, (fun _ _ hc => nomatch hc), fun _ _ hc => nomatch hc⟩

/-- The flags stay. -/
theorem step_oflag (hs : ttyWriteStep s e = some s') : s'.oflag = s.oflag := by
  cases e with
  | call =>
    obtain ⟨_, hs⟩ := Option.ite_none_right_eq_some.mp hs
    cases Option.some.inj hs
    rfl
  | enter =>
    obtain ⟨_, hs⟩ := Option.ite_none_right_eq_some.mp hs
    obtain ⟨c, _, hs⟩ := Option.bind_eq_some_iff.mp hs
    unfold TtyWriting.enter at hs
    split at hs
    next => cases Option.some.inj hs; rfl
    next =>
      split at hs
      next => cases Option.some.inj hs; rfl
      next =>
        split at hs
        next => cases Option.some.inj hs; rfl
        next => cases hs
  | inner =>
    obtain ⟨_, hs⟩ := Option.ite_none_right_eq_some.mp hs
    obtain ⟨c, _, rfl⟩ := Option.map_eq_some_iff.mp hs
    unfold TtyWriting.inner
    split
    next => rfl
    next =>
      split
      next => rfl
      next =>
        unfold TtyWriting.turn
        dsimp only
        split <;> rfl
  | drain =>
    obtain ⟨_, hs⟩ := Option.ite_none_left_eq_some.mp hs
    cases Option.some.inj hs
    rfl
  | echo => cases Option.some.inj hs; rfl

/-- As long as every call finishes its NL undisturbed, what a terminal is given is what was written to it. -/
theorem writes_stay_separate {oflag : Nat → Oflag} {lower : BitVec 8 → Bool} {writeQ : Nat → TtyQueue}
    (h : Machine.Reach ttyWriteStep (fun s e => s.finishes e = true) (ttyWriteInit oflag lower writeQ) s) : s.oflag = oflag ∧ s.Separate t := by
  have hinv : s.Inv ∧ s.oflag = oflag := Machine.Reach.invariant (I := fun s => s.Inv ∧ s.oflag = oflag) ⟨init_inv, rfl⟩
    (fun _ _ _ hi hok hs => ⟨hi.1.step hok hs, (step_oflag hs).trans hi.2⟩) h
  exact ⟨hinv.2, hinv.1.separate t⟩

/-- Line 1 with OPOST and ONLCR, and one character short of a full queue there. -/
def nlStart : TtyWriting := ttyWriteInit (fun t => if t = 1 then 0o5 else 0) (fun _ => false) fun _ => { TtyQueue.init with head := 1022 }

theorem writes_stay_separate_line :
    ∃ s, Machine.Reach ttyWriteStep (fun s e => s.finishes e = true) nlStart s ∧ s.placed 1 = [13, 10] ∧ s.written 1 = [10] ∧
      s.Separate 1 := by
  have hrun : (Machine.execOk ttyWriteStep (fun s e => s.finishes e = true) nlStart
      [.call 1 1 [10], .enter 1 false, .inner 1, .inner 1, .drain 1, .enter 1 false, .inner 1]).any
        (fun s => decide (s.placed 1 = [13, 10] ∧ s.written 1 = [10])) = true := by
    decide +kernel
  obtain ⟨s, hs, hp⟩ := (Option.any_eq_true _ _).mp hrun
  obtain ⟨hplaced, hwritten⟩ := of_decide_eq_true hp
  have hreach := Machine.Reach.start.execOk hs
  exact ⟨s, hreach, hplaced, hwritten, (writes_stay_separate hreach).2⟩

/-- The queue of line 1 fills up behind a CR, and a character written to line 2 makes the call put another one. -/
theorem writes_interfere :
    ∃ s, Machine.Reach ttyWriteStep (fun _ _ => True) nlStart s ∧ s.placed 1 = [13, 13, 10] ∧ s.written 1 = [10] ∧ ¬ s.Separate 1 := by
  have hrun : (Machine.exec ttyWriteStep nlStart
      [.call 1 1 [10], .enter 1 false, .inner 1, .inner 1, .call 2 2 [65], .enter 2 false, .inner 2, .inner 2, .drain 1, .drain 1, .enter 1 false,
        .inner 1, .inner 1, .inner 1, .enter 1 false]).any
        (fun s => decide (s.placed 1 = [13, 13, 10] ∧ s.written 1 = [10] ∧ s.oflag 1 = 0o5)) = true := by
    decide +kernel
  obtain ⟨s, hs, hp⟩ := (Option.any_eq_true _ _).mp hrun
  obtain ⟨hplaced, hwritten, hflag⟩ := of_decide_eq_true hp
  have hreach : Machine.Reach ttyWriteStep (fun _ _ => True) nlStart s := Machine.Reach.start.exec (fun _ _ _ => trivial) hs
  refine ⟨s, hreach, hplaced, hwritten, fun h => ?_⟩
  by_cases hhalf : ∃ p, s.HalfOn 1 p
  · obtain ⟨p, hp⟩ := hhalf
    have hbad := h.half p hp
    rw [hplaced, hwritten, hflag] at hbad
    revert hbad
    decide
  · have hbad := h.whole fun p hp => hhalf ⟨p, hp⟩
    rw [hplaced, hwritten, hflag] at hbad
    revert hbad
    decide

end TtyWriting

end RheeKernel
