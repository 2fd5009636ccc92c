import RheeKernel.Machine
import RheeKernel.TtyOutput

namespace RheeKernel

namespace Tty

/-- The characters that the next turn of `copy_to_cooked` puts into the write queue. -/
def nextEcho (t : Tty) : List (BitVec 8) :=
  if t.readQ.isEmpty ∨ t.secondary.isFull ∨ t.termios.echo = false ∨ t.ignored t.readQ.first then []
  else (t.mapped t.readQ.first).elim [] fun c =>
    if t.termios.canon ∧ sameChar c t.termios.erase then rubbed t.secondary.last else t.echoed c

structure NoOverrun (t : Tty) : Prop where
  readQ : t.readQ.overrun = false
  writeQ : t.writeQ.overrun = false
  secondary : t.secondary.overrun = false

end Tty

namespace TtyQueue

/-- Characters are put behind those that are there, or the first one is taken. -/
def Flows (q q' : TtyQueue) : Prop := (∃ cs, q'.contents = q.contents ++ cs) ∨ q'.contents = q.getch.contents

end TtyQueue

namespace TtyRun

/-- Where the code does not look whether there is room, there is: in the write queue for an echo, in the secondary queue for a character
that has been echoed, and in the read queue for an answer. -/
def Roomy (s : TtyRun) : TtyEvent → Prop
  | .next =>
    match s.frames with
    | .cooked :: _ => s.tty.nextEcho.length ≤ s.tty.writeQ.left.val
    | .put _ :: _ => s.tty.secondary.isFull = false
    | .respond :: _ => Tty.response.length ≤ s.tty.readQ.left.val
    | _ => True
  | _ => True

instance {s : TtyRun} {e : TtyEvent} : Decidable (s.Roomy e) :=
  match s, e with
  | ⟨_, .cooked :: _⟩, .next => inferInstanceAs (Decidable (_ ≤ _))
  | ⟨_, .put _ :: _⟩, .next => inferInstanceAs (Decidable (_ = _))
  | ⟨_, .respond :: _⟩, .next => inferInstanceAs (Decidable (_ ≤ _))
  | ⟨_, []⟩, .next | ⟨_, .dec :: _⟩, .next | ⟨_, .write :: _⟩, .next | ⟨_, .conWrite _ :: _⟩, .next => inferInstanceAs (Decidable True)
  | _, .keyboard _ | _, .receive _ | _, .transmit | _, .put _ | _, .flush | _, .read | _, .ioctl _ => inferInstanceAs (Decidable True)

/-- What a step does to the queues; an erase takes back the last character of the secondary queue. -/
structure Lossless (t t' : Tty) : Prop where
  readQ : t.readQ.Flows t'.readQ
  writeQ : t.writeQ.Flows t'.writeQ
  secondary : t.secondary.Flows t'.secondary ∨ t'.secondary.contents = t.secondary.dec.contents

variable {t t' : Tty} {s s' : TtyRun} {e : TtyEvent} {k : List TtyFrame} {c : BitVec 8} {cs : List (BitVec 8)} {q q' : TtyQueue}

theorem flows_same (h : q'.contents = q.contents) : q.Flows q' := .inl ⟨[], h.trans (List.append_nil _).symm⟩

theorem counted_keeps : (t.counted c).overrun = t.secondary.overrun ∧ (t.counted c).isFull = t.secondary.isFull ∧
    (t.counted c).contents = t.secondary.contents := by
  unfold Tty.counted
  split <;> exact ⟨rfl, rfl, rfl⟩

theorem Lossless.refl : Lossless t t := ⟨flows_same rfl, flows_same rfl, .inl (flows_same rfl)⟩

theorem copyToCooked_writeQ : (t.copyToCooked k).tty.writeQ = t.writeQ.putAll t.nextEcho := by
  by_cases hexit : t.readQ.isEmpty = true ∨ t.secondary.isFull = true
  · have hnone : t.nextEcho = [] := if_pos (by rcases hexit with h | h; exacts [.inl h, .inr (.inl h)])
    rw [Tty.copyToCooked_exit hexit, hnone]
    rfl
  · obtain ⟨hread, hroom⟩ := not_or.mp hexit
    have hturn := Tty.turn (k := k) (Bool.eq_false_iff.mpr hread) (Bool.eq_false_iff.mpr hroom)
    have hecho : t.termios.echo = true → t.ignored t.readQ.first = false →
        t.nextEcho = (t.mapped t.readQ.first).elim [] fun c =>
          if t.termios.canon ∧ sameChar c t.termios.erase then Tty.rubbed t.secondary.last else t.echoed c := by
      intro hecho hignored
      refine if_neg ?_
      rw [hignored, hecho]
      exact fun h => hexit (h.imp id fun h => h.resolve_right (by decide))
    generalize t.copyToCooked k = y at hturn ⊢
    cases hturn with
    | skip stopped hignored =>
      rw [show t.nextEcho = [] from if_pos (.inr (.inr (.inr hignored)))]
      rfl
    | rub c hignored hc herase hlive hno =>
      rw [show t.nextEcho = [] from if_pos (.inr (.inr (.inl hno)))]
      rfl
    | keep c hignored hc herase hno =>
      rw [show t.nextEcho = [] from if_pos (.inr (.inr (.inl hno)))]
      rfl
    | rubEcho c hignored hc herase hlive hyes => rw [hecho hyes hignored, hc, Option.elim_some, if_pos herase]
    | keepEcho c hignored hc herase hyes => rw [hecho hyes hignored, hc, Option.elim_some, if_neg herase]

/-- The other queues of a turn, which looks for room in the secondary queue. -/
theorem copyToCooked_others (h : t.NoOverrun) : (t.copyToCooked k).tty.readQ.overrun = false ∧ (t.copyToCooked k).tty.secondary.overrun = false ∧
    t.readQ.Flows (t.copyToCooked k).tty.readQ ∧
      (t.secondary.Flows (t.copyToCooked k).tty.secondary ∨ (t.copyToCooked k).tty.secondary.contents = t.secondary.dec.contents) := by
  by_cases hexit : t.readQ.isEmpty = true ∨ t.secondary.isFull = true
  · rw [Tty.copyToCooked_exit hexit]
    exact ⟨h.readQ, h.secondary, flows_same rfl, .inl (flows_same rfl)⟩
  · obtain ⟨hread, hroom⟩ := not_or.mp hexit
    have hroom := Bool.eq_false_iff.mpr hroom
    have hturn := Tty.turn (k := k) (Bool.eq_false_iff.mpr hread) hroom
    generalize t.copyToCooked k = y at hturn ⊢
    cases hturn with
    | skip stopped hignored => exact ⟨h.readQ, h.secondary, .inr rfl, .inl (flows_same rfl)⟩
    | rub c hignored hc herase hlive hecho => exact ⟨h.readQ, h.secondary, .inr rfl, .inr rfl⟩
    | keep c hignored hc herase hecho =>
      obtain ⟨hover, hfull, hcontents⟩ := @counted_keeps t c
      have hput : ((t.counted c).putch c).overrun = false := by
        change ((t.counted c).overrun || (t.counted c).isFull) = false
        rw [hover, hfull, h.secondary, hroom]
        rfl
      refine ⟨h.readQ, hput, .inr rfl, .inl (.inl ⟨[c], ?_⟩)⟩
      exact (TtyQueue.contents_putch (hfull.trans hroom)).trans (congrArg (· ++ [c]) hcontents)
    | rubEcho c hignored hc herase hlive hecho => exact ⟨h.readQ, h.secondary, .inr rfl, .inl (flows_same rfl)⟩
    | keepEcho c hignored hc herase hecho =>
      obtain ⟨hover, _, hcontents⟩ := @counted_keeps t c
      exact ⟨h.readQ, hover.trans h.secondary, .inr rfl, .inl (flows_same hcontents)⟩

theorem copyToCooked_room (h : t.NoOverrun) : ((t.copyToCooked k).tty.NoOverrun ↔ t.nextEcho.length ≤ t.writeQ.left.val) ∧
    (t.nextEcho.length ≤ t.writeQ.left.val → Lossless t (t.copyToCooked k).tty) := by
  obtain ⟨hread, hsecondary, hflows, hflows'⟩ := copyToCooked_others (k := k) h
  have hqueue := @copyToCooked_writeQ t k
  refine ⟨⟨fun h' => ?_, fun hle => ⟨hread, ?_, hsecondary⟩⟩, fun hle => ⟨hflows, .inl ⟨t.nextEcho, ?_⟩, hflows'⟩⟩
  · exact (TtyQueue.putAll_overrun h.writeQ).mp (hqueue ▸ h'.writeQ)
  · rw [hqueue]
    exact (TtyQueue.putAll_overrun h.writeQ).mpr hle
  · rw [hqueue]
    exact (TtyQueue.contents_putAll hle).1

theorem putAll_room (h : t.NoOverrun) :
    (Tty.NoOverrun { t with readQ := t.readQ.putAll cs } ↔ cs.length ≤ t.readQ.left.val) ∧
    (cs.length ≤ t.readQ.left.val → Lossless t { t with readQ := t.readQ.putAll cs }) := by
  refine ⟨⟨fun h' => ?_, fun hroom => ?_⟩, fun hroom => ?_⟩
  · exact (TtyQueue.putAll_overrun h.readQ).mp h'.readQ
  · exact ⟨(TtyQueue.putAll_overrun h.readQ).mpr hroom, h.writeQ, h.secondary⟩
  · exact ⟨.inl ⟨cs, (TtyQueue.contents_putAll hroom).1⟩, flows_same rfl, .inl (flows_same rfl)⟩

theorem next_room (h : s.tty.NoOverrun) (hs : s.next = some s') :
    (s'.tty.NoOverrun ↔ s.Roomy .next) ∧ (s.Roomy .next → Lossless s.tty s'.tty) := by
  obtain ⟨t, frames⟩ := s
  have hkeep : s'.tty = t → (s'.tty.NoOverrun ↔ True) ∧ (True → Lossless t s'.tty) := by
    intro heq
    rw [heq]
    exact ⟨⟨fun _ => trivial, fun _ => h⟩, fun _ => .refl⟩
  cases frames with
  | nil => cases hs
  | cons f k =>
    cases f with
    | cooked =>
      cases Option.some.inj hs
      exact copyToCooked_room h
    | put c =>
      cases Option.some.inj hs
      have hput : (t.secondary.putch c).overrun = t.secondary.isFull := by
        change (t.secondary.overrun || t.secondary.isFull) = _
        rw [h.secondary, Bool.false_or]
      refine ⟨⟨fun h' => hput.symm.trans h'.secondary, fun hroom => ⟨h.readQ, h.writeQ, hput.trans hroom⟩⟩, fun hroom => ?_⟩
      exact ⟨flows_same rfl, flows_same rfl, .inl (.inl ⟨[c], TtyQueue.contents_putch hroom⟩)⟩
    | dec =>
      cases Option.some.inj hs
      exact ⟨⟨fun _ => trivial, fun _ => ⟨h.readQ, h.writeQ, h.secondary⟩⟩, fun _ => ⟨flows_same rfl, flows_same rfl, .inr rfl⟩⟩
    | write =>
      refine hkeep ?_
      cases Option.some.inj hs
      change (t.write k).tty = t
      unfold Tty.write
      split <;> rfl
    | conWrite nr =>
      cases nr with
      | zero =>
        refine hkeep ?_
        cases Option.some.inj hs
        rfl
      | succ nr =>
        obtain ⟨c, _, rfl⟩ := Option.map_eq_some_iff.mp hs
        exact ⟨⟨fun _ => trivial, fun _ => ⟨h.readQ, h.writeQ, h.secondary⟩⟩, fun _ => ⟨flows_same rfl, .inr rfl, .inl (flows_same rfl)⟩⟩
    | respond =>
      cases Option.some.inj hs
      exact putAll_room h

/-- An interrupt puts its characters into the read queue or gives them up. -/
theorem input_room (h : t.NoOverrun) (ht : t' = { t with readQ := t.readQ.putQueue t.readQ cs }) : t'.NoOverrun ∧ Lossless t t' := by
  obtain ⟨hover, hcontents⟩ := @TtyQueue.putQueue_spec t.readQ t.readQ cs [] rfl rfl (List.append_nil _).symm
  subst ht
  exact ⟨⟨hover.trans h.readQ, h.writeQ, h.secondary⟩, .inl hcontents, flows_same rfl, .inl (flows_same rfl)⟩

theorem step_room (h : s.tty.NoOverrun) (hs : ttyStep s e = some s') :
    (s'.tty.NoOverrun ↔ s.Roomy e) ∧ (s.Roomy e → Lossless s.tty s'.tty) := by
  have hfine : ∀ {t'}, t'.NoOverrun ∧ Lossless s.tty t' → (t'.NoOverrun ↔ True) ∧ (True → Lossless s.tty t') :=
    fun h => ⟨⟨fun _ => trivial, fun _ => h.1⟩, fun _ => h.2⟩
  cases e with
  | next => exact next_room h hs
  | keyboard cs =>
    obtain ⟨_, hs⟩ := Option.ite_none_right_eq_some.mp hs
    cases Option.some.inj hs
    exact hfine (@input_room s.tty _ cs h rfl)
  | receive c =>
    obtain ⟨_, hs⟩ := Option.ite_none_right_eq_some.mp hs
    cases Option.some.inj hs
    exact hfine (@input_room s.tty _ [c] h rfl)
  | transmit =>
    obtain ⟨_, hs⟩ := Option.ite_none_right_eq_some.mp hs
    cases Option.some.inj hs
    refine hfine ?_
    split
    next => exact ⟨h, .refl⟩
    next => exact ⟨⟨h.readQ, h.writeQ, h.secondary⟩, flows_same rfl, .inr rfl, .inl (flows_same rfl)⟩
  | put c =>
    obtain ⟨⟨_, hroom⟩, hs⟩ := Option.ite_none_right_eq_some.mp hs
    cases Option.some.inj hs
    have hput : (s.tty.writeQ.putch c).overrun = false := by
      change (s.tty.writeQ.overrun || s.tty.writeQ.isFull) = false
      rw [h.writeQ, hroom]
      rfl
    exact hfine ⟨⟨h.readQ, hput, h.secondary⟩, flows_same rfl, .inl ⟨[c], TtyQueue.contents_putch hroom⟩, .inl (flows_same rfl)⟩
  | flush =>
    obtain ⟨_, hs⟩ := Option.ite_none_right_eq_some.mp hs
    cases Option.some.inj hs
    exact hfine ⟨h, .refl⟩
  | read =>
    obtain ⟨_, hs⟩ := Option.ite_none_right_eq_some.mp hs
    cases Option.some.inj hs
    refine hfine ?_
    change (TtyRun.read s.tty).NoOverrun ∧ Lossless s.tty (TtyRun.read s.tty)
    unfold TtyRun.read
    dsimp only
    split
    next => exact ⟨⟨h.readQ, h.writeQ, h.secondary⟩, flows_same rfl, flows_same rfl, .inl (.inr rfl)⟩
    next => exact ⟨⟨h.readQ, h.writeQ, h.secondary⟩, flows_same rfl, flows_same rfl, .inl (.inr rfl)⟩
  | ioctl termios =>
    obtain ⟨_, hs⟩ := Option.ite_none_right_eq_some.mp hs
    cases Option.some.inj hs
    exact hfine ⟨⟨h.readQ, h.writeQ, h.secondary⟩, flows_same rfl, flows_same rfl, .inl (flows_same rfl)⟩

end TtyRun

/-- In a run that finds room where the code does not look for it, no PUTCH is executed on a full queue. A next step keeps that if and only if
it finds room as well, and then it drops no character. -/
theorem tty_queues_never_wrap {console : Option Console} {upper : BitVec 8 → Bool} {s : TtyRun}
    (h : Machine.Reach ttyStep TtyRun.Roomy ⟨ttyInit console upper, []⟩ s) :
    s.tty.NoOverrun ∧ ∀ e s', ttyStep s e = some s' → (s'.tty.NoOverrun ↔ s.Roomy e) ∧ (s.Roomy e → TtyRun.Lossless s.tty s'.tty) := by
  have hI : s.tty.NoOverrun :=
    h.invariant (I := fun s => s.tty.NoOverrun) ⟨rfl, rfl, rfl⟩ fun _ _ _ hI hroom hs => (TtyRun.step_room hI hs).1.mpr hroom
  exact ⟨hI, fun _ _ hs => TtyRun.step_room hI hs⟩

/-- The console before any character. -/
def bootConsole : TtyRun := ⟨ttyInit (some (Console.conInit (fun _ => 0) 0 0)) fun _ => false, []⟩

/-- A key is echoed and comes to the secondary queue. -/
theorem tty_queues_never_wrap_key : ∃ s, Machine.exec ttyStep bootConsole (.keyboard [66] :: List.replicate 6 .next) = some s ∧ s.frames = [] ∧
    s.tty.secondary.contents = [66] ∧ s.tty.NoOverrun := by
  have hrun : ∃ s, Machine.execOk ttyStep TtyRun.Roomy bootConsole (.keyboard [66] :: List.replicate 6 .next) = some s ∧
      Machine.exec ttyStep bootConsole (.keyboard [66] :: List.replicate 6 .next) = some s ∧ s.frames = [] ∧
      s.tty.secondary.contents = [66] := ⟨_, rfl, rfl, rfl, rfl⟩
  obtain ⟨s, hok, hrun, hframes, hcontents⟩ := hrun
  exact ⟨s, hrun, hframes, hcontents, (tty_queues_never_wrap (Machine.Reach.start.execOk hok)).1⟩

/-- `tty_write` puts in characters as long as there is room. -/
theorem exec_puts {t : Tty} {c : BitVec 8} {n : Nat} {es : List TtyEvent} (hroom : n ≤ t.writeQ.left.val) :
    Machine.exec ttyStep ⟨t, []⟩ (List.replicate n (.put c) ++ es) =
      Machine.exec ttyStep ⟨{ t with writeQ := t.writeQ.putAll (List.replicate n c) }, []⟩ es := by
  induction n generalizing t with
  | zero => rfl
  | succ n ih =>
    have hfull : t.writeQ.isFull = false := by
      refine Bool.eq_false_iff.mpr fun h => ?_
      rw [show t.writeQ.left = 0 from of_decide_eq_true h] at hroom
      exact absurd hroom (Nat.not_succ_le_zero n)
    have hstep : ttyStep ⟨t, []⟩ (.put c) = some ⟨{ t with writeQ := t.writeQ.putch c }, []⟩ := if_pos ⟨rfl, hfull⟩
    have hchars := TtyQueue.chars_putch (c := c) hfull
    have hleft := @TtyQueue.left_eq t.writeQ
    have hleft' := @TtyQueue.left_eq (t.writeQ.putch c)
    rw [List.replicate_succ, List.cons_append]
    change (ttyStep ⟨t, []⟩ (.put c)).bind (fun s => Machine.exec ttyStep s (List.replicate n (.put c) ++ es)) = _
    rw [hstep, Option.bind_some, ih (t := { t with writeQ := t.writeQ.putch c }) (by dsimp only; omega)]
    rfl

/-- A key between the last character of `tty_write` and its call of `tty->write`: the echo makes a full queue of 1023 characters an empty one. -/
theorem tty_queues_never_wrap_fails : ∃ s, Machine.exec ttyStep bootConsole (List.replicate 1023 (.put 65) ++ [.keyboard [66], .next]) = some s ∧
    s.tty.writeQ.overrun = true ∧ s.tty.writeQ.contents = [] := by
  let pressed (q : TtyQueue) : Tty := { bootConsole.tty with readQ := TtyQueue.init.putQueue .init [66], writeQ := q }
  have hecho : ∀ q, (pressed q).nextEcho = [66] := fun q =>
    (show (pressed q).nextEcho = (pressed .init).nextEcho from rfl).trans (by decide)
  have hlast : ∀ q, ∃ s, Machine.exec ttyStep ⟨{ bootConsole.tty with writeQ := q }, []⟩ [.keyboard [66], .next] = some s ∧
      s.tty.writeQ = q.putch 66 := by
    intro q
    have hqueue := @TtyRun.copyToCooked_writeQ (pressed q) []
    rw [hecho q] at hqueue
    exact ⟨(pressed q).copyToCooked [], rfl, hqueue⟩
  have hroom : (List.replicate 1023 (65 : BitVec 8)).length ≤ bootConsole.tty.writeQ.left.val := by
    rw [List.length_replicate]
    decide
  obtain ⟨_, hchars, _⟩ := TtyQueue.contents_putAll hroom
  rw [List.length_replicate] at hchars
  have hputs := @exec_puts bootConsole.tty 65 1023 [.keyboard [66], .next] (by decide)
  generalize bootConsole.tty.writeQ.putAll (List.replicate 1023 65) = q at hchars hputs
  have hfull : q.isFull = true := TtyQueue.isFull_iff.mpr hchars
  obtain ⟨s, hs, hqueue⟩ := hlast q
  refine ⟨s, hputs.trans hs, ?_, ?_⟩
  · rw [hqueue]
    exact Bool.or_eq_true_iff.mpr (.inr hfull)
  · rw [hqueue]
    exact TtyQueue.contents_putch_full hfull

end RheeKernel
