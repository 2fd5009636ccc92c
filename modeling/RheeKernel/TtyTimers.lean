import RheeKernel.TtyRead

namespace RheeKernel

namespace TtyReading

/-- The call does not return from an end of the file with its timer set, and where a SIGALRM of the timer has come before the inner loop is left,
the call goes on with its timer set. -/
def Disarms (s : TtyReading) (e : TtyReadEvent) : Prop :=
  e = .next → (s.pos = .copy → s.atEof = true → s.flag = false) ∧
    (s.pos = .tail → s.timedOut = true → s.canon = false ∧ s.got.length < s.minimum ∧ timerFirst s.oldalarm s.time s.jiffies = true)

instance {s : TtyReading} {e : TtyReadEvent} : Decidable (s.Disarms e) := inferInstanceAs (Decidable (_ → _))

/-- The caller's alarm is as it was, or has expired, and no SIGALRM is left that only the timer has caused. -/
structure Restored (s : TtyReading) (alarm : Int) : Prop where
  alarm : s.current.alarm = alarm ∨ s.expired = true ∧ s.current.alarm = 0
  signal : ¬ (s.alrmPending = true ∧ s.timedOut = true ∧ s.alrmed = false)

/-- What holds during the call: only with the flag set the alarm is the call's own, and a SIGALRM of the timer will be seen at the head of the
loop. -/
structure Timed (s : TtyReading) : Prop where
  alarm : s.flag = false → s.current.alarm = s.oldalarm ∨ s.expired = true ∧ s.current.alarm = 0
  rung : s.timedOut = true → s.flag = true ∧ s.alrmPending = true
  seen : s.timedOut = true → s.pos = .loop → 0 < s.nr
  busy : s.pos ≠ .loop → s.pos ≠ .tail → 0 < s.nr
  count : s.minimum ≤ s.nr + s.got.length

/-- The alarm that the caller comes with is that of the invariant; when the call has returned it is restored. -/
structure Inv (s : TtyReading) (alarm : Int) : Prop where
  oldalarm : s.oldalarm = alarm
  timed : s.returned = false → s.Timed
  restored : s.returned = true → s.Restored alarm

variable {s s' : TtyReading} {e : TtyReadEvent} {alarm : Int} {sig : Nat} {tty : Tty}

theorem ttyRead_inv {current : SchedTask} {jiffies nr : Int} {channel : Nat} : (ttyRead tty current jiffies channel nr).Inv current.alarm := by
  unfold ttyRead
  dsimp only
  split
  next => exact ⟨rfl, fun h => (Bool.noConfusion h), fun _ => ⟨.inl rfl, fun h => Bool.noConfusion h.2.1⟩⟩
  next hsane =>
    refine ⟨rfl, fun _ => ?_, fun h => Bool.noConfusion h⟩
    refine ⟨fun hflag => .inl ?_, fun h => Bool.noConfusion h, fun h => Bool.noConfusion h, fun h => absurd rfl h, ?_⟩
    · dsimp only at hflag ⊢
      rw [hflag]
      rfl
    · dsimp only
      rw [List.length_nil]
      split <;> split <;> omega

/-- Leaving the loop restores the alarm. -/
theorem Inv.leave (h : s.Inv alarm) (hsignal : s.timedOut = false) : s.leave.Inv alarm := by
  refine ⟨h.oldalarm, fun hlive => Bool.noConfusion hlive, fun _ => ⟨.inl h.oldalarm, fun hp => ?_⟩⟩
  exact absurd (hp.2.1.symm.trans hsignal) (by decide)

theorem Inv.head (h : s.Inv alarm) (hpos : s.pos = .loop) : s.head.Inv alarm := by
  have hlive := not_returned hpos nofun
  have ht := h.timed hlive
  unfold TtyReading.head
  split
  next hnr =>
    refine h.leave (Bool.eq_false_iff.mpr fun hout => ?_)
    have := ht.seen hout hpos
    omega
  next hnr =>
    split
    next =>
      exact Inv.leave ⟨h.oldalarm, fun _ => ⟨ht.alarm, fun hout => Bool.noConfusion hout, fun hout => Bool.noConfusion hout, ht.busy, ht.count⟩,
        fun hret => absurd (hret.symm.trans hlive) (by decide)⟩ rfl
    next hquiet =>
      -- A SIGALRM of the timer would have been seen.
      have hout : s.timedOut = false := Bool.eq_false_iff.mpr fun hout => hquiet (ht.rung hout)
      have hgo : ∀ pos, pos = .sleep ∨ pos = .copy → Inv { s with pos := pos } alarm := by
        intro pos hp
        refine ⟨h.oldalarm, fun _ => ⟨ht.alarm, ht.rung, fun hr => absurd (hr.symm.trans hout) (by decide), fun _ _ => ?_, ht.count⟩, ?_⟩
        · change 0 < s.nr
          omega
        · rcases hp with rfl | rfl <;> exact fun hret => Bool.noConfusion hret
      split
      next => exact h.leave hout
      next =>
        split
        next => exact hgo _ (.inl rfl)
        next => exact hgo _ (.inr rfl)

theorem Inv.copyNext (h : s.Inv alarm) (hpos : s.pos = .copy) (hok : s.Disarms .next) : s.copyNext.Inv alarm := by
  have hlive := not_returned hpos nofun
  have ht := h.timed hlive
  have hbusy := ht.busy (by rw [hpos]; decide) (by rw [hpos]; decide)
  unfold TtyReading.copyNext
  by_cases heof : s.atEof = true
  · have hflag := (hok rfl).1 hpos heof
    rw [if_pos heof]
    refine ⟨h.oldalarm, fun hl => Bool.noConfusion hl, fun _ => ⟨?_, fun hp => ?_⟩⟩
    · have := ht.alarm hflag
      rwa [h.oldalarm] at this
    · exact absurd ((ht.rung hp.2.1).1.symm.trans hflag) (by decide)
  · rw [if_neg heof]
    exact ⟨h.oldalarm, fun _ => ⟨ht.alarm, ht.rung, fun _ hp => TtyReadAt.noConfusion hp, fun _ _ => hbusy, ht.count⟩,
      fun hr => Bool.noConfusion hr⟩

theorem Inv.storeNext {c : BitVec 8} (h : s.Inv alarm) (hpos : s.pos = .store c) : (s.storeNext c).Inv alarm := by
  have hlive := not_returned hpos nofun
  have ht := h.timed hlive
  have hcount : s.minimum ≤ s.nr - 1 + (s.got ++ [c]).length := by
    have := ht.count
    rw [List.length_append, List.length_singleton]
    omega
  unfold TtyReading.storeNext
  split
  next hmore =>
    exact ⟨h.oldalarm, fun _ => ⟨ht.alarm, ht.rung, fun _ hp => TtyReadAt.noConfusion hp, fun _ _ => hmore.1, hcount⟩,
      fun hr => Bool.noConfusion hr⟩
  next =>
    exact ⟨h.oldalarm, fun _ => ⟨ht.alarm, ht.rung, fun _ hp => TtyReadAt.noConfusion hp, fun _ hp => absurd rfl hp, hcount⟩,
      fun hr => Bool.noConfusion hr⟩

/-- Setting the timer anew touches nothing but the flag and the alarm. -/
theorem rearm_cases : s.rearm = s ∨ ∃ current, s.rearm = { s with flag := timerFirst s.oldalarm s.time s.jiffies, current := current } ∧
    current.signal = s.current.signal ∧ (timerFirst s.oldalarm s.time s.jiffies = false → current.alarm = s.oldalarm) := by
  unfold rearm
  split
  next =>
    refine .inr ⟨_, rfl, rfl, fun hlate => ?_⟩
    dsimp only
    rw [hlate]
    rfl
  next => exact .inl rfl

theorem Inv.rearm (h : s.Inv alarm) (hpos : s.pos = .tail) (hok : s.Disarms .next) :
    s.rearm.Inv alarm ∧ s.rearm.pos = .tail ∧ (s.rearm.timedOut = true → s.canon = false ∧ s.got.length < s.minimum) := by
  have hlive := not_returned hpos nofun
  have ht := h.timed hlive
  have hok := (hok rfl).2 hpos
  rcases @rearm_cases s with hsame | ⟨current, heq, hsignal, halarm⟩
  · rw [hsame]
    exact ⟨h, hpos, fun hout => ⟨(hok hout).1, (hok hout).2.1⟩⟩
  · rw [heq]
    refine ⟨⟨h.oldalarm, fun _ => ?_, fun hr => ?_⟩, hpos, fun hout => ⟨(hok hout).1, (hok hout).2.1⟩⟩
    · refine ⟨fun hflag => .inl (halarm hflag), fun hout => ⟨(hok hout).2.2, ?_⟩, fun _ hp => ?_, fun _ hp => absurd hpos hp, ht.count⟩
      · change current.signal.testBit sigAlrm = true
        rw [hsignal]
        exact (ht.rung hout).2
      · exact absurd (hpos.symm.trans hp) (by decide)
    · have hret : s.returned = true := hr
      exact absurd (hret.symm.trans hlive) (by decide)

theorem Inv.tailNext (h : s.Inv alarm) (hpos : s.pos = .tail) (hok : s.Disarms .next) : s.tailNext.Inv alarm := by
  obtain ⟨hinv, hpos', hgo⟩ := h.rearm hpos hok
  have hkeep : s.rearm.canon = s.canon ∧ s.rearm.got = s.got ∧ s.rearm.minimum = s.minimum ∧ s.rearm.nr = s.nr := by
    rcases @rearm_cases s with hsame | ⟨current, heq, _⟩
    · rw [hsame]
      exact ⟨rfl, rfl, rfl, rfl⟩
    · rw [heq]
      exact ⟨rfl, rfl, rfl, rfl⟩
  obtain ⟨hcanon, hgot, hmin, hnr⟩ := hkeep
  have hlive := not_returned hpos' nofun
  have ht := hinv.timed hlive
  unfold TtyReading.tailNext
  split
  next hout =>
    refine hinv.leave (Bool.eq_false_iff.mpr fun htimer => ?_)
    obtain ⟨hc, hlen⟩ := hgo htimer
    unfold enough at hout
    rw [hcanon, hc, hgot, hmin] at hout
    exact absurd (of_decide_eq_true hout) (Int.not_le.mpr hlen)
  next =>
    refine ⟨hinv.oldalarm, fun _ => ⟨ht.alarm, ht.rung, fun htimer _ => ?_, fun hp => absurd rfl hp, ht.count⟩, fun hr => Bool.noConfusion hr⟩
    have hcount := ht.count
    obtain ⟨_, hlen⟩ := hgo htimer
    change 0 < s.rearm.nr
    rw [hgot, hmin] at hcount
    omega

theorem Inv.next (h : s.Inv alarm) (hok : s.Disarms .next) (hs : s.next = some s') : s'.Inv alarm := by
  unfold TtyReading.next at hs
  split at hs
  next hpos => cases Option.some.inj hs; exact h.head hpos
  next hpos =>
    obtain ⟨_, hs⟩ := Option.ite_none_left_eq_some.mp hs
    cases Option.some.inj hs
    have hlive := not_returned hpos nofun
    have ht := h.timed hlive
    have hbusy := ht.busy (by rw [hpos]; decide) (by rw [hpos]; decide)
    exact ⟨h.oldalarm, fun _ => ⟨ht.alarm, ht.rung, fun _ _ => hbusy, fun hp => absurd rfl hp, ht.count⟩, fun hr => Bool.noConfusion hr⟩
  next hpos => cases Option.some.inj hs; exact h.copyNext hpos hok
  next hpos => cases Option.some.inj hs; exact h.storeNext hpos
  next hpos => cases Option.some.inj hs; exact h.tailNext hpos hok
  next => cases hs

theorem rings_iff : s.rings = true ↔ s.current.alarm ≠ 0 ∧ s.current.alarm < s.jiffies := decide_eq_true_iff

theorem scheduled_signal : s.scheduled.current.signal = if s.rings then s.current.signal ||| alrmMask else s.current.signal :=
  SchedTask.check_signal.trans (if_congr rings_iff.symm rfl rfl)

theorem scheduled_alarm : s.scheduled.current.alarm = if s.rings then 0 else s.current.alarm :=
  SchedTask.check_alarm.trans (if_congr rings_iff.symm rfl rfl)

theorem away_pos (h : s.away = true) : s.pos ≠ .loop ∧ s.pos ≠ .tail := by
  unfold away at h
  constructor <;> intro hp <;> rw [hp] at h <;> cases h

/-- Steps from outside do not touch the locals of the call; only a timer that rings is new. -/
theorem Inv.outside (h : s.Inv alarm) (hlive : s.returned = false) {current : SchedTask} {jiffies : Int} {expired timedOut alrmed : Bool}
    (halarm : s.flag = false → current.alarm = s.current.alarm ∧ s.expired = expired ∨ expired = true ∧ current.alarm = 0)
    (htimer : timedOut = true → (s.timedOut = true ∨ s.flag = true ∧ s.pos ≠ .loop ∧ s.pos ≠ .tail) ∧ current.signal.testBit sigAlrm = true) :
    Inv { s with tty := tty, current := current, jiffies := jiffies, expired := expired, timedOut := timedOut, alrmed := alrmed } alarm := by
  have ht := h.timed hlive
  refine ⟨h.oldalarm, fun _ => ⟨fun hflag => ?_, fun hout => ?_, fun hout hp => ?_, ht.busy, ht.count⟩, fun hr => ?_⟩
  · rcases halarm hflag with ⟨hsame, hexp⟩ | hrung
    · have := ht.alarm hflag
      rw [hexp] at this
      dsimp only
      rwa [hsame]
    · exact .inr hrung
  · obtain ⟨hold | hnew, hbit⟩ := htimer hout
    · exact ⟨(ht.rung hold).1, hbit⟩
    · exact ⟨hnew.1, hbit⟩
  · obtain ⟨hold | hnew, _⟩ := htimer hout
    · exact ht.seen hold hp
    · exact absurd hp hnew.2.1
  · have hret : s.returned = true := hr
    exact absurd (hret.symm.trans hlive) (by decide)

theorem Inv.scheduled (h : s.Inv alarm) (hlive : s.returned = false) (haway : s.away = true) : s.scheduled.Inv alarm := by
  have ht := h.timed hlive
  have hsignal := @scheduled_signal s
  have halarm := @scheduled_alarm s
  refine h.outside hlive (fun hflag => ?_) fun hout => ?_
  · by_cases hr : s.rings = true
    · rw [if_pos hr] at halarm
      exact .inr ⟨by rw [hr, hflag]; exact Bool.or_true _, halarm⟩
    · rw [if_neg hr] at halarm
      exact .inl ⟨halarm, by rw [Bool.eq_false_iff.mpr hr]; exact (Bool.or_false _).symm⟩
  · rw [show (s.current.check s.jiffies).signal = _ from hsignal]
    rcases Bool.or_eq_true_iff.mp hout with hold | hnew
    · refine ⟨.inl hold, ?_⟩
      split
      next => rw [Nat.testBit_or, show s.current.signal.testBit sigAlrm = true from (ht.rung hold).2, Bool.true_or]
      next => exact (ht.rung hold).2
    · obtain ⟨hr, hflag⟩ := Bool.and_eq_true_iff.mp hnew
      rw [if_pos hr, Nat.testBit_or]
      exact ⟨.inr ⟨hflag, away_pos haway⟩, by unfold alrmMask; rw [Nat.testBit_two_pow_self, Bool.or_true]⟩

theorem Inv.step (h : s.Inv alarm) (hok : s.Disarms e) (hs : ttyReadStep s e = some s') : s'.Inv alarm := by
  unfold ttyReadStep at hs
  obtain ⟨hlive, hs⟩ := Option.ite_none_left_eq_some.mp hs
  have hlive := Bool.eq_false_iff.mpr hlive
  have ht := h.timed hlive
  have hsame : s.flag = false → s.current.alarm = s.current.alarm ∧ s.expired = s.expired ∨ s.expired = true ∧ s.current.alarm = 0 :=
    fun _ => .inl ⟨rfl, rfl⟩
  have hrung : s.timedOut = true →
      (s.timedOut = true ∨ s.flag = true ∧ s.pos ≠ .loop ∧ s.pos ≠ .tail) ∧ s.current.signal.testBit sigAlrm = true :=
    fun hout => ⟨.inl hout, (ht.rung hout).2⟩
  cases e with
  | next => exact h.next hok hs
  | tick => cases Option.some.inj hs; exact h.outside hlive hsame hrung
  | schedule =>
    obtain ⟨haway, hs⟩ := Option.ite_none_right_eq_some.mp hs
    cases Option.some.inj hs
    exact h.scheduled hlive haway
  | signal sig =>
    obtain ⟨_, hs⟩ := Option.ite_none_right_eq_some.mp hs
    cases Option.some.inj hs
    refine h.outside hlive (fun _ => .inl ⟨rfl, rfl⟩) fun hout => ⟨.inl hout, ?_⟩
    rw [Nat.testBit_or, show s.current.signal.testBit sigAlrm = true from (ht.rung hout).2, Bool.true_or]
  | put c =>
    obtain ⟨_, hs⟩ := Option.ite_none_left_eq_some.mp hs
    cases Option.some.inj hs
    exact h.outside hlive hsame hrung
  | rub =>
    obtain ⟨_, hs⟩ := Option.ite_none_left_eq_some.mp hs
    cases Option.some.inj hs
    exact h.outside hlive hsame hrung
  | take =>
    obtain ⟨_, hs⟩ := Option.ite_none_right_eq_some.mp hs
    cases Option.some.inj hs
    exact h.outside hlive hsame hrung

/-- A call that never leaves with its timer in place returns with the caller's alarm as it was, and leaves no SIGALRM of its own. -/
theorem read_alarm_restored {current : SchedTask} {jiffies nr : Int} {channel : Nat}
    (h : Machine.Reach ttyReadStep Disarms (ttyRead tty current jiffies channel nr) s) (hret : s.returned = true) : s.Restored current.alarm := by
  have hinv : s.Inv current.alarm :=
    Machine.Reach.invariant (I := fun s => s.Inv current.alarm) ttyRead_inv (fun _ _ _ hinv hok hs => hinv.step hok hs) h
  exact hinv.restored hret

/-- A line in canonical mode with VTIME 1 and VMIN 0; 4 ends the file. -/
def timedTty : Tty :=
  { ttyInit none (fun _ => false) with
    termios := { iflag := 0, lflag := 0o2, cc := fun i => if i = 4 then 4 else if i = 5 then 1 else 0 } }

theorem read_alarm_restored_line :
    ∃ s : TtyReading, s.returned = true ∧ s.Restored 0 ∧ s.got = [65, 10] := by
  have hrun : (Machine.execOk ttyReadStep (fun s e => s.Disarms e) (ttyRead timedTty { counter := 15, priority := 15 } 100 1 9)
      [.next, .put 65, .put 10, .next, .next, .next, .next, .next, .next, .next]).any
        (fun s => s.returned && s.got == [65, 10]) = true := by
    decide +kernel
  obtain ⟨s, hs, hp⟩ := (Option.any_eq_true _ _).mp hrun
  obtain ⟨hret, hgot⟩ := Bool.and_eq_true_iff.mp hp
  exact ⟨s, hret, read_alarm_restored (Machine.Reach.start.execOk hs) hret, eq_of_beq hgot⟩

/-- The call that reads the end of the file leaves its timer, due in a second, as the caller's alarm. -/
theorem read_alarm_lost :
    ∃ s : TtyReading, Machine.Reach ttyReadStep (fun _ _ => True) (ttyRead timedTty { counter := 15, priority := 15 } 100 1 9) s ∧
      s.returned = true ∧ ¬ s.Restored 0 := by
  have hrun : (Machine.exec ttyReadStep (ttyRead timedTty { counter := 15, priority := 15 } 100 1 9) [.next, .put 4, .next, .next, .next]).any
      (fun s => s.returned && s.current.alarm == 110) = true := by
    decide +kernel
  obtain ⟨s, hs, hp⟩ := (Option.any_eq_true _ _).mp hrun
  obtain ⟨hret, halarm⟩ := Bool.and_eq_true_iff.mp hp
  refine ⟨s, Machine.Reach.start.exec (fun _ _ _ => trivial) hs, hret, fun hr => ?_⟩
  have halarm : s.current.alarm = 110 := eq_of_beq halarm
  rcases hr.alarm with h | ⟨_, h⟩ <;> omega

end TtyReading

end RheeKernel
