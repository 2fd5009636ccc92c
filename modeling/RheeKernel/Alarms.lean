import RheeKernel.Machine
import RheeKernel.Scheduler

namespace RheeKernel

/-- Ticks of the timer in a second. -/
def hz : Int := 100

namespace Scheduler

/-- `sys_alarm` of the running task, and what it returns. -/
def sysAlarm (s : Scheduler) (seconds : Int) : Scheduler × Int :=
  match s.task s.current with
  | none => (s, 0)
  | some p =>
    let old := if p.alarm ≠ 0 then (long (p.alarm - s.jiffies)).tdiv hz else p.alarm
    (s.edit s.current fun p => { p with alarm := if 0 < seconds then long (s.jiffies + long (hz * seconds)) else 0 }, old)

end Scheduler

/-- The ticks that an event takes. -/
def SliceEvent.ticks : SliceEvent → Nat
  | .timer _ => 1
  | _ => 0

/-- The scheduler with a count of the ticks. -/
def timedStep (x : Scheduler × Nat) (e : SliceEvent) : Option (Scheduler × Nat) :=
  (sliceStep x.1 e).map fun u => (u, x.2 + e.ticks)

namespace Scheduler

/-- The task does not set its alarm, and is not released. -/
def Undisturbed (t : Nat) (x : Scheduler × Nat) : SliceEvent → Prop
  | .alarm _ => x.1.current ≠ t
  | .release u => u ≠ t
  | _ => True

/-- What happens to the scheduler while task `t` waits for its alarm. -/
def Waits (t : Nat) (s u : Scheduler) (k : Nat) : Prop := Machine.Reach timedStep (Undisturbed t) (s, 0) (u, k)

/-- The state in which a step comes to the first loop of `schedule`, if it does. -/
def checking (s : Scheduler) : SliceEvent → Option Scheduler
  | .schedule => some s
  | .timer cpl => if s.tick.2 && cpl then some s.tick.1 else none
  | _ => none

/-- The first loop of `schedule` sends SIGALRM to task `t`. -/
def Alarms (s : Scheduler) (t : Nat) : Prop := t ≠ 0 ∧ ∃ p, s.task t = some p ∧ p.alarm ≠ 0 ∧ p.alarm < s.jiffies

/-- While fewer than `hz * seconds` ticks have gone by, no `schedule` sends the signal. -/
def NeverEarly (s : Scheduler) (seconds : Int) : Prop :=
  ∀ u k e v, Waits s.current (s.sysAlarm seconds).1 u k → u.checking e = some v → (k + e.ticks : Nat) < hz * seconds → ¬ v.Alarms s.current

/-- The whole seconds that are left. -/
def remaining (seconds : Int) (k : Nat) : Int := max 0 (hz * seconds - k) / hz

/-- The deadline is a `long`, or one that never comes. -/
def InTime (jiffies seconds : Int) : Prop :=
  jiffies + hz * seconds < 2 ^ 31 ∨ (jiffies + hz * seconds) % 2 ^ 32 = 0 ∨ (jiffies + hz * seconds) % 2 ^ 32 = 2 ^ 31 - 1

instance {jiffies seconds : Int} : Decidable (InTime jiffies seconds) :=
  inferInstanceAs (Decidable (jiffies + hz * seconds < 2 ^ 31 ∨ (jiffies + hz * seconds) % 2 ^ 32 = 0 ∨
    (jiffies + hz * seconds) % 2 ^ 32 = 2 ^ 31 - 1))

/-- An alarm that is off was to go off within a second; one that is still set is less than a second late, and not too far away for a `long`. -/
def OnTime (seconds : Int) (k : Nat) (alarm : Int) : Prop :=
  if alarm = 0 then hz * seconds - k < hz
  else (-hz < hz * seconds - k ∧ hz * seconds - k < 2 ^ 31) ∨
    (hz * seconds - k < 0 ∧ -hz < long (hz * seconds - k) ∧ long (hz * seconds - k) < hz)

instance {seconds : Int} {k : Nat} {alarm : Int} : Decidable (OnTime seconds k alarm) :=
  inferInstanceAs (Decidable (if alarm = 0 then hz * seconds - k < hz
    else (-hz < hz * seconds - k ∧ hz * seconds - k < 2 ^ 31) ∨
      (hz * seconds - k < 0 ∧ -hz < long (hz * seconds - k) ∧ long (hz * seconds - k) < hz)))

variable {s s' u : Scheduler} {e : SliceEvent} {p q : SchedTask} {t k n : Nat} {f : SchedTask → SchedTask} {j seconds : Int}

theorem alarm_kept_or_off : (p.check j).alarm = p.alarm ∨ (p.check j).alarm = 0 := by
  rw [SchedTask.check_alarm]
  split
  next => exact .inr rfl
  next => exact .inl rfl

/-- The alarm of a task is as it was, or off. -/
def KeepsAlarm (t : Nat) (s s' : Scheduler) : Prop :=
  ∀ p, s.task t = some p → ∃ q, s'.task t = some q ∧ (q.alarm = p.alarm ∨ q.alarm = 0)

theorem KeepsAlarm.of_eq (h : s'.task = s.task) : KeepsAlarm t s s' := fun p hp => ⟨p, h ▸ hp, .inl rfl⟩

theorem KeepsAlarm.trans (h : KeepsAlarm t s s') (h' : KeepsAlarm t s' u) : KeepsAlarm t s u := by
  intro p hp
  obtain ⟨q, hq, halarm⟩ := h p hp
  obtain ⟨r, hr, hkept⟩ := h' q hq
  refine ⟨r, hr, ?_⟩
  rcases hkept with hkept | hoff
  · rcases halarm with halarm | hoff
    · exact .inl (hkept.trans halarm)
    · exact .inr (hkept.trans hoff)
  · exact .inr hoff

/-- The alarm of a task is as it was. -/
def SameAlarm (t : Nat) (s s' : Scheduler) : Prop := ∀ p, s.task t = some p → ∃ q, s'.task t = some q ∧ q.alarm = p.alarm

theorem SameAlarm.keeps (h : SameAlarm t s s') : KeepsAlarm t s s' := by
  intro p hp
  obtain ⟨q, hq, halarm⟩ := h p hp
  exact ⟨q, hq, .inl halarm⟩

theorem SameAlarm.trans (h : SameAlarm t s s') (h' : SameAlarm t s' u) : SameAlarm t s u := by
  intro p hp
  obtain ⟨q, hq, halarm⟩ := h p hp
  obtain ⟨r, hr, hsame⟩ := h' q hq
  exact ⟨r, hr, hsame.trans halarm⟩

theorem sameAlarm_edit (hf : n = t → ∀ p, (f p).alarm = p.alarm) : SameAlarm t s (s.edit n f) := by
  intro p hp
  unfold Scheduler.edit
  dsimp only
  by_cases hn : t = n
  · subst hn
    rw [Function.update_self, hp]
    exact ⟨f p, rfl, hf rfl p⟩
  · rw [Function.update_of_ne hn]
    exact ⟨p, hp, rfl⟩

theorem keepsAlarm_editAll (hf : ∀ p, (f p).alarm = p.alarm ∨ (f p).alarm = 0) : KeepsAlarm t s (s.editAll f) := by
  intro p hp
  unfold Scheduler.editAll
  dsimp only
  by_cases ht : t = 0
  · rw [if_pos ht]
    exact ⟨p, hp, .inl rfl⟩
  · rw [if_neg ht, hp]
    exact ⟨f p, rfl, hf p⟩

theorem sameAlarm_tick : SameAlarm t s s.tick.1 ∧ s.tick.1.current = s.current ∧ s.tick.1.jiffies = long (s.jiffies + 1) := by
  have hj : SameAlarm t s { s with jiffies := long (s.jiffies + 1) } := fun p hp => ⟨p, hp, rfl⟩
  unfold Scheduler.tick
  dsimp only
  split
  next => exact ⟨hj, rfl, rfl⟩
  next =>
    split
    next => exact ⟨hj.trans (sameAlarm_edit fun _ _ => rfl), rfl, rfl⟩
    next => exact ⟨hj.trans (sameAlarm_edit fun _ _ => rfl), rfl, rfl⟩

theorem keepsAlarm_choose (h : Scheduler.choose n s = some s') : KeepsAlarm t s s' ∧ s'.jiffies = s.jiffies := by
  induction n generalizing s with
  | zero => cases h
  | succ n ih =>
    unfold Scheduler.choose at h
    split at h
    next =>
      cases Option.some.inj h
      exact ⟨.of_eq rfl, rfl⟩
    next =>
      obtain ⟨hkept, hj⟩ := ih h
      have hrecharge : KeepsAlarm t s s.recharge := keepsAlarm_editAll fun _ => .inl rfl
      exact ⟨hrecharge.trans hkept, hj⟩

theorem keepsAlarm_schedule (h : s.schedule = some s') : KeepsAlarm t s s' ∧ s'.jiffies = s.jiffies := by
  obtain ⟨hkept, hj⟩ := @keepsAlarm_choose _ _ t _ h
  have hchecked : KeepsAlarm t s s.checked := keepsAlarm_editAll fun _ => alarm_kept_or_off
  exact ⟨hchecked.trans hkept, hj⟩

/-- A step keeps the alarm of the task, or turns it off, and counts its ticks. -/
theorem keepsAlarm_step (hok : Undisturbed t (s, k) e) (hs : sliceStep s e = some s') :
    KeepsAlarm t s s' ∧ s'.jiffies = if e.ticks = 0 then s.jiffies else long (s.jiffies + 1) := by
  cases e with
  | fork u =>
    obtain ⟨q, hq, hs⟩ := Option.bind_eq_some_iff.mp hs
    split at hs
    next hfree =>
      cases Option.some.inj hs
      refine ⟨fun p hp => ⟨p, ?_, .inl rfl⟩, rfl⟩
      have hne : t ≠ u := by
        intro ht
        rw [ht, hfree.2.2] at hp
        cases hp
      exact (Function.update_of_ne hne _ _).trans hp
    next => cases hs
  | nice increment =>
    cases Option.some.inj hs
    exact ⟨(sameAlarm_edit fun _ p => by split <;> rfl).keeps, rfl⟩
  | timer cpl =>
    obtain ⟨htick, _, hj⟩ := @sameAlarm_tick s t
    change (if s.tick.2 && cpl then s.tick.1.schedule else some s.tick.1) = some s' at hs
    split at hs
    next =>
      obtain ⟨hkept, hj'⟩ := @keepsAlarm_schedule _ _ t hs
      exact ⟨htick.keeps.trans hkept, hj'.trans hj⟩
    next =>
      cases Option.some.inj hs
      exact ⟨htick.keeps, hj⟩
  | schedule => exact keepsAlarm_schedule hs
  | setState st =>
    cases Option.some.inj hs
    exact ⟨SameAlarm.keeps (sameAlarm_edit fun _ _ => rfl), rfl⟩
  | wake v =>
    cases Option.some.inj hs
    exact ⟨SameAlarm.keeps (sameAlarm_edit fun _ _ => rfl), rfl⟩
  | kill v sig =>
    cases Option.some.inj hs
    exact ⟨SameAlarm.keeps (sameAlarm_edit fun _ _ => rfl), rfl⟩
  | alarm d =>
    cases Option.some.inj hs
    exact ⟨(sameAlarm_edit fun hcurrent => absurd hcurrent hok).keeps, rfl⟩
  | release v =>
    change (if v = 0 then none else some { s with task := Function.update s.task v none }) = some s' at hs
    split at hs
    next => cases hs
    next =>
      cases Option.some.inj hs
      refine ⟨fun p hp => ⟨p, ?_, .inl rfl⟩, rfl⟩
      exact (Function.update_of_ne (Ne.symm hok) _ _).trans hp

theorem long_add {x y : Int} : long (long x + y) = long (x + y) := by
  unfold long
  omega

/-- The alarm that was set is still there or off, and `jiffies` has counted the ticks. -/
theorem Waits.spec (h : Waits t s u k) (hj : long s.jiffies = s.jiffies) : KeepsAlarm t s u ∧ u.jiffies = long (s.jiffies + k) := by
  have hrun := h.invariant (I := fun x => KeepsAlarm t s x.1 ∧ x.1.jiffies = long (s.jiffies + x.2)) ⟨.of_eq rfl, by simp [hj]⟩ ?_
  · exact hrun
  · rintro ⟨v, m⟩ e ⟨v', m'⟩ ⟨hkept, hjiffies⟩ hok hs
    obtain ⟨w, hw, hpair⟩ := Option.map_eq_some_iff.mp hs
    cases hpair
    obtain ⟨hstep, hcount⟩ := keepsAlarm_step hok hw
    refine ⟨hkept.trans hstep, ?_⟩
    dsimp only at hjiffies hcount ⊢
    have hone : e.ticks = 0 ∨ e.ticks = 1 := by cases e <;> simp [SliceEvent.ticks]
    rcases hone with hzero | hone
    · rw [hcount, if_pos hzero, hjiffies, hzero, Nat.add_zero]
    · rw [hcount, if_neg (by omega), hjiffies, hone, long_add]
      push_cast
      rw [Int.add_assoc]

/-- The state after `n` ticks in the kernel. -/
theorem Waits.ticks (h : Waits t s u k) : ∃ v, Waits t s v (k + n) ∧ v.current = u.current ∧ SameAlarm t u v := by
  induction n with
  | zero => exact ⟨u, h, rfl, fun p hp => ⟨p, hp, rfl⟩⟩
  | succ n ih =>
    obtain ⟨v, hv, hcurrent, hsame⟩ := ih
    obtain ⟨hstep, hstay, _⟩ := @sameAlarm_tick v t
    refine ⟨v.tick.1, ?_, hstay.trans hcurrent, hsame.trans hstep⟩
    refine Machine.Reach.next (e := .timer false) hv trivial ?_
    change (v.doTimer false).map _ = _
    unfold Scheduler.doTimer
    rw [Bool.and_false]
    rfl

/-- What `sys_alarm` sets the alarm to. -/
theorem sysAlarm_sets (hp : s.task s.current = some p) (hsec : 0 < seconds) :
    (s.sysAlarm seconds).1.task s.current = some { p with alarm := long (s.jiffies + hz * seconds) } ∧
      (s.sysAlarm seconds).1.current = s.current ∧ (s.sysAlarm seconds).1.jiffies = s.jiffies ∧
      (s.sysAlarm seconds).2 = if p.alarm ≠ 0 then (long (p.alarm - s.jiffies)).tdiv hz else 0 := by
  have hdeadline : long (s.jiffies + long (hz * seconds)) = long (s.jiffies + hz * seconds) := by
    rw [Int.add_comm, long_add, Int.add_comm]
  unfold Scheduler.sysAlarm
  rw [hp]
  dsimp only [Scheduler.edit]
  rw [Function.update_self, hp, if_pos hsec, hdeadline]
  refine ⟨rfl, rfl, rfl, ?_⟩
  split
  next => rfl
  next hzero => exact Classical.not_not.mp hzero

/-- The run in the kernel to the largest value of `jiffies` goes past a deadline that is no `long`. -/
theorem early_of_overflow (hp : s.task s.current = some p) (hj : -2 ^ 31 ≤ s.jiffies ∧ s.jiffies < 2 ^ 31) (hsec : 0 < seconds)
    (hcurrent : s.current ≠ 0) (hlate : ¬ InTime s.jiffies seconds) : ¬ NeverEarly s seconds := by
  intro hnever
  obtain ⟨htask, _, hjiffies, _⟩ := sysAlarm_sets hp hsec
  unfold InTime at hlate
  unfold hz at hlate htask
  obtain ⟨n, hn⟩ := Int.eq_ofNat_of_zero_le (show 0 ≤ 2 ^ 31 - 1 - s.jiffies by omega)
  have hstart : Waits s.current (s.sysAlarm seconds).1 (s.sysAlarm seconds).1 0 := Machine.Reach.start
  obtain ⟨v, hv, _, hsame⟩ := hstart.ticks (n := n)
  obtain ⟨q, hq, halarm⟩ := hsame _ htask
  obtain ⟨_, hcount⟩ := hv.spec (by rw [hjiffies, long_eq hj.1 hj.2])
  rw [hjiffies, Nat.zero_add, long_eq (by omega) (by omega)] at hcount
  dsimp only at halarm
  refine hnever v (0 + n) .schedule v hv rfl ?_ ⟨hcurrent, q, hq, ?_⟩
  · simp only [SliceEvent.ticks, hz]
    omega
  · rw [halarm, hcount]
    unfold long
    omega

theorem neverEarly_iff (hp : s.task s.current = some p) (hj : -2 ^ 31 ≤ s.jiffies ∧ s.jiffies < 2 ^ 31) (hsec : 0 < seconds) :
    NeverEarly s seconds ↔ s.current = 0 ∨ InTime s.jiffies seconds := by
  constructor
  · intro hnever
    by_contra hnot
    obtain ⟨hcurrent, hlate⟩ := not_or.mp hnot
    exact early_of_overflow hp hj hsec hcurrent hlate hnever
  · rintro hwhen u k e v hwait hcheck hfew ⟨hcurrent, q, hq, hset, hover⟩
    have htime := hwhen.resolve_left hcurrent
    obtain ⟨htask, _, hjiffies, _⟩ := sysAlarm_sets hp hsec
    obtain ⟨hkept, hcount⟩ := hwait.spec (by rw [hjiffies, long_eq hj.1 hj.2])
    rw [hjiffies] at hcount
    -- The check is made in the state itself, or after one more tick.
    have hv : KeepsAlarm s.current (s.sysAlarm seconds).1 v ∧ v.jiffies = long (s.jiffies + (k + e.ticks : Nat)) := by
      cases e with
      | schedule =>
        cases hcheck
        exact ⟨hkept, hcount⟩
      | timer cpl =>
        change (if u.tick.2 && cpl then some u.tick.1 else none) = some v at hcheck
        split at hcheck
        next =>
          cases hcheck
          obtain ⟨hsame, _, htick⟩ := @sameAlarm_tick u s.current
          refine ⟨hkept.trans hsame.keeps, ?_⟩
          rw [htick, hcount, long_add, Int.add_assoc]
          rfl
        next => cases hcheck
      | fork | nice | setState | wake | kill | alarm | release => cases hcheck
    obtain ⟨hkeeps, hnow⟩ := hv
    obtain ⟨q', hq', halarm⟩ := hkeeps _ htask
    cases Option.some.inj (hq.symm.trans hq')
    have hdeadline := halarm.resolve_right hset
    rw [hdeadline, hnow] at hover
    dsimp only at hdeadline hover
    unfold InTime at htime
    unfold long at hdeadline hover
    unfold hz at hdeadline hover htime hfew
    omega

/-- A second `sys_alarm`, `k` ticks after the first. -/
theorem sysAlarm_again (hp : s.task s.current = some p) (hj : -2 ^ 31 ≤ s.jiffies ∧ s.jiffies < 2 ^ 31) (hsec : 0 < seconds)
    (hwait : Waits s.current (s.sysAlarm seconds).1 u k) (hcurrent : u.current = s.current) (hq : u.task s.current = some q) (next : Int) :
    (u.sysAlarm next).2 = if q.alarm = 0 then 0 else (long (hz * seconds - k)).tdiv hz := by
  obtain ⟨htask, _, hjiffies, _⟩ := sysAlarm_sets hp hsec
  obtain ⟨hkept, hcount⟩ := hwait.spec (by rw [hjiffies, long_eq hj.1 hj.2])
  obtain ⟨q', hq', halarm⟩ := hkept _ htask
  cases Option.some.inj (hq.symm.trans hq')
  rw [hjiffies] at hcount
  rw [← hcurrent] at hq
  have hold : (u.sysAlarm next).2 = if q.alarm ≠ 0 then (long (q.alarm - u.jiffies)).tdiv hz else q.alarm := by
    unfold Scheduler.sysAlarm
    rw [hq]
  rw [hold]
  by_cases hoff : q.alarm = 0
  · rw [if_neg (not_not_intro hoff), if_pos hoff, hoff]
  · rw [if_pos hoff, if_neg hoff, halarm.resolve_right hoff, hcount]
    refine congrArg (fun x => Int.tdiv x hz) ?_
    dsimp only
    unfold long
    omega

/-- When the quotient of the code is the number of seconds that are left. -/
theorem quotient_iff {x : Int} : (long x).tdiv hz = max 0 x / hz ↔ (-hz < x ∧ x < 2 ^ 31) ∨ (x < 0 ∧ -hz < long x ∧ long x < hz) := by
  have hsign : (long x).tdiv hz = if 0 ≤ long x then long x / hz else -(-long x / hz) := by
    split
    next hpos => exact Int.tdiv_eq_ediv_of_nonneg hpos
    next hneg =>
      have hopp := Int.tdiv_eq_ediv_of_nonneg (a := -long x) (b := hz) (by omega)
      rw [Int.neg_tdiv] at hopp
      omega
  rw [hsign]
  unfold long hz
  split
  next => omega
  next => omega

/-- A second `sys_alarm` returns the seconds that are left just when the alarm is on time. -/
theorem sysAlarm_remaining_iff (hp : s.task s.current = some p) (hj : -2 ^ 31 ≤ s.jiffies ∧ s.jiffies < 2 ^ 31) (hsec : 0 < seconds)
    (hwait : Waits s.current (s.sysAlarm seconds).1 u k) (hcurrent : u.current = s.current) (hq : u.task s.current = some q) (next : Int) :
    (u.sysAlarm next).2 = remaining seconds k ↔ OnTime seconds k q.alarm := by
  rw [sysAlarm_again hp hj hsec hwait hcurrent hq next]
  unfold OnTime remaining
  by_cases hoff : q.alarm = 0
  · rw [if_pos hoff, if_pos hoff]
    unfold hz
    omega
  · rw [if_neg hoff, if_neg hoff]
    exact quotient_iff

theorem remaining_le (hsec : 0 < seconds) : 0 ≤ remaining seconds k ∧ remaining seconds k ≤ seconds := by
  unfold remaining hz
  omega

/-- The deadline that `sys_alarm` computes is in time just when no signal comes early, and the next call returns the whole seconds that
are left just when the alarm is on time then. -/
theorem alarm_iff (hp : s.task s.current = some p) (hj : -2 ^ 31 ≤ s.jiffies ∧ s.jiffies < 2 ^ 31) (hsec : 0 < seconds) :
    (NeverEarly s seconds ↔ s.current = 0 ∨ InTime s.jiffies seconds) ∧
    ∀ u k q next, Waits s.current (s.sysAlarm seconds).1 u k → u.current = s.current → u.task s.current = some q →
      ((u.sysAlarm next).2 = remaining seconds k ∧ 0 ≤ (u.sysAlarm next).2 ∧ (u.sysAlarm next).2 ≤ seconds ↔ OnTime seconds k q.alarm) := by
  refine ⟨neverEarly_iff hp hj hsec, fun u k q next hwait hcurrent hq => ?_⟩
  rw [← sysAlarm_remaining_iff hp hj hsec hwait hcurrent hq next]
  constructor
  · intro hcall
    exact hcall.1
  · intro hcall
    refine ⟨hcall, ?_⟩
    rw [hcall]
    exact remaining_le hsec

end Scheduler

/-- The idle task, and process 1 that runs. -/
def twoTasks : Scheduler where
  task := fun t => if t < 2 then some { counter := 15, priority := 15 } else none
  current := 1
  jiffies := 0

theorem alarm_iff_second : twoTasks.NeverEarly 1 ∧ ((twoTasks.sysAlarm 1).1.sysAlarm 0).2 = 1 := by
  have hp : twoTasks.task twoTasks.current = some { counter := 15, priority := 15 } := rfl
  have hsec : (0 : Int) < 1 := by decide
  obtain ⟨hearly, hagain⟩ := Scheduler.alarm_iff hp (by decide) hsec
  refine ⟨hearly.mpr (.inr (.inl (by decide))), ?_⟩
  have hset : (twoTasks.sysAlarm 1).1.task 1 = some { counter := 15, priority := 15, alarm := 100 } := by decide
  exact ((hagain (twoTasks.sysAlarm 1).1 0 _ 0 .start rfl hset).mpr (by decide)).1

/-- An alarm of 21474837 seconds goes off at once; one second after the end of an alarm of one second that nobody has looked at, the next
call returns -1. -/
theorem alarm_early : ((twoTasks.sysAlarm 21474837).1.schedule.bind fun u => (u.task 1).map SchedTask.signal) = some (2 ^ 13) ∧
    ¬ twoTasks.NeverEarly 21474837 ∧
    ∃ u, Scheduler.Waits 1 (twoTasks.sysAlarm 1).1 u 200 ∧ u.current = 1 ∧ (u.sysAlarm 0).2 = -1 := by
  have hp : twoTasks.task twoTasks.current = some { counter := 15, priority := 15 } := rfl
  have hset : (twoTasks.sysAlarm 1).1.task 1 = some { counter := 15, priority := 15, alarm := 100 } := by decide
  have hstart : Scheduler.Waits 1 (twoTasks.sysAlarm 1).1 (twoTasks.sysAlarm 1).1 0 := Machine.Reach.start
  obtain ⟨u, hu, hcurrent, hsame⟩ := hstart.ticks (n := 200)
  obtain ⟨q, hq, halarm⟩ := hsame _ hset
  refine ⟨by decide, Scheduler.early_of_overflow hp (by decide) (by decide) (by decide) (by decide), u, hu, hcurrent, ?_⟩
  rw [Scheduler.sysAlarm_again hp (by decide) (by decide) hu hcurrent hq 0, halarm]
  decide

end RheeKernel
