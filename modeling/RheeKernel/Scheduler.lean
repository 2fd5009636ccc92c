import RheeKernel.ProcessTree
import RheeKernel.WaitQueue

namespace RheeKernel

/-- A result as a `long` has it. -/
def long (x : Int) : Int := (x + 2 ^ 31) % 2 ^ 32 - 2 ^ 31

/-- What the scheduler goes by. -/
structure SchedTask where
  state : TaskState := .running
  counter : Int
  priority : Int
  signal : Nat := 0
  alarm : Int := 0
deriving DecidableEq

structure Scheduler where
  task : Nat → Option SchedTask
  current : Nat
  jiffies : Int

/-- The first loop of `schedule`: an alarm that is over is a signal, and a signal ends an interruptible sleep. -/
def SchedTask.check (p : SchedTask) (jiffies : Int) : SchedTask :=
  let p := if p.alarm ≠ 0 ∧ p.alarm < jiffies then { p with signal := p.signal ||| 2 ^ 13, alarm := 0 } else p
  if p.signal ≠ 0 ∧ p.state = .interruptible then { p with state := .running } else p

namespace SchedTask

variable {p : SchedTask} {j : Int}

theorem check_signal : (p.check j).signal = if p.alarm ≠ 0 ∧ p.alarm < j then p.signal ||| 2 ^ 13 else p.signal := by
  unfold check
  dsimp only
  split <;> split <;> rfl

theorem check_alarm : (p.check j).alarm = if p.alarm ≠ 0 ∧ p.alarm < j then 0 else p.alarm := by
  unfold check
  dsimp only
  split <;> split <;> rfl

theorem check_slice : (p.check j).counter = p.counter ∧ (p.check j).priority = p.priority := by
  unfold check
  dsimp only
  split <;> split <;> exact ⟨rfl, rfl⟩

end SchedTask

namespace Scheduler

def edit (s : Scheduler) (t : Nat) (f : SchedTask → SchedTask) : Scheduler :=
  { s with task := Function.update s.task t ((s.task t).map f) }

/-- A loop over all tasks but the first. -/
def editAll (s : Scheduler) (f : SchedTask → SchedTask) : Scheduler :=
  { s with task := fun t => if t = 0 then s.task t else (s.task t).map f }

/-- The selection loop from slot `i` down to 1, with the best counter `c` so far and its slot. -/
def pick (s : Scheduler) : Nat → Int → Nat → Int × Nat
  | 0, c, next => (c, next)
  | i + 1, c, next =>
    match s.task (i + 1) with
    | none => pick s i c next
    | some p => if p.state = .running ∧ c < p.counter then pick s i p.counter (i + 1) else pick s i c next

def best (s : Scheduler) : Int × Nat := s.pick (nrTasks - 1) (-1) 0

def recharge (s : Scheduler) : Scheduler := s.editAll fun p => { p with counter := long (p.counter / 2 + p.priority) }

/-- The endless loop of `schedule`; `n` turns of it. -/
def choose : Nat → Scheduler → Option Scheduler
  | 0, _ => none
  | n + 1, s => if s.best.1 ≠ 0 then some { s with current := s.best.2 } else choose n s.recharge

/-- The end of the first loop. -/
def checked (s : Scheduler) : Scheduler := s.editAll fun p => p.check s.jiffies

def schedule (s : Scheduler) : Option Scheduler := choose 2 s.checked

/-- `do_timer` up to the test for the privilege level, and whether the time slice is over. -/
def tick (s : Scheduler) : Scheduler × Bool :=
  let s := { s with jiffies := long (s.jiffies + 1) }
  match s.task s.current with
  | none => (s, false)
  | some p =>
    if 0 < long (p.counter - 1) then (s.edit s.current fun p => { p with counter := long (p.counter - 1) }, false)
    else (s.edit s.current fun p => { p with counter := 0 }, true)

def doTimer (s : Scheduler) (cpl : Bool) : Option Scheduler :=
  if s.tick.2 && cpl then s.tick.1.schedule else some s.tick.1

def sysNice (s : Scheduler) (increment : Int) : Scheduler :=
  s.edit s.current fun p => if 0 < long (p.priority - increment) then { p with priority := long (p.priority - increment) } else p

/-- `copy_process` into slot `u`. -/
def fork (s : Scheduler) (p : SchedTask) (u : Nat) : Scheduler :=
  { s with task := Function.update s.task u (some { p with state := .running, counter := p.priority, signal := 0, alarm := 0 }) }

end Scheduler

/-- What happens to the scheduler; the running task may change its own state, and anybody may be woken or signalled. -/
inductive SliceEvent
  | fork (u : Nat)
  | nice (increment : BitVec 32)
  | timer (cpl : Bool)
  | schedule
  | setState (st : TaskState)
  | wake (t : Nat)
  | kill (t sig : Nat)
  | alarm (jiffies : Int)
  | release (t : Nat)
deriving DecidableEq

def sliceStep (s : Scheduler) : SliceEvent → Option Scheduler
  | .fork u => (s.task s.current).bind fun p => if 0 < u ∧ u < nrTasks ∧ s.task u = none then some (s.fork p u) else none
  | .nice increment => some (s.sysNice increment.toInt)
  | .timer cpl => s.doTimer cpl
  | .schedule => s.schedule
  | .setState st => some (s.edit s.current fun p => { p with state := st })
  | .wake t => some (s.edit t fun p => { p with state := .running })
  | .kill t sig => some (s.edit t fun p => { p with signal := p.signal ||| 2 ^ sig })
  | .alarm jiffies => some (s.edit s.current fun p => { p with alarm := jiffies })
  | .release t => if t = 0 then none else some { s with task := Function.update s.task t none }

def sliceInit : Scheduler where
  task := fun t => if t = 0 then some { counter := 15, priority := 15 } else none
  current := 0
  jiffies := 0

namespace Scheduler

/-- The state in which a step comes to the selection loop, if it does. -/
def selects (s : Scheduler) : SliceEvent → Option Scheduler
  | .schedule => some s.checked
  | .timer cpl => if s.tick.2 && cpl then some s.tick.1.checked else none
  | _ => none

/-- No new counter is too large for a `long`. -/
def Room (s : Scheduler) : Prop := ∀ t p, t ≠ 0 → s.task t = some p → p.counter / 2 + p.priority < 2 ^ 31

/-- If the step recharges the counters, it does not overflow one. -/
def Fits (s : Scheduler) (e : SliceEvent) : Prop := ∀ u, s.selects e = some u → u.best.1 = 0 → u.Room

structure Slices (p : SchedTask) : Prop where
  priority : 1 ≤ p.priority ∧ p.priority < 2 ^ 31
  counter : 0 ≤ p.counter ∧ p.counter < 2 ^ 31

def InRange (s : Scheduler) : Prop := ∀ t p, s.task t = some p → Slices p

def Positive (s : Scheduler) : Prop := ∀ t p, s.task t = some p → 1 ≤ p.priority ∧ 0 ≤ p.counter

variable {s s' : Scheduler} {e : SliceEvent} {t n next m : Nat} {c d : Int} {f : SchedTask → SchedTask} {p : SchedTask}

theorem long_eq {x : Int} (hlow : -2 ^ 31 ≤ x) (hhigh : x < 2 ^ 31) : long x = x := by
  unfold long
  omega

theorem InRange.edit (h : s.InRange) (hf : ∀ p, s.task t = some p → Slices p → Slices (f p)) : (s.edit t f).InRange := by
  intro u p hp
  unfold Scheduler.edit at hp
  dsimp only at hp
  by_cases hu : u = t
  · subst hu
    rw [Function.update_self] at hp
    obtain ⟨q, hq, rfl⟩ := Option.map_eq_some_iff.mp hp
    exact hf q hq (h u q hq)
  · rw [Function.update_of_ne hu] at hp
    exact h u p hp

theorem editAll_task (hp : (s.editAll f).task t = some p) : t = 0 ∧ s.task t = some p ∨ t ≠ 0 ∧ ∃ q, s.task t = some q ∧ p = f q := by
  unfold editAll at hp
  dsimp only at hp
  split at hp
  next ht => exact .inl ⟨ht, hp⟩
  next ht =>
    obtain ⟨q, hq, rfl⟩ := Option.map_eq_some_iff.mp hp
    exact .inr ⟨ht, q, hq, rfl⟩

theorem InRange.editAll (h : s.InRange) (hf : ∀ t p, t ≠ 0 → s.task t = some p → Slices (f p)) : (s.editAll f).InRange := by
  intro t p hp
  rcases editAll_task hp with ⟨_, hp⟩ | ⟨ht, q, hq, rfl⟩
  · exact h t p hp
  · exact hf t q ht hq

theorem check_slices {j : Int} (h : Slices p) : Slices (p.check j) := by
  obtain ⟨hcounter, hpriority⟩ := @SchedTask.check_slice p j
  constructor
  · rw [hpriority]
    exact h.priority
  · rw [hcounter]
    exact h.counter

theorem InRange.checked (h : s.InRange) : s.checked.InRange := h.editAll fun t p _ hp => check_slices (h t p hp)

/-- The selection loop finds the largest counter of a task that can run, if that is larger than what it starts with. -/
theorem pick_spec (h : s.pick n c next = (d, m)) :
    (∀ t p, 0 < t → t ≤ n → s.task t = some p → p.state = .running → p.counter ≤ d) ∧ c ≤ d ∧
      (d = c ∧ m = next ∨ c < d ∧ 0 < m ∧ ∃ p, s.task m = some p ∧ p.state = .running ∧ p.counter = d) := by
  induction n generalizing c next with
  | zero =>
    cases h
    exact ⟨fun t p ht hle => by omega, Int.le_refl _, .inl ⟨rfl, rfl⟩⟩
  | succ n ih =>
    unfold pick at h
    split at h
    next hnone =>
      obtain ⟨hbelow, hle, hm⟩ := ih h
      refine ⟨fun t p ht htn hp hrun => ?_, hle, hm⟩
      by_cases htn' : t = n + 1
      · rw [htn', hnone] at hp
        cases hp
      · exact hbelow t p ht (by omega) hp hrun
    next q hq =>
      split at h
      next hbetter =>
        obtain ⟨hbelow, hle, hm⟩ := ih h
        refine ⟨fun t p ht htn hp hrun => ?_, by omega, .inr ⟨by omega, ?_⟩⟩
        · by_cases htn' : t = n + 1
          · rw [htn', hq] at hp
            cases Option.some.inj hp
            exact hle
          · exact hbelow t p ht (by omega) hp hrun
        · rcases hm with ⟨hd, rfl⟩ | ⟨_, hpos, hm⟩
          · exact ⟨Nat.succ_pos n, q, hq, hbetter.1, hd.symm⟩
          · exact ⟨hpos, hm⟩
      next hworse =>
        obtain ⟨hbelow, hle, hm⟩ := ih h
        refine ⟨fun t p ht htn hp hrun => ?_, hle, hm⟩
        by_cases htn' : t = n + 1
        · rw [htn', hq] at hp
          cases Option.some.inj hp
          have : ¬ c < q.counter := fun hc => hworse ⟨hrun, hc⟩
          omega
        · exact hbelow t p ht (by omega) hp hrun

theorem InRange.best (h : s.InRange) :
    (s.best.1 ≠ 0 → s.best.2 = 0 → ∀ t p, 0 < t → t < nrTasks → s.task t = some p → p.state ≠ .running) ∧
      (s.best.1 = 0 → ∃ t p, 0 < t ∧ t < nrTasks ∧ s.task t = some p ∧ p.state = .running ∧ p.counter = 0) := by
  obtain ⟨hbelow, _, hm⟩ := pick_spec (show s.pick (nrTasks - 1) (-1) 0 = (s.best.1, s.best.2) from rfl)
  refine ⟨fun _ hidle t p ht htn hp hrun => ?_, fun hzero => ?_⟩
  · have hle := hbelow t p ht (by omega) hp hrun
    have hpos := (h t p hp).counter.1
    rcases hm with ⟨hd, _⟩ | ⟨_, hpos', _⟩ <;> omega
  · rcases hm with ⟨hd, _⟩ | ⟨_, hpos, p, hp, hrun, hc⟩
    · omega
    · refine ⟨s.best.2, p, hpos, ?_, hp, hrun, hc.trans hzero⟩
      by_contra hge
      -- The loop takes a slot that it has come to.
      have hlow : ∀ n c next, next < nrTasks → n < nrTasks → (s.pick n c next).2 < nrTasks := by
        intro n
        induction n with
        | zero => exact fun c next hnext _ => hnext
        | succ n ih =>
          intro c next hnext hn
          unfold pick
          split
          next => exact ih c next hnext (by omega)
          next =>
            split
            next => exact ih _ _ hn (by omega)
            next => exact ih c next hnext (by omega)
      exact hge (hlow _ _ _ (by decide) (by decide))

/-- With room for the new counters all tasks stay in range. -/
theorem InRange.recharge (h : s.InRange) (hroom : s.Room) : s.recharge.InRange := by
  refine h.editAll fun t p ht hp => ?_
  obtain ⟨hpriority, hcounter⟩ := h t p hp
  have hlt := hroom t p ht hp
  have hlong := @long_eq (p.counter / 2 + p.priority) (by omega) hlt
  refine ⟨hpriority, ?_⟩
  dsimp only
  rw [hlong]
  omega

/-- A counter that overflows comes out negative. -/
theorem InRange.recharge_room (h : s.InRange) (h' : s.recharge.Positive) : s.Room := by
  intro t p ht hp
  have hnew : s.recharge.task t = some { p with counter := long (p.counter / 2 + p.priority) } := by
    unfold Scheduler.recharge Scheduler.editAll
    dsimp only
    rw [if_neg ht, hp]
    rfl
  obtain ⟨hpriority, hcounter⟩ := h t p hp
  have hpos := (h' t _ hnew).2
  dsimp only at hpos
  unfold long at hpos
  omega

/-- After one recharge somebody can run. -/
theorem InRange.recharge_best (h : s.InRange) (hzero : s.best.1 = 0) : 0 < s.recharge.best.1 ∧ s.recharge.best.2 ≠ 0 := by
  obtain ⟨t, p, ht, htn, hp, hrun, hc⟩ := h.best.2 hzero
  have hnew : s.recharge.task t = some { p with counter := long (p.counter / 2 + p.priority) } := by
    unfold Scheduler.recharge Scheduler.editAll
    dsimp only
    rw [if_neg (by omega), hp]
    rfl
  obtain ⟨hbelow, _, hm⟩ := pick_spec (show s.recharge.pick (nrTasks - 1) (-1) 0 = (s.recharge.best.1, s.recharge.best.2) from rfl)
  have hle := hbelow t _ ht (by omega) hnew hrun
  obtain ⟨hpriority, _⟩ := h t p hp
  dsimp only at hle
  rw [hc, long_eq (by omega) (by omega)] at hle
  rcases hm with ⟨hd, _⟩ | ⟨_, hpos, _⟩ <;> omega

/-- `schedule` ends, keeps the tasks in range if and only if the new counters fit, and takes the idle task if nobody else can run. -/
theorem InRange.choose (h : s.InRange) : ∃ s', Scheduler.choose 2 s = some s' ∧ ((s.best.1 = 0 → s.Room) → s'.InRange) ∧
    (s'.Positive → s.best.1 = 0 → s.Room) ∧
    (s'.current = 0 → ∀ t p, 0 < t → t < nrTasks → s'.task t = some p → p.state ≠ .running) := by
  unfold Scheduler.choose
  by_cases hzero : s.best.1 = 0
  · obtain ⟨hpos, hnext⟩ := h.recharge_best hzero
    rw [if_neg fun hne => hne hzero]
    unfold Scheduler.choose
    rw [if_pos (by omega)]
    exact ⟨_, rfl, fun hroom => h.recharge (hroom hzero), fun h' _ => h.recharge_room h', fun hidle => absurd hidle hnext⟩
  · rw [if_pos hzero]
    exact ⟨_, rfl, fun _ => h, fun _ hc => absurd hc hzero, h.best.1 hzero⟩

theorem InRange.tick (h : s.InRange) : s.tick.1.InRange := by
  have hj : InRange { s with jiffies := long (s.jiffies + 1) } := h
  unfold Scheduler.tick
  dsimp only
  split
  next => exact hj
  next q hq =>
    split
    next hleft =>
      refine hj.edit fun p hp hslices => ⟨hslices.priority, ?_⟩
      cases Option.some.inj (hq.symm.trans hp)
      obtain ⟨hlow, hhigh⟩ := hslices.counter
      dsimp only
      rw [long_eq (by omega) (by omega)] at hleft ⊢
      omega
    next => exact hj.edit fun p _ hp => ⟨hp.priority, Int.le_refl 0, by dsimp only; omega⟩

theorem InRange.sysNice (h : s.InRange) {increment : Int} : (s.sysNice increment).InRange := by
  refine h.edit fun p _ hp => ?_
  split
  next hpos =>
    refine ⟨⟨by dsimp only; omega, ?_⟩, hp.counter⟩
    dsimp only
    unfold long
    omega
  next => exact hp

theorem InRange.fork (h : s.InRange) {u : Nat} (hp : Slices p) : (s.fork p u).InRange := by
  intro t q hq
  unfold Scheduler.fork at hq
  dsimp only at hq
  by_cases ht : t = u
  · rw [ht, Function.update_self] at hq
    cases Option.some.inj hq
    exact ⟨hp.priority, by have := hp.priority; dsimp only; omega⟩
  · rw [Function.update_of_ne ht] at hq
    exact h t q hq

/-- What a step does to the tasks; if it selects one, that is the idle task only if nobody else can run. -/
structure Stepped (s : Scheduler) (e : SliceEvent) (s' : Scheduler) : Prop where
  keep : s.Fits e → s'.InRange
  fits : s'.Positive → s.Fits e
  idle : (s.selects e).isSome → s'.current = 0 → ∀ t p, 0 < t → t < nrTasks → s'.task t = some p → p.state ≠ .running

theorem InRange.step (h : s.InRange) (hs : sliceStep s e = some s') : s.Stepped e s' := by
  have hplain : s.selects e = none → s'.InRange → s.Stepped e s' := by
    intro hnone h'
    refine ⟨fun _ => h', fun _ u hu => ?_, fun hsome => ?_⟩
    · rw [hnone] at hu
      cases hu
    · rw [hnone] at hsome
      cases hsome
  have hselect : ∀ u : Scheduler, u.InRange → s.selects e = some u → Scheduler.choose 2 u = some s' → s.Stepped e s' := by
    intro u hu hsel hchoose
    obtain ⟨v, hv, hkeep, hback, hidle⟩ := hu.choose
    cases Option.some.inj (hchoose.symm.trans hv)
    refine ⟨fun hfits => hkeep (hfits u hsel), fun hpos w hw => ?_, fun _ => hidle⟩
    cases Option.some.inj (hsel.symm.trans hw)
    exact hback hpos
  cases e with
  | fork u =>
    obtain ⟨p, hp, hs⟩ := Option.bind_eq_some_iff.mp hs
    split at hs
    next =>
      cases Option.some.inj hs
      exact hplain rfl (h.fork (h _ p hp))
    next => cases hs
  | nice increment =>
    cases Option.some.inj hs
    exact hplain rfl h.sysNice
  | timer cpl =>
    change (if s.tick.2 && cpl then s.tick.1.schedule else some s.tick.1) = some s' at hs
    by_cases hover : (s.tick.2 && cpl) = true
    · rw [if_pos hover] at hs
      exact hselect s.tick.1.checked h.tick.checked (if_pos hover) hs
    · rw [if_neg hover] at hs
      cases Option.some.inj hs
      exact hplain (if_neg hover) h.tick
  | schedule => exact hselect s.checked h.checked rfl hs
  | setState st =>
    cases Option.some.inj hs
    exact hplain rfl (h.edit fun p _ hp => ⟨hp.priority, hp.counter⟩)
  | wake t =>
    cases Option.some.inj hs
    exact hplain rfl (h.edit fun p _ hp => ⟨hp.priority, hp.counter⟩)
  | kill t sig =>
    cases Option.some.inj hs
    exact hplain rfl (h.edit fun p _ hp => ⟨hp.priority, hp.counter⟩)
  | alarm jiffies =>
    cases Option.some.inj hs
    exact hplain rfl (h.edit fun p _ hp => ⟨hp.priority, hp.counter⟩)
  | release t =>
    change (if t = 0 then none else some { s with task := Function.update s.task t none }) = some s' at hs
    split at hs
    next => cases hs
    next =>
      cases Option.some.inj hs
      refine hplain rfl fun u p hp => ?_
      dsimp only at hp
      by_cases hu : u = t
      · rw [hu, Function.update_self] at hp
        cases hp
      · rw [Function.update_of_ne hu] at hp
        exact h u p hp

theorem InRange.positive (h : s.InRange) : s.Positive := fun t p hp => ⟨(h t p hp).priority.1, (h t p hp).counter.1⟩

/-- As long as nobody has a priority above 2^30, the new counters fit. -/
theorem InRange.room (h : s.InRange) (hp : ∀ t p, s.task t = some p → p.priority ≤ 2 ^ 30) : s.Room := by
  intro t p _ ht
  have hpriority := hp t p ht
  obtain ⟨_, _, hcounter⟩ := h t p ht
  omega

/-- `schedule` comes to an end. -/
theorem InRange.schedule_isSome (h : s.InRange) : ∃ s', s.schedule = some s' := by
  obtain ⟨s', hs', _⟩ := h.checked.choose
  exact ⟨s', hs'⟩

end Scheduler

theorem sliceInit_inRange : sliceInit.InRange := by
  intro t p hp
  unfold sliceInit at hp
  dsimp only at hp
  split at hp
  next =>
    cases Option.some.inj hp
    exact ⟨by decide, by decide⟩
  next => cases hp

/-- In a run whose recharges all fit, every task has a priority of at least 1 and a counter that is not negative, and each next step
keeps that if and only if it fits as well; `schedule` ends, and a step that selects a task takes the idle one only if nobody else can run. -/
theorem slices_in_range {s : Scheduler} (h : Machine.Reach sliceStep Scheduler.Fits sliceInit s) :
    s.Positive ∧ (∃ s', s.schedule = some s') ∧ ∀ e s', sliceStep s e = some s' → (s'.Positive ↔ s.Fits e) ∧
      ((s.selects e).isSome → s'.current = 0 → ∀ t p, 0 < t → t < nrTasks → s'.task t = some p → p.state ≠ .running) := by
  have hI : s.InRange := h.invariant sliceInit_inRange fun _ _ _ hI hfits hs => (hI.step hs).keep hfits
  refine ⟨hI.positive, hI.schedule_isSome, fun e s' hs => ⟨⟨(hI.step hs).fits, fun hfits => ?_⟩, (hI.step hs).idle⟩⟩
  exact ((hI.step hs).keep hfits).positive

/-- Process 1 gets its first time slice. -/
theorem slices_in_range_forked : ∃ s, Machine.exec sliceStep sliceInit [.fork 1, .schedule] = some s ∧ s.current = 1 ∧ s.Positive := by
  have hone : ∃ s, sliceStep sliceInit (.fork 1) = some s ∧ s.checked.best = (15, 1) :=
    ⟨_, rfl, by decide⟩
  obtain ⟨s, hs, hbest⟩ := hone
  have hsched : sliceStep s .schedule = some { s.checked with current := 1 } := by
    change Scheduler.choose 2 s.checked = _
    unfold Scheduler.choose
    rw [hbest, if_pos (by decide)]
  have hreach : Machine.Reach sliceStep Scheduler.Fits sliceInit { s.checked with current := 1 } := by
    have hfork : sliceInit.Fits (.fork 1) := fun u hu => absurd hu nofun
    refine .next (.next .start hfork hs) (fun u hu hzero => ?_) hsched
    cases Option.some.inj hu
    rw [hbest] at hzero
    cases hzero
  refine ⟨_, ?_, rfl, (slices_in_range hreach).1⟩
  unfold Machine.exec
  rw [hs, Option.bind_some]
  unfold Machine.exec
  rw [hsched]
  rfl

/-- Process 2 raises its priority to the largest `long` and goes to sleep. The next recharge makes its counter negative, and once it is
awake the idle task runs instead of it. -/
theorem slices_in_range_fails : ∃ s, Machine.exec sliceStep sliceInit ([.fork 1, .fork 2, .schedule, .nice 0x80000010, .setState .interruptible,
      .schedule] ++ List.replicate 15 (.timer true) ++ [.wake 2, .setState .interruptible, .schedule]) = some s ∧
    s.current = 0 ∧ ∃ p, s.task 2 = some p ∧ p.state = .running ∧ p.counter < 0 := by
  obtain ⟨s, hs, hp⟩ := Option.map_eq_some_iff.mp (show (Machine.exec sliceStep sliceInit ([.fork 1, .fork 2, .schedule, .nice 0x80000010,
      .setState .interruptible, .schedule] ++ List.replicate 15 (.timer true) ++ [.wake 2, .setState .interruptible, .schedule])).map
      (fun s => (s.current, s.task 2)) = some (0, some ⟨.running, -2147483642, 2147483647, 0, 0⟩) by decide +kernel)
  obtain ⟨hcurrent, htask⟩ := Prod.mk.inj hp
  exact ⟨s, hs, hcurrent, _, htask, rfl, by decide⟩

end RheeKernel
