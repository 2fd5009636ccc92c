import RheeKernel.Scheduler

namespace RheeKernel

namespace Scheduler

variable {s s' : Scheduler} {t n next m : Nat} {c d : Int} {p q : SchedTask}

/-- The counters and priorities of the tasks besides the idle task, as `schedule` may find them. -/
def Ready (s : Scheduler) : Prop :=
  ∀ t p, 0 < t → t < nrTasks → s.task t = some p → 0 ≤ p.counter ∧ 1 ≤ p.priority ∧ p.counter / 2 + p.priority < 2 ^ 31

/-- Slot `t` holds a task that can run, and that is not the idle task. -/
def Runs (s : Scheduler) (t : Nat) (p : SchedTask) : Prop := 0 < t ∧ t < nrTasks ∧ s.task t = some p ∧ p.state = .running

/-- The slot that the switch goes to: among the tasks that can run, none has a larger counter, and none in a higher slot has the same. -/
structure Selects (s : Scheduler) (m : Nat) (p : SchedTask) : Prop where
  runs : s.Runs m p
  positive : 0 < p.counter
  largest : ∀ t q, s.Runs t q → q.counter ≤ p.counter
  highest : ∀ t q, s.Runs t q → q.counter = p.counter → t ≤ m

/-- All tasks that can run have used up their counters. -/
def UsedUp (s : Scheduler) : Prop := (∃ t p, s.Runs t p) ∧ ∀ t p, s.Runs t p → p.counter = 0

/-- Every task but the idle task has half of its old counter and its priority as the new counter. -/
def Recharged (s s' : Scheduler) : Prop :=
  s'.task 0 = s.task 0 ∧
    ∀ t, 0 < t → t < nrTasks → s'.task t = (s.task t).map fun p => { p with counter := p.counter / 2 + p.priority }

/-- What the second half of `schedule` does to a table `s`. -/
structure Scheduled (s s' : Scheduler) : Prop where
  table : s'.task = s.task ∨ s.UsedUp ∧ s.Recharged s'
  busy : (∃ t p, s.Runs t p) → ∃ p, s'.Selects s'.current p
  idle : (∀ t p, ¬ s.Runs t p) → s'.current = 0 ∧ s'.task = s.task
  jiffies : s'.jiffies = s.jiffies

theorem Selects.congr (h : s.Selects m p) (ht : s'.task = s.task) : s'.Selects m p := by
  have hruns : ∀ t q, s'.Runs t q ↔ s.Runs t q := by
    intro t q
    unfold Runs
    rw [ht]
  exact ⟨(hruns m p).mpr h.runs, h.positive, fun t q hq => h.largest t q ((hruns t q).mp hq),
    fun t q hq => h.highest t q ((hruns t q).mp hq)⟩

/-- The loop takes the highest slot with the largest counter. -/
theorem pick_highest (h : s.pick n c next = (d, m)) (hc : c < d) :
    m ≤ n ∧ ∀ t p, m < t → t ≤ n → s.task t = some p → p.state = .running → p.counter < d := by
  induction n generalizing c next with
  | zero =>
    cases h
    omega
  | succ n ih =>
    unfold pick at h
    split at h
    next hnone =>
      obtain ⟨hm, habove⟩ := ih h hc
      refine ⟨by omega, fun t p ht htn hp hrun => ?_⟩
      by_cases htn' : t = n + 1
      · rw [htn', hnone] at hp
        cases hp
      · exact habove t p ht (by omega) hp hrun
    next q hq =>
      split at h
      next hbetter =>
        rcases Int.lt_or_le q.counter d with hlt | hge
        · obtain ⟨hm, habove⟩ := ih h hlt
          refine ⟨by omega, fun t p ht htn hp hrun => ?_⟩
          by_cases htn' : t = n + 1
          · rw [htn', hq] at hp
            cases Option.some.inj hp
            exact hlt
          · exact habove t p ht (by omega) hp hrun
        · -- The counter is not exceeded further down.
          obtain ⟨_, _, hsame | ⟨hlt, _⟩⟩ := pick_spec h
          · exact ⟨by omega, fun t p ht htn => by omega⟩
          · omega
      next hworse =>
        obtain ⟨hm, habove⟩ := ih h hc
        refine ⟨by omega, fun t p ht htn hp hrun => ?_⟩
        by_cases htn' : t = n + 1
        · rw [htn', hq] at hp
          cases Option.some.inj hp
          have hle : ¬ c < q.counter := fun hlt => hworse ⟨hrun, hlt⟩
          omega
        · exact habove t p ht (by omega) hp hrun

/-- The three ends of the selection loop: nobody can run, all counters are used up, or a task is found. -/
theorem best_cases (hpos : ∀ t p, s.Runs t p → 0 ≤ p.counter) :
    (s.best = (-1, 0) ∧ ∀ t p, ¬ s.Runs t p) ∨ (s.best.1 = 0 ∧ s.UsedUp) ∨ (0 < s.best.1 ∧ ∃ p, s.Selects s.best.2 p) := by
  have hslots : nrTasks = 64 := rfl
  have hpick : s.pick (nrTasks - 1) (-1) 0 = (s.best.1, s.best.2) := rfl
  obtain ⟨hbelow, _, hfound⟩ := pick_spec hpick
  have hle : ∀ t p, s.Runs t p → p.counter ≤ s.best.1 := fun t p ⟨ht, htn, hp, hrun⟩ => hbelow t p ht (by omega) hp hrun
  rcases hfound with ⟨hd, hm⟩ | ⟨hlt, hm, p, hp, hrun, hd⟩
  · refine .inl ⟨Prod.ext hd hm, fun t p hruns => ?_⟩
    have hlow := hle t p hruns
    have hhigh := hpos t p hruns
    omega
  · obtain ⟨hmn, habove⟩ := pick_highest hpick hlt
    have hruns : s.Runs s.best.2 p := ⟨hm, by omega, hp, hrun⟩
    by_cases hzero : s.best.1 = 0
    · refine .inr (.inl ⟨hzero, ⟨_, p, hruns⟩, fun t q hq => ?_⟩)
      have hlow := hle t q hq
      have hhigh := hpos t q hq
      omega
    · refine .inr (.inr ⟨by omega, p, hruns, by omega, fun t q hq => by rw [hd]; exact hle t q hq, fun t q hq heq => ?_⟩)
      by_contra hgt
      have hless := habove t q (by omega) (by have := hq.2.1; omega) hq.2.2.1 hq.2.2.2
      omega

theorem Ready.recharged (h : s.Ready) : s.Recharged s.recharge := by
  refine ⟨rfl, fun t ht htn => ?_⟩
  unfold recharge editAll
  dsimp only
  rw [if_neg (by omega)]
  cases hp : s.task t with
  | none => rfl
  | some p =>
    obtain ⟨hcounter, hpriority, hroom⟩ := h t p ht htn hp
    rw [Option.map_some, Option.map_some, long_eq (by omega) hroom]

theorem Ready.nonneg (h : s.Ready) (hp : s.Runs t p) : 0 ≤ p.counter := (h t p hp.1 hp.2.1 hp.2.2.1).1

/-- The tasks that can run after a recharge are those that could before it. -/
theorem Recharged.runs (h : s.Recharged s') (hp : s'.Runs t p) :
    ∃ q, s.Runs t q ∧ p = { q with counter := q.counter / 2 + q.priority } := by
  obtain ⟨ht, htn, hp, hrun⟩ := hp
  rw [h.2 t ht htn] at hp
  obtain ⟨q, hq, rfl⟩ := Option.map_eq_some_iff.mp hp
  exact ⟨q, ⟨ht, htn, hq, hrun⟩, rfl⟩

theorem Recharged.runs_of (h : s.Recharged s') (hq : s.Runs t q) : s'.Runs t { q with counter := q.counter / 2 + q.priority } := by
  obtain ⟨ht, htn, hq, hrun⟩ := hq
  refine ⟨ht, htn, ?_, hrun⟩
  rw [h.2 t ht htn, hq]
  rfl

/-- After one recharge the loop finds a task. -/
theorem Ready.recharge_best (h : s.Ready) (hused : s.UsedUp) : 0 < s.recharge.best.1 ∧ ∃ p, s.recharge.Selects s.recharge.best.2 p := by
  obtain ⟨⟨t, p, hp⟩, hzero⟩ := hused
  have hpos : ∀ t p, s.recharge.Runs t p → 0 < p.counter := by
    intro t p hp
    obtain ⟨q, hq, rfl⟩ := h.recharged.runs hp
    obtain ⟨_, hpriority, _⟩ := h t q hq.1 hq.2.1 hq.2.2.1
    dsimp only
    rw [hzero t q hq]
    omega
  have hruns := h.recharged.runs_of hp
  rcases best_cases fun t p hp => Int.le_of_lt (hpos t p hp) with ⟨_, hnone⟩ | ⟨_, _, hall⟩ | hfound
  · exact absurd hruns (hnone t _)
  · have hp0 := hall t _ hruns
    have hp1 := hpos t _ hruns
    omega
  · exact hfound

theorem Ready.checked (h : s.Ready) : s.checked.Ready := by
  intro t p ht htn hp
  rcases editAll_task hp with ⟨hzero, _⟩ | ⟨_, q, hq, rfl⟩
  · omega
  · obtain ⟨hcounter, hpriority⟩ := @SchedTask.check_slice q s.jiffies
    rw [hcounter, hpriority]
    exact h t q ht htn hq

/-- The loop ends in its first or second turn, however many it may take. -/
theorem Ready.scheduled (h : s.Ready) : ∃ s', s.Scheduled s' ∧ ∀ n, 2 ≤ n → choose n s = some s' := by
  rcases best_cases fun t p hp => h.nonneg hp with ⟨hbest, hnone⟩ | ⟨hzero, hused⟩ | ⟨hpos, hfound⟩
  · refine ⟨{ s with current := s.best.2 }, ⟨.inl rfl, fun ⟨t, p, hp⟩ => absurd hp (hnone t p), fun _ => ?_, rfl⟩, fun n hn => ?_⟩
    · rw [hbest]
      exact ⟨rfl, rfl⟩
    · obtain ⟨n, rfl⟩ : ∃ m, n = m + 1 := ⟨n - 1, by omega⟩
      unfold choose
      rw [if_pos (by rw [hbest]; decide)]
  · obtain ⟨hpos, hfound⟩ := h.recharge_best hused
    have hnot : ¬ ∀ t p, ¬ s.Runs t p := by
      obtain ⟨⟨t, p, hp⟩, _⟩ := hused
      exact fun hnone => hnone t p hp
    refine ⟨{ s.recharge with current := s.recharge.best.2 },
      ⟨.inr ⟨hused, h.recharged⟩, fun _ => hfound.imp fun p hp => hp.congr rfl, fun hnone => absurd hnone hnot, rfl⟩, fun n hn => ?_⟩
    obtain ⟨n, rfl⟩ : ∃ m, n = m + 1 + 1 := ⟨n - 2, by omega⟩
    unfold choose
    rw [if_neg fun hne => hne hzero]
    unfold choose
    rw [if_pos (by omega)]
  · refine ⟨{ s with current := s.best.2 }, ⟨.inl rfl, fun _ => hfound.imp fun p hp => hp.congr rfl, fun hnone => ?_, rfl⟩, fun n hn => ?_⟩
    · obtain ⟨p, hp⟩ := hfound
      exact absurd hp.runs (hnone _ p)
    · obtain ⟨n, rfl⟩ : ∃ m, n = m + 1 := ⟨n - 1, by omega⟩
      unfold choose
      rw [if_pos (by omega)]

/-- `schedule` comes to an end with at most one recharge. It switches to the task with the most time left, in the highest slot if there are
several, and to the idle task if none can run. -/
theorem schedule_selects (h : s.Ready) :
    ∃ s', s.schedule = some s' ∧ s.checked.Scheduled s' ∧ ∀ n, 2 ≤ n → choose n s.checked = some s' := by
  obtain ⟨s', hs, hall⟩ := h.checked.scheduled
  exact ⟨s', hall 2 (Nat.le_refl 2), hs, hall⟩

end Scheduler

/-- Two tasks of equal priority that have used up their time, in slots 1 and 2. -/
def sampleTable : Scheduler where
  task := fun t => if t = 0 then some { counter := 0, priority := 15 } else if t = 1 ∨ t = 2 then some { counter := 0, priority := 15 } else none
  current := 0
  jiffies := 0

theorem sampleTable_ready : sampleTable.Ready := by
  intro t p ht htn hp
  unfold sampleTable at hp
  dsimp only at hp
  rw [if_neg (by omega)] at hp
  split at hp
  next =>
    cases Option.some.inj hp
    decide
  next => cases hp

theorem schedule_selects_sample : ∃ s', sampleTable.schedule = some s' ∧ s'.current = 2 ∧ sampleTable.checked.Scheduled s' := by
  obtain ⟨s', hs, hscheduled, _⟩ := Scheduler.schedule_selects sampleTable_ready
  have hcurrent : sampleTable.schedule.map Scheduler.current = some 2 := by decide
  rw [hs] at hcurrent
  exact ⟨s', hs, Option.some.inj hcurrent, hscheduled⟩

end RheeKernel
