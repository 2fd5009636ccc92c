import RheeKernel.WaitQueue

namespace RheeKernel

namespace Sched

/-- Zombies and released structures. -/
def Dead (s : Sched) (t : Nat) : Prop := s.state t = .zombie ∨ s.state t = .released

/-- The dead are named nowhere and wait for nothing. -/
structure DeadUnnamed (s : Sched) : Prop where
  unnamed : ∀ t, s.Dead t → s.Unnamed t
  idle : ∀ t, s.Dead t → s.call t = none

/-- Nothing that is dead becomes anything but released. -/
def StaysDead (s s' : Sched) : Prop :=
  ∀ t, (s.state t = .zombie → s'.state t = .zombie ∨ s'.state t = .released) ∧
    (s.state t = .released → s'.state t = .released)

variable {s s' : Sched} {q t u : Nat}

theorem Dead.ne_of_running (h : s.Dead t) (hu : s.state u = .running) : t ≠ u := by
  intro heq
  rcases h with h | h <;> rw [heq, hu] at h <;> simp at h

theorem StaysDead.refl : s.StaysDead s := fun _ => ⟨.inl, id⟩

theorem StaysDead.of_eq (h : ∀ t, s.Dead t → s'.state t = s.state t) : s.StaysDead s' :=
  fun t => ⟨fun hz => .inl ((h t (.inl hz)).trans hz), fun hr => (h t (.inr hr)).trans hr⟩

/-- A state written to a task that is alive. -/
theorem StaysDead.setState {st : TaskState} (ht : ¬ s.Dead t) : s.StaysDead (s.setState t st) :=
  .of_eq fun x hx => Function.update_of_ne (fun heq : x = t => ht (heq ▸ hx)) _ _

theorem DeadUnnamed.head_alive (h : s.DeadUnnamed) (hq : s.queue q = some t) : ¬ s.Dead t :=
  fun hd => (h.unnamed t hd).1 q hq

theorem DeadUnnamed.tmp_alive (h : s.DeadUnnamed) {c : SleepCall} (hc : s.call u = some c) (ht : c.tmp = some t) :
    ¬ s.Dead t :=
  fun hd => (h.unnamed t hd).2 u c hc ht

/-- Fewer names and no new dead. -/
theorem DeadUnnamed.mono (h : s.DeadUnnamed) (hdead : ∀ t, s'.Dead t → s.Dead t)
    (hqueue : ∀ q, s'.queue q = s.queue q ∨ s'.queue q = none) (hcall : ∀ t, s'.call t = s.call t ∨ s'.call t = none) :
    s'.DeadUnnamed := by
  refine ⟨fun t ht => ⟨fun q hq => ?_, fun u c hc => ?_⟩, fun t ht => ?_⟩
  · rcases hqueue q with heq | heq
    · exact (h.unnamed t (hdead t ht)).1 q (heq ▸ hq)
    · rw [heq] at hq
      simp at hq
  · rcases hcall u with heq | heq
    · exact (h.unnamed t (hdead t ht)).2 u c (heq ▸ hc)
    · rw [heq] at hc
      simp at hc
  · rcases hcall t with heq | heq
    · exact heq.trans (h.idle t (hdead t ht))
    · exact heq

theorem dead_setState_running (h : (s.setState t .running).Dead u) : s.Dead u := by
  by_cases hut : u = t
  · subst hut
    simp [Dead, Sched.setState] at h
  · simpa [Dead, Sched.setState, Function.update_of_ne hut] using h

theorem dead_wake {o : Option Nat} (h : (s.wake o).Dead t) : s.Dead t := by
  cases o with
  | none => exact h
  | some u => exact dead_setState_running h

theorem DeadUnnamed.wakeUp (h : s.DeadUnnamed) : (s.wakeUp q).DeadUnnamed ∧ s.StaysDead (s.wakeUp q) := by
  unfold Sched.wakeUp
  split
  next => exact ⟨h, .refl⟩
  next x hx =>
    have hstays : s.StaysDead (s.setState x .running) := .setState (h.head_alive hx)
    refine ⟨h.mono (fun t ht => dead_setState_running ht) (fun p => ?_) fun _ => .inl rfl, hstays⟩
    by_cases hp : p = q
    · exact .inr (hp ▸ Function.update_self ..)
    · exact .inl (Function.update_of_ne hp _ _)

/-- The tail of both sleep calls: the call ends and what it saved is woken. -/
theorem DeadUnnamed.leave (h : s.DeadUnnamed) {c : SleepCall} (hc : s.call t = some c) :
    ((s.setCall t none).wake c.tmp).DeadUnnamed ∧ s.StaysDead ((s.setCall t none).wake c.tmp) := by
  constructor
  · refine h.mono (fun u hu => @dead_wake (s.setCall t none) u _ hu) (fun q => .inl (congrFun wake_queue q)) fun u => ?_
    by_cases hut : u = t
    · exact .inr ((congrFun wake_call u).trans (hut ▸ Function.update_self ..))
    · exact .inl ((congrFun wake_call u).trans (Function.update_of_ne hut _ _))
  · cases hsaved : c.tmp with
    | none => exact .refl
    | some u => exact @StaysDead.setState s u _ (h.tmp_alive hc hsaved)

theorem DeadUnnamed.clear (h : s.DeadUnnamed) : (s.setQueue q none).DeadUnnamed := by
  refine h.mono (fun _ => id) (fun p => ?_) fun _ => .inl rfl
  by_cases hp : p = q
  · exact .inr (hp ▸ Function.update_self ..)
  · exact .inl (Function.update_of_ne hp _ _)

theorem DeadUnnamed.leaveInterruptible (h : s.DeadUnnamed) {c : SleepCall} (hc : s.call t = some c)
    (ht : s.state t = .running) :
    (s.leaveInterruptible t c).DeadUnnamed ∧ s.StaysDead (s.leaveInterruptible t c) := by
  unfold Sched.leaveInterruptible
  split
  next x hx =>
    split
    next hne =>
      have halive : ¬ (s.setState x .running).Dead t := by
        intro hd
        exact (dead_setState_running hd).ne_of_running ht rfl
      have hdead : ∀ u, ((s.setState x .running).setState t .interruptible).Dead u → s.Dead u := by
        intro u hu
        by_cases hut : u = t
        · subst hut
          simp [Dead, Sched.setState] at hu
        · refine dead_setState_running (t := x) ?_
          simpa [Dead, Sched.setState, Function.update_of_ne hut] using hu
      refine ⟨h.mono hdead (fun _ => .inl rfl) fun _ => .inl rfl, .of_eq fun u hu => ?_⟩
      have hut : u ≠ t := hu.ne_of_running ht
      have hux : u ≠ x := fun heq => h.head_alive hx (heq ▸ hu)
      exact (Function.update_of_ne hut _ _).trans (Function.update_of_ne hux _ _)
    next => exact @DeadUnnamed.leave (s.setQueue c.queue none) t h.clear c hc
  next => exact @DeadUnnamed.leave (s.setQueue c.queue none) t h.clear c hc

theorem DeadUnnamed.sleep (h : s.DeadUnnamed) (ht : s.Active t) {i : Bool} :
    (s.sleep t q i).DeadUnnamed ∧ s.StaysDead (s.sleep t q i) := by
  have hdead : ∀ u, (s.sleep t q i).Dead u → s.Dead u ∧ u ≠ t := by
    intro u hu
    have hut : u ≠ t := by
      intro heq
      subst heq
      cases i <;> simp [Dead, Sched.sleep, Sched.setState] at hu
    exact ⟨by simpa [Dead, Sched.sleep, Sched.setState, Function.update_of_ne hut] using hu, hut⟩
  refine ⟨⟨fun u hu => ⟨fun p hp => ?_, fun v c hc => ?_⟩, fun u hu => ?_⟩, .of_eq fun u hu => ?_⟩
  · by_cases hpq : p = q
    · subst hpq
      have htu : t = u := Option.some.inj (sleep_queue.symm.trans hp)
      exact (hdead u hu).2 htu.symm
    · exact (h.unnamed u (hdead u hu).1).1 p ((Function.update_of_ne hpq _ _).symm.trans hp)
  · by_cases hvt : v = t
    · -- What the new sleeper saves is the old head.
      subst hvt
      cases Option.some.inj (sleep_call.symm.trans hc)
      exact (h.unnamed u (hdead u hu).1).1 q
    · exact (h.unnamed u (hdead u hu).1).2 v c ((Function.update_of_ne hvt _ _).symm.trans hc)
  · exact (Function.update_of_ne (hdead u hu).2 _ _).trans (h.idle u (hdead u hu).1)
  · exact Function.update_of_ne (hu.ne_of_running ht.1) _ _

/-- A task dies, or a zombie is released; nothing else changes. -/
theorem DeadUnnamed.die (h : s.DeadUnnamed) {st : TaskState} (ht : s.Unnamed t) (hcall : s.call t = none) :
    (s.setState t st).DeadUnnamed := by
  have hdead : ∀ u, (s.setState t st).Dead u → u = t ∨ s.Dead u := by
    intro u hu
    by_cases hut : u = t
    · exact .inl hut
    · exact .inr (by simpa [Dead, Sched.setState, Function.update_of_ne hut] using hu)
  refine ⟨fun u hu => ?_, fun u hu => ?_⟩
  · rcases hdead u hu with rfl | hu
    · exact ht
    · exact h.unnamed u hu
  · rcases hdead u hu with rfl | hu
    · exact hcall
    · exact h.idle u hu

end Sched

theorem schedStep_dead {s s' : Sched} {e : SchedEvent} (h : s.DeadUnnamed) (hok : s.ExitsUnnamed e)
    (hs : schedStep s e = some s') : s'.DeadUnnamed ∧ s.StaysDead s' := by
  cases schedStep_move hs with
  | sleep _ ht => exact h.sleep ht
  | leaveSleepOn hc _ => exact h.leave hc
  | leaveInterruptible hc ht _ => exact h.leaveInterruptible hc ht
  | wakeUp => exact h.wakeUp
  | @signal t ht =>
    have halive : ¬ s.Dead t := by
      intro hd
      rcases hd with hd | hd <;> rw [ht] at hd <;> simp at hd
    exact ⟨h.mono (fun _ => Sched.dead_setState_running) (fun _ => .inl rfl) fun _ => .inl rfl, .setState halive⟩
  | @pause t ht =>
    have hdead : ∀ u, (s.setState t .interruptible).Dead u → s.Dead u := by
      intro u hu
      by_cases hut : u = t
      · subst hut
        simp [Sched.Dead, Sched.setState] at hu
      · simpa [Sched.Dead, Sched.setState, Function.update_of_ne hut] using hu
    exact ⟨h.mono hdead (fun _ => .inl rfl) fun _ => .inl rfl, .setState fun hd => hd.ne_of_running ht.1 rfl⟩
  | exit ht => exact ⟨h.die (hok _ _ rfl) ht.2, .setState fun hd => hd.ne_of_running ht.1 rfl⟩
  | @reap t u hu =>
    refine ⟨h.die (h.unnamed u (.inl hu)) (h.idle u (.inl hu)), fun x => ?_⟩
    by_cases hxu : x = u
    · subst hxu
      exact ⟨fun _ => .inr (Function.update_self ..), fun _ => Function.update_self ..⟩
    · have hx : (s.setState u .released).state x = s.state x := Function.update_of_ne hxu _ _
      exact ⟨fun hz => .inl (hx.trans hz), fun hr => hx.trans hr⟩

theorem schedInit_deadUnnamed : schedInit.DeadUnnamed :=
  ⟨fun _ h => by simp [Sched.Dead, schedInit] at h, fun _ _ => rfl⟩

/-- As long as every task that exits is named by no wait queue, a zombie stays a zombie until it is
released, and no step writes the state of a released structure. -/
theorem dead_stay_dead {s s' : Sched} {e : SchedEvent} (h : Machine.Reach schedStep Sched.ExitsUnnamed schedInit s)
    (hok : s.ExitsUnnamed e) (hs : schedStep s e = some s') {t : Nat} :
    (s.state t = .zombie → s'.state t = .zombie ∨ s'.state t = .released) ∧
      (s.state t = .released → s'.state t = .released) := by
  have hinv : s.DeadUnnamed :=
    h.invariant schedInit_deadUnnamed fun _ _ _ hi hok hs => (schedStep_dead hi hok hs).1
  exact (schedStep_dead hinv hok hs).2 t

/-- Tasks 1 and 2 sleep, 2 having saved 1; a `wake_up` reaches 2, a signal reaches 1, which exits. -/
def signalledSleeper : List SchedEvent :=
  [.interruptibleSleepOn 1 0, .interruptibleSleepOn 2 0, .wakeUp 0, .signal 1, .resume 1, .exit 1 3]

/-- When task 2 runs, it makes the zombie runnable; had the father reaped it, the write would hit a
released structure. -/
theorem zombie_made_runnable :
    (∃ s s', Machine.exec schedStep schedInit signalledSleeper = some s ∧ s.state 1 = .zombie ∧
      schedStep s (.resume 2) = some s' ∧ s'.state 1 = .running) ∧
    ∃ s s', Machine.exec schedStep schedInit (signalledSleeper ++ [.reap 3 1]) = some s ∧ s.state 1 = .released ∧
      schedStep s (.resume 2) = some s' ∧ s'.state 1 = .running :=
  ⟨⟨_, _, rfl, rfl, rfl, rfl⟩, _, _, rfl, rfl, rfl, rfl⟩

/-- A task exits, its father reaps it, and the structure stays released. -/
theorem dead_stay_dead_after_exit :
    ∃ s s', schedStep schedInit (.exit 1 3) = some s ∧ s.state 1 = .zombie ∧ schedStep s (.reap 3 1) = some s' ∧
      (s'.state 1 = .zombie ∨ s'.state 1 = .released) := by
  have hexit : schedInit.ExitsUnnamed (.exit 1 3) :=
    fun _ _ _ => ⟨fun _ => by simp [schedInit], fun _ _ hc => by simp [schedInit] at hc⟩
  have hreap : (schedInit.setState 1 .zombie).ExitsUnnamed (.reap 3 1) := fun _ _ he => by simp at he
  have hs : schedStep schedInit (.exit 1 3) = some (schedInit.setState 1 .zombie) := rfl
  refine ⟨_, _, hs, rfl, rfl, ?_⟩
  exact (dead_stay_dead (.next .start hexit hs) hreap rfl).1 rfl

end RheeKernel
