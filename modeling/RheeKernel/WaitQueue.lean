import Mathlib.Logic.Relation
import Mathlib.Logic.Function.Basic
import RheeKernel.Machine

namespace RheeKernel

/-- `released` stands for a task structure that has been given back by `release`. -/
inductive TaskState
  | running
  | interruptible
  | uninterruptible
  | zombie
  | released
deriving DecidableEq, Repr

/-- The stack frame of `sleep_on` or `interruptible_sleep_on`: the queue and the saved `tmp`. -/
structure SleepCall where
  interruptible : Bool
  queue : Nat
  tmp : Option Nat
deriving DecidableEq

/-- Task states, the sleep call each task is in, and the head `*p` of every wait queue. -/
structure Sched where
  state : Nat → TaskState
  call : Nat → Option SleepCall
  queue : Nat → Option Nat

namespace Sched

def setState (s : Sched) (t : Nat) (st : TaskState) : Sched := { s with state := Function.update s.state t st }

/-- The statement `if (u) u->state = 0`. -/
def wake (s : Sched) : Option Nat → Sched
  | none => s
  | some u => s.setState u .running

def setQueue (s : Sched) (q : Nat) (h : Option Nat) : Sched := { s with queue := Function.update s.queue q h }

def setCall (s : Sched) (t : Nat) (c : Option SleepCall) : Sched := { s with call := Function.update s.call t c }

/-- The task is on the processor outside of any sleep call. -/
def Active (s : Sched) (t : Nat) : Prop := s.state t = .running ∧ s.call t = none

instance {s : Sched} {t : Nat} : Decidable (s.Active t) := inferInstanceAs (Decidable (_ ∧ _))

/-- Both sleep calls up to `schedule()`: the old head is saved in `tmp` and the task becomes the head. -/
def sleep (s : Sched) (t q : Nat) (interruptible : Bool) : Sched :=
  ((s.setCall t (some ⟨interruptible, q, s.queue q⟩)).setQueue q (some t)).setState t
    (if interruptible then .interruptible else .uninterruptible)

/-- `sleep_on` after `schedule()`. -/
def leaveSleepOn (s : Sched) (t : Nat) (c : SleepCall) : Sched := (s.setCall t none).wake c.tmp

/-- `interruptible_sleep_on` after `schedule()`: somebody else at the head is woken and the task sleeps
again, or the head is cleared and the call ends. -/
def leaveInterruptible (s : Sched) (t : Nat) (c : SleepCall) : Sched :=
  match s.queue c.queue with
  | some h => if h ≠ t then (s.setState h .running).setState t .interruptible
    else ((s.setQueue c.queue none).setCall t none).wake c.tmp
  | none => ((s.setQueue c.queue none).setCall t none).wake c.tmp

def wakeUp (s : Sched) (q : Nat) : Sched :=
  match s.queue q with
  | none => s
  | some h => (s.setState h .running).setQueue q none

end Sched

inductive SchedEvent
  | sleepOn (t q : Nat)
  | interruptibleSleepOn (t q : Nat)
  | resume (t : Nat)
  | wakeUp (q : Nat)
  | signal (t : Nat)
  | pause (t : Nat)
  | exit (t : Nat) (father : Nat)
  | reap (t u : Nat)
deriving DecidableEq

/-- A stretch of one task between two calls of `schedule()`, or what an interrupt does in between.
`signal` is the signal phase of `schedule` for one task with a pending signal; `exit` is the end of
`do_exit` with the value its `father` field has by then; `reap` is the release of a zombie by `sys_waitpid`. -/
def schedStep (s : Sched) : SchedEvent → Option Sched
  | .sleepOn t q => if s.Active t ∧ t ≠ 0 then some (s.sleep t q false) else none
  | .interruptibleSleepOn t q => if s.Active t ∧ t ≠ 0 then some (s.sleep t q true) else none
  | .resume t =>
    match s.call t with
    | none => none
    | some c =>
      if s.state t ≠ .running then none
      else if c.interruptible then some (s.leaveInterruptible t c) else some (s.leaveSleepOn t c)
  | .wakeUp q => some (s.wakeUp q)
  | .signal t => if s.state t = .interruptible then some (s.setState t .running) else none
  | .pause t => if s.Active t then some (s.setState t .interruptible) else none
  | .exit t father =>
    if s.Active t ∧ t ≠ 0 then some (s.setState t (if father ≠ 0 then .zombie else .released)) else none
  | .reap t u => if s.Active t ∧ t ≠ u ∧ s.state u = .zombie then some (s.setState u .released) else none

def schedInit : Sched := { state := fun _ => .running, call := fun _ => none, queue := fun _ => none }

namespace Sched

/-- The next task on queue `q` after `t`: the `tmp` of its sleep call. -/
def tmp (s : Sched) (q t : Nat) : Option Nat :=
  match s.call t with
  | none => none
  | some c => if c.queue = q then c.tmp else none

/-- `y` is met when the saved pointers of queue `q` are followed from `x`. -/
def Chain (s : Sched) (q : Nat) : Nat → Nat → Prop := Relation.ReflTransGen fun x y => s.tmp q x = some y

def Asleep (s : Sched) (q t : Nat) : Prop :=
  (s.state t = .interruptible ∨ s.state t = .uninterruptible) ∧ ∃ c, s.call t = some c ∧ c.queue = q

/-- On the chain from `*p`, or on the chain that a runnable task of the queue saved. -/
def Linked (s : Sched) (q t : Nat) : Prop :=
  (∃ h, s.queue q = some h ∧ s.Chain q h t) ∨ ∃ r u, s.state r = .running ∧ s.tmp q r = some u ∧ s.Chain q u t

/-- The same without the chain that `t` itself saved. -/
def LinkedByOthers (s : Sched) (q t : Nat) : Prop :=
  (∃ h, s.queue q = some h ∧ s.Chain q h t) ∨
    ∃ r u, r ≠ t ∧ s.state r = .running ∧ s.tmp q r = some u ∧ s.Chain q u t

/-- A task that comes back from `schedule()` in `interruptible_sleep_on` and finds somebody else at the
head is itself still on a chain. -/
def RejoinsLinked (s : Sched) (e : SchedEvent) : Prop :=
  ∀ t c h, e = .resume t → s.call t = some c → c.interruptible = true → s.queue c.queue = some h → h ≠ t →
    s.LinkedByOthers c.queue t

/-- No queue head and no sleep call names the task. -/
def Unnamed (s : Sched) (t : Nat) : Prop :=
  (∀ q, s.queue q ≠ some t) ∧ ∀ u c, s.call u = some c → c.tmp ≠ some t

/-- Whoever exits is not named by any wait queue. -/
def ExitsUnnamed (s : Sched) (e : SchedEvent) : Prop := ∀ t father, e = .exit t father → s.Unnamed t

end Sched

namespace Sched

variable {s s' : Sched} {q t u : Nat}

@[simp] theorem setState_call {st : TaskState} : (s.setState t st).call = s.call := rfl
@[simp] theorem setState_queue {st : TaskState} : (s.setState t st).queue = s.queue := rfl
@[simp] theorem setQueue_call {h : Option Nat} : (s.setQueue q h).call = s.call := rfl
@[simp] theorem setQueue_state {h : Option Nat} : (s.setQueue q h).state = s.state := rfl
@[simp] theorem setCall_state {c : Option SleepCall} : (s.setCall t c).state = s.state := rfl
@[simp] theorem setCall_queue {c : Option SleepCall} : (s.setCall t c).queue = s.queue := rfl

@[simp] theorem wake_call {o : Option Nat} : (s.wake o).call = s.call := by cases o <;> rfl
@[simp] theorem wake_queue {o : Option Nat} : (s.wake o).queue = s.queue := by cases o <;> rfl

theorem sleep_queue {i : Bool} : (s.sleep t q i).queue q = some t := Function.update_self ..

theorem sleep_call {i : Bool} : (s.sleep t q i).call t = some ⟨i, q, s.queue q⟩ := Function.update_self ..

theorem wake_running {o : Option Nat} (h : s.state t = .running) : (s.wake o).state t = .running := by
  cases o with
  | none => exact h
  | some u =>
    show Function.update s.state u .running t = .running
    by_cases htu : t = u
    · rw [htu, Function.update_self]
    · rw [Function.update_of_ne htu, h]

theorem wake_self : (s.wake (some t)).state t = .running := Function.update_self ..

/-- `wake` changes a state only to running, and only that of the named task. -/
theorem wake_state {o : Option Nat} : (s.wake o).state t = s.state t ∨ o = some t ∧ (s.wake o).state t = .running := by
  cases o with
  | none => exact .inl rfl
  | some u =>
    by_cases htu : t = u
    · exact .inr ⟨by rw [htu], by rw [htu]; exact wake_self⟩
    · exact .inl (Function.update_of_ne htu _ _)

theorem Asleep.not_running (h : s.Asleep q t) : s.state t ≠ .running := by
  intro hr
  rcases h.1 with h | h <;> rw [hr] at h <;> simp at h

theorem tmp_congr (h : s'.call t = s.call t) : s'.tmp q t = s.tmp q t := by
  unfold tmp
  rw [h]

theorem tmp_of_no_call (h : s.call t = none) : s.tmp q t = none := by
  unfold tmp
  rw [h]

theorem chain_congr (h : s'.call = s.call) {x y : Nat} : s'.Chain q x y ↔ s.Chain q x y := by
  have htmp : ∀ x, s'.tmp q x = s.tmp q x := fun x => tmp_congr (congrFun h x)
  unfold Chain
  simp only [htmp]

/-- Past its first task, a chain goes on at what that task saved. -/
theorem Chain.next {x y : Nat} (h : s.Chain q x y) (hne : y ≠ x) : ∃ z, s.tmp q x = some z ∧ s.Chain q z y := by
  rcases Relation.ReflTransGen.cases_head h with h | ⟨z, hz, h⟩
  · exact absurd h.symm hne
  · exact ⟨z, hz, h⟩

/-- When the call of `r` ends, a chain through `r` splits there. -/
theorem Chain.cut {r x y : Nat} (hcall : ∀ z, z ≠ r → s'.call z = s.call z) (h : s.Chain q x y) :
    s'.Chain q x y ∨ ∃ z, s.tmp q r = some z ∧ s'.Chain q z y := by
  induction h using Relation.ReflTransGen.head_induction_on with
  | refl => exact .inl .refl
  | @head x z hxz _ ih =>
    rcases ih with ih | ih
    · by_cases hx : x = r
      · exact .inr ⟨z, hx ▸ hxz, ih⟩
      · exact .inl (.head ((tmp_congr (hcall x hx)).trans hxz) ih)
    · exact .inr ih

/-- Whoever stands behind a task that was just woken is linked by what that task saved. -/
theorem Chain.linked_of_woken {x : Nat} (h : s.Chain q x t) (hx : s.state x = .running) (ht : s.Asleep q t) :
    s.Linked q t := by
  have hne : t ≠ x := fun heq => ht.not_running (heq ▸ hx)
  obtain ⟨z, hz, hc⟩ := h.next hne
  exact .inr ⟨x, z, hx, hz, hc⟩

/-- States may change as long as runnable tasks in a sleep call stay runnable. -/
theorem Linked.of_states (hcall : s'.call = s.call) (hqueue : s'.queue q = s.queue q)
    (hrun : ∀ r, s.state r = .running → s.call r ≠ none → s'.state r = .running) (h : s.Linked q t) : s'.Linked q t := by
  rcases h with ⟨x, hx, hc⟩ | ⟨r, u, hr, hu, hc⟩
  · exact .inl ⟨x, hqueue.trans hx, (chain_congr hcall).mpr hc⟩
  · refine .inr ⟨r, u, hrun r hr ?_, (tmp_congr (congrFun hcall r)).trans hu, (chain_congr hcall).mpr hc⟩
    intro hnone
    rw [tmp_of_no_call hnone] at hu
    simp at hu

/-- The sleepers of every queue are linked. -/
def NoneLost (s : Sched) : Prop := ∀ q t, s.Asleep q t → s.Linked q t

theorem NoneLost.sleep (h : s.NoneLost) (ht : s.call t = none) {i : Bool} : (s.sleep t q i).NoneLost := by
  intro p x hx
  have hgrow : ∀ y, y ≠ t → (s.sleep t q i).call y = s.call y := fun y hy => Function.update_of_ne hy _ _
  have htmp : ∀ y z, s.tmp p y = some z → (s.sleep t q i).tmp p y = some z := by
    intro y z hz
    have hy : y ≠ t := by
      intro heq
      rw [heq, tmp_of_no_call ht] at hz
      simp at hz
    exact (tmp_congr (hgrow y hy)).trans hz
  have hmono : ∀ {y z}, s.Chain p y z → (s.sleep t q i).Chain p y z := fun hc => Relation.ReflTransGen.mono htmp _ _ hc
  by_cases hxt : x = t
  · -- The new sleeper is the head of its queue.
    have hp : p = q := by
      obtain ⟨_, c, hc, hcq⟩ := hx
      rw [hxt, sleep_call] at hc
      cases Option.some.inj hc
      exact hcq.symm
    exact .inl ⟨t, by rw [hp]; exact sleep_queue, hxt ▸ .refl⟩
  · have hold : s.Asleep p x := by
      obtain ⟨hst, c, hc, hcq⟩ := hx
      exact ⟨by rwa [show (s.sleep t q i).state x = s.state x from Function.update_of_ne hxt _ _] at hst,
        c, by rwa [hgrow x hxt] at hc, hcq⟩
    rcases h p x hold with ⟨y, hy, hc⟩ | ⟨r, u, hr, hu, hc⟩
    · by_cases hp : p = q
      · -- The old head is what the new one saved.
        subst hp
        have hnext : (s.sleep t p i).tmp p t = some y := by
          unfold tmp
          rw [sleep_call]
          simpa using hy
        exact .inl ⟨t, sleep_queue, .head hnext (hmono hc)⟩
      · exact .inl ⟨y, (Function.update_of_ne hp _ _).trans hy, hmono hc⟩
    · have hrt : r ≠ t := by
        intro heq
        rw [heq, tmp_of_no_call ht] at hu
        simp at hu
      exact .inr ⟨r, u, (Function.update_of_ne hrt _ _).trans hr, htmp r u hu, hmono hc⟩

/-- A call ends: whoever was linked through it is now linked through the task it wakes. -/
theorem NoneLost.leave (h : s.NoneLost) {c : SleepCall} (hc : s.call t = some c)
    (hcall : ∀ x, x ≠ t → s'.call x = s.call x) (hend : s'.call t = none)
    (hstate : s'.state = (s.wake c.tmp).state) (hother : ∀ p, p ≠ c.queue → s'.queue p = s.queue p)
    (hqueue : s'.queue c.queue = s.queue c.queue ∨ s'.queue c.queue = none ∧ (s.queue c.queue = none ∨ s.queue c.queue = some t)) :
    s'.NoneLost := by
  intro p x hx
  have hxt : x ≠ t := by
    intro heq
    obtain ⟨_, d, hd, _⟩ := hx
    rw [heq, hend] at hd
    simp at hd
  have hold : s.Asleep p x := by
    obtain ⟨hst, d, hd, hdp⟩ := hx
    refine ⟨?_, d, by rwa [hcall x hxt] at hd, hdp⟩
    rw [hstate] at hst
    rcases @wake_state s x c.tmp with heq | ⟨_, heq⟩
    · rwa [heq] at hst
    · rw [heq] at hst
      simp at hst
  have hrun : ∀ r, s.state r = .running → s'.state r = .running := fun r hr => by rw [hstate]; exact wake_running hr
  -- What `t` saved is awake now, and leads to whoever stood behind it.
  have hbehind : ∀ z, s.tmp p t = some z → s'.Chain p z x → s'.Linked p x := by
    intro z hz hzx
    have hztmp : c.tmp = some z := by
      unfold tmp at hz
      rw [hc] at hz
      simp only at hz
      split at hz
      next => exact hz
      next => simp at hz
    refine hzx.linked_of_woken ?_ hx
    rw [hstate, hztmp]
    exact wake_self
  rcases h p x hold with ⟨y, hy, hyx⟩ | ⟨r, u, hr, hu, hux⟩
  · rcases hyx.cut hcall with hyx | ⟨z, hz, hzx⟩
    · by_cases hp : p = c.queue
      · subst hp
        rcases hqueue with hq | ⟨hq, hnone | hsome⟩
        · exact .inl ⟨y, hq.trans hy, hyx⟩
        · rw [hnone] at hy
          simp at hy
        · -- The head was `t` itself, whose call is over: nobody is behind it any more.
          rw [hsome] at hy
          cases Option.some.inj hy
          obtain ⟨z, hz, _⟩ := hyx.next hxt
          rw [tmp_of_no_call hend] at hz
          simp at hz
      · exact .inl ⟨y, (hother p hp).trans hy, hyx⟩
    · exact hbehind z hz hzx
  · rcases hux.cut hcall with hux | ⟨z, hz, hzx⟩
    · by_cases hrt : r = t
      · exact hbehind u (hrt ▸ hu) hux
      · exact .inr ⟨r, u, hrun r hr, (tmp_congr (hcall r hrt)).trans hu, hux⟩
    · exact hbehind z hz hzx

/-- A task goes back to sleep behind somebody else: what it saved is reached through it, if it is itself
linked. -/
theorem NoneLost.rejoin (h : s.NoneLost) {c : SleepCall} {x : Nat} (hc : s.call t = some c)
    (hlink : s.LinkedByOthers c.queue t) :
    ((s.setState x .running).setState t .interruptible).NoneLost := by
  intro p y hy
  have hrun : ∀ r, r ≠ t → s.state r = .running →
      ((s.setState x .running).setState t .interruptible).state r = .running := by
    intro r hrt hr
    show Function.update (Function.update s.state x _) t _ r = _
    rw [Function.update_of_ne hrt]
    by_cases hrx : r = x
    · rw [hrx, Function.update_self]
    · rw [Function.update_of_ne hrx, hr]
  have hkeep : ∀ {y}, s.LinkedByOthers p t → s.Chain p t y →
      ((s.setState x .running).setState t .interruptible).Linked p y := by
    intro y hl hty
    rcases hl with ⟨z, hz, hzt⟩ | ⟨r, u, hrt, hr, hu, hut⟩
    · exact .inl ⟨z, hz, hzt.trans hty⟩
    · exact .inr ⟨r, u, hrun r hrt hr, hu, hut.trans hty⟩
  have hp : p = c.queue → s.LinkedByOthers p t := fun hp => hp ▸ hlink
  by_cases hyt : y = t
  · have hpq : p = c.queue := by
      obtain ⟨_, d, hd, hdp⟩ := hy
      rw [hyt] at hd
      cases Option.some.inj (hc.symm.trans hd)
      exact hdp.symm
    exact hkeep (hp hpq) (hyt ▸ .refl)
  · have hold : s.Asleep p y := by
      obtain ⟨hst, hd⟩ := hy
      refine ⟨?_, hd⟩
      have hyx : y ≠ x := by
        intro heq
        rw [heq] at hst
        rw [heq] at hyt
        simp [setState, Function.update_of_ne hyt] at hst
      simpa [setState, Function.update_of_ne hyt, Function.update_of_ne hyx] using hst
    rcases h p y hold with ⟨z, hz, hzy⟩ | ⟨r, u, hr, hu, huy⟩
    · exact .inl ⟨z, hz, hzy⟩
    · by_cases hrt : r = t
      · have hpq : p = c.queue := by
          unfold tmp at hu
          rw [hrt, hc] at hu
          simp only at hu
          split at hu
          next hq => exact hq.symm
          next => simp at hu
        exact hkeep (hp hpq) (.head (hrt ▸ hu) huy)
      · exact .inr ⟨r, u, hrun r hrt hr, hu, huy⟩

theorem NoneLost.wakeUp (h : s.NoneLost) : (s.wakeUp q).NoneLost := by
  unfold Sched.wakeUp
  split
  next => exact h
  next x hx =>
    intro p y hy
    have hwoken : ((s.setState x .running).setQueue q none).state x = .running := Function.update_self ..
    have hyx : y ≠ x := fun heq => hy.not_running (heq ▸ hwoken)
    have hold : s.Asleep p y := by
      obtain ⟨hst, hd⟩ := hy
      exact ⟨by simpa [setState, Function.update_of_ne hyx] using hst, hd⟩
    rcases h p y hold with ⟨z, hz, hzy⟩ | ⟨r, u, hr, hu, huy⟩
    · by_cases hp : p = q
      · subst hp
        cases Option.some.inj (hx.symm.trans hz)
        exact Chain.linked_of_woken hzy hwoken hy
      · exact .inl ⟨z, (Function.update_of_ne hp _ _).trans hz, hzy⟩
    · refine .inr ⟨r, u, ?_, hu, huy⟩
      exact @wake_running s r (some x) hr

/-- A task outside of any sleep call, or one that becomes runnable, changes its state. -/
theorem NoneLost.setState (h : s.NoneLost) {st : TaskState}
    (hst : s.call t = none ∨ st = .running ∨ s.state t = .zombie ∧ st = .released) : (s.setState t st).NoneLost := by
  intro p y hy
  have hold : s.Asleep p y := by
    obtain ⟨hy, c, hc, hcp⟩ := hy
    by_cases hyt : y = t
    · subst hyt
      rw [show (s.setState y st).state y = st from Function.update_self ..] at hy
      rcases hst with hnone | rfl | ⟨_, rfl⟩
      · rw [setState_call, hnone] at hc
        simp at hc
      · simp at hy
      · simp at hy
    · exact ⟨by rwa [show (s.setState t st).state y = s.state y from Function.update_of_ne hyt _ _] at hy, c, hc, hcp⟩
  refine @Linked.of_states s _ _ _ rfl rfl (fun r hr hcall => ?_) (h p y hold)
  by_cases hrt : r = t
  · subst hrt
    rcases hst with hnone | rfl | ⟨hz, _⟩
    · exact absurd hnone hcall
    · exact Function.update_self ..
    · rw [hz] at hr
      simp at hr
  · exact (Function.update_of_ne hrt _ _).trans hr

theorem NoneLost.leaveSleepOn (h : s.NoneLost) {c : SleepCall} (hc : s.call t = some c) :
    (s.leaveSleepOn t c).NoneLost := by
  refine h.leave hc (fun x hx => ?_) ?_ ?_ (fun p _ => ?_) (.inl ?_)
  · exact (congrFun wake_call x).trans (Function.update_of_ne hx _ _)
  · exact (congrFun wake_call t).trans (Function.update_self ..)
  · unfold Sched.leaveSleepOn
    cases c.tmp <;> rfl
  · exact congrFun wake_queue p
  · exact congrFun wake_queue _

theorem NoneLost.leaveQueue (h : s.NoneLost) {c : SleepCall} (hc : s.call t = some c)
    (hq : s.queue c.queue = none ∨ s.queue c.queue = some t) :
    (((s.setQueue c.queue none).setCall t none).wake c.tmp).NoneLost := by
  refine h.leave hc (fun x hx => ?_) ?_ ?_ (fun p hp => ?_) (.inr ⟨?_, hq⟩)
  · exact (congrFun wake_call x).trans (Function.update_of_ne hx _ _)
  · exact (congrFun wake_call t).trans (Function.update_self ..)
  · cases c.tmp <;> rfl
  · exact (congrFun wake_queue p).trans (Function.update_of_ne hp _ _)
  · exact (congrFun wake_queue _).trans (Function.update_self ..)

theorem NoneLost.leaveInterruptible (h : s.NoneLost) {c : SleepCall} (hc : s.call t = some c)
    (hlink : ∀ x, s.queue c.queue = some x → x ≠ t → s.LinkedByOthers c.queue t) :
    (s.leaveInterruptible t c).NoneLost := by
  unfold Sched.leaveInterruptible
  split
  next x hx =>
    split
    next hne => exact h.rejoin hc (hlink x hx hne)
    next heq =>
      have heq : x = t := by simpa using heq
      exact h.leaveQueue hc (.inr (heq ▸ hx))
  next hnone => exact h.leaveQueue hc (.inl hnone)

end Sched

/-- Where a step of the task system leads, with the tests it passed. -/
inductive SchedMove (s : Sched) : SchedEvent → Sched → Prop
  | sleep {e t q i} (he : e = .sleepOn t q ∨ e = .interruptibleSleepOn t q) (ht : s.Active t) : SchedMove s e (s.sleep t q i)
  | leaveSleepOn {t c} (hc : s.call t = some c) (ht : s.state t = .running) :
    SchedMove s (.resume t) (s.leaveSleepOn t c)
  | leaveInterruptible {t c} (hc : s.call t = some c) (ht : s.state t = .running) (hi : c.interruptible = true) :
    SchedMove s (.resume t) (s.leaveInterruptible t c)
  | wakeUp {q} : SchedMove s (.wakeUp q) (s.wakeUp q)
  | signal {t} (ht : s.state t = .interruptible) : SchedMove s (.signal t) (s.setState t .running)
  | pause {t} (ht : s.Active t) : SchedMove s (.pause t) (s.setState t .interruptible)
  | exit {t father} (ht : s.Active t) :
    SchedMove s (.exit t father) (s.setState t (if father ≠ 0 then .zombie else .released))
  | reap {t u} (hu : s.state u = .zombie) : SchedMove s (.reap t u) (s.setState u .released)

theorem schedStep_move {s s' : Sched} {e : SchedEvent} (h : schedStep s e = some s') : SchedMove s e s' := by
  cases e with
  | sleepOn t q =>
    simp only [schedStep] at h
    split at h
    next ht => cases Option.some.inj h; exact .sleep (.inl rfl) ht.1
    next => simp at h
  | interruptibleSleepOn t q =>
    simp only [schedStep] at h
    split at h
    next ht => cases Option.some.inj h; exact .sleep (.inr rfl) ht.1
    next => simp at h
  | resume t =>
    simp only [schedStep] at h
    split at h
    next => simp at h
    next c hc =>
      split at h
      next => simp at h
      next ht =>
        have ht : s.state t = .running := by simpa using ht
        split at h
        next hi => cases Option.some.inj h; exact .leaveInterruptible hc ht hi
        next => cases Option.some.inj h; exact .leaveSleepOn hc ht
  | wakeUp q => cases Option.some.inj h; exact .wakeUp
  | signal t =>
    simp only [schedStep] at h
    split at h
    next ht => cases Option.some.inj h; exact .signal ht
    next => simp at h
  | pause t =>
    simp only [schedStep] at h
    split at h
    next ht => cases Option.some.inj h; exact .pause ht
    next => simp at h
  | exit t father =>
    simp only [schedStep] at h
    split at h
    next ht => cases Option.some.inj h; exact .exit ht.1
    next => simp at h
  | reap t u =>
    simp only [schedStep] at h
    split at h
    next ht => cases Option.some.inj h; exact .reap ht.2.2
    next => simp at h

theorem schedStep_noneLost {s s' : Sched} {e : SchedEvent} (h : s.NoneLost) (hok : s.RejoinsLinked e)
    (hs : schedStep s e = some s') : s'.NoneLost := by
  cases schedStep_move hs with
  | sleep _ ht => exact h.sleep ht.2
  | leaveSleepOn hc _ => exact h.leaveSleepOn hc
  | leaveInterruptible hc _ hi => exact h.leaveInterruptible hc fun x hx hne => hok _ _ x rfl hc hi hx hne
  | wakeUp => exact h.wakeUp
  | signal _ => exact h.setState (.inr (.inl rfl))
  | pause ht => exact h.setState (.inl ht.2)
  | exit ht => exact h.setState (.inl ht.2)
  | reap hu => exact h.setState (.inr (.inr ⟨hu, rfl⟩))

theorem schedInit_noneLost : schedInit.NoneLost := by
  intro q t h
  obtain ⟨_, c, hc, _⟩ := h
  simp [schedInit] at hc

/-- As long as nobody goes back to sleep off the chains, no sleeper of any queue is lost. -/
theorem no_sleeper_lost {s : Sched} (h : Machine.Reach schedStep Sched.RejoinsLinked schedInit s) {q t : Nat}
    (ht : s.Asleep q t) : s.Linked q t :=
  h.invariant (I := Sched.NoneLost) schedInit_noneLost (fun _ _ _ hi hok hs => schedStep_noneLost hi hok hs) q t ht

/-- Task 1 sleeps and is woken; before it runs, task 2 sleeps on the same queue. -/
def lateSleeper : List SchedEvent := [.interruptibleSleepOn 1 0, .wakeUp 0, .interruptibleSleepOn 2 0, .resume 1]

def lateSleeperEnd : Sched :=
  (((schedInit.sleep 1 0 true).wakeUp 0).sleep 2 0 true).leaveInterruptible 1 ⟨true, 0, none⟩

theorem lateSleeperEnd_tmp {x : Nat} : lateSleeperEnd.tmp 0 x = none := by
  have hother : x ≠ 1 → x ≠ 2 → lateSleeperEnd.call x = none := by
    intro h1 h2
    show Function.update (Function.update schedInit.call 1 _) 2 _ x = none
    rw [Function.update_of_ne h2, Function.update_of_ne h1]
    rfl
  by_cases h1 : x = 1
  · subst h1
    rfl
  · by_cases h2 : x = 2
    · subst h2
      rfl
    · exact Sched.tmp_of_no_call (hother h1 h2)

/-- Task 1 goes back to sleep while only task 2, which saved nothing, is on the queue. -/
theorem sleeper_lost_on_rejoin :
    ∃ s, Machine.exec schedStep schedInit lateSleeper = some s ∧ s.Asleep 0 1 ∧ ¬ s.Linked 0 1 := by
  refine ⟨lateSleeperEnd, rfl, ⟨.inl rfl, _, rfl, rfl⟩, fun hlink => ?_⟩
  rcases hlink with ⟨h, hh, hc⟩ | ⟨r, u, _, hu, _⟩
  · have hh : h = 2 := (Option.some.inj hh).symm
    subst hh
    obtain ⟨z, hz, _⟩ := hc.next (by decide)
    rw [lateSleeperEnd_tmp] at hz
    simp at hz
  · rw [lateSleeperEnd_tmp] at hu
    simp at hu

/-- Two sleepers; a signal wakes the first, which finds the second at the head and goes back to sleep
behind it. -/
theorem no_sleeper_lost_after_signal :
    ∃ s, Machine.exec schedStep schedInit [.interruptibleSleepOn 1 0, .interruptibleSleepOn 2 0, .signal 1, .resume 1] = some s ∧
      s.Asleep 0 1 ∧ s.Linked 0 1 := by
  let a := schedInit.sleep 1 0 true
  let b := a.sleep 2 0 true
  let c := b.setState 1 .running
  have hfree : ∀ {s : Sched} {e}, (∀ t, e ≠ .resume t) → s.RejoinsLinked e := fun he t _ _ ht => absurd ht (he t)
  have hlinked : c.RejoinsLinked (.resume 1) := by
    intro t d h ht hd _ hq hne
    cases ht
    have hd : d = ⟨true, 0, none⟩ := (Option.some.inj hd).symm
    subst hd
    exact .inl ⟨2, rfl, .single rfl⟩
  have ha : Machine.Reach schedStep Sched.RejoinsLinked schedInit a :=
    .next .start (hfree (e := .interruptibleSleepOn 1 0) (by simp)) rfl
  have hb : Machine.Reach schedStep Sched.RejoinsLinked schedInit b :=
    .next ha (hfree (e := .interruptibleSleepOn 2 0) (by simp)) rfl
  have hc : Machine.Reach schedStep Sched.RejoinsLinked schedInit c :=
    .next hb (hfree (e := .signal 1) (by simp)) rfl
  have hend : (c.leaveInterruptible 1 ⟨true, 0, none⟩).Asleep 0 1 := ⟨.inl rfl, _, rfl, rfl⟩
  exact ⟨_, rfl, hend, no_sleeper_lost (.next hc hlinked rfl) hend⟩

end RheeKernel
