import Mathlib.Algebra.BigOperators.Group.Finset.Piecewise
import Mathlib.Data.BitVec
import Mathlib.Tactic.Abel
import RheeKernel.JobControl

namespace RheeKernel

open Finset

/-- The time that a task structure accounts for: its own and that of the children it has waited for. -/
def Job.spent (j : Job) (user : Bool) : BitVec 32 := if user then j.utime + j.cutime else j.stime + j.cstime

namespace Jobs

def held (s : Jobs) (user : Bool) (i : Nat) : BitVec 32 := if (s.procs.task i).isSome then (s.job i).spent user else 0

/-- The time that all tasks account for. -/
def spent (s : Jobs) (user : Bool) : BitVec 32 := ∑ i ∈ range nrTasks, s.held user i

/-- The time that nobody accounts for any more after a step: a child that is waited for leaves behind its own time, but not that of its
children, and a task without a father leaves nothing. -/
def lost (s : Jobs) (user : Bool) : JobEvent → BitVec 32
  | .waitpid t pid =>
    match s.caller t with
    | none => 0
    | some p =>
      match s.procs.waitScan t p pid (nrTasks - 1) with
      | none => 0
      | some i => if user then (s.job i).cutime else (s.job i).cstime
  | .endExit t =>
    match s.procs.task t with
    | none => 0
    | some p => if p.father = 0 then (s.job t).spent user else 0
  | _ => 0

end Jobs

/-- The ticks of the timer in user mode, or of those in the kernel. -/
def tick (user : Bool) : JobEvent → BitVec 32
  | .timer _ cpl => if decide (cpl ≠ 0) = user then 1 else 0
  | _ => 0

def ticks (user : Bool) (es : List JobEvent) : BitVec 32 := (es.map (tick user)).sum

def lostAlong (user : Bool) (s : Jobs) : List JobEvent → BitVec 32
  | [] => 0
  | e :: es => s.lost user e + ((jobStep s e).map fun s' => lostAlong user s' es).getD 0

namespace Jobs

variable {s s' : Jobs} {e : JobEvent} {i t : Nat} {p cur : Proc} {user : Bool}

theorem held_congr (task : (s'.procs.task i).isSome = (s.procs.task i).isSome) (job : (s'.job i).spent user = (s.job i).spent user) :
    s'.held user i = s.held user i := by
  unfold held
  rw [task, job]

theorem spent_congr (same : ∀ i, s'.held user i = s.held user i) : s'.spent user = s.spent user := sum_congr rfl fun i _ => same i

theorem setTtyPgrp_spent {tty : Nat} {pgrp : Int} : (s.setTtyPgrp tty pgrp).spent user = s.spent user := spent_congr fun _ => rfl

theorem setPgrp_spent {pgrp : Int} : (s.setPgrp i pgrp).spent user = s.spent user := by
  refine spent_congr fun u => held_congr ?_ rfl
  show ((s.procs.setPgrp i pgrp).task u).isSome = _
  unfold ProcTable.setPgrp
  by_cases same : u = i
  · rw [same, ProcTable.setTask_self, Option.isSome_map]
  · rw [ProcTable.setTask_other same]

theorem spent_change (low : i < nrTasks) (others : ∀ u ≠ i, s'.held user u = s.held user u) :
    s'.spent user + s.held user i = s.spent user + s'.held user i := by
  have mem : i ∈ range nrTasks := mem_range.mpr low
  have rest : ∑ u ∈ (range nrTasks).erase i, s'.held user u = ∑ u ∈ (range nrTasks).erase i, s.held user u :=
    sum_congr rfl fun u hu => others u (ne_of_mem_erase hu)
  unfold spent
  rw [← add_sum_erase _ _ mem, ← add_sum_erase _ (fun u => s.held user u) mem, rest]
  abel

/-- One task's fields change. -/
theorem spent_setJob {j : Job} (task : s.procs.task t = some cur) (low : t < nrTasks) :
    (s.setJob t j).spent user + (s.job t).spent user = s.spent user + j.spent user := by
  have here : s.held user t = (s.job t).spent user := if_pos (by rw [task]; rfl)
  have now : (s.setJob t j).held user t = j.spent user := by
    unfold held
    rw [if_pos (by rw [show (s.setJob t j).procs.task t = some cur from task]; rfl), setJob_self]
  rw [← here, ← now]
  exact spent_change low fun u other => held_congr rfl (by rw [setJob_other other])

theorem spent_fields {j : Job} (task : s.procs.task t = some cur) (low : t < nrTasks) (same : j.spent user = (s.job t).spent user) :
    (s.setJob t j).spent user = s.spent user := by
  have change : (s.setJob t j).spent user + (s.job t).spent user = s.spent user + j.spent user := spent_setJob task low
  rw [same] at change
  exact add_right_cancel change

theorem spent_release (task : s.procs.task i = some p) (low : i < nrTasks) :
    Jobs.spent { s with procs := s.procs.setTask i none } user + (s.job i).spent user = s.spent user := by
  have here : s.held user i = (s.job i).spent user := if_pos (by rw [task]; rfl)
  have gone : Jobs.held { s with procs := s.procs.setTask i none } user i = 0 := if_neg (by rw [ProcTable.setTask_self]; decide)
  have others : ∀ u ≠ i, Jobs.held { s with procs := s.procs.setTask i none } user u = s.held user u :=
    fun u other => held_congr (congrArg Option.isSome (ProcTable.setTask_other other)) rfl
  have change := spent_change low others
  rwa [here, gone, add_zero] at change

theorem beginExit_isSome (u : Nat) : ((s.procs.beginExit t cur).task u).isSome = (s.procs.task u).isSome := by
  have orphaned : ((s.procs.orphan cur.pid).task u).isSome = (s.procs.task u).isSome := Option.isSome_map
  unfold ProcTable.beginExit
  by_cases same : u = t
  · rw [← orphaned, same, ProcTable.setTask_self, Option.isSome_map]
  · rw [ProcTable.setTask_other same, orphaned]

theorem fork_spent {mem : Bool} (hs : s.fork t cur mem = some s') : s'.spent user = s.spent user := by
  obtain ⟨procs, forked, same⟩ := Option.map_eq_some_iff.mp hs
  obtain ⟨pid, -, table⟩ := Option.map_eq_some_iff.mp forked
  refine spent_congr fun u => ?_
  cases slot : s.procs.emptySlot (nrTasks - 1) 1 with
  | none =>
    simp only [slot] at same table
    subst table same
    rfl
  | some nr =>
    simp only [slot] at same table
    split at table
    next made =>
      rw [if_pos made] at same
      subst table same
      obtain ⟨-, -, free⟩ := ProcTable.emptySlot_spec slot
      by_cases new : u = nr
      · subst new
        have before : s.held user u = 0 := if_neg (by rw [free]; decide)
        have fresh : (child (s.job t)).spent user = 0 := by
          unfold child Job.spent
          split <;> rfl
        rw [before]
        unfold held
        rw [setJob_self, fresh]
        split <;> rfl
      · exact held_congr (congrArg Option.isSome (ProcTable.setTask_other new)) (by rw [setJob_other new])
    next failed =>
      rw [if_neg failed] at same
      subst table same
      rfl

theorem endExit_spent (task : s.procs.task t = some cur) (low : t < nrTasks) :
    (s.endExit t cur).spent user + (if cur.father = 0 then (s.job t).spent user else 0) = s.spent user := by
  have table : (s.endExit t cur).procs = s.procs.endExit t cur ∧ (s.endExit t cur).job = s.job := by
    unfold Jobs.endExit
    dsimp only
    split <;> exact ⟨rfl, rfl⟩
  have only : (s.endExit t cur).spent user = Jobs.spent { s with procs := s.procs.endExit t cur } user :=
    spent_congr fun u => held_congr (by rw [table.1]) (by rw [table.2])
  rw [only]
  unfold ProcTable.endExit
  by_cases orphan : cur.father = 0
  · rw [if_neg (not_not.mpr orphan), if_pos orphan]
    exact spent_release task low
  · rw [if_pos orphan, if_neg orphan, add_zero]
    refine spent_congr fun u => held_congr ?_ rfl
    by_cases same : u = t
    · rw [same]
      refine (congrArg Option.isSome ProcTable.setTask_self).trans ?_
      rw [task]
      rfl
    · exact congrArg Option.isSome (ProcTable.setTask_other same)

theorem charge {now before total own cown children left : BitVec 32} (added : now + (own + cown) = before + (own + (cown + children)))
    (released : before + (children + left) = total) : now + left = total := by
  have carried : now = before + children := by
    refine add_right_cancel (b := own + cown) ?_
    rw [added]
    abel
  rw [carried, ← released, add_assoc]

theorem waitpid_spent {pid : Int} (h : s.procs.Inv) (task : s.procs.task t = some cur) (caller : s.caller t = some cur) :
    (s.waitpid t cur pid).spent user + s.lost user (.waitpid t pid) = s.spent user := by
  have low := h.low t cur task
  unfold Jobs.waitpid lost
  simp only [caller]
  cases scan : s.procs.waitScan t cur pid (nrTasks - 1) with
  | none => exact add_zero _
  | some i =>
    obtain ⟨first, last, p, zombie, found⟩ := ProcTable.waitScan_some scan
    have other : i ≠ t := by
      intro same
      unfold ProcTable.waitMatch at found
      simp [same] at found
    have released : Jobs.spent { s with procs := s.procs.setTask i none } user + (s.job i).spent user = s.spent user :=
      spent_release zombie (by unfold nrTasks at last ⊢; omega)
    have stays : (s.procs.setTask i none).task t = some cur := (ProcTable.setTask_other other.symm).trans task
    have added (j : Job) : (Jobs.setJob { s with procs := s.procs.setTask i none } t j).spent user + (s.job t).spent user =
        Jobs.spent { s with procs := s.procs.setTask i none } user + j.spent user := spent_setJob stays low
    cases user with
    | true => exact charge (added _) released
    | false => exact charge (added _) released

theorem jobStep_spent (h : s.procs.Inv) (hs : jobStep s e = some s') : s'.spent user + s.lost user e = s.spent user + tick user e := by
  have idle (same : s'.spent user = s.spent user) (silent : tick user e = 0) (kept : s.lost user e = 0) :
      s'.spent user + s.lost user e = s.spent user + tick user e := by
    rw [same, silent, kept]
  cases e with
  | fork t mem =>
    obtain ⟨cur, -, running⟩ := Option.bind_eq_some_iff.mp hs
    split at running
    next => cases running
    next => exact idle (fork_spent running) rfl rfl
  | beginExit t =>
    obtain ⟨cur, -, rfl⟩ := Option.map_eq_some_iff.mp hs
    exact idle (spent_congr fun u => held_congr (beginExit_isSome u) rfl) rfl rfl
  | endExit t =>
    obtain ⟨cur, task, running⟩ := Option.bind_eq_some_iff.mp hs
    obtain ⟨-, same⟩ := Option.ite_none_right_eq_some.mp running
    cases Option.some.inj same
    unfold lost
    simp only [task]
    rw [endExit_spent task (h.low t cur task)]
    exact (add_zero _).symm
  | waitpid t pid =>
    obtain ⟨cur, caller, rfl⟩ := Option.map_eq_some_iff.mp hs
    rw [waitpid_spent h (caller_some caller).1 caller]
    exact (add_zero _).symm
  | setpgid t pid pgid =>
    obtain ⟨cur, -, rfl⟩ := Option.map_eq_some_iff.mp hs
    refine idle ?_ rfl rfl
    unfold sysSetpgid
    dsimp only
    split
    next => rfl
    next =>
      split
      next => rfl
      next =>
        split
        next => rfl
        next => exact setPgrp_spent
  | setsid t =>
    obtain ⟨cur, caller, rfl⟩ := Option.map_eq_some_iff.mp hs
    refine idle ?_ rfl rfl
    have task := (caller_some caller).1
    unfold sysSetsid
    split
    next => rfl
    next =>
      split
      next => rfl
      next =>
        obtain ⟨d, regrouped⟩ : ∃ d, (s.setPgrp t cur.pid).procs.task t = some d := by
          refine ⟨{ cur with pgrp := cur.pid }, ?_⟩
          show (s.procs.setTask t _).task t = _
          rw [ProcTable.setTask_self, task]
          rfl
        have kept (j : Job) (same : j.spent user = (s.job t).spent user) : ((s.setPgrp t cur.pid).setJob t j).spent user = s.spent user :=
          (spent_fields regrouped (h.low t cur task) same).trans setPgrp_spent
        exact kept _ rfl
  | setIds t uid euid =>
    obtain ⟨cur, caller, rfl⟩ := Option.map_eq_some_iff.mp hs
    have task := (caller_some caller).1
    exact idle (spent_fields task (h.low t cur task) rfl) rfl rfl
  | openTty t major minor =>
    obtain ⟨cur, caller, opened⟩ := Option.bind_eq_some_iff.mp hs
    unfold Jobs.openTty at opened
    split at opened
    next =>
      obtain ⟨-, same⟩ := Option.ite_none_right_eq_some.mp opened
      cases Option.some.inj same
      have task := (caller_some caller).1
      exact idle (setTtyPgrp_spent.trans (spent_fields task (h.low t cur task) rfl)) rfl rfl
    next =>
      cases Option.some.inj opened
      exact idle rfl rfl rfl
  | tiocspgrp t major minor pgrp =>
    obtain ⟨cur, -, set⟩ := Option.bind_eq_some_iff.mp hs
    obtain ⟨-, same⟩ := Option.ite_none_right_eq_some.mp set
    cases Option.some.inj same
    exact idle setTtyPgrp_spent rfl rfl
  | timer t cpl =>
    obtain ⟨cur, task, rfl⟩ := Option.map_eq_some_iff.mp hs
    have low := h.low t cur task
    refine (add_zero _).trans ?_
    have change (j : Job) (amount : BitVec 32) (more : j.spent user = (s.job t).spent user + amount) :
        (s.setJob t j).spent user = s.spent user + amount := by
      have moved : (s.setJob t j).spent user + (s.job t).spent user = s.spent user + j.spent user := spent_setJob task low
      rw [more] at moved
      refine add_right_cancel (moved.trans ?_)
      abel
    have ticked : tick user (.timer t cpl) = if decide (cpl ≠ 0) = user then 1 else 0 := rfl
    rw [ticked]
    unfold doTimer
    by_cases mode : cpl ≠ 0
    · rw [if_pos mode]
      refine change _ _ ?_
      cases user with
      | true =>
        rw [if_pos (by simpa using mode)]
        exact add_right_comm _ _ _
      | false =>
        rw [if_neg (by simpa using mode)]
        exact (add_zero _).symm
    · rw [if_neg mode]
      refine change _ _ ?_
      cases user with
      | true =>
        rw [if_neg (by simpa using mode)]
        exact (add_zero _).symm
      | false =>
        rw [if_pos (by simpa using mode)]
        exact add_right_comm _ _ _

theorem exec_spent {es : List JobEvent} (h : s.procs.Inv) (run : Machine.exec jobStep s es = some s') :
    s'.spent user + lostAlong user s es = s.spent user + ticks user es := by
  induction es generalizing s with
  | nil =>
    cases Option.some.inj run
    rfl
  | cons e es ih =>
    obtain ⟨t, first, rest⟩ := Option.bind_eq_some_iff.mp run
    have step : t.spent user + s.lost user e = s.spent user + tick user e := jobStep_spent h first
    have later := ih (jobStep_inv h first) rest
    have all : lostAlong user s (e :: es) = s.lost user e + lostAlong user t es := by
      rw [lostAlong, first]
      rfl
    have both : ticks user (e :: es) = tick user e + ticks user es := List.sum_cons
    rw [all, both, ← add_assoc (s.spent user), ← step]
    calc s'.spent user + (s.lost user e + lostAlong user t es)
        = s.lost user e + (s'.spent user + lostAlong user t es) := by abel
      _ = s.lost user e + (t.spent user + ticks user es) := by rw [later]
      _ = t.spent user + s.lost user e + ticks user es := by abel

end Jobs

/-- Every tick is in the account of one task, or it was lost when a child was waited for or a task without a father went away. -/
theorem ticks_accounted (user : Bool) (es : List JobEvent) (s : Jobs) (run : Machine.exec jobStep jobInit es = some s) :
    s.spent user + lostAlong user jobInit es = ticks user es := by
  have none : jobInit.spent user = 0 := by
    refine Finset.sum_eq_zero fun i _ => ?_
    cases user <;> exact ite_self _
  have all : s.spent user + lostAlong user jobInit es = jobInit.spent user + ticks user es := Jobs.exec_spent procInit_inv run
  rwa [none, zero_add] at all

/-- A child is charged with two ticks and waited for. -/
theorem ticks_accounted_wait : ∃ s, Machine.exec jobStep jobInit [.fork 0 true, .fork 1 true, .timer 2 3, .timer 2 3, .beginExit 2, .endExit 2,
    .waitpid 1 2] = some s ∧ (s.job 1).cutime = 2 ∧
      s.spent true + lostAlong true jobInit [.fork 0 true, .fork 1 true, .timer 2 3, .timer 2 3, .beginExit 2, .endExit 2, .waitpid 1 2] =
        ticks true [.fork 0 true, .fork 1 true, .timer 2 3, .timer 2 3, .beginExit 2, .endExit 2, .waitpid 1 2] := by
  have run : (Machine.exec jobStep jobInit [.fork 0 true, .fork 1 true, .timer 2 3, .timer 2 3, .beginExit 2, .endExit 2,
      .waitpid 1 2]).map (fun s => (s.job 1).cutime) = some 2 := by
    decide +kernel
  obtain ⟨s, reached, waited⟩ := Option.map_eq_some_iff.mp run
  exact ⟨s, reached, waited, ticks_accounted true _ s reached⟩

end RheeKernel
