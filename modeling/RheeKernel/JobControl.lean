import RheeKernel.Credentials
import RheeKernel.ProcessTree

namespace RheeKernel

def esrch : Int := 3

/-- The length of `tty_table`. -/
def nrTty : Nat := 3

/-- The rest of a task structure that sessions, terminals and times are kept in. -/
structure Job where
  session : Int := 0
  leader : Bool := false
  tty : Int := -1
  uid : UInt16 := 0
  euid : UInt16 := 0
  utime : BitVec 32 := 0
  stime : BitVec 32 := 0
  cutime : BitVec 32 := 0
  cstime : BitVec 32 := 0
deriving DecidableEq

/-- The tasks with all this, and the field `pgrp` of each terminal. -/
structure Jobs where
  procs : ProcTable
  job : Nat → Job
  ttyPgrp : Nat → Int

def ProcTable.setPgrp (s : ProcTable) (i : Nat) (pgrp : Int) : ProcTable := s.setTask i ((s.task i).map fun p => { p with pgrp := pgrp })

namespace Jobs

def setJob (s : Jobs) (i : Nat) (j : Job) : Jobs := { s with job := Function.update s.job i j }

def setPgrp (s : Jobs) (i : Nat) (pgrp : Int) : Jobs := { s with procs := s.procs.setPgrp i pgrp }

def setTtyPgrp (s : Jobs) (tty : Nat) (pgrp : Int) : Jobs := { s with ttyPgrp := Function.update s.ttyPgrp tty pgrp }

/-- What `copy_process` makes of these fields for the child. -/
def child (j : Job) : Job := { j with leader := false, utime := 0, stime := 0, cutime := 0, cstime := 0 }

def fork (s : Jobs) (t : Nat) (p : Proc) (mem : Bool) : Option Jobs :=
  (s.procs.fork t p mem).map fun procs =>
    match s.procs.emptySlot (nrTasks - 1) 1 with
    | none => { s with procs := procs }
    | some nr => if mem then { s with procs := procs }.setJob nr (child (s.job t)) else { s with procs := procs }

/-- The end of `do_exit`, from the terminal on. -/
def endExit (s : Jobs) (t : Nat) (p : Proc) : Jobs :=
  let s := if (s.job t).leader ∧ 0 ≤ (s.job t).tty then s.setTtyPgrp (s.job t).tty.toNat 0 else s
  { s with procs := s.procs.endExit t p }

def waitpid (s : Jobs) (t : Nat) (cur : Proc) (pid : Int) : Jobs :=
  match s.procs.waitScan t cur pid (nrTasks - 1) with
  | none => s
  | some i =>
    { s with procs := s.procs.setTask i none }.setJob t { s.job t with
      cutime := (s.job t).cutime + (s.job i).utime
      cstime := (s.job t).cstime + (s.job i).stime }

/-- The loop of `sys_setpgid` over the tasks. -/
def findPid (s : Jobs) (pid : Int) : Option Nat := (List.range nrTasks).find? fun i => (s.procs.task i).any fun p => p.pid == pid

def sysSetpgid (s : Jobs) (t : Nat) (p : Proc) (pid pgid : Int) : Int × Jobs :=
  let pid := if pid = 0 then p.pid else pid
  let pgid := if pgid = 0 then pid else pgid
  match s.findPid pid with
  | none => (-esrch, s)
  | some i =>
    if (s.job i).leader then (-eperm, s)
    else if (s.job i).session ≠ (s.job t).session then (-eperm, s)
    else (0, s.setPgrp i pgid)

def sysSetsid (s : Jobs) (t : Nat) (p : Proc) : Int × Jobs :=
  if (s.job t).uid ≠ 0 ∧ (s.job t).euid ≠ 0 then (-eperm, s)
  else if (s.job t).leader then (-eperm, s)
  else (p.pid, (s.setPgrp t p.pid).setJob t { s.job t with leader := true, session := p.pid, tty := -1 })

/-- What `sys_open` does for a character device. `none` is a store outside of `tty_table`. -/
def openTty (s : Jobs) (t : Nat) (p : Proc) (major minor : Nat) : Option Jobs :=
  if major = 4 ∧ (s.job t).leader ∧ (s.job t).tty < 0 then
    if minor < nrTty then some ((s.setJob t { s.job t with tty := minor }).setTtyPgrp minor p.pgrp) else none
  else some s

/-- `TIOCSPGRP` of `tty_ioctl`. `none` is a panic or a store outside of `tty_table`. -/
def tiocspgrp (s : Jobs) (t : Nat) (major minor : Nat) (pgrp : Int) : Option Jobs :=
  let dev : Int := if major = 5 then (s.job t).tty else minor
  if 0 ≤ dev ∧ dev < nrTty then some (s.setTtyPgrp dev.toNat pgrp) else none

/-- `do_timer` while task `t` runs. -/
def doTimer (s : Jobs) (t : Nat) (cpl : Nat) : Jobs :=
  if cpl ≠ 0 then s.setJob t { s.job t with utime := (s.job t).utime + 1 }
  else s.setJob t { s.job t with stime := (s.job t).stime + 1 }

end Jobs

inductive JobEvent
  | fork (t : Nat) (mem : Bool)
  | beginExit (t : Nat)
  | endExit (t : Nat)
  | waitpid (t : Nat) (pid : Int)
  | setpgid (t : Nat) (pid pgid : Int)
  | setsid (t : Nat)
  | setIds (t : Nat) (uid euid : UInt16)
  | openTty (t : Nat) (major minor : Nat)
  | tiocspgrp (t : Nat) (major minor : Nat) (pgrp : Int)
  | timer (t : Nat) (cpl : Nat)
deriving DecidableEq

/-- The task in slot `t`, if it can make a system call: task 0 only forks and pauses. -/
def Jobs.caller (s : Jobs) (t : Nat) : Option Proc := (s.procs.task t).bind fun p => if p.exiting ∨ t = 0 then none else some p

def jobStep (s : Jobs) : JobEvent → Option Jobs
  | .fork t mem => (s.procs.task t).bind fun p => if p.exiting then none else s.fork t p mem
  | .beginExit t => (s.caller t).map fun p => { s with procs := s.procs.beginExit t p }
  | .endExit t => (s.procs.task t).bind fun p => if p.exiting ∧ ¬ p.zombie then some (s.endExit t p) else none
  | .waitpid t pid => (s.caller t).map fun p => s.waitpid t p pid
  | .setpgid t pid pgid => (s.caller t).map fun p => (s.sysSetpgid t p pid pgid).2
  | .setsid t => (s.caller t).map fun p => (s.sysSetsid t p).2
  | .setIds t uid euid => (s.caller t).map fun _ => s.setJob t { s.job t with uid := uid, euid := euid }
  | .openTty t major minor => (s.caller t).bind fun p => s.openTty t p major minor
  | .tiocspgrp t major minor pgrp => (s.caller t).bind fun _ => s.tiocspgrp t major minor pgrp
  | .timer t cpl => (s.procs.task t).map fun _ => s.doTimer t cpl

def jobInit : Jobs where
  procs := procInit
  job := fun _ => {}
  ttyPgrp := fun _ => 0

/-- What a step makes of the task that it leaves in slot `i`, as far as sessions go. -/
inductive Jobs.Became (s s' : Jobs) (e : JobEvent) (i : Nat) (p : Proc) : Prop
  | kept (d : Proc) (old : s.procs.task i = some d) (pid : p.pid = d.pid) (pgrp : p.pgrp = d.pgrp)
    (session : (s'.job i).session = (s.job i).session) (leader : (s'.job i).leader = (s.job i).leader)
  | moved (d cur : Proc) (t : Nat) (pid pgid : Int) (event : e = .setpgid t pid pgid) (old : s.procs.task i = some d)
    (caller : s.caller t = some cur) (target : d.pid = if pid = 0 then cur.pid else pid) (same : p.pid = d.pid)
    (pgrp : p.pgrp = if pgid = 0 then d.pid else pgid) (session : (s.job i).session = (s.job t).session)
    (kept : (s'.job i).session = (s.job i).session) (leader : (s.job i).leader = false) (follows : (s'.job i).leader = false)
  | led (d : Proc) (event : e = .setsid i) (old : s.procs.task i = some d) (caller : s.caller i = some d) (same : p.pid = d.pid)
    (pgrp : p.pgrp = d.pid) (session : (s'.job i).session = d.pid)
  | born (d : Proc) (t : Nat) (mem : Bool) (event : e = .fork t mem) (free : s.procs.task i = none) (father : s.procs.task t = some d)
    (fresh : s.procs.freshPid (nrTasks + 1) s.procs.lastPid = some p.pid) (pgrp : p.pgrp = d.pgrp)
    (session : (s'.job i).session = (s.job t).session) (leader : (s'.job i).leader = false) (nonzero : i ≠ 0)

namespace Jobs

variable {s s' : Jobs} {e : JobEvent} {i t : Nat} {p d cur : Proc}

theorem caller_some (h : s.caller t = some p) : s.procs.task t = some p ∧ p.exiting = false ∧ t ≠ 0 := by
  obtain ⟨d, task, running⟩ := Option.bind_eq_some_iff.mp h
  split at running
  next => cases running
  next free =>
    cases Option.some.inj running
    exact ⟨task, by simpa using fun exiting => free (Or.inl exiting), fun zero => free (Or.inr zero)⟩

theorem findPid_some {pid : Int} (h : s.findPid pid = some i) : ∃ d, s.procs.task i = some d ∧ d.pid = pid := by
  have found := List.find?_some h
  cases task : s.procs.task i with
  | none =>
    rw [task] at found
    cases found
  | some d =>
    rw [task] at found
    exact ⟨d, rfl, by simpa using found⟩

theorem setPgrp_task {pgrp : Int} {u : Nat} {r : Proc} (h : (s.procs.setPgrp i pgrp).task u = some r) :
    ∃ d, s.procs.task u = some d ∧ r = if u = i then { d with pgrp := pgrp } else d := by
  rcases ProcTable.setTask_cases h with ⟨rfl, changed⟩ | ⟨other, same⟩
  · obtain ⟨d, task, rfl⟩ := Option.map_eq_some_iff.mp changed
    exact ⟨d, task, (if_pos rfl).symm⟩
  · exact ⟨r, same, (if_neg other).symm⟩

theorem setJob_self {j : Job} : (s.setJob i j).job i = j := Function.update_self ..

theorem setJob_other {j : Job} {u : Nat} (hu : u ≠ i) : (s.setJob i j).job u = s.job u := Function.update_of_ne hu _ _

theorem Became.unchanged (task : s.procs.task i = some p) (jobs : (s'.job i).session = (s.job i).session ∧ (s'.job i).leader = (s.job i).leader) :
    Became s s' e i p := .kept p task rfl rfl jobs.1 jobs.2

/-- The other fields of one task may change. -/
theorem Became.of_setJob (j : Job) (jobs : s'.job = (s.setJob t j).job) (session : j.session = (s.job t).session)
    (leader : j.leader = (s.job t).leader) (task : s.procs.task i = some p) : Became s s' e i p := by
  refine .unchanged task ?_
  rw [jobs]
  by_cases same : i = t
  · rw [same, setJob_self]
    exact ⟨session, leader⟩
  · rw [setJob_other same]
    exact ⟨rfl, rfl⟩

theorem fork_became {mem : Bool} (father : s.procs.task t = some cur) (hs : s.fork t cur mem = some s') (hp : s'.procs.task i = some p) :
    Became s s' (.fork t mem) i p := by
  obtain ⟨procs, forked, same⟩ := Option.map_eq_some_iff.mp hs
  obtain ⟨pid, fresh, table⟩ := Option.map_eq_some_iff.mp forked
  cases slot : s.procs.emptySlot (nrTasks - 1) 1 with
  | none =>
    simp only [slot] at same table
    subst table same
    exact .unchanged hp ⟨rfl, rfl⟩
  | some nr =>
    simp only [slot] at same table
    split at table
    next made =>
      rw [if_pos made] at same
      subst table same
      obtain ⟨first, -, free⟩ := ProcTable.emptySlot_spec slot
      rcases ProcTable.setTask_cases hp with ⟨rfl, new⟩ | ⟨other, old⟩
      · cases Option.some.inj new
        exact .born cur t mem rfl free father fresh rfl (by rw [setJob_self]; rfl) (by rw [setJob_self]; rfl) (by omega)
      · exact .unchanged old (by rw [setJob_other other]; exact ⟨rfl, rfl⟩)
    next failed =>
      rw [if_neg failed] at same
      subst table same
      exact .unchanged hp ⟨rfl, rfl⟩

theorem setpgid_became {pid pgid : Int} (caller : s.caller t = some cur) (hs : (s.sysSetpgid t cur pid pgid).2 = s')
    (hp : s'.procs.task i = some p) : Became s s' (.setpgid t pid pgid) i p := by
  unfold sysSetpgid at hs
  dsimp only at hs
  split at hs
  next =>
    subst hs
    exact .unchanged hp ⟨rfl, rfl⟩
  next k found =>
    split at hs
    next =>
      subst hs
      exact .unchanged hp ⟨rfl, rfl⟩
    next follows =>
      split at hs
      next =>
        subst hs
        exact .unchanged hp ⟨rfl, rfl⟩
      next session =>
        subst hs
        obtain ⟨d, old, changed⟩ := setPgrp_task hp
        by_cases target : i = k
        · subst target
          obtain ⟨d', old', name⟩ := findPid_some found
          cases Option.some.inj (old.symm.trans old')
          rw [if_pos rfl] at changed
          subst changed
          rw [← name] at hp ⊢
          have free : (s.job i).leader = false := by simpa using follows
          refine .moved d cur t pid pgid rfl old caller name rfl ?_ (not_not.mp session) rfl free free
          rw [name]
        · rw [if_neg target] at changed
          subst changed
          exact .unchanged old ⟨rfl, rfl⟩

theorem setsid_became (caller : s.caller t = some cur) (hs : (s.sysSetsid t cur).2 = s') (hp : s'.procs.task i = some p) :
    Became s s' (.setsid t) i p := by
  unfold sysSetsid at hs
  split at hs
  next =>
    subst hs
    exact .unchanged hp ⟨rfl, rfl⟩
  next =>
    split at hs
    next =>
      subst hs
      exact .unchanged hp ⟨rfl, rfl⟩
    next =>
      subst hs
      obtain ⟨d, old, changed⟩ := setPgrp_task hp
      by_cases self : i = t
      · subst self
        cases Option.some.inj (old.symm.trans (caller_some caller).1)
        rw [if_pos rfl] at changed
        subst changed
        exact .led cur rfl old caller rfl rfl (congrArg Job.session setJob_self)
      · rw [if_neg self] at changed
        subst changed
        exact .unchanged old (by rw [setJob_other self]; exact ⟨rfl, rfl⟩)

theorem beginExit_pgrp (h : (s.procs.beginExit t cur).task i = some p) :
    ∃ d, s.procs.task i = some d ∧ p.pid = d.pid ∧ p.pgrp = d.pgrp := by
  have orphaned {r : Proc} (hr : (s.procs.orphan cur.pid).task i = some r) : ∃ d, s.procs.task i = some d ∧ r.pid = d.pid ∧ r.pgrp = d.pgrp := by
    obtain ⟨d, old, rfl⟩ := Option.map_eq_some_iff.mp hr
    refine ⟨d, old, ?_⟩
    split <;> exact ⟨rfl, rfl⟩
  rcases ProcTable.setTask_cases h with ⟨rfl, marked⟩ | ⟨-, same⟩
  · obtain ⟨r, hr, rfl⟩ := Option.map_eq_some_iff.mp marked
    obtain ⟨d, old, pid, pgrp⟩ := orphaned hr
    exact ⟨d, old, pid, pgrp⟩
  · exact orphaned same

theorem endExit_pgrp (task : s.procs.task t = some cur) (h : (s.procs.endExit t cur).task i = some p) :
    ∃ d, s.procs.task i = some d ∧ p.pid = d.pid ∧ p.pgrp = d.pgrp := by
  unfold ProcTable.endExit at h
  split at h
  next =>
    rcases ProcTable.setTask_cases h with ⟨rfl, zombie⟩ | ⟨-, same⟩
    · cases Option.some.inj zombie
      exact ⟨cur, task, rfl, rfl⟩
    · exact ⟨p, same, rfl, rfl⟩
  next =>
    rcases ProcTable.setTask_cases h with ⟨-, gone⟩ | ⟨-, same⟩
    · cases gone
    · exact ⟨p, same, rfl, rfl⟩

theorem jobStep_became (hs : jobStep s e = some s') (hp : s'.procs.task i = some p) : Became s s' e i p := by
  cases e with
  | fork t mem =>
    obtain ⟨cur, father, running⟩ := Option.bind_eq_some_iff.mp hs
    split at running
    next => cases running
    next => exact fork_became father running hp
  | beginExit t =>
    obtain ⟨cur, -, rfl⟩ := Option.map_eq_some_iff.mp hs
    obtain ⟨d, old, pid, pgrp⟩ := beginExit_pgrp hp
    exact .kept d old pid pgrp rfl rfl
  | endExit t =>
    obtain ⟨cur, task, running⟩ := Option.bind_eq_some_iff.mp hs
    split at running
    next =>
      cases Option.some.inj running
      unfold Jobs.endExit at hp ⊢
      dsimp only at hp ⊢
      split at hp
      next freed =>
        obtain ⟨d, old, pid, pgrp⟩ := endExit_pgrp task hp
        rw [if_pos freed]
        exact .kept d old pid pgrp rfl rfl
      next freed =>
        obtain ⟨d, old, pid, pgrp⟩ := endExit_pgrp task hp
        rw [if_neg freed]
        exact .kept d old pid pgrp rfl rfl
    next => cases running
  | waitpid t pid =>
    obtain ⟨cur, -, rfl⟩ := Option.map_eq_some_iff.mp hs
    unfold Jobs.waitpid at hp ⊢
    split at hp
    next => exact .unchanged hp ⟨rfl, rfl⟩
    next k _ =>
      rcases ProcTable.setTask_cases hp with ⟨-, gone⟩ | ⟨-, old⟩
      · cases gone
      · exact .of_setJob { s.job t with
          cutime := (s.job t).cutime + (s.job k).utime, cstime := (s.job t).cstime + (s.job k).stime } rfl rfl rfl old
  | setpgid t pid pgid =>
    obtain ⟨cur, caller, same⟩ := Option.map_eq_some_iff.mp hs
    exact setpgid_became caller same hp
  | setsid t =>
    obtain ⟨cur, caller, same⟩ := Option.map_eq_some_iff.mp hs
    exact setsid_became caller same hp
  | setIds t uid euid =>
    obtain ⟨cur, -, rfl⟩ := Option.map_eq_some_iff.mp hs
    exact .of_setJob { s.job t with uid := uid, euid := euid } rfl rfl rfl hp
  | openTty t major minor =>
    obtain ⟨cur, -, opened⟩ := Option.bind_eq_some_iff.mp hs
    unfold Jobs.openTty at opened
    split at opened
    next =>
      obtain ⟨-, same⟩ := Option.ite_none_right_eq_some.mp opened
      cases Option.some.inj same
      exact .of_setJob { s.job t with tty := minor } rfl rfl rfl hp
    next =>
      cases Option.some.inj opened
      exact .unchanged hp ⟨rfl, rfl⟩
  | tiocspgrp t major minor pgrp =>
    obtain ⟨cur, -, set⟩ := Option.bind_eq_some_iff.mp hs
    obtain ⟨-, same⟩ := Option.ite_none_right_eq_some.mp set
    cases Option.some.inj same
    exact .unchanged hp ⟨rfl, rfl⟩
  | timer t cpl =>
    obtain ⟨cur, -, rfl⟩ := Option.map_eq_some_iff.mp hs
    unfold Jobs.doTimer at hp ⊢
    split at hp
    next user => 
      rw [if_pos user]
      exact .of_setJob { s.job t with utime := (s.job t).utime + 1 } rfl rfl rfl hp
    next user =>
      rw [if_neg user]
      exact .of_setJob { s.job t with stime := (s.job t).stime + 1 } rfl rfl rfl hp

/-- The tree of processes does not depend on the groups. -/
theorem setPgrp_inv {pgrp : Int} (h : s.procs.Inv) : (s.procs.setPgrp i pgrp).Inv := by
  have back {u : Nat} {r : Proc} (hr : (s.procs.setPgrp i pgrp).task u = some r) : ∃ d, s.procs.task u = some d ∧ r.pid = d.pid ∧
      r.father = d.father ∧ r.zombie = d.zombie ∧ r.exiting = d.exiting := by
    obtain ⟨d, old, rfl⟩ := setPgrp_task hr
    refine ⟨d, old, ?_⟩
    split <;> exact ⟨rfl, rfl, rfl, rfl⟩
  have forth {u : Nat} {d : Proc} (hd : s.procs.task u = some d) : ∃ r, (s.procs.setPgrp i pgrp).task u = some r ∧ r.pid = d.pid ∧
      r.zombie = d.zombie ∧ r.exiting = d.exiting := by
    by_cases same : u = i
    · subst same
      exact ⟨{ d with pgrp := pgrp }, by unfold ProcTable.setPgrp; rw [ProcTable.setTask_self, hd]; rfl, rfl, rfl, rfl⟩
    · exact ⟨d, by unfold ProcTable.setPgrp; rw [ProcTable.setTask_other same, hd], rfl, rfl, rfl⟩
  refine ⟨fun u r hu => ?_, ?_, fun u r hu hu0 => ?_, fun u v r q hu hv hrq => ?_, h.last_nonneg, fun u r hu hu0 hr => ?_, fun u r hu hz => ?_⟩
  · obtain ⟨d, old, -⟩ := back hu
    exact h.low u d old
  · obtain ⟨d, old, pid, zombie, exiting⟩ := h.idle
    obtain ⟨r, now, same, same', same''⟩ := forth old
    exact ⟨r, now, same.trans pid, same'.trans zombie, same''.trans exiting⟩
  · obtain ⟨d, old, pid, -⟩ := back hu
    rw [pid]
    exact h.pid_pos u d old hu0
  · obtain ⟨d, oldD, pidD, -⟩ := back hu
    obtain ⟨c, oldC, pidC, -⟩ := back hv
    exact h.pid_inj u v d c oldD oldC (by rw [← pidD, ← pidC, hrq])
  · obtain ⟨d, old, -, father, -⟩ := back hu
    obtain ⟨v, q, hv, pid, zombie, exiting⟩ := h.father u d old hu0 (father ▸ hr)
    obtain ⟨c, now, same, same', same''⟩ := forth hv
    exact ⟨v, c, now, (same.trans pid).trans father.symm, same'.trans zombie, same''.trans exiting⟩
  · obtain ⟨d, old, -, -, zombie, exiting⟩ := back hu
    rw [exiting]
    exact h.zombie u d old (zombie.symm.trans hz)

theorem jobStep_inv (h : s.procs.Inv) (hs : jobStep s e = some s') : s'.procs.Inv := by
  cases e with
  | fork t mem =>
    obtain ⟨cur, father, running⟩ := Option.bind_eq_some_iff.mp hs
    split at running
    next => cases running
    next free =>
      obtain ⟨procs, forked, rfl⟩ := Option.map_eq_some_iff.mp running
      have kept := h.fork father (by simpa using free) forked
      split
      next => exact kept
      next => split <;> exact kept
  | beginExit t =>
    obtain ⟨cur, caller, rfl⟩ := Option.map_eq_some_iff.mp hs
    obtain ⟨task, -, nonzero⟩ := caller_some caller
    exact h.beginExit task nonzero
  | endExit t =>
    obtain ⟨cur, task, running⟩ := Option.bind_eq_some_iff.mp hs
    obtain ⟨exiting, same⟩ := Option.ite_none_right_eq_some.mp running
    cases Option.some.inj same
    unfold Jobs.endExit
    dsimp only
    split <;> exact h.endExit task exiting.1
  | waitpid t pid =>
    obtain ⟨cur, -, rfl⟩ := Option.map_eq_some_iff.mp hs
    have kept : (s.procs.waitpid t cur pid).Inv := h.waitpid
    unfold ProcTable.waitpid at kept
    unfold Jobs.waitpid
    split
    next none => rwa [none] at kept
    next k found => rwa [found] at kept
  | setpgid t pid pgid =>
    obtain ⟨cur, -, rfl⟩ := Option.map_eq_some_iff.mp hs
    unfold sysSetpgid
    dsimp only
    split
    next => exact h
    next =>
      split
      next => exact h
      next =>
        split
        next => exact h
        next => exact setPgrp_inv h
  | setsid t =>
    obtain ⟨cur, -, rfl⟩ := Option.map_eq_some_iff.mp hs
    unfold sysSetsid
    split
    next => exact h
    next =>
      split
      next => exact h
      next => exact setPgrp_inv h
  | setIds t uid euid =>
    obtain ⟨cur, -, rfl⟩ := Option.map_eq_some_iff.mp hs
    exact h
  | openTty t major minor =>
    obtain ⟨cur, -, opened⟩ := Option.bind_eq_some_iff.mp hs
    unfold Jobs.openTty at opened
    split at opened
    next =>
      obtain ⟨-, same⟩ := Option.ite_none_right_eq_some.mp opened
      cases Option.some.inj same
      exact h
    next =>
      cases Option.some.inj opened
      exact h
  | tiocspgrp t major minor pgrp =>
    obtain ⟨cur, -, set⟩ := Option.bind_eq_some_iff.mp hs
    obtain ⟨-, same⟩ := Option.ite_none_right_eq_some.mp set
    cases Option.some.inj same
    exact h
  | timer t cpl =>
    obtain ⟨cur, -, rfl⟩ := Option.map_eq_some_iff.mp hs
    unfold Jobs.doTimer
    split <;> exact h

/-- A leader's session and group are its own. -/
def Led (s : Jobs) : Prop :=
  ∀ i p, s.procs.task i = some p → (s.job i).leader = true → (s.job i).session = p.pid ∧ p.pgrp = p.pid

theorem jobStep_led (h : s.Led) (hs : jobStep s e = some s') : s'.Led := by
  intro i p hp leads
  cases jobStep_became hs hp with
  | kept d old pid pgrp session leader =>
    rw [session, pid, pgrp]
    exact h i d old (leader.symm.trans leads)
  | moved d cur t pid pgid event old caller target same pgrp session kept leader follows =>
    rw [follows] at leads
    cases leads
  | led d event old caller same pgrp session =>
    rw [session, pgrp, same]
    exact ⟨rfl, rfl⟩
  | born d t mem event free father fresh pgrp session leader nonzero =>
    rw [leader] at leads
    cases leads

/-- What POSIX asks of these calls and the kernel does not check: a group that is joined is one of the session, and whoever starts a session
does not lend its pid to a group with others in it. And `last_pid` has not wrapped. -/
def Orderly (s : Jobs) : JobEvent → Prop
  | .fork _ _ => ∀ pid, s.procs.freshPid (nrTasks + 1) s.procs.lastPid = some pid → s.procs.lastPid < pid
  | .setpgid t pid pgid => ∀ cur, s.caller t = some cur → pgid = 0 ∨ (pgid = if pid = 0 then cur.pid else pid) ∨
      ∃ i p, s.procs.task i = some p ∧ p.pgrp = pgid ∧ (s.job i).session = (s.job t).session
  | .setsid t => ∀ cur, s.caller t = some cur → ∀ i p, s.procs.task i = some p → p.pgrp = cur.pid → i = t
  | _ => True

/-- Every number of a task or a group belongs to one session. -/
structure Grouped (s : Jobs) (f : Int → Int) : Prop where
  member : ∀ i p, s.procs.task i = some p → (s.job i).session = f p.pgrp ∧ (s.job i).session = f p.pid
  used : ∀ i p, s.procs.task i = some p → p.pgrp ≤ s.procs.lastPid ∧ p.pid ≤ s.procs.lastPid

theorem fork_lastPid {mem : Bool} (hs : jobStep s (.fork t mem) = some s') :
    s.procs.freshPid (nrTasks + 1) s.procs.lastPid = some s'.procs.lastPid := by
  obtain ⟨cur, father, running⟩ := Option.bind_eq_some_iff.mp hs
  split at running
  next => cases running
  next free =>
    obtain ⟨procs, forked, rfl⟩ := Option.map_eq_some_iff.mp running
    obtain ⟨pid, fresh, table⟩ := Option.map_eq_some_iff.mp forked
    have last : procs.lastPid = pid := by
      subst table
      split
      next => rfl
      next => split <;> rfl
    rw [fresh, ← last]
    split
    next => rfl
    next => split <;> rfl

theorem sysSetsid_cases : (s.sysSetsid t cur).2 = s ∨ (s.sysSetsid t cur).2.procs = s.procs.setPgrp t cur.pid ∧
    ((s.sysSetsid t cur).2.job t).session = cur.pid ∧ ∀ u ≠ t, (s.sysSetsid t cur).2.job u = s.job u := by
  unfold sysSetsid
  split
  next => exact Or.inl rfl
  next =>
    split
    next => exact Or.inl rfl
    next => exact Or.inr ⟨rfl, congrArg Job.session setJob_self, fun u other => setJob_other other⟩

theorem Grouped.fork {f : Int → Int} {mem : Bool} (h : s.Grouped f) (ok : s.Orderly (.fork t mem)) (hs : jobStep s (.fork t mem) = some s') :
    ∃ f, s'.Grouped f := by
  have fresh := fork_lastPid hs
  have later : s.procs.lastPid < s'.procs.lastPid := ok _ fresh
  refine ⟨Function.update f s'.procs.lastPid (s.job t).session, fun i p hp => ?_, fun i p hp => ?_⟩
  · cases jobStep_became hs hp with
    | kept d old pid pgrp session leader =>
      have low := h.used i d old
      rw [session, pid, pgrp, Function.update_of_ne (by omega), Function.update_of_ne (by omega)]
      exact h.member i d old
    | moved d cur t pid pgid event => cases event
    | led d event => cases event
    | born d t' mem' event free father new pgrp session leader nonzero =>
      cases event
      have low := h.used t d father
      have own : p.pid = s'.procs.lastPid := Option.some.inj (new.symm.trans fresh)
      rw [session, own, pgrp, Function.update_of_ne (by omega), Function.update_self]
      exact ⟨(h.member t d father).1, rfl⟩
  · cases jobStep_became hs hp with
    | kept d old pid pgrp session leader =>
      have low := h.used i d old
      omega
    | moved d cur t pid pgid event => cases event
    | led d event => cases event
    | born d t' mem' event free father new pgrp session leader nonzero =>
      have low := h.used t' d father
      have own : p.pid = s'.procs.lastPid := Option.some.inj (new.symm.trans fresh)
      omega

theorem Grouped.setsid {f : Int → Int} (h : s.Grouped f) (inv : s.procs.Inv) (ok : s.Orderly (.setsid t))
    (hs : jobStep s (.setsid t) = some s') : ∃ f, s'.Grouped f := by
  obtain ⟨cur, caller, rfl⟩ := Option.map_eq_some_iff.mp hs
  rcases @sysSetsid_cases s t cur with same | ⟨procs, session, others⟩
  · rw [same]
    exact ⟨f, h⟩
  have current := (caller_some caller).1
  have back {i : Nat} {p : Proc} (hp : (s.sysSetsid t cur).2.procs.task i = some p) :
      i = t ∧ p.pid = cur.pid ∧ p.pgrp = cur.pid ∨ i ≠ t ∧ s.procs.task i = some p := by
    rw [procs] at hp
    obtain ⟨d, old, changed⟩ := setPgrp_task hp
    by_cases self : i = t
    · subst self
      cases Option.some.inj (old.symm.trans current)
      rw [if_pos rfl] at changed
      subst changed
      exact Or.inl ⟨rfl, rfl, rfl⟩
    · rw [if_neg self] at changed
      subst changed
      exact Or.inr ⟨self, old⟩
  refine ⟨Function.update f cur.pid cur.pid, fun i p hp => ?_, fun i p hp => ?_⟩
  · rcases back hp with ⟨rfl, pid, pgrp⟩ | ⟨other, old⟩
    · rw [session, pid, pgrp, Function.update_self]
      exact ⟨rfl, rfl⟩
    · have apart : p.pgrp ≠ cur.pid := fun lent => other (ok cur caller i p old lent)
      have distinct : p.pid ≠ cur.pid := fun same => other (inv.pid_inj i t p cur old current same)
      rw [others i other, Function.update_of_ne apart, Function.update_of_ne distinct]
      exact h.member i p old
  · have last : (s.sysSetsid t cur).2.procs.lastPid = s.procs.lastPid := by
      rw [procs]
      rfl
    rw [last]
    rcases back hp with ⟨rfl, pid, pgrp⟩ | ⟨-, old⟩
    · have low := h.used i cur current
      omega
    · exact h.used i p old

theorem jobStep_lastPid (hs : jobStep s e = some s') : s'.procs.lastPid = s.procs.lastPid ∨ ∃ t mem, e = .fork t mem := by
  cases e with
  | fork t mem => exact Or.inr ⟨t, mem, rfl⟩
  | beginExit t =>
    obtain ⟨cur, -, rfl⟩ := Option.map_eq_some_iff.mp hs
    exact Or.inl rfl
  | endExit t =>
    obtain ⟨cur, -, running⟩ := Option.bind_eq_some_iff.mp hs
    obtain ⟨-, same⟩ := Option.ite_none_right_eq_some.mp running
    cases Option.some.inj same
    unfold Jobs.endExit ProcTable.endExit
    dsimp only
    split <;> split <;> exact Or.inl rfl
  | waitpid t pid =>
    obtain ⟨cur, -, rfl⟩ := Option.map_eq_some_iff.mp hs
    unfold Jobs.waitpid
    split <;> exact Or.inl rfl
  | setpgid t pid pgid =>
    obtain ⟨cur, -, rfl⟩ := Option.map_eq_some_iff.mp hs
    unfold sysSetpgid
    dsimp only
    split
    next => exact Or.inl rfl
    next => split <;> [skip; split] <;> exact Or.inl rfl
  | setsid t =>
    obtain ⟨cur, -, rfl⟩ := Option.map_eq_some_iff.mp hs
    rcases @sysSetsid_cases s t cur with same | ⟨procs, -⟩
    · rw [same]
      exact Or.inl rfl
    · rw [procs]
      exact Or.inl rfl
  | setIds t uid euid =>
    obtain ⟨cur, -, rfl⟩ := Option.map_eq_some_iff.mp hs
    exact Or.inl rfl
  | openTty t major minor =>
    obtain ⟨cur, -, opened⟩ := Option.bind_eq_some_iff.mp hs
    unfold Jobs.openTty at opened
    split at opened
    next =>
      obtain ⟨-, same⟩ := Option.ite_none_right_eq_some.mp opened
      cases Option.some.inj same
      exact Or.inl rfl
    next =>
      cases Option.some.inj opened
      exact Or.inl rfl
  | tiocspgrp t major minor pgrp =>
    obtain ⟨cur, -, set⟩ := Option.bind_eq_some_iff.mp hs
    obtain ⟨-, same⟩ := Option.ite_none_right_eq_some.mp set
    cases Option.some.inj same
    exact Or.inl rfl
  | timer t cpl =>
    obtain ⟨cur, -, rfl⟩ := Option.map_eq_some_iff.mp hs
    unfold Jobs.doTimer
    split <;> exact Or.inl rfl

/-- The group that a task is put into is its own, or one of the caller's session. -/
theorem Orderly.group {pid pgid : Int} (ok : s.Orderly (.setpgid t pid pgid)) (caller : s.caller t = some cur)
    (target : d.pid = if pid = 0 then cur.pid else pid) (pgrp : p.pgrp = if pgid = 0 then d.pid else pgid) :
    p.pgrp = d.pid ∨ ∃ k q, s.procs.task k = some q ∧ q.pgrp = p.pgrp ∧ (s.job k).session = (s.job t).session := by
  by_cases zero : pgid = 0
  · rw [if_pos zero] at pgrp
    exact Or.inl pgrp
  rw [if_neg zero] at pgrp
  rcases ok cur caller with none | own | ⟨k, q, task, group, session⟩
  · exact absurd none zero
  · exact Or.inl ((pgrp.trans own).trans target.symm)
  · exact Or.inr ⟨k, q, task, group.trans pgrp.symm, session⟩

theorem jobStep_grouped {f : Int → Int} (h : s.Grouped f) (inv : s.procs.Inv) (ok : s.Orderly e) (hs : jobStep s e = some s') :
    ∃ f, s'.Grouped f := by
  by_cases forks : ∃ t mem, e = .fork t mem
  · obtain ⟨t, mem, rfl⟩ := forks
    exact h.fork ok hs
  by_cases leads : ∃ t, e = .setsid t
  · obtain ⟨t, rfl⟩ := leads
    exact h.setsid inv ok hs
  have last := (jobStep_lastPid hs).resolve_right forks
  refine ⟨f, fun i p hp => ?_, fun i p hp => ?_⟩
  · cases jobStep_became hs hp with
    | kept d old pid pgrp session leader =>
      rw [session, pid, pgrp]
      exact h.member i d old
    | moved d cur t pid pgid event old caller target same pgrp session kept leader follows =>
      subst event
      have member := h.member i d old
      rw [kept, same]
      rcases ok.group caller target pgrp with own | ⟨k, q, task, group, shared⟩
      · rw [own]
        exact ⟨member.2, member.2⟩
      · rw [← group, session, ← shared]
        exact ⟨(h.member k q task).1, (shared.trans session.symm).trans member.2⟩
    | led d event => exact absurd ⟨i, event⟩ leads
    | born d t mem event => exact absurd ⟨t, mem, event⟩ forks
  · rw [last]
    cases jobStep_became hs hp with
    | kept d old pid pgrp session leader =>
      rw [pid, pgrp]
      exact h.used i d old
    | moved d cur t pid pgid event old caller target same pgrp session kept leader follows =>
      subst event
      rw [same]
      refine ⟨?_, (h.used i d old).2⟩
      rcases ok.group caller target pgrp with own | ⟨k, q, task, group, shared⟩
      · rw [own]
        exact (h.used i d old).2
      · rw [← group]
        exact (h.used k q task).1
    | led d event => exact absurd ⟨i, event⟩ leads
    | born d t mem event => exact absurd ⟨t, mem, event⟩ forks

theorem jobInit_led : jobInit.Led := fun _ _ _ leads => nomatch leads

theorem jobInit_grouped : jobInit.Grouped fun _ => 0 := by
  refine ⟨fun i p hp => ⟨rfl, rfl⟩, fun i p hp => ?_⟩
  obtain ⟨-, same⟩ := Option.ite_none_right_eq_some.mp hp
  cases Option.some.inj same
  exact ⟨Int.le_refl _, Int.le_refl _⟩

end Jobs

/-- Every session leader leads a session and a group of its own number, and no session has two leaders. -/
theorem session_leaders {s : Jobs} (h : Machine.Reach jobStep (fun _ _ => True) jobInit s) :
    (∀ i p, s.procs.task i = some p → (s.job i).leader = true → (s.job i).session = p.pid ∧ p.pgrp = p.pid) ∧
    ∀ i j p r, s.procs.task i = some p → s.procs.task j = some r → (s.job i).leader = true → (s.job j).leader = true →
      (s.job i).session = (s.job j).session → i = j := by
  have kept : s.procs.Inv ∧ s.Led :=
    h.invariant (I := fun s => s.procs.Inv ∧ s.Led) ⟨procInit_inv, Jobs.jobInit_led⟩
      fun s e s' hI _ hs => ⟨Jobs.jobStep_inv hI.1 hs, Jobs.jobStep_led hI.2 hs⟩
  refine ⟨kept.2, fun i j p r hp hr leads leads' same => ?_⟩
  refine kept.1.pid_inj i j p r hp hr ?_
  rw [← (kept.2 i p hp leads).1, ← (kept.2 j r hr leads').1, same]

theorem session_leaders_first : ∃ s p, Machine.exec jobStep jobInit [.fork 0 true, .setsid 1] = some s ∧ s.procs.task 1 = some p ∧
    (s.job 1).session = p.pid ∧ p.pgrp = p.pid := by
  have run : (Machine.exec jobStep jobInit [.fork 0 true, .setsid 1]).map (fun s => (s.procs.task 1, (s.job 1).leader)) =
      some (some ⟨1, 0, 1, false, false⟩, true) := by
    decide +kernel
  obtain ⟨s, reached, same⟩ := Option.map_eq_some_iff.mp run
  obtain ⟨task, leads⟩ := Prod.mk.inj same
  exact ⟨s, _, reached, task, (session_leaders (Machine.Reach.start.exec (fun _ _ _ => trivial) reached)).1 1 _ task leads⟩

/-- In an orderly run every process group lies in one session. -/
theorem groups_in_sessions {s : Jobs} (h : Machine.Reach jobStep Jobs.Orderly jobInit s) {i j : Nat} {p r : Proc}
    (hp : s.procs.task i = some p) (hr : s.procs.task j = some r) (group : p.pgrp = r.pgrp) : (s.job i).session = (s.job j).session := by
  obtain ⟨-, f, grouped⟩ : s.procs.Inv ∧ ∃ f, s.Grouped f := by
    refine h.invariant (I := fun s => s.procs.Inv ∧ ∃ f, s.Grouped f) ⟨procInit_inv, _, Jobs.jobInit_grouped⟩ fun s e s' hI ok hs => ?_
    obtain ⟨inv, f, grouped⟩ := hI
    exact ⟨Jobs.jobStep_inv inv hs, Jobs.jobStep_grouped grouped inv ok hs⟩
  rw [(grouped.member i p hp).1, (grouped.member j r hr).1, group]

/-- The first process starts a session and has a child in it. -/
theorem groups_in_sessions_child : ∃ s, Machine.exec jobStep jobInit [.fork 0 true, .setsid 1, .fork 1 true] = some s ∧
    (s.job 1).session = 1 ∧ (s.job 1).session = (s.job 2).session := by
  let first : Jobs := ⟨⟨Function.update procInit.task 1 (some ⟨1, 0, 0, false, false⟩), 1⟩, Function.update jobInit.job 1 {}, jobInit.ttyPgrp⟩
  have forked : jobStep jobInit (.fork 0 true) = some first := rfl
  have orderly : first.Orderly (.setsid 1) := by
    intro cur caller i p task lent
    cases Option.some.inj (show some ⟨1, 0, 0, false, false⟩ = some cur from caller)
    by_contra other
    rw [show first.procs.task i = procInit.task i from Function.update_of_ne other _ _] at task
    obtain ⟨-, idle⟩ := Option.ite_none_right_eq_some.mp task
    cases Option.some.inj idle
    cases lent
  have rest : (Machine.exec jobStep first [.setsid 1, .fork 1 true]).map (fun s => (s.procs.task 1, s.procs.task 2, (s.job 1).session)) =
      some (some ⟨1, 0, 1, false, false⟩, some ⟨2, 1, 1, false, false⟩, 1) := by
    decide +kernel
  obtain ⟨s, run, same⟩ := Option.map_eq_some_iff.mp rest
  obtain ⟨task, also⟩ := Prod.mk.inj same
  obtain ⟨task', session⟩ := Prod.mk.inj also
  obtain ⟨second, led, last⟩ := Option.bind_eq_some_iff.mp run
  obtain ⟨third, forked', done⟩ := Option.bind_eq_some_iff.mp last
  cases Option.some.inj done
  have reach : Machine.Reach jobStep Jobs.Orderly jobInit s := by
    refine .next (.next (.next .start ?_ forked) orderly led) ?_ forked'
    · intro pid fresh
      cases Option.some.inj (show some 1 = some pid from fresh)
      decide
    · have known : (jobStep first (.setsid 1)).map (fun s => (s.procs.lastPid, s.procs.freshPid (nrTasks + 1) s.procs.lastPid)) =
          some (1, some 2) := by
        decide +kernel
      rw [led] at known
      obtain ⟨lastPid, next⟩ := Prod.mk.inj (Option.some.inj known)
      intro pid fresh
      cases Option.some.inj (fresh.symm.trans next)
      rw [lastPid]
      decide
  exact ⟨s, run, session, groups_in_sessions reach task task' rfl⟩

end RheeKernel
