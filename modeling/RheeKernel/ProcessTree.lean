import Mathlib.Algebra.Group.Int.Defs
import Mathlib.Algebra.Group.Nat.Defs
import Mathlib.Logic.Function.Basic
import RheeKernel.Machine

namespace RheeKernel

def nrTasks : Nat := 64

/-- The part of a task structure that `fork`, `do_exit` and `sys_waitpid` go by. `exiting` is set from the
loop of `do_exit` over the children on. -/
structure Proc where
  pid : Int
  father : Int
  pgrp : Int
  zombie : Bool := false
  exiting : Bool := false
deriving DecidableEq

/-- The array `task[]` and `last_pid`. -/
structure ProcTable where
  task : Nat → Option Proc
  lastPid : Int

namespace ProcTable

def setTask (s : ProcTable) (i : Nat) (p : Option Proc) : ProcTable := { s with task := Function.update s.task i p }

/-- Increment of `last_pid`; past the largest `long` it starts again at 1. -/
def nextPid (last : Int) : Int := if last + 1 < 2 ^ 31 then last + 1 else 1

def pidUsed (s : ProcTable) (pid : Int) : Bool :=
  (List.range nrTasks).any fun i => (s.task i).any fun p => p.pid == pid

/-- The `goto repeat` loop of `find_empty_process`: one try more than there are slots is enough. -/
def freshPid (s : ProcTable) : Nat → Int → Option Int
  | 0, _ => none
  | n + 1, last => if s.pidUsed (nextPid last) then freshPid s n (nextPid last) else some (nextPid last)

/-- The first empty slot from `i` on, among `n` of them. -/
def emptySlot (s : ProcTable) : Nat → Nat → Option Nat
  | 0, _ => none
  | n + 1, i => if (s.task i).isNone then some i else emptySlot s n (i + 1)

/-- `sys_fork` by the task in slot `t`; `mem` says whether `copy_process` gets the pages it needs. -/
def fork (s : ProcTable) (t : Nat) (p : Proc) (mem : Bool) : Option ProcTable :=
  (s.freshPid (nrTasks + 1) s.lastPid).map fun pid =>
    match s.emptySlot (nrTasks - 1) 1 with
    | none => { s with lastPid := pid }
    | some nr =>
      if mem then
        { s with lastPid := pid }.setTask nr (some { p with pid := pid, father := p.pid, zombie := false, exiting := false })
      else { s with lastPid := pid }

/-- The loop of `do_exit` over the children. -/
def orphan (s : ProcTable) (pid : Int) : ProcTable :=
  { s with task := fun i => (s.task i).map fun p => if p.father = pid then { p with father := 0 } else p }

def beginExit (s : ProcTable) (t : Nat) (p : Proc) : ProcTable :=
  (s.orphan p.pid).setTask t (((s.orphan p.pid).task t).map fun p => { p with exiting := true })

/-- The end of `do_exit`: a zombie for its father, or the release of its own structure. -/
def endExit (s : ProcTable) (t : Nat) (p : Proc) : ProcTable :=
  if p.father ≠ 0 then s.setTask t (some { p with zombie := true }) else s.setTask t none

/-- The test that `sys_waitpid` makes on a slot, for the caller `cur` in slot `t`. -/
def waitMatch (t : Nat) (cur : Proc) (pid : Int) (i : Nat) (p : Proc) : Bool :=
  i != t && (pid == -1 || p.pid == pid || (pid == 0 && p.pgrp == cur.pgrp) || (decide (pid < 0) && p.pgrp == -pid)) &&
    p.father == cur.pid && p.zombie

/-- The scan of `sys_waitpid` from slot `i` down to 1 for a zombie to release. -/
def waitScan (s : ProcTable) (t : Nat) (cur : Proc) (pid : Int) : Nat → Option Nat
  | 0 => none
  | i + 1 => if (s.task (i + 1)).any (waitMatch t cur pid (i + 1)) then some (i + 1) else waitScan s t cur pid i

def waitpid (s : ProcTable) (t : Nat) (cur : Proc) (pid : Int) : ProcTable :=
  match s.waitScan t cur pid (nrTasks - 1) with
  | none => s
  | some i => s.setTask i none

end ProcTable

inductive ProcEvent
  | fork (t : Nat) (mem : Bool)
  | beginExit (t : Nat)
  | endExit (t : Nat)
  | waitpid (t : Nat) (pid : Int)
deriving DecidableEq

/-- A task that has not begun to exit forks, waits or begins to exit; `do_exit` may sleep between its two
halves. Task 0 only forks and pauses. -/
def procStep (s : ProcTable) : ProcEvent → Option ProcTable
  | .fork t mem => (s.task t).bind fun p => if p.exiting then none else s.fork t p mem
  | .beginExit t => (s.task t).bind fun p => if p.exiting ∨ t = 0 then none else some (s.beginExit t p)
  | .endExit t => (s.task t).bind fun p => if p.exiting ∧ ¬ p.zombie then some (s.endExit t p) else none
  | .waitpid t pid => (s.task t).bind fun p => if p.exiting ∨ t = 0 then none else some (s.waitpid t p pid)

def procInit : ProcTable where
  task := fun i => if i = 0 then some { pid := 0, father := -1, pgrp := 0 } else none
  lastPid := 0

namespace ProcTable

/-- A task that is neither a zombie nor on its way out, and that is not the idle task. -/
def CanWait (s : ProcTable) (t : Nat) (p : Proc) : Prop :=
  s.task t = some p ∧ t ≠ 0 ∧ p.zombie = false ∧ p.exiting = false

/-- Some live task is the father of `p` and releases slot `u` when it waits for `p`. -/
def Reapable (s : ProcTable) (u : Nat) (p : Proc) : Prop :=
  ∃ t r, s.CanWait t r ∧ r.pid = p.father ∧ (s.waitpid t r p.pid).task u = none

/-- Whoever begins to exit has no zombie among its children. -/
def NoZombieChild (s : ProcTable) : ProcEvent → Prop
  | .beginExit t => ∀ p ∈ s.task t, ∀ u < nrTasks, ∀ c ∈ s.task u, c.father = p.pid → c.zombie = false
  | _ => True

instance {s : ProcTable} {e : ProcEvent} : Decidable (s.NoZombieChild e) :=
  match e with
  | .beginExit t => inferInstanceAs (Decidable (∀ p ∈ s.task t, ∀ u < nrTasks, ∀ c ∈ s.task u, c.father = p.pid → c.zombie = false))
  | .fork _ _ => isTrue trivial
  | .endExit _ => isTrue trivial
  | .waitpid _ _ => isTrue trivial

structure Inv (s : ProcTable) : Prop where
  low : ∀ u p, s.task u = some p → u < nrTasks
  idle : ∃ p, s.task 0 = some p ∧ p.pid = 0 ∧ p.zombie = false ∧ p.exiting = false
  pid_pos : ∀ u p, s.task u = some p → u ≠ 0 → 0 < p.pid
  pid_inj : ∀ u v p r, s.task u = some p → s.task v = some r → p.pid = r.pid → u = v
  last_nonneg : 0 ≤ s.lastPid
  -- The father of a task that still has one is alive.
  father : ∀ u p, s.task u = some p → u ≠ 0 → p.father ≠ 0 →
    ∃ t r, s.task t = some r ∧ r.pid = p.father ∧ r.zombie = false ∧ r.exiting = false
  zombie : ∀ u p, s.task u = some p → p.zombie = true → p.exiting = true

/-- No zombie has lost its father. -/
def Fathered (s : ProcTable) : Prop := ∀ u p, s.task u = some p → p.zombie = true → p.father ≠ 0

theorem freshPid_spec {s : ProcTable} {n : Nat} {last pid : Int} (hlast : 0 ≤ last) (h : s.freshPid n last = some pid) :
    0 < pid ∧ s.pidUsed pid = false := by
  have hnext : 0 < nextPid last := by
    unfold nextPid
    split <;> omega
  induction n generalizing last with
  | zero => simp [freshPid] at h
  | succ n ih =>
    unfold freshPid at h
    split at h
    next => exact ih (by omega) h (by unfold nextPid; split <;> omega)
    next hused =>
      cases Option.some.inj h
      exact ⟨hnext, by simpa using hused⟩

theorem emptySlot_spec {s : ProcTable} {n i nr : Nat} (h : s.emptySlot n i = some nr) :
    i ≤ nr ∧ nr < i + n ∧ s.task nr = none := by
  induction n generalizing i with
  | zero => simp [emptySlot] at h
  | succ n ih =>
    unfold emptySlot at h
    split at h
    next hnone =>
      cases Option.some.inj h
      exact ⟨by omega, by omega, Option.isNone_iff_eq_none.mp hnone⟩
    next =>
      obtain ⟨hle, hlt, hnone⟩ := ih h
      exact ⟨by omega, by omega, hnone⟩

theorem pid_ne_of_unused {s : ProcTable} {pid : Int} {u : Nat} {p : Proc} (hused : s.pidUsed pid = false)
    (hu : s.task u = some p) (hlow : u < nrTasks) : p.pid ≠ pid := by
  intro heq
  have hall := List.any_eq_false.mp hused u (List.mem_range.mpr hlow)
  rw [hu] at hall
  simp [heq] at hall

theorem setTask_self {s : ProcTable} {i : Nat} {p : Option Proc} : (s.setTask i p).task i = p := Function.update_self ..

theorem setTask_other {s : ProcTable} {i u : Nat} {p : Option Proc} (hu : u ≠ i) : (s.setTask i p).task u = s.task u :=
  Function.update_of_ne hu _ _

theorem setTask_cases {s : ProcTable} {i u : Nat} {p : Option Proc} {r : Proc} (h : (s.setTask i p).task u = some r) :
    u = i ∧ p = some r ∨ u ≠ i ∧ s.task u = some r := by
  by_cases hu : u = i
  · subst hu
    exact .inl ⟨rfl, by rwa [setTask_self] at h⟩
  · exact .inr ⟨hu, by rwa [setTask_other hu] at h⟩

theorem Inv.setLastPid {s : ProcTable} (h : s.Inv) {pid : Int} (hpid : 0 ≤ pid) : Inv { s with lastPid := pid } :=
  ⟨h.low, h.idle, h.pid_pos, h.pid_inj, hpid, h.father, h.zombie⟩

/-- A new task in an empty slot, with a pid of its own and a live father. -/
theorem Inv.addTask {s : ProcTable} (h : s.Inv) {t nr : Nat} {p c : Proc} (ht : s.task t = some p) (hp : p.exiting = false)
    (hnr : s.task nr = none) (hlow : nr < nrTasks) (hpid : 0 < c.pid) (hused : s.pidUsed c.pid = false)
    (hfather : c.father = p.pid) (hzombie : c.zombie = false) : (s.setTask nr (some c)).Inv := by
  have hold : ∀ u r, s.task u = some r → (s.setTask nr (some c)).task u = some r := by
    intro u r hu
    have hne : u ≠ nr := by
      intro heq
      rw [heq, hnr] at hu
      simp at hu
    rw [setTask_other hne, hu]
  have hptz : p.zombie = false := by
    cases hz : p.zombie with
    | false => rfl
    | true =>
      have hex := h.zombie t p ht hz
      rw [hp] at hex
      simp at hex
  refine ⟨fun u r hu => ?_, ?_, fun u r hu hu0 => ?_, fun u v r q hu hv hrq => ?_, h.last_nonneg, fun u r hu hu0 hr => ?_,
    fun u r hu hz => ?_⟩
  · rcases setTask_cases hu with ⟨rfl, _⟩ | ⟨_, hu⟩
    · exact hlow
    · exact h.low u r hu
  · obtain ⟨i, hi, hrest⟩ := h.idle
    exact ⟨i, hold 0 i hi, hrest⟩
  · rcases setTask_cases hu with ⟨_, hc⟩ | ⟨_, hu⟩
    · cases Option.some.inj hc
      exact hpid
    · exact h.pid_pos u r hu hu0
  · rcases setTask_cases hu with ⟨rfl, hc⟩ | ⟨_, hu⟩
    · rcases setTask_cases hv with ⟨rfl, _⟩ | ⟨_, hv⟩
      · rfl
      · cases Option.some.inj hc
        exact absurd hrq.symm (pid_ne_of_unused hused hv (h.low v q hv))
    · rcases setTask_cases hv with ⟨_, hc⟩ | ⟨_, hv⟩
      · cases Option.some.inj hc
        exact absurd hrq (pid_ne_of_unused hused hu (h.low u r hu))
      · exact h.pid_inj u v r q hu hv hrq
  · rcases setTask_cases hu with ⟨_, hc⟩ | ⟨_, hu⟩
    · cases Option.some.inj hc
      exact ⟨t, p, hold t p ht, hfather.symm, hptz, hp⟩
    · obtain ⟨v, q, hv, hrest⟩ := h.father u r hu hu0 hr
      exact ⟨v, q, hold v q hv, hrest⟩
  · rcases setTask_cases hu with ⟨_, hc⟩ | ⟨_, hu⟩
    · cases Option.some.inj hc
      rw [hzombie] at hz
      simp at hz
    · exact h.zombie u r hu hz

theorem Inv.fork {s s' : ProcTable} (h : s.Inv) {t : Nat} {p : Proc} {mem : Bool} (ht : s.task t = some p)
    (hp : p.exiting = false) (hs : s.fork t p mem = some s') : s'.Inv := by
  obtain ⟨pid, hpid, rfl⟩ := Option.map_eq_some_iff.mp hs
  obtain ⟨hpos, hused⟩ := freshPid_spec h.last_nonneg hpid
  have hlast : Inv { s with lastPid := pid } := h.setLastPid (by omega)
  split
  next => exact hlast
  next nr hnr =>
    obtain ⟨_, hlt, hnone⟩ := emptySlot_spec hnr
    split
    next => exact hlast.addTask ht hp hnone (by unfold nrTasks at hlt ⊢; omega) hpos hused rfl rfl
    next => exact hlast

/-- What the loop over the children leaves of a task. -/
theorem beginExit_task {s : ProcTable} {t u : Nat} {p c : Proc} (h : (s.beginExit t p).task u = some c) :
    ∃ d, s.task u = some d ∧ c.pid = d.pid ∧ c.zombie = d.zombie ∧ c.father = (if d.father = p.pid then 0 else d.father) ∧
      c.exiting = (d.exiting || u == t) := by
  have horphan : ∀ {c}, (s.orphan p.pid).task u = some c → ∃ d, s.task u = some d ∧ c.pid = d.pid ∧ c.zombie = d.zombie ∧
      c.father = (if d.father = p.pid then 0 else d.father) ∧ c.exiting = d.exiting := by
    intro c hc
    obtain ⟨d, hd, rfl⟩ := Option.map_eq_some_iff.mp hc
    refine ⟨d, hd, ?_⟩
    split <;> simp
  rcases setTask_cases h with ⟨rfl, hc⟩ | ⟨hne, hc⟩
  · obtain ⟨e, he, rfl⟩ := Option.map_eq_some_iff.mp hc
    obtain ⟨d, hd, hpid, hz, hf, _⟩ := horphan he
    exact ⟨d, hd, hpid, hz, hf, by simp⟩
  · obtain ⟨d, hd, hpid, hz, hf, hex⟩ := horphan hc
    exact ⟨d, hd, hpid, hz, hf, by simp [hex, hne]⟩

theorem beginExit_other {s : ProcTable} {t u : Nat} {p d : Proc} (hd : s.task u = some d) (hne : u ≠ t) :
    ∃ c, (s.beginExit t p).task u = some c ∧ c.pid = d.pid ∧ c.zombie = d.zombie ∧ c.exiting = d.exiting := by
  have hu : (s.beginExit t p).task u = (s.task u).map fun d => if d.father = p.pid then { d with father := 0 } else d :=
    setTask_other hne
  rw [hu, hd]
  refine ⟨_, rfl, ?_⟩
  by_cases hf : d.father = p.pid <;> simp [hf]

theorem Inv.beginExit {s : ProcTable} (h : s.Inv) {t : Nat} {p : Proc} (ht : s.task t = some p) (ht0 : t ≠ 0) :
    (s.beginExit t p).Inv := by
  refine ⟨fun u c hu => ?_, ?_, fun u c hu hu0 => ?_, fun u v c e hu hv hce => ?_, h.last_nonneg, fun u c hu hu0 hc => ?_,
    fun u c hu hz => ?_⟩
  · obtain ⟨d, hd, _⟩ := beginExit_task hu
    exact h.low u d hd
  · obtain ⟨i, hi, hpid, hz, hex⟩ := h.idle
    obtain ⟨c, hc, hcp, hcz, hce⟩ := @beginExit_other s t 0 p i hi (Ne.symm ht0)
    exact ⟨c, hc, hcp.trans hpid, hcz.trans hz, hce.trans hex⟩
  · obtain ⟨d, hd, hpid, _⟩ := beginExit_task hu
    rw [hpid]
    exact h.pid_pos u d hd hu0
  · obtain ⟨d, hd, hdp, _⟩ := beginExit_task hu
    obtain ⟨f, hf, hfp, _⟩ := beginExit_task hv
    exact h.pid_inj u v d f hd hf (by rw [← hdp, ← hfp, hce])
  · -- The father is not the one that exits: its children have just lost it.
    obtain ⟨d, hd, _, _, hfather, _⟩ := beginExit_task hu
    split at hfather
    next => exact absurd hfather hc
    next hdp =>
      obtain ⟨v, r, hv, hr, hrz, hre⟩ := h.father u d hd hu0 (hfather ▸ hc)
      have hvt : v ≠ t := by
        intro heq
        rw [heq, ht] at hv
        cases Option.some.inj hv
        exact hdp hr.symm
      obtain ⟨e, he, hep, hez, hee⟩ := @beginExit_other s t v p r hv hvt
      exact ⟨v, e, he, by rw [hep, hr, hfather], hez.trans hrz, hee.trans hre⟩
  · obtain ⟨d, hd, _, hdz, _, hex⟩ := beginExit_task hu
    rw [hex, h.zombie u d hd (hdz.symm.trans hz), Bool.true_or]

/-- The zombies keep their father if none of them is a child of the task that exits. -/
theorem Fathered.beginExit {s : ProcTable} (h : s.Fathered) (hinv : s.Inv) {t : Nat} {p : Proc}
    (hchild : ∀ u < nrTasks, ∀ c ∈ s.task u, c.father = p.pid → c.zombie = false) : (s.beginExit t p).Fathered := by
  intro u c hu hz
  obtain ⟨d, hd, _, hdz, hfather, _⟩ := beginExit_task hu
  have hz : d.zombie = true := hdz.symm.trans hz
  split at hfather
  next hdp =>
    have hlive := hchild u (hinv.low u d hd) d hd hdp
    rw [hz] at hlive
    simp at hlive
  next => exact hfather ▸ h u d hd hz

/-- A task on its way out, whom nobody has for a father, gives up its slot or turns into a zombie. -/
theorem Inv.retire {s : ProcTable} (h : s.Inv) {i : Nat} {p : Proc} {o : Option Proc} (hi : s.task i = some p)
    (hp : p.exiting = true) (ho : ∀ r, o = some r → r.pid = p.pid ∧ r.father = p.father ∧ r.exiting = true) :
    (s.setTask i o).Inv := by
  have hback : ∀ u r, (s.setTask i o).task u = some r → ∃ d, s.task u = some d ∧ r.pid = d.pid ∧ r.father = d.father ∧
      (r.zombie = true → r.exiting = true) := by
    intro u r hu
    rcases setTask_cases hu with ⟨rfl, hr⟩ | ⟨_, hu⟩
    · obtain ⟨hpid, hfather, hex⟩ := ho r hr
      exact ⟨p, hi, hpid, hfather, fun _ => hex⟩
    · exact ⟨r, hu, rfl, rfl, h.zombie u r hu⟩
  have hkeep : ∀ u r, s.task u = some r → r.exiting = false → (s.setTask i o).task u = some r := by
    intro u r hu hr
    have hne : u ≠ i := by
      intro heq
      rw [heq, hi] at hu
      cases Option.some.inj hu
      rw [hp] at hr
      simp at hr
    rw [setTask_other hne, hu]
  refine ⟨fun u r hu => ?_, ?_, fun u r hu hu0 => ?_, fun u v r q hu hv hrq => ?_, h.last_nonneg, fun u r hu hu0 hr => ?_,
    fun u r hu hz => ?_⟩
  · obtain ⟨d, hd, _⟩ := hback u r hu
    exact h.low u d hd
  · obtain ⟨r, hr, hpid, hz, hex⟩ := h.idle
    exact ⟨r, hkeep 0 r hr hex, hpid, hz, hex⟩
  · obtain ⟨d, hd, hpid, _⟩ := hback u r hu
    rw [hpid]
    exact h.pid_pos u d hd hu0
  · obtain ⟨d, hd, hdp, _⟩ := hback u r hu
    obtain ⟨e, he, hep, _⟩ := hback v q hv
    exact h.pid_inj u v d e hd he (by rw [← hdp, ← hep, hrq])
  · obtain ⟨d, hd, _, hdf, _⟩ := hback u r hu
    obtain ⟨v, q, hv, hpid, hz, hex⟩ := h.father u d hd hu0 (hdf ▸ hr)
    exact ⟨v, q, hkeep v q hv hex, hpid.trans hdf.symm, hz, hex⟩
  · obtain ⟨_, _, _, _, hzombie⟩ := hback u r hu
    exact hzombie hz

theorem Fathered.setTask {s : ProcTable} (h : s.Fathered) {i : Nat} {o : Option Proc}
    (ho : ∀ r, o = some r → r.zombie = true → r.father ≠ 0) : (s.setTask i o).Fathered := by
  intro u r hu hz
  rcases setTask_cases hu with ⟨_, hr⟩ | ⟨_, hu⟩
  · exact ho r hr hz
  · exact h u r hu hz

theorem Fathered.fork {s s' : ProcTable} (h : s.Fathered) {t : Nat} {p : Proc} {mem : Bool} (hs : s.fork t p mem = some s') :
    s'.Fathered := by
  obtain ⟨pid, _, rfl⟩ := Option.map_eq_some_iff.mp hs
  split
  next => exact h
  next =>
    split
    next => exact @Fathered.setTask { s with lastPid := pid } h _ _ (by simp)
    next => exact h

theorem Inv.endExit {s : ProcTable} (h : s.Inv) {t : Nat} {p : Proc} (ht : s.task t = some p) (hp : p.exiting = true) :
    (s.endExit t p).Inv := by
  unfold ProcTable.endExit
  split
  next =>
    refine h.retire ht hp fun r hr => ?_
    cases Option.some.inj hr
    exact ⟨rfl, rfl, hp⟩
  next => exact h.retire ht hp (by simp)

theorem Fathered.endExit {s : ProcTable} (h : s.Fathered) {t : Nat} {p : Proc} : (s.endExit t p).Fathered := by
  unfold ProcTable.endExit
  split
  next hf =>
    refine h.setTask fun r hr _ => ?_
    cases Option.some.inj hr
    exact hf
  next => exact h.setTask (by simp)

theorem waitScan_some {s : ProcTable} {t : Nat} {cur : Proc} {pid : Int} {n i : Nat} (h : s.waitScan t cur pid n = some i) :
    0 < i ∧ i ≤ n ∧ ∃ p, s.task i = some p ∧ waitMatch t cur pid i p = true := by
  induction n with
  | zero => simp [waitScan] at h
  | succ n ih =>
    unfold waitScan at h
    split at h
    next hm =>
      cases Option.some.inj h
      cases hp : s.task (n + 1) with
      | none => simp [hp] at hm
      | some p => exact ⟨by omega, by omega, p, rfl, by simpa [hp] using hm⟩
    next =>
      obtain ⟨h0, hle, hp⟩ := ih h
      exact ⟨h0, by omega, hp⟩

/-- A scan that could take slot `i` takes one at or above it. -/
theorem waitScan_of_match {s : ProcTable} {t : Nat} {cur p : Proc} {pid : Int} {n i : Nat} (hi : s.task i = some p)
    (hm : waitMatch t cur pid i p = true) (h0 : 0 < i) (hle : i ≤ n) : ∃ j, s.waitScan t cur pid n = some j := by
  induction n with
  | zero => omega
  | succ n ih =>
    unfold waitScan
    split
    next => exact ⟨n + 1, rfl⟩
    next hno =>
      have hne : i ≠ n + 1 := by
        intro heq
        subst heq
        rw [hi] at hno
        exact hno (by simpa using hm)
      exact ih (by omega)

theorem Inv.waitpid {s : ProcTable} (h : s.Inv) {t : Nat} {cur : Proc} {pid : Int} : (s.waitpid t cur pid).Inv := by
  unfold ProcTable.waitpid
  split
  next => exact h
  next i hi =>
    obtain ⟨_, _, p, hp, hm⟩ := waitScan_some hi
    have hz : p.zombie = true := by
      simp only [waitMatch, Bool.and_eq_true] at hm
      exact hm.2
    exact h.retire hp (h.zombie i p hp hz) (by simp)

theorem Fathered.waitpid {s : ProcTable} (h : s.Fathered) {t : Nat} {cur : Proc} {pid : Int} :
    (s.waitpid t cur pid).Fathered := by
  unfold ProcTable.waitpid
  split
  next => exact h
  next => exact h.setTask (by simp)

/-- Waiting for a positive pid releases the child with that pid and no other task. -/
theorem Inv.waitpid_releases {s : ProcTable} (h : s.Inv) {t u : Nat} {r p : Proc} (ht : s.CanWait t r)
    (hu : s.task u = some p) (hu0 : u ≠ 0) (hfather : r.pid = p.father) (hz : p.zombie = true) :
    (s.waitpid t r p.pid).task u = none := by
  have hpos : 0 < p.pid := h.pid_pos u p hu hu0
  have hut : u ≠ t := by
    intro heq
    rw [heq, ht.1] at hu
    cases Option.some.inj hu
    rw [ht.2.2.1] at hz
    simp at hz
  have hm : waitMatch t r p.pid u p = true := by simp [waitMatch, hut, hfather, hz]
  have hlow : u ≤ nrTasks - 1 := by
    have := h.low u p hu
    omega
  obtain ⟨j, hj⟩ := waitScan_of_match hu hm (by omega) hlow
  obtain ⟨_, _, q, hq, hqm⟩ := waitScan_some hj
  have hpid : q.pid = p.pid := by
    have h1 : p.pid ≠ -1 := by omega
    have h2 : p.pid ≠ 0 := by omega
    have h3 : ¬ p.pid < 0 := by omega
    simp [waitMatch, h1, h2, h3] at hqm
    exact hqm.1.1.2
  have hju : j = u := h.pid_inj j u q p hq hu hpid
  unfold ProcTable.waitpid
  rw [hj, hju]
  exact setTask_self

theorem Inv.reapable {s : ProcTable} (h : s.Inv) {u : Nat} {p : Proc} (hu : s.task u = some p) (hz : p.zombie = true)
    (hf : p.father ≠ 0) : s.Reapable u p := by
  have hex := h.zombie u p hu hz
  obtain ⟨i, hi, hipid, _, hiex⟩ := h.idle
  have hu0 : u ≠ 0 := by
    intro heq
    rw [heq, hi] at hu
    cases Option.some.inj hu
    rw [hex] at hiex
    simp at hiex
  obtain ⟨t, r, ht, hr, hrz, hre⟩ := h.father u p hu hu0 hf
  have ht0 : t ≠ 0 := by
    intro heq
    rw [heq, hi] at ht
    cases Option.some.inj ht
    exact hf (hr.symm.trans hipid)
  have hcan : s.CanWait t r := ⟨ht, ht0, hrz, hre⟩
  exact ⟨t, r, hcan, hr, h.waitpid_releases hcan hu hu0 hr hz⟩

end ProcTable

theorem procInit_inv : procInit.Inv := by
  have honly : ∀ u p, procInit.task u = some p → u = 0 ∧ p = { pid := 0, father := -1, pgrp := 0 } := by
    intro u p hu
    simp only [procInit] at hu
    split at hu
    next h0 => exact ⟨h0, (Option.some.inj hu).symm⟩
    next => simp at hu
  refine ⟨fun u p hu => ?_, ⟨_, rfl, rfl, rfl, rfl⟩, fun u p hu hu0 => absurd (honly u p hu).1 hu0, fun u v p r hu hv _ => ?_,
    by decide, fun u p hu hu0 => absurd (honly u p hu).1 hu0, fun u p hu hz => ?_⟩
  · rw [(honly u p hu).1]
    decide
  · rw [(honly u p hu).1, (honly v r hv).1]
  · rw [(honly u p hu).2] at hz
    simp at hz

theorem procStep_inv {s s' : ProcTable} {e : ProcEvent} (h : s.Inv) (hs : procStep s e = some s') : s'.Inv := by
  cases e with
  | fork t mem =>
    obtain ⟨p, ht, hs⟩ := Option.bind_eq_some_iff.mp hs
    split at hs
    next => simp at hs
    next hex => exact h.fork ht (by simpa using hex) hs
  | beginExit t =>
    obtain ⟨p, ht, hs⟩ := Option.bind_eq_some_iff.mp hs
    split at hs
    next => simp at hs
    next hex => cases Option.some.inj hs; exact h.beginExit ht fun h0 => hex (.inr h0)
  | endExit t =>
    obtain ⟨p, ht, hs⟩ := Option.bind_eq_some_iff.mp hs
    split at hs
    next hex => cases Option.some.inj hs; exact h.endExit ht hex.1
    next => simp at hs
  | waitpid t pid =>
    obtain ⟨p, ht, hs⟩ := Option.bind_eq_some_iff.mp hs
    split at hs
    next => simp at hs
    next => cases Option.some.inj hs; exact h.waitpid

theorem procStep_fathered {s s' : ProcTable} {e : ProcEvent} (h : s.Inv) (hf : s.Fathered) (hok : s.NoZombieChild e)
    (hs : procStep s e = some s') : s'.Fathered := by
  cases e with
  | fork t mem =>
    obtain ⟨p, ht, hs⟩ := Option.bind_eq_some_iff.mp hs
    split at hs
    next => simp at hs
    next => exact hf.fork hs
  | beginExit t =>
    obtain ⟨p, ht, hs⟩ := Option.bind_eq_some_iff.mp hs
    split at hs
    next => simp at hs
    next => cases Option.some.inj hs; exact hf.beginExit h (hok p ht)
  | endExit t =>
    obtain ⟨p, ht, hs⟩ := Option.bind_eq_some_iff.mp hs
    split at hs
    next => cases Option.some.inj hs; exact hf.endExit
    next => simp at hs
  | waitpid t pid =>
    obtain ⟨p, ht, hs⟩ := Option.bind_eq_some_iff.mp hs
    split at hs
    next => simp at hs
    next => cases Option.some.inj hs; exact hf.waitpid

theorem procInit_fathered : procInit.Fathered := by
  intro u p hu hz
  simp only [procInit] at hu
  split at hu
  next => cases Option.some.inj hu; simp at hz
  next => simp at hu

theorem procReach_inv {ok : ProcTable → ProcEvent → Prop} {s : ProcTable} (h : Machine.Reach procStep ok procInit s) : s.Inv :=
  h.invariant procInit_inv fun _ _ _ hi _ hs => procStep_inv hi hs

/-- As long as nobody exits before it has waited for its zombies, every zombie has a live father that can
wait for it, and doing so frees its slot. -/
theorem zombies_reapable {s : ProcTable} (h : Machine.Reach procStep ProcTable.NoZombieChild procInit s) {u : Nat} {p : Proc}
    (hu : s.task u = some p) (hz : p.zombie = true) : s.Reapable u p := by
  have hinv : s.Inv ∧ s.Fathered := by
    refine h.invariant (I := fun s => s.Inv ∧ s.Fathered) ⟨procInit_inv, procInit_fathered⟩ fun s e s' hi hok hs => ?_
    exact ⟨procStep_inv hi.1 hs, procStep_fathered hi.1 hi.2 hok hs⟩
  exact hinv.1.reapable hu hz (hinv.2 u p hu hz)

/-- Task 0 makes task 1, which makes 2, which makes 3; 3 exits, then its father 2. -/
def fatherExitsFirst : List ProcEvent :=
  [.fork 0 true, .fork 1 true, .fork 2 true, .beginExit 3, .endExit 3, .beginExit 2, .endExit 2]

/-- The zombie in slot 3 has lost its father to task 0, which never waits. -/
theorem zombie_stranded :
    ∃ s p, Machine.exec procStep procInit fatherExitsFirst = some s ∧ s.task 3 = some p ∧ p.zombie = true ∧
      p.father = 0 ∧ ¬ s.Reapable 3 p := by
  have hrun : (Machine.exec procStep procInit fatherExitsFirst).map (fun s => s.task 3) =
      some (some ⟨3, 0, 0, true, true⟩) := by
    decide +kernel
  obtain ⟨s, hs, hp⟩ := Option.map_eq_some_iff.mp hrun
  refine ⟨s, _, hs, hp, rfl, rfl, fun hreap => ?_⟩
  have hreach : Machine.Reach procStep (fun _ _ => True) procInit s := Machine.Reach.start.exec (fun _ _ _ => trivial) hs
  have hinv := procReach_inv hreach
  obtain ⟨t, r, hcan, hpid, _⟩ := hreap
  obtain ⟨i, hi, hipid, _⟩ := hinv.idle
  exact hcan.2.1 (hinv.pid_inj t 0 r i hcan.1 hi (hpid.trans hipid.symm))

/-- A child exits while its father is alive. -/
theorem zombies_reapable_by_father :
    ∃ s p, Machine.execOk procStep ProcTable.NoZombieChild procInit [.fork 0 true, .fork 1 true, .beginExit 2, .endExit 2] =
      some s ∧ s.task 2 = some p ∧ s.Reapable 2 p := by
  have hrun : (Machine.execOk procStep ProcTable.NoZombieChild procInit
      [.fork 0 true, .fork 1 true, .beginExit 2, .endExit 2]).map (fun s => s.task 2) = some (some ⟨2, 1, 0, true, true⟩) := by
    decide +kernel
  obtain ⟨s, hs, hp⟩ := Option.map_eq_some_iff.mp hrun
  exact ⟨s, _, hs, hp, zombies_reapable (Machine.Reach.start.execOk hs) hp rfl⟩

end RheeKernel
