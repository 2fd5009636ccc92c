import Mathlib.Logic.Function.Basic
import RheeKernel.ProcessTree

namespace RheeKernel

/-- The six ids of a task structure, each an `unsigned short`. -/
structure Ids where
  uid : UInt16
  euid : UInt16
  suid : UInt16
  gid : UInt16
  egid : UInt16
  sgid : UInt16
deriving DecidableEq

def eperm : Int := 1
def eagain : Int := 11

/-- `uid` is compared as an `int` and stored as an `unsigned short`. -/
def sysSetuid (p : Ids) (uid : Int32) : Ids × Int :=
  if p.euid ≠ 0 ∧ p.uid ≠ 0 then
    if uid.toInt = p.uid.toNat ∨ p.suid = p.uid then ({ p with euid := .ofInt uid.toInt }, 0)
    else (p, -eperm)
  else ({ p with euid := .ofInt uid.toInt, uid := .ofInt uid.toInt }, 0)

def sysSetgid (p : Ids) (gid : Int32) : Ids × Int :=
  if p.euid ≠ 0 ∧ p.uid ≠ 0 then
    if (p.gid.toNat : Int) = gid.toInt ∨ (p.sgid.toNat : Int) = gid.toInt then ({ p with egid := .ofInt gid.toInt }, 0)
    else (p, -eperm)
  else ({ p with gid := .ofInt gid.toInt, egid := .ofInt gid.toInt }, 0)

/-- The ids of the tasks in the slots of `task[]`. -/
structure IdTable where
  task : Nat → Option Ids

namespace IdTable

def setTask (s : IdTable) (t : Nat) (p : Ids) : IdTable := ⟨Function.update s.task t (some p)⟩

/-- The first empty slot from `i` on, among `n` of them. -/
def emptySlot (s : IdTable) : Nat → Nat → Option Nat
  | 0, _ => none
  | n + 1, i => if (s.task i).isNone then some i else emptySlot s n (i + 1)

/-- `copy_process` copies the whole structure; `mem` says whether it gets the pages it needs. -/
def fork (s : IdTable) (p : Ids) (mem : Bool) : IdTable × Int :=
  match s.emptySlot (nrTasks - 1) 1 with
  | none => (s, -eagain)
  | some nr => if mem then (s.setTask nr p, nr) else (s, -eagain)

end IdTable

/-- A call that task `t` makes. `do_execve` assigns none of the ids, whether it loads the image or returns early. -/
inductive IdCall
  | fork (t : Nat) (mem : Bool)
  | execve (t : Nat)
  | setuid (t : Nat) (uid : Int32)
  | setgid (t : Nat) (gid : Int32)

def idStep (s : IdTable) : IdCall → Option IdTable
  | .fork t mem => (s.task t).map fun p => (s.fork p mem).1
  | .execve t => (s.task t).map fun p => s.setTask t p
  | .setuid t uid => (s.task t).map fun p => s.setTask t (sysSetuid p uid).1
  | .setgid t gid => (s.task t).map fun p => s.setTask t (sysSetgid p gid).1

/-- `INIT_TASK` -/
def idInit : IdTable where
  task := fun i => if i = 0 then some ⟨0, 0, 0, 0, 0, 0⟩ else none

/-- A run leads from `s` to `s'`, where slot `u` holds the task that `t` was in `s`, or one that has come from it by
forks on the way. -/
inductive Heir (s : IdTable) (t : Nat) : IdTable → Nat → Prop
  | self : Heir s t s t
  | step {s₁ s₂ u c} : Heir s t s₁ u → idStep s₁ c = some s₂ → Heir s t s₂ u
  | fork {s₁ s₂ u mem nr} : Heir s t s₁ u → idStep s₁ (.fork u mem) = some s₂ → s₁.task nr = none →
      s₂.task nr ≠ none → Heir s t s₂ nr

/-- The saved user id is never anything but zero. -/
def IdTable.SuidZero (s : IdTable) : Prop := ∀ t p, s.task t = some p → p.suid = 0

def Ids.Unprivileged (p : Ids) : Prop := p.uid ≠ 0 ∧ p.euid ≠ 0

variable {s s' : IdTable} {p q : Ids} {t u nr n i : Nat} {c : IdCall} {uid gid : Int32} {mem : Bool}

theorem IdTable.emptySlot_none (h : s.emptySlot n i = some nr) : s.task nr = none := by
  induction n generalizing i with
  | zero => cases h
  | succ n ih =>
    unfold emptySlot at h
    split at h
    next hnone =>
      cases Option.some.inj h
      exact Option.isNone_iff_eq_none.mp hnone
    next => exact ih h

theorem IdTable.setTask_self : (s.setTask t p).task t = some p := Function.update_self _ _ _

theorem IdTable.setTask_other (h : u ≠ t) : (s.setTask t p).task u = s.task u := Function.update_of_ne h _ _

theorem sysSetuid_suid : (sysSetuid p uid).1.suid = p.suid := by
  unfold sysSetuid
  split
  next => split <;> rfl
  next => rfl

theorem sysSetgid_user : (sysSetgid p gid).1.uid = p.uid ∧ (sysSetgid p gid).1.euid = p.euid ∧
    (sysSetgid p gid).1.suid = p.suid := by
  unfold sysSetgid
  split
  next => split <;> exact ⟨rfl, rfl, rfl⟩
  next => exact ⟨rfl, rfl, rfl⟩

/-- With a saved id of zero the only target an unprivileged task can name is its own user id. -/
theorem sysSetuid_unprivileged (h : p.Unprivileged) (hsuid : p.suid = 0) : (sysSetuid p uid).1.Unprivileged := by
  obtain ⟨huid, heuid⟩ := h
  unfold sysSetuid
  rw [if_pos ⟨heuid, huid⟩]
  split
  next hor =>
    rcases hor with heq | hsame
    · refine ⟨huid, ?_⟩
      have hround : UInt16.ofInt uid.toInt = p.uid := by
        apply UInt16.toNat_inj.mp
        rw [heq]
        have := p.uid.toNat_lt
        simp only [UInt16.ofInt, UInt16.toNat_ofNat']
        omega
      rw [hround]
      exact huid
    · exact absurd (hsame.symm.trans hsuid) huid
  next => exact ⟨huid, heuid⟩

/-- What one call does to the table: it rewrites the caller's ids or puts a copy of them into an empty slot. -/
theorem idStep_cases (h : idStep s c = some s') :
    s' = s ∨ (∃ t p, s.task t = some p ∧ ∃ q, s' = s.setTask t q ∧ q.suid = p.suid ∧
        (p.suid = 0 → p.Unprivileged → q.Unprivileged)) ∨
      ∃ t mem nr p, c = .fork t mem ∧ s.task t = some p ∧ s.task nr = none ∧ s' = s.setTask nr p := by
  cases c with
  | fork t mem =>
    obtain ⟨p, hp, rfl⟩ := Option.map_eq_some_iff.mp h
    unfold IdTable.fork
    split
    next => exact .inl rfl
    next nr hnr =>
      split
      next => exact .inr (.inr ⟨t, mem, nr, p, rfl, hp, IdTable.emptySlot_none hnr, rfl⟩)
      next => exact .inl rfl
  | execve t =>
    obtain ⟨p, hp, rfl⟩ := Option.map_eq_some_iff.mp h
    exact .inr (.inl ⟨t, p, hp, p, rfl, rfl, fun _ hun => hun⟩)
  | setuid t uid =>
    obtain ⟨p, hp, rfl⟩ := Option.map_eq_some_iff.mp h
    exact .inr (.inl ⟨t, p, hp, _, rfl, sysSetuid_suid, fun hsuid hun => sysSetuid_unprivileged hun hsuid⟩)
  | setgid t gid =>
    obtain ⟨p, hp, rfl⟩ := Option.map_eq_some_iff.mp h
    obtain ⟨huid, heuid, hsuid⟩ := @sysSetgid_user p gid
    refine .inr (.inl ⟨t, p, hp, _, rfl, hsuid, fun _ hun => ?_⟩)
    unfold Ids.Unprivileged
    rw [huid, heuid]
    exact hun

theorem IdTable.SuidZero.step (h : s.SuidZero) (hs : idStep s c = some s') : s'.SuidZero := by
  rcases idStep_cases hs with rfl | ⟨t, p, hp, q, rfl, hsuid, _⟩ | ⟨t, mem, nr, p, _, hp, _, rfl⟩
  · exact h
  · intro u r hr
    by_cases hu : u = t
    · rw [hu, setTask_self] at hr
      cases Option.some.inj hr
      exact hsuid.trans (h t p hp)
    · rw [setTask_other hu] at hr
      exact h u r hr
  · intro u r hr
    by_cases hu : u = nr
    · rw [hu, setTask_self] at hr
      cases Option.some.inj hr
      exact h t p hp
    · rw [setTask_other hu] at hr
      exact h u r hr

/-- Whoever is unprivileged stays so through a call of anybody. -/
theorem idStep_unprivileged (h : s.SuidZero) (hs : idStep s c = some s') (hu : ∃ p, s.task u = some p ∧ p.Unprivileged) :
    ∃ p, s'.task u = some p ∧ p.Unprivileged := by
  obtain ⟨r, hr, hun⟩ := hu
  rcases idStep_cases hs with rfl | ⟨t, p, hp, q, rfl, _, hkeep⟩ | ⟨t, mem, nr, p, _, hp, hnone, rfl⟩
  · exact ⟨r, hr, hun⟩
  · by_cases hut : u = t
    · subst hut
      rw [hr] at hp
      cases Option.some.inj hp
      exact ⟨q, IdTable.setTask_self, hkeep (h u r hr) hun⟩
    · exact ⟨r, (IdTable.setTask_other hut).trans hr, hun⟩
  · have hne : u ≠ nr := by
      rintro rfl
      rw [hnone] at hr
      cases hr
    exact ⟨r, (IdTable.setTask_other hne).trans hr, hun⟩

theorem Heir.suidZero (h : s.SuidZero) (hh : Heir s t s' u) : s'.SuidZero := by
  induction hh with
  | self => exact h
  | step _ hs ih => exact ih.step hs
  | fork _ hs _ _ ih => exact ih.step hs

/-- Privilege once lost stays lost, for the task and for all that come from it. -/
theorem privilege_loss_permanent (h : Machine.Reach idStep (fun _ _ => True) idInit s) (hp : s.task t = some p)
    (huid : p.uid ≠ 0) (heuid : p.euid ≠ 0) (hh : Heir s t s' u) :
    ∃ q, s'.task u = some q ∧ q.uid ≠ 0 ∧ q.euid ≠ 0 := by
  have hzero : s.SuidZero := by
    refine h.invariant ?_ fun _ _ _ hI _ hs => hI.step hs
    intro t p hp
    unfold idInit at hp
    dsimp only at hp
    split at hp
    next =>
      cases Option.some.inj hp
      rfl
    next => cases hp
  induction hh with
  | self => exact ⟨p, hp, huid, heuid⟩
  | step hh hs ih => exact idStep_unprivileged (hh.suidZero hzero) hs ih
  | @fork s₁ s₂ u mem nr hh hs hnone hsome ih =>
    obtain ⟨q, hq, hun⟩ := ih
    -- The newcomer holds a copy of the ids of its father.
    obtain ⟨r, hr, heq⟩ := Option.map_eq_some_iff.mp hs
    rw [hq] at hr
    cases Option.some.inj hr
    subst heq
    unfold IdTable.fork at hsome ⊢
    split at hsome
    next => exact absurd hnone hsome
    next k hk =>
      cases mem with
      | false => exact absurd hnone hsome
      | true =>
        rw [if_pos rfl] at hsome ⊢
        by_cases hnk : nr = k
        · subst hnk
          exact ⟨q, IdTable.setTask_self, hun⟩
        · exact absurd ((IdTable.setTask_other hnk).trans hnone) hsome

/-- A task that has become user 100 forks. -/
theorem privilege_loss_permanent_fork :
    ∃ s s', idStep idInit (.setuid 0 100) = some s ∧ idStep s (.fork 0 true) = some s' ∧
      ∃ q, s'.task 1 = some q ∧ q.uid ≠ 0 ∧ q.euid ≠ 0 := by
  obtain ⟨s, hs, h0, h1⟩ : ∃ s, idStep idInit (.setuid 0 100) = some s ∧ s.task 0 = some ⟨100, 100, 0, 0, 0, 0⟩ ∧ s.task 1 = none :=
    ⟨_, rfl, by decide, by decide⟩
  have hfork : idStep s (.fork 0 true) = some (s.setTask 1 ⟨100, 100, 0, 0, 0, 0⟩) := by
    simp only [idStep, h0, IdTable.fork, IdTable.emptySlot, h1, Option.map_some, nrTasks, Option.isNone_none, if_true]
  refine ⟨s, _, hs, hfork, ?_⟩
  have hsome : (s.setTask 1 ⟨100, 100, 0, 0, 0, 0⟩).task 1 ≠ none := by
    rw [IdTable.setTask_self]
    exact nofun
  exact privilege_loss_permanent (.next .start trivial hs) h0 (by decide) (by decide) (.fork .self hfork h1 hsome)

end RheeKernel
