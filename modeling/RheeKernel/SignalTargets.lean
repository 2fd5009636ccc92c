import Mathlib.Logic.Function.Basic
import RheeKernel.ProcessTree

namespace RheeKernel

/-- What `do_kill` reads and writes of a task. -/
structure KillTask where
  pid : BitVec 32
  pgrp : BitVec 32
  uid : BitVec 16
  euid : BitVec 16
  signal : BitVec 32
deriving DecidableEq

def sigBit (sig : Int) : BitVec 32 := 1#32 <<< (sig - 1).toNat

/-- The test of `send_sig`. -/
def MaySignal (current : KillTask) (priv : Bool) (p : KillTask) : Prop :=
  priv = true ∨ current.uid = p.uid ∨ current.euid = p.uid ∨ current.uid = p.euid ∨ current.euid = p.euid

instance {current p : KillTask} {priv : Bool} : Decidable (MaySignal current priv p) := inferInstanceAs (Decidable (_ ∨ _))

def sendSig (current : KillTask) (sig : Int) (priv : Bool) (p : KillTask) : KillTask :=
  if sig < 1 ∨ 32 < sig then p
  else if MaySignal current priv p then { p with signal := p.signal ||| sigBit sig }
  else p

/-- A loop `while (--p > &FIRST_TASK)` over the slots from `n` down, with its test and the body for the tasks that pass it. -/
def scanTasks (test : KillTask → Bool) (body : KillTask → KillTask) : Nat → (Nat → Option KillTask) → Nat → Option KillTask
  | 0, task => task
  | n + 1, task =>
    scanTasks test body n
      (match task (n + 1) with
      | none => task
      | some p => if test p then Function.update task (n + 1) (some (body p)) else task)

/-- The loops run while `current` keeps the fields that they read of it. -/
def doKill (task : Nat → Option KillTask) (current : KillTask) (pid : BitVec 32) (sig : Int) (priv : Bool) : Nat → Option KillTask :=
  if pid = 0 then scanTasks (fun p => p.pgrp == current.pid) (sendSig current sig priv) (nrTasks - 1) task
  else if 0 < pid.toInt then scanTasks (fun p => p.pid == pid) (sendSig current sig priv) (nrTasks - 1) task
  else if pid = -1 then scanTasks (fun _ => true) (sendSig current sig priv) (nrTasks - 1) task
  else scanTasks (fun p => p.pgrp == -pid) (sendSig current sig priv) (nrTasks - 1) task

def sysKill (task : Nat → Option KillTask) (current : KillTask) (pid : BitVec 32) (sig : Int) : Nat → Option KillTask :=
  doKill task current pid sig (!(current.uid != 0 || current.euid != 0))

/-- The tasks that `pid` stands for. -/
def Selected (current : KillTask) (pid : BitVec 32) (p : KillTask) : Prop :=
  if pid = 0 then p.pgrp = current.pgrp
  else if 0 < pid.toInt then p.pid = pid
  else if pid = -1 then True
  else p.pgrp = -pid

instance {current p : KillTask} {pid : BitVec 32} : Decidable (Selected current pid p) :=
  inferInstanceAs (Decidable (if pid = 0 then p.pgrp = current.pgrp else if 0 < pid.toInt then p.pid = pid
    else if pid = -1 then True else p.pgrp = -pid))

/-- The table in which just the selected tasks that the caller may signal have the signal, the idle task left aside. -/
def signalled (task : Nat → Option KillTask) (current : KillTask) (pid : BitVec 32) (sig : Int) (priv : Bool) : Nat → Option KillTask :=
  fun t =>
    if 0 < t ∧ t < nrTasks then
      (task t).map fun p => if Selected current pid p ∧ MaySignal current priv p then { p with signal := p.signal ||| sigBit sig } else p
    else task t

section SignalTargets

variable {task : Nat → Option KillTask} {current p : KillTask} {pid : BitVec 32} {sig : Int} {priv : Bool} {test : KillTask → Bool}
  {body : KillTask → KillTask} {n t : Nat}

/-- A loop changes the slots that it comes to, each by itself. -/
theorem scanTasks_eq : scanTasks test body n task t =
    if 0 < t ∧ t ≤ n then (task t).map fun p => if test p then body p else p else task t := by
  induction n generalizing task with
  | zero => rw [scanTasks, if_neg (by omega)]
  | succ n ih =>
    rw [scanTasks, ih]
    have hslot : (match task (n + 1) with
        | none => task
        | some p => if test p then Function.update task (n + 1) (some (body p)) else task) t =
          if t = n + 1 then (task t).map fun p => if test p then body p else p else task t := by
      by_cases ht : t = n + 1
      · subst ht
        rw [if_pos rfl]
        cases hp : task (n + 1) with
        | none => exact hp
        | some p =>
          rw [Option.map_some]
          dsimp only
          split
          next => exact Function.update_self ..
          next => exact hp
      · rw [if_neg ht]
        cases task (n + 1) with
        | none => rfl
        | some p =>
          dsimp only
          split
          next => exact Function.update_of_ne ht ..
          next => rfl
    rw [hslot]
    by_cases ht : t = n + 1
    · rw [if_pos ht, if_neg (show ¬ (0 < t ∧ t ≤ n) by omega), if_pos (show 0 < t ∧ t ≤ n + 1 by omega)]
    · rw [if_neg ht]
      by_cases hin : 0 < t ∧ t ≤ n
      · rw [if_pos hin, if_pos (by omega)]
      · rw [if_neg hin, if_neg (by omega)]

theorem sendSig_eq (hlow : 1 ≤ sig) (hhigh : sig ≤ 32) : sendSig current sig priv p =
    if MaySignal current priv p then { p with signal := p.signal ||| sigBit sig } else p := by
  unfold sendSig
  rw [if_neg (by omega)]

/-- The test of the loop that `pid` leads to. -/
def killTest (current : KillTask) (pid : BitVec 32) (p : KillTask) : Bool :=
  if pid = 0 then p.pgrp == current.pid
  else if 0 < pid.toInt then p.pid == pid
  else if pid = -1 then true
  else p.pgrp == -pid

theorem doKill_eq : doKill task current pid sig priv = scanTasks (killTest current pid) (sendSig current sig priv) (nrTasks - 1) task := by
  unfold doKill killTest
  split
  next => rfl
  next =>
    split
    next => rfl
    next => split <;> rfl

/-- Apart from the group of the caller, the loops test what `pid` stands for. -/
theorem killTest_iff (hne : pid ≠ 0) : killTest current pid p = true ↔ Selected current pid p := by
  unfold killTest Selected
  rw [if_neg hne, if_neg hne]
  split
  next => exact beq_iff_eq
  next =>
    split
    next => exact iff_of_true rfl trivial
    next => exact beq_iff_eq

theorem or_bit_eq {x : BitVec 32} {k : Nat} (hk : k < 32) : x ||| 1#32 <<< k = x ↔ x.getLsbD k = true := by
  constructor
  · intro h
    rw [← h]
    simp [hk]
  · intro h
    apply BitVec.eq_of_getLsbD_eq
    intro i hi
    by_cases hik : i = k
    · subst hik
      simp [h]
    · have hbit : (1#32 <<< k).getLsbD i = false := by
        simp only [BitVec.getLsbD_shiftLeft, BitVec.getLsbD_one, Nat.sub_eq_zero_iff_le]
        grind
      rw [BitVec.getLsbD_or, hbit, Bool.or_false]

/-- A task that has the signal pending stays as it is. -/
theorem signal_pending (hlow : 1 ≤ sig) (hhigh : sig ≤ 32) :
    { p with signal := p.signal ||| sigBit sig } = p ↔ p.signal.getLsbD (sig - 1).toNat = true := by
  rw [← or_bit_eq (show (sig - 1).toNat < 32 by omega)]
  constructor
  · intro h
    exact congrArg KillTask.signal h
  · intro h
    unfold sigBit
    rw [h]

/-- The tasks of the two groups that the caller may signal are the same, those that have the signal pending left aside. -/
def SameGroup (task : Nat → Option KillTask) (current : KillTask) (sig : Int) (priv : Bool) : Prop :=
  ∀ t p, 0 < t → t < nrTasks → task t = some p → MaySignal current priv p → p.signal.getLsbD (sig - 1).toNat = false →
    (p.pgrp = current.pid ↔ p.pgrp = current.pgrp)

/-- Two tests for the same change make the same task just when they agree, or the change is none. -/
theorem ite_agree {α : Type} {x y : α} {a b c : Prop} [Decidable a] [Decidable b] [Decidable c] :
    (if a then if c then x else y else y) = (if b ∧ c then x else y) ↔ (c → x ≠ y → (a ↔ b)) := by
  by_cases hc : c
  · by_cases ha : a
    · by_cases hb : b
      · simp [ha, hb, hc]
      · simp [ha, hb, hc]
    · by_cases hb : b
      · simp [ha, hb, hc, eq_comm]
      · simp [ha, hb, hc]
  · simp [hc]

/-- One slot gets the signal as it should just when the test agrees with what `pid` stands for, or makes no difference. -/
theorem slot_iff (hlow : 1 ≤ sig) (hhigh : sig ≤ 32) :
    (if killTest current pid p then sendSig current sig priv p else p) =
        (if Selected current pid p ∧ MaySignal current priv p then { p with signal := p.signal ||| sigBit sig } else p) ↔
      (MaySignal current priv p → p.signal.getLsbD (sig - 1).toNat = false →
        (killTest current pid p = true ↔ Selected current pid p)) := by
  rw [sendSig_eq hlow hhigh, ite_agree, Ne, signal_pending hlow hhigh, Bool.not_eq_true]

/-- The signal goes to the tasks that `pid` stands for, except that 0 stands for the group numbered as the caller. -/
theorem doKill_targets_iff (hlow : 1 ≤ sig) (hhigh : sig ≤ 32) :
    doKill task current pid sig priv = signalled task current pid sig priv ↔ (pid = 0 → SameGroup task current sig priv) := by
  have hslots : nrTasks = 64 := rfl
  have hslot : ∀ t, doKill task current pid sig priv t = signalled task current pid sig priv t ↔
      (0 < t → t < nrTasks → ∀ p, task t = some p → MaySignal current priv p → p.signal.getLsbD (sig - 1).toNat = false →
        (killTest current pid p = true ↔ Selected current pid p)) := by
    intro t
    rw [doKill_eq, scanTasks_eq]
    unfold signalled
    by_cases ht : 0 < t ∧ t < nrTasks
    · rw [if_pos ht, if_pos (show 0 < t ∧ t ≤ nrTasks - 1 by omega)]
      cases hp : task t with
      | none => simp
      | some p =>
        rw [Option.map_some, Option.map_some, Option.some.injEq, slot_iff hlow hhigh]
        simp [ht]
    · rw [if_neg ht, if_neg (show ¬ (0 < t ∧ t ≤ nrTasks - 1) by omega)]
      exact iff_of_true rfl fun h0 h1 => absurd ⟨h0, h1⟩ ht
  constructor
  · intro h hzero t p ht htn hp hmay hclear
    have hagree := (hslot t).mp (congrFun h t) ht htn p hp hmay hclear
    unfold killTest Selected at hagree
    rw [if_pos hzero, if_pos hzero, beq_iff_eq] at hagree
    exact hagree
  · intro h
    funext t
    refine (hslot t).mpr fun ht htn p hp hmay hclear => ?_
    by_cases hzero : pid = 0
    · unfold killTest Selected
      rw [if_pos hzero, if_pos hzero, beq_iff_eq]
      exact h hzero t p ht htn hp hmay hclear
    · exact killTest_iff hzero

end SignalTargets

/-- A shell in group 3 with pid 5, and a task of another user's group 5. -/
def sampleKill : Nat → Option KillTask := fun t =>
  if t = 1 then some ⟨5, 3, 10, 10, 0⟩ else if t = 2 then some ⟨8, 5, 10, 10, 0⟩ else none

theorem doKill_targets_iff_sample :
    doKill sampleKill ⟨5, 3, 10, 10, 0⟩ (-3) 15 false = signalled sampleKill ⟨5, 3, 10, 10, 0⟩ (-3) 15 false :=
  (doKill_targets_iff (by decide) (by decide)).mpr fun h => absurd h (by decide)

/-- `kill(0, SIGTERM)` of the shell goes to group 5 in place of its own group 3. -/
theorem doKill_targets_fails :
    (sysKill sampleKill ⟨5, 3, 10, 10, 0⟩ 0 15 1).map KillTask.signal = some 0 ∧
    (sysKill sampleKill ⟨5, 3, 10, 10, 0⟩ 0 15 2).map KillTask.signal = some 0x4000 ∧
    doKill sampleKill ⟨5, 3, 10, 10, 0⟩ 0 15 false ≠ signalled sampleKill ⟨5, 3, 10, 10, 0⟩ 0 15 false := by
  refine ⟨by decide, by decide, fun h => ?_⟩
  exact absurd (congrFun h 1) (by decide)

end RheeKernel
