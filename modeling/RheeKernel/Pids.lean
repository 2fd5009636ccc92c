import Mathlib.Data.Fintype.Pigeonhole
import RheeKernel.ProcessTree

namespace RheeKernel

namespace ProcTable

variable {s : ProcTable} {last pid : Int} {n k : Nat}

theorem nextPid_pos (h : 0 ≤ last) : 0 < nextPid last ∧ nextPid last < 2 ^ 31 := by
  unfold nextPid
  split <;> omega

/-- The pids that the search comes to, one after the other; after the largest one comes 1. -/
theorem nextPid_iterate (hpos : 0 < pid) (hlow : pid < 2 ^ 31) : nextPid^[k] pid = (pid - 1 + k) % (2 ^ 31 - 1) + 1 := by
  induction k with
  | zero =>
    rw [Function.iterate_zero_apply]
    omega
  | succ k ih =>
    rw [Function.iterate_succ_apply', ih]
    unfold nextPid
    split <;> omega

theorem nextPid_iterate_inj (hlast : 0 ≤ last) {i j : Nat} (hi : i < nrTasks + 1) (hj : j < nrTasks + 1)
    (h : nextPid^[i + 1] last = nextPid^[j + 1] last) : i = j := by
  obtain ⟨hpos, hlow⟩ := nextPid_pos hlast
  rw [Function.iterate_succ_apply, Function.iterate_succ_apply, nextPid_iterate hpos hlow, nextPid_iterate hpos hlow] at h
  unfold nrTasks at hi hj
  omega

theorem freshPid_none (h : s.freshPid n last = none) : ∀ k < n, s.pidUsed (nextPid^[k + 1] last) = true := by
  induction n generalizing last with
  | zero => exact fun k hk => absurd hk (Nat.not_lt_zero k)
  | succ n ih =>
    unfold freshPid at h
    split at h
    next hused =>
      intro k hk
      cases k with
      | zero => exact hused
      | succ k =>
        rw [Function.iterate_succ_apply]
        exact ih h k (by omega)
    next => cases h

theorem pidUsed_slot (h : s.pidUsed pid = true) : ∃ i : Fin nrTasks, ∃ p, s.task i = some p ∧ p.pid = pid := by
  obtain ⟨i, hi, hp⟩ := List.any_eq_true.mp h
  cases hs : s.task i with
  | none =>
    rw [hs] at hp
    cases hp
  | some p =>
    rw [hs] at hp
    exact ⟨⟨i, List.mem_range.mp hi⟩, p, hs, by simpa using hp⟩

/-- `find_empty_process` comes to a pid that is not in use after at most as many tries as there are tasks, and one more. -/
theorem freshPid_isSome (hlast : 0 ≤ last) : ∃ pid, s.freshPid (nrTasks + 1) last = some pid := by
  cases hfresh : s.freshPid (nrTasks + 1) last with
  | some pid => exact ⟨pid, rfl⟩
  | none =>
    have hused := freshPid_none hfresh
    choose slot hslot using fun k : Fin (nrTasks + 1) => pidUsed_slot (hused k k.isLt)
    obtain ⟨i, j, hne, heq⟩ := Fintype.exists_ne_map_eq_of_card_lt slot (by simp)
    obtain ⟨p, hp, hpid⟩ := hslot i
    obtain ⟨r, hr, hrid⟩ := hslot j
    rw [heq, hr] at hp
    cases Option.some.inj hp
    exact absurd (Fin.ext (nextPid_iterate_inj hlast i.isLt j.isLt (hpid.symm.trans hrid))) hne

end ProcTable

/-- No two tasks in the array have the same pid, zombies included, all but task 0 have a positive one, and the search for the next
pid comes to an end. -/
theorem pids_unique {s : ProcTable} (h : Machine.Reach procStep (fun _ _ => True) procInit s) :
    (∀ u v p r, s.task u = some p → s.task v = some r → p.pid = r.pid → u = v) ∧
      (∀ u p, s.task u = some p → u ≠ 0 → 0 < p.pid) ∧
      ∃ pid, s.freshPid (nrTasks + 1) s.lastPid = some pid ∧ 0 < pid ∧ s.pidUsed pid = false := by
  have hI : s.Inv := h.invariant procInit_inv fun _ _ _ hI _ hs => procStep_inv hI hs
  obtain ⟨pid, hpid⟩ := @ProcTable.freshPid_isSome s _ hI.last_nonneg
  exact ⟨hI.pid_inj, hI.pid_pos, pid, hpid, ProcTable.freshPid_spec hI.last_nonneg hpid⟩

/-- A zombie, its father, and a fork that failed between them: the next pid is 4. -/
theorem pids_unique_zombie : ∃ s, Machine.exec procStep procInit [.fork 0 true, .fork 1 true, .fork 1 false, .beginExit 2, .endExit 2] = some s ∧
    (∀ u v p r, s.task u = some p → s.task v = some r → p.pid = r.pid → u = v) ∧ s.freshPid (nrTasks + 1) s.lastPid = some 4 := by
  obtain ⟨s, hs, hnext⟩ : ∃ s, Machine.exec procStep procInit [.fork 0 true, .fork 1 true, .fork 1 false, .beginExit 2, .endExit 2] = some s ∧
      s.freshPid (nrTasks + 1) s.lastPid = some 4 :=
    Option.map_eq_some_iff.mp (show (Machine.exec procStep procInit
      [.fork 0 true, .fork 1 true, .fork 1 false, .beginExit 2, .endExit 2]).map (fun s => s.freshPid (nrTasks + 1) s.lastPid) = some (some 4)
      by decide +kernel)
  exact ⟨s, hs, (pids_unique (.exec .start (fun _ _ _ => trivial) hs)).1, hnext⟩

end RheeKernel
