import Mathlib.Data.List.Basic

namespace WhileLoop

variable {σ : Type*}

/-- A loop whose test may change the state, in so many tests at most. There is no result where a step fails. -/
def run (test : σ → Option (Bool × σ)) (body : σ → Option σ) : Nat → σ → Option σ
  | 0, _ => none
  | fuel + 1, s => (test s).bind fun x => if x.1 then (body x.2).bind (run test body fuel) else some x.2

variable {test : σ → Option (Bool × σ)} {body : σ → Option σ} {f : Nat → σ} {last : σ} {n fuel : Nat}

theorem run_turn {s s' t : σ} (go : test s = some (true, s')) (step : body s' = some t) :
    run test body (fuel + 1) s = run test body fuel t := by
  rw [run, go, Option.bind_some, if_pos rfl, step, Option.bind_some]

theorem run_last {s : σ} (stop : test s = some (false, last)) : run test body (fuel + 1) s = some last := by
  rw [run, stop, Option.bind_some, if_neg Bool.false_ne_true]

/-- A loop of which the states at the head of each turn are known. -/
theorem run_states (turns : ∀ k < n, ∃ s, test (f k) = some (true, s) ∧ body s = some (f (k + 1)))
    (stop : test (f n) = some (false, last)) (enough : n < fuel) : run test body fuel (f 0) = some last := by
  induction n generalizing fuel f with
  | zero =>
    cases fuel with
    | zero => omega
    | succ fuel => exact run_last stop
  | succ n ih =>
    cases fuel with
    | zero => omega
    | succ fuel =>
      obtain ⟨s, go, step⟩ := turns 0 (Nat.succ_pos n)
      rw [run_turn go step]
      apply ih (f := fun k => f (k + 1))
      · intro k hk
        exact turns (k + 1) (Nat.succ_lt_succ hk)
      · exact stop
      · omega

end WhileLoop
