import Mathlib.Data.List.Basic

namespace Machine

variable {σ ε : Type*}

/-- States reached from `init` by steps that were all admitted by `ok` in the state they were
taken in. -/
inductive Reach (step : σ → ε → Option σ) (ok : σ → ε → Prop) (init : σ) : σ → Prop
  | start : Reach step ok init init
  | next {s s' e} : Reach step ok init s → ok s e → step s e = some s' → Reach step ok init s'

/-- The run that takes the listed events one after the other, if each of them is enabled. -/
def exec (step : σ → ε → Option σ) (s : σ) : List ε → Option σ
  | [] => some s
  | e :: es => (step s e).bind fun s' => exec step s' es

theorem Reach.invariant {step : σ → ε → Option σ} {ok : σ → ε → Prop} {init s : σ} {I : σ → Prop}
    (base : I init) (keep : ∀ s e s', I s → ok s e → step s e = some s' → I s')
    (h : Reach step ok init s) : I s := by
  induction h with
  | start => exact base
  | next _ hok hs ih => exact keep _ _ _ ih hok hs

theorem Reach.mono {step : σ → ε → Option σ} {ok ok' : σ → ε → Prop} {init s : σ}
    (weaker : ∀ s e, ok s e → ok' s e) (h : Reach step ok init s) : Reach step ok' init s := by
  induction h with
  | start => exact .start
  | next _ hok hs ih => exact .next ih (weaker _ _ hok) hs

theorem Reach.trans {step : σ → ε → Option σ} {ok : σ → ε → Prop} {s t u : σ} (h : Reach step ok s t) (h' : Reach step ok t u) :
    Reach step ok s u := by
  induction h' with
  | start => exact h
  | next _ hok hs ih => exact .next ih hok hs

/-- A run is over at once, or it has a first step. -/
theorem Reach.first {step : σ → ε → Option σ} {ok : σ → ε → Prop} {s t : σ} (h : Reach step ok s t) :
    s = t ∨ ∃ e u, ok s e ∧ step s e = some u ∧ Reach step ok u t := by
  induction h with
  | start => exact .inl rfl
  | @next t t' e _ hok hs ih =>
    rcases ih with rfl | ⟨e', u, hok', hs', hu⟩
    · exact .inr ⟨e, t', hok, hs, .start⟩
    · exact .inr ⟨e', u, hok', hs', .next hu hok hs⟩

/-- Where only one event is possible a run that has come to its end goes through every state of any other. -/
theorem Reach.through {step : σ → Unit → Option σ} {ok : σ → Unit → Prop} {s t u : σ} (h : Reach step ok s t) (hend : step t () = none)
    (h' : Reach step ok s u) : Reach step ok u t := by
  induction h' with
  | start => exact h
  | @next v v' e _ _ hs ih =>
    rcases ih.first with rfl | ⟨e', w, _, hs', hw⟩
    · cases e
      rw [hend] at hs
      cases hs
    · cases Option.some.inj (hs.symm.trans hs')
      exact hw

/-- A run of events that are all admitted stays inside the reachable states. -/
theorem Reach.exec {step : σ → ε → Option σ} {ok : σ → ε → Prop} {init s s' : σ} {es : List ε}
    (h : Reach step ok init s) (hok : ∀ e ∈ es, ∀ t, ok t e) (he : Machine.exec step s es = some s') :
    Reach step ok init s' := by
  induction es generalizing s with
  | nil => cases Option.some.inj he; exact h
  | cons e es ih =>
    obtain ⟨t, ht, he⟩ := Option.bind_eq_some_iff.mp he
    exact ih (.next h (hok e (by simp) s) ht) (fun e' he' => hok e' (by simp [he'])) he

/-- The run of `exec` with a check that each event is admitted. -/
def execOk (step : σ → ε → Option σ) (ok : σ → ε → Prop) [∀ s e, Decidable (ok s e)] (s : σ) : List ε → Option σ
  | [] => some s
  | e :: es => if ok s e then (step s e).bind fun s' => execOk step ok s' es else none

theorem Reach.execOk {step : σ → ε → Option σ} {ok : σ → ε → Prop} [∀ s e, Decidable (ok s e)] {init s s' : σ}
    {es : List ε} (h : Reach step ok init s) (he : Machine.execOk step ok s es = some s') : Reach step ok init s' := by
  induction es generalizing s with
  | nil => cases Option.some.inj he; exact h
  | cons e es ih =>
    unfold Machine.execOk at he
    split at he
    next hok =>
      obtain ⟨t, ht, he⟩ := Option.bind_eq_some_iff.mp he
      exact ih (.next h hok ht) he
    next => simp at he

end Machine
