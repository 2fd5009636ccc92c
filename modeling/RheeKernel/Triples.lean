import Mathlib.Order.Defs.Unbundled

namespace Triples

variable {σ α β : Type}

/-- For programs on a state that may end in a panic: from a state with `P`, if `x` comes to an end it returns an `a` in a state with `Q a`. -/
def Triple (P : σ → Prop) (x : StateT σ Option α) (Q : α → σ → Prop) : Prop :=
  ∀ s, P s → ∀ a s', x s = some (a, s') → Q a s'

variable {P P' : σ → Prop} {Q Q' : α → σ → Prop} {R : β → σ → Prop} {x y : StateT σ Option α} {f : α → StateT σ Option β}
  {g : σ → σ} {c : Prop} {a : α}

namespace Triple

theorem pure (h : ∀ s, P s → Q a s) : Triple P (Pure.pure a) Q := by
  intro s hs b s' hb
  cases Option.some.inj hb
  exact h s hs

theorem bind (hx : Triple P x Q) (hf : ∀ a, Triple (Q a) (f a) R) : Triple P (x >>= f) R := by
  intro s hs b s'' hb
  obtain ⟨⟨a, s'⟩, ha, hb⟩ := Option.bind_eq_some_iff.mp hb
  exact hf a s' (hx s hs a s' ha) b s'' hb

theorem failure : Triple P (failure : StateT σ Option α) Q := by
  intro s _ a s' ha
  cases ha

/-- What is read is the state. -/
theorem get {f : σ → StateT σ Option β} (h : ∀ s, Triple (fun t => t = s ∧ P t) (f s) R) : Triple P (get >>= f) R := by
  intro s hs b s' hb
  exact h s s ⟨rfl, hs⟩ b s' hb

theorem modify {Q : PUnit → σ → Prop} (h : ∀ s, P s → Q ⟨⟩ (g s)) : Triple P (modify g) Q := by
  intro s hs a s' ha
  cases Option.some.inj ha
  exact h s hs

theorem ite [Decidable c] (hx : c → Triple P x Q) (hy : ¬ c → Triple P y Q) : Triple P (if c then x else y) Q := by
  by_cases hc : c
  · rw [if_pos hc]
    exact hx hc
  · rw [if_neg hc]
    exact hy hc

theorem pre (h : Triple P x Q) (hP : ∀ s, P' s → P s) : Triple P' x Q := fun s hs => h s (hP s hs)

theorem post (h : Triple P x Q) (hQ : ∀ a s, Q a s → Q' a s) : Triple P x Q' :=
  fun s hs a s' ha => hQ a s' (h s hs a s' ha)

theorem and (h : Triple P x Q) (h' : Triple P' x Q') : Triple (fun s => P s ∧ P' s) x fun a s => Q a s ∧ Q' a s :=
  fun s hs a s' ha => ⟨h s hs.1 a s' ha, h' s hs.2 a s' ha⟩

/-- A fact that does not depend on the state comes out of the precondition. -/
theorem fact (h : c → Triple P x Q) : Triple (fun s => c ∧ P s) x Q := fun s hs => h hs.1 s hs.2

/-- The states with `P` are taken one by one. -/
theorem each (h : ∀ s, P s → Triple (fun t => t = s) x Q) : Triple P x Q := fun s hs => h s hs s rfl

/-- In state `s` the program starts with `x`, which comes to its end in `s'`. -/
theorem step {s s' : σ} (hx : x s = some (a, s')) (h : Triple (fun t => t = s') (f a) R) : Triple (fun t => t = s) (x >>= f) R := by
  intro t ht b s'' hb
  cases ht
  change (x s).bind (fun y => f y.1 y.2) = some (b, s'') at hb
  rw [hx] at hb
  exact h s' rfl b s'' hb

/-- From state `s` the program `x` does what it does. -/
theorem run {s : σ} (h : ∀ b s', x s = some (b, s') → Q b s') : Triple (fun t => t = s) x Q := by
  intro t ht b s' hb
  cases ht
  exact h b s' hb

end Triple

/-- `x` changes the state along `S`, whatever it is. -/
def Moves (S : σ → σ → Prop) (x : StateT σ Option α) : Prop := ∀ s a s', x s = some (a, s') → S s s'

namespace Moves

variable {S S' : σ → σ → Prop}

theorem mono (h : Moves S x) (hS : ∀ s s', S s s' → S' s s') : Moves S' x := fun s a s' ha => hS s s' (h s a s' ha)

/-- What `S` preserves, `x` preserves. -/
theorem triple (h : Moves S x) (hP : ∀ s s', P s → S s s' → P s') : Triple P x fun _ => P :=
  fun s hs a s' ha => hP s s' hs (h s a s' ha)

theorem pure [Std.Refl S] : Moves S (Pure.pure a : StateT σ Option α) := by
  intro s b s' hb
  cases Option.some.inj hb
  exact Std.Refl.refl s

theorem bind [IsTrans σ S] (hx : Moves S x) (hf : ∀ a, Moves S (f a)) : Moves S (x >>= f) := by
  intro s b s'' hb
  obtain ⟨⟨a, s'⟩, ha, hb⟩ := Option.bind_eq_some_iff.mp hb
  exact IsTrans.trans _ _ _ (hx s a s' ha) (hf a s' b s'' hb)

theorem failure : Moves S (failure : StateT σ Option α) := by
  intro s a s' ha
  cases ha

theorem get {f : σ → StateT σ Option β} (h : ∀ s, Moves S (f s)) : Moves S (get >>= f) := fun s b s' hb => h s s b s' hb

theorem modify (h : ∀ s, S s (g s)) : Moves S (modify g) := by
  intro s a s' ha
  cases Option.some.inj ha
  exact h s

theorem ite [Decidable c] (hx : Moves S x) (hy : Moves S y) : Moves S (if c then x else y) := by
  by_cases hc : c
  · rw [if_pos hc]
    exact hx
  · rw [if_neg hc]
    exact hy

end Moves

end Triples
