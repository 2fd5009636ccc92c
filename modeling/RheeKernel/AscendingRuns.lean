import Mathlib.Data.List.Chain
import Mathlib.Order.Basic

namespace AscendingRuns

variable {α : Type*} (r : α → α → Prop) [DecidableRel r]

/-- The places in the list where the order goes down. -/
def descents : List α → Nat
  | [] => 0
  | [_] => 0
  | a :: b :: l => (if r a b then 0 else 1) + descents (b :: l)

/-- The list is one ascending run after another, at most two of them. -/
def TwoRuns (l : List α) : Prop := ∃ l₁ l₂, l = l₁ ++ l₂ ∧ l₁.IsChain r ∧ l₂.IsChain r

/-- Insertion behind `a`: where `x` fits between two neighbours, or where it goes before an element that starts a run, or at the end. -/
def place (x : α) (a : α) : List α → List α
  | [] => [x]
  | b :: l => if (r a x ∨ ¬ r a b) ∧ r x b then x :: b :: l else b :: place x b l

variable {r} {a b x : α} {l : List α}

theorem descents_cons : descents r (a :: b :: l) = (if r a b then 0 else 1) + descents r (b :: l) := rfl

theorem isChain_iff_descents : l.IsChain r ↔ descents r l = 0 := by
  induction l with
  | nil => simp [descents]
  | cons a l ih =>
    cases l with
    | nil => simp [descents]
    | cons b l =>
      rw [List.isChain_cons_cons, ih, descents_cons]
      split
      next hab => simp [hab]
      next hab => simp [hab]

theorem descents_append_le {l' : List α} (h : l.IsChain r) (h' : l'.IsChain r) : descents r (l ++ l') ≤ 1 := by
  induction l with
  | nil =>
    rw [List.nil_append, isChain_iff_descents.mp h']
    exact Nat.zero_le 1
  | cons a l ih =>
    cases l with
    | nil =>
      cases l' with
      | nil => exact Nat.zero_le 1
      | cons b l' =>
        have hrest := isChain_iff_descents.mp h'
        change (if r a b then 0 else 1) + descents r (b :: l') ≤ 1
        split <;> omega
    | cons b l =>
      obtain ⟨hab, hl⟩ := List.isChain_cons_cons.mp h
      have hrest := ih hl
      change (if r a b then 0 else 1) + descents r (b :: (l ++ l')) ≤ 1
      rwa [if_pos hab, Nat.zero_add]

theorem twoRuns_iff_descents : TwoRuns r l ↔ descents r l ≤ 1 := by
  constructor
  · rintro ⟨l₁, l₂, rfl, h₁, h₂⟩
    exact descents_append_le h₁ h₂
  · intro hfew
    induction l with
    | nil => exact ⟨[], [], rfl, .nil, .nil⟩
    | cons a l ih =>
      cases l with
      | nil => exact ⟨[a], [], rfl, .singleton a, .nil⟩
      | cons b l =>
        rw [descents_cons] at hfew
        by_cases hab : r a b
        · rw [if_pos hab, Nat.zero_add] at hfew
          obtain ⟨l₁, l₂, hl, h₁, h₂⟩ := ih hfew
          cases l₁ with
          | nil =>
            rw [List.nil_append] at hl
            exact ⟨a :: b :: l, [], (List.append_nil _).symm, .cons_cons hab (hl ▸ h₂), .nil⟩
          | cons c l₁ =>
            obtain ⟨rfl, hl⟩ := List.cons.inj hl
            refine ⟨a :: b :: l₁, l₂, ?_, .cons_cons hab h₁, h₂⟩
            rw [hl]
            rfl
        · rw [if_neg hab] at hfew
          exact ⟨[a], b :: l, rfl, .singleton a, isChain_iff_descents.mpr (by omega)⟩

/-- Insertion adds a descent only to a list without one, of elements that `x` goes before. -/
theorem descents_place (htotal : ∀ b ∈ a :: l, ¬ r b x → r x b) : descents r (a :: place r x a l) ≤ descents r (a :: l) ∨
    (descents r (a :: l) = 0 ∧ r x a ∧ ¬ r a x ∧ descents r (a :: place r x a l) = 1) := by
  induction l generalizing a with
  | nil =>
    by_cases hax : r a x
    · exact .inl (by simp [place, descents, hax])
    · exact .inr ⟨rfl, htotal a (by simp) hax, hax, by simp [place, descents, hax]⟩
  | cons b l ih =>
    unfold place
    split
    next hfits =>
      obtain ⟨hleft, hxb⟩ := hfits
      refine .inl ?_
      rw [descents_cons, descents_cons, descents_cons, if_pos hxb, Nat.zero_add]
      by_cases hax : r a x
      · rw [if_pos hax]
        omega
      · rw [if_neg hax, if_neg (hleft.resolve_left hax)]
    next hnot =>
      rw [descents_cons, descents_cons]
      rcases ih fun c hc => htotal c (List.mem_cons_of_mem a hc) with hle | ⟨hzero, hxb, _, hone⟩
      · exact .inl (Nat.add_le_add_left hle _)
      · have hax : ¬ r a x := fun hax => hnot ⟨.inl hax, hxb⟩
        have hab : r a b := by
          by_contra hab
          exact hnot ⟨.inr hab, hxb⟩
        refine .inr ⟨?_, htotal a (by simp) hax, hax, ?_⟩
        · rw [if_pos hab, hzero]
        · rw [if_pos hab, hone]

/-- Insertion keeps the list one of at most two ascending runs. -/
theorem TwoRuns.place (h : TwoRuns r (a :: l)) (htotal : ∀ b ∈ a :: l, ¬ r b x → r x b) : TwoRuns r (a :: AscendingRuns.place r x a l) := by
  rw [twoRuns_iff_descents] at h ⊢
  rcases descents_place htotal with hle | ⟨_, _, _, hone⟩
  · exact hle.trans h
  · exact hone.le

/-- Insertion parts the list and puts the element in between. -/
theorem place_parts : ∃ l₁ l₂, l = l₁ ++ l₂ ∧ place r x a l = l₁ ++ x :: l₂ := by
  induction l generalizing a with
  | nil => exact ⟨[], [], rfl, rfl⟩
  | cons b l ih =>
    unfold place
    split
    next => exact ⟨[], b :: l, rfl, rfl⟩
    next =>
      obtain ⟨l₁, l₂, whole, placed⟩ := @ih b
      refine ⟨b :: l₁, l₂, ?_, ?_⟩
      · rw [whole, List.cons_append]
      · rw [placed, List.cons_append]

theorem place_perm : (place r x a l).Perm (x :: l) := by
  induction l generalizing a with
  | nil => exact .refl _
  | cons b l ih =>
    unfold place
    split
    next => exact .refl _
    next => exact (List.Perm.cons b ih).trans (.swap x b l)

/-- Insertion goes by the order of the elements that there are. -/
theorem place_congr {r' : α → α → Prop} [DecidableRel r'] (h : ∀ c ∈ x :: a :: l, ∀ d ∈ x :: a :: l, r c d ↔ r' c d) :
    place r x a l = place r' x a l := by
  induction l generalizing a with
  | nil => rfl
  | cons b l ih =>
    have hrest : place r x b l = place r' x b l := by
      apply ih
      intro c hc d hd
      have hmem : ∀ e ∈ x :: b :: l, e ∈ x :: a :: b :: l := by
        intro e he
        rcases List.mem_cons.mp he with rfl | he
        · exact List.mem_cons_self
        · exact List.mem_cons_of_mem _ (List.mem_cons_of_mem _ he)
      exact h c (hmem c hc) d (hmem d hd)
    unfold place
    rw [hrest]
    simp only [h a (by simp) x (by simp), h a (by simp) b (by simp), h x (by simp) b (by simp)]

end AscendingRuns
