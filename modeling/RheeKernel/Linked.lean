import Mathlib.Data.List.Nodup
import Mathlib.Logic.Function.Basic

namespace Linked

variable {α : Type*} {next next' : α → Option α} {start : Option α} {l : List α} {a b : α}

/-- Following `next` from `start` visits `l` and ends in a null pointer. -/
def Path (next : α → Option α) : Option α → List α → Prop
  | start, [] => start = none
  | start, a :: l => start = some a ∧ Path next (next a) l

theorem Path.head_eq (h : Path next start l) : start = l.head? := by
  cases l with
  | nil => exact h
  | cons a l => exact h.1

theorem Path.congr (hn : ∀ a ∈ l, next a = next' a) (h : Path next start l) : Path next' start l := by
  induction l generalizing start with
  | nil => exact h
  | cons a l ih =>
    refine ⟨h.1, ?_⟩
    rw [← hn a (by simp)]
    exact ih (fun x hx => hn x (by simp [hx])) h.2

theorem Path.unique {l' : List α} (h : Path next start l) (h' : Path next start l') : l = l' := by
  induction l generalizing start l' with
  | nil =>
    cases h
    cases l' with
    | nil => rfl
    | cons a l' => exact absurd h'.1 (by simp)
  | cons a l ih =>
    cases l' with
    | nil => exact absurd (h.1.symm.trans h') (by simp)
    | cons b l' =>
      cases Option.some.inj (h.1.symm.trans h'.1)
      rw [ih h.2 h'.2]

theorem Path.suffix {m : List α} (h : Path next start (m ++ a :: l)) : Path next (some a) (a :: l) := by
  induction m generalizing start with
  | nil => exact ⟨rfl, h.2⟩
  | cons b m ih => exact ih h.2

/-- A path that ends does not come back to a node. -/
theorem Path.nodup (h : Path next start l) : l.Nodup := by
  induction l generalizing start with
  | nil => exact List.nodup_nil
  | cons a l ih =>
    refine List.nodup_cons.mpr ⟨?_, ih h.2⟩
    intro hm
    obtain ⟨u, v, rfl⟩ := List.append_of_mem hm
    have hback := (Path.suffix h.2).unique (h.1 ▸ h : Path next (some a) _)
    have := congrArg List.length hback
    simp at this
    omega

theorem Path.next_mem (h : Path next start l) (ha : a ∈ l) (hn : next a = some b) : b ∈ l := by
  obtain ⟨u, v, rfl⟩ := List.append_of_mem ha
  have hv := (Path.suffix h).2
  rw [hn] at hv
  cases v with
  | nil => exact absurd hv (by simp [Path])
  | cons c v =>
    cases Option.some.inj hv.1
    simp

theorem Path.exists_before (h : Path next (some a) (a :: l)) (hb : b ∈ l) : ∃ c ∈ a :: l, next c = some b := by
  induction l generalizing a with
  | nil => simp at hb
  | cons d l ih =>
    have hd := h.2.1
    rcases List.mem_cons.mp hb with rfl | hb
    · exact ⟨a, by simp, hd⟩
    · obtain ⟨c, hc, hcb⟩ := ih (⟨rfl, h.2.2⟩ : Path next (some d) (d :: l)) hb
      exact ⟨c, by simp at hc ⊢; tauto, hcb⟩

/-- The first node of a path has nothing before it. -/
theorem Path.next_ne_start (h : Path next start l) (ha : a ∈ l) (hn : next a = some b) : start ≠ some b := by
  rintro rfl
  have hd := h.nodup
  obtain ⟨u, v, rfl⟩ := List.append_of_mem ha
  have hv := (Path.suffix h).2
  rw [hn] at hv
  have hback := hv.unique h
  have := congrArg List.length hback
  simp at this
  omega

/-- A node linked in behind `a`. -/
theorem Path.insert {x : α} (h : Path next start l) (ha : a ∈ l) (hx : x ∉ l)
    (hn : ∀ c, c ≠ a → c ≠ x → next' c = next c) (hax : next' a = some x) (hxn : next' x = next a) :
    ∃ l', Path next' start l' ∧ ∀ c, c ∈ l' ↔ c = x ∨ c ∈ l := by
  obtain ⟨u, v, rfl⟩ := List.append_of_mem ha
  have hd := h.nodup
  refine ⟨u ++ a :: x :: v, ?_, by simp; tauto⟩
  induction u generalizing start with
  | nil =>
    refine ⟨h.1, hax, ?_⟩
    rw [hxn]
    refine Path.congr ?_ h.2
    intro c hc
    refine (hn c ?_ ?_).symm
    · rintro rfl
      exact (List.nodup_cons.mp hd).1 hc
    · rintro rfl
      exact hx (by simp [hc])
  | cons c u ih =>
    refine ⟨h.1, ?_⟩
    have hca : c ≠ a := by
      rintro rfl
      exact (List.nodup_cons.mp hd).1 (by simp)
    have hcx : c ≠ x := by
      rintro rfl
      exact hx (by simp)
    rw [hn c hca hcx]
    exact ih h.2 (by simp) (fun hm => hx (List.mem_cons_of_mem _ hm)) (List.nodup_cons.mp hd).2

end Linked
