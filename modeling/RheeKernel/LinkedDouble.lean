import RheeKernel.Linked

namespace Linked

variable {α : Type*} {next next' prev prev' : α → Option α} {before start : Option α} {l : List α} {a x : α}

/-- Following `next` from `start` visits `l` and ends in a null pointer, and `prev` leads back, from
the first node to `before`. -/
def DPath (next prev : α → Option α) : Option α → Option α → List α → Prop
  | _, start, [] => start = none
  | before, start, a :: l => start = some a ∧ prev a = before ∧ DPath next prev (some a) (next a) l

theorem DPath.path (h : DPath next prev before start l) : Path next start l := by
  induction l generalizing before start with
  | nil => exact h
  | cons a l ih => exact ⟨h.1, ih h.2.2⟩

theorem DPath.congr (hn : ∀ a ∈ l, next' a = next a) (hp : ∀ a ∈ l, prev' a = prev a)
    (h : DPath next prev before start l) : DPath next' prev' before start l := by
  induction l generalizing before start with
  | nil => exact h
  | cons a l ih =>
    refine ⟨h.1, ?_, ?_⟩
    · rw [hp a (by simp)]
      exact h.2.1
    · rw [hn a (by simp)]
      exact ih (fun c hc => hn c (by simp [hc])) (fun c hc => hp c (by simp [hc])) h.2.2

/-- A node put in front of the first one. -/
theorem DPath.push (h : DPath next prev none start l) (hx : x ∉ l) (hpx : prev' x = none) (hnx : next' x = start)
    (hback : ∀ a, start = some a → prev' a = some x) (hn : ∀ a, a ≠ x → next' a = next a)
    (hp : ∀ a, a ≠ x → start ≠ some a → prev' a = prev a) : DPath next' prev' none (some x) (x :: l) := by
  refine ⟨rfl, hpx, ?_⟩
  rw [hnx]
  cases l with
  | nil => exact h
  | cons a l =>
    obtain ⟨rfl, -, hl⟩ := h
    have hd := hl.path
    have hax : a ≠ x := fun he => hx (by simp [he])
    refine ⟨rfl, hback a rfl, ?_⟩
    rw [hn a hax]
    have hnd : a ∉ l := by
      have : Path next (some a) (a :: l) := ⟨rfl, hd⟩
      exact (List.nodup_cons.mp this.nodup).1
    refine hl.congr ?_ ?_
    · intro c hc
      exact hn c (fun he => hx (by simp [← he, hc]))
    · intro c hc
      refine hp c (fun he => hx (by simp [← he, hc])) ?_
      intro he
      cases Option.some.inj he
      exact hnd hc

theorem DPath.remove_mid [DecidableEq α] {u v : List α} (h : DPath next prev before start (u ++ x :: v))
    (hn : ∀ a, a ∈ u ++ x :: v → next a ≠ some x → next' a = next a)
    (hn' : ∀ a, a ∈ u → next a = some x → next' a = next x)
    (hp : ∀ a, a ∈ u ++ x :: v → next x ≠ some a → prev' a = prev a)
    (hp' : ∀ a, next x = some a → prev' a = prev x) :
    DPath next' prev' before (if start = some x then next x else start) (u ++ v) := by
  induction u generalizing before start with
  | nil =>
    obtain ⟨rfl, hbx, hv⟩ := h
    simp only [List.nil_append, if_true]
    cases v with
    | nil => exact hv
    | cons c v =>
      obtain ⟨hc, hpc, hv⟩ := hv
      have hxc : Path next (some x) (x :: c :: v) := ⟨rfl, hc, hv.path⟩
      have hnd := hxc.nodup
      have hne : ∀ d ∈ c :: v, next d ≠ some x := by
        intro d hd hdx
        exact hxc.next_ne_start (List.mem_cons_of_mem _ hd) hdx rfl
      refine ⟨hc, (hp' c hc).trans hbx, ?_⟩
      rw [hn c (by simp) (hne c (by simp))]
      refine hv.congr ?_ ?_
      · intro d hd
        exact hn d (by simp [hd]) (hne d (by simp [hd]))
      · intro d hd
        refine hp d (by simp [hd]) ?_
        intro hxd
        rw [hc] at hxd
        cases Option.some.inj hxd
        simp only [List.nodup_cons] at hnd
        exact hnd.2.1 hd
  | cons c u ih =>
    obtain ⟨rfl, hpc, hrest⟩ := h
    have hall : Path next (some c) (c :: (u ++ x :: v)) := ⟨rfl, hrest.path⟩
    have hnd := hall.nodup
    have hcx : c ≠ x := by
      rintro rfl
      exact (List.nodup_cons.mp hnd).1 (by simp)
    rw [if_neg (by simpa using hcx)]
    refine ⟨rfl, ?_, ?_⟩
    · refine (hp c (by simp) ?_).trans hpc
      intro hxc
      exact hall.next_ne_start (by simp) hxc rfl
    · have hih := ih hrest (fun a ha => hn a (by simp at ha ⊢; tauto)) (fun a ha => hn' a (by simp [ha]))
        (fun a ha => hp a (by simp at ha ⊢; tauto))
      split at hih
      next hcn =>
        rw [hn' c (by simp) hcn]
        exact hih
      next hcn =>
        rw [hn c (by simp) hcn]
        exact hih

/-- `prev` is the inverse of `next`. -/
theorem DPath.prev_iff (h : DPath next prev before start l) (hb : ∀ b, before = some b → b ∉ l) (hx : x ∈ l)
    (ha : a ∈ l) : prev x = some a ↔ next a = some x := by
  induction l generalizing before start a with
  | nil => simp at hx
  | cons c l ih =>
    have hall : Path next start (c :: l) := h.path
    obtain ⟨rfl, hpc, hl⟩ := h
    have hc : c ∉ l := (List.nodup_cons.mp hall.nodup).1
    rcases List.mem_cons.mp hx with rfl | hxl
    · constructor
      · intro hp
        rw [hpc] at hp
        exact absurd ha (hb a hp)
      · intro hn
        exact absurd rfl (hall.next_ne_start ha hn)
    · rcases List.mem_cons.mp ha with rfl | hal
      · cases l with
        | nil => simp at hxl
        | cons d l =>
          obtain ⟨hnd, hpd, hl'⟩ := hl
          rcases List.mem_cons.mp hxl with rfl | hxl'
          · simp [hpd, hnd]
          · have hdl : Path next (some d) (d :: l) := ⟨rfl, hl'.path⟩
            have hdne : d ≠ x := by
              rintro rfl
              exact (List.nodup_cons.mp hdl.nodup).1 hxl'
            constructor
            · intro hp
              obtain ⟨e, he, hex⟩ := hdl.exists_before hxl'
              have hpe := (ih ⟨hnd, hpd, hl'⟩ (by rintro b hb'; cases Option.some.inj hb'; exact hc) hxl he).mpr hex
              rw [hp] at hpe
              cases Option.some.inj hpe
              exact absurd he hc
            · intro hn
              rw [hnd] at hn
              exact absurd (Option.some.inj hn) hdne
      · refine ih hl ?_ hxl hal
        intro b hb'
        cases Option.some.inj hb'
        exact hc

theorem DPath.prev_mem (h : DPath next prev before start l) (hx : x ∈ l) (hp : prev x = some a) :
    before = some a ∨ a ∈ l := by
  induction l generalizing before start with
  | nil => simp at hx
  | cons c l ih =>
    obtain ⟨-, hpc, hl⟩ := h
    rcases List.mem_cons.mp hx with rfl | hx
    · exact Or.inl (hpc.symm.trans hp)
    · rcases ih hl hx with hc | ha
      · exact Or.inr (by simp [Option.some.inj hc])
      · exact Or.inr (by simp [ha])

/-- A node taken out of the list, as its two neighbours see it. -/
theorem DPath.remove [DecidableEq α] (h : DPath next prev none start l) (hx : x ∈ l)
    (hn : ∀ a, prev x ≠ some a → next' a = next a) (hn' : ∀ a, prev x = some a → next' a = next x)
    (hp : ∀ a, next x ≠ some a → prev' a = prev a) (hp' : ∀ a, next x = some a → prev' a = prev x) :
    ∃ l', DPath next' prev' none (if start = some x then next x else start) l' ∧ ∀ c, c ∈ l' ↔ c ∈ l ∧ c ≠ x := by
  have hprev : ∀ {a : α}, a ∈ l → (prev x = some a ↔ next a = some x) := fun ha => h.prev_iff (by simp) hx ha
  have hnd := h.path.nodup
  obtain ⟨u, v, rfl⟩ := List.append_of_mem hx
  refine ⟨u ++ v, h.remove_mid ?_ ?_ (fun a _ => hp a) hp', ?_⟩
  · intro a ha hne
    exact hn a fun hpx => hne ((hprev ha).mp hpx)
  · intro a ha hax
    exact hn' a ((hprev (by simp [ha])).mpr hax)
  · intro c
    have hxu : x ∉ u ++ v := by
      have hperm := (List.perm_middle : (u ++ x :: v).Perm (x :: (u ++ v)))
      exact (List.nodup_cons.mp (hperm.nodup_iff.mp hnd)).1
    constructor
    · intro hc
      refine ⟨by simp at hc ⊢; tauto, ?_⟩
      rintro rfl
      exact hxu hc
    · rintro ⟨hc, hne⟩
      simp at hc ⊢
      tauto

/-- The nodes `l` lead from `a` to `b`, linked in both directions. -/
def Walk (next prev : α → Option α) : α → List α → α → Prop
  | a, [], b => next a = some b ∧ prev b = some a
  | a, c :: l, b => next a = some c ∧ prev c = some a ∧ Walk next prev c l b

theorem walk_append {b c : α} {m : List α} :
    Walk next prev a (l ++ c :: m) b ↔ Walk next prev a l c ∧ Walk next prev c m b := by
  induction l generalizing a with
  | nil => simp [Walk, and_assoc]
  | cons d l ih => simp only [List.cons_append, Walk, ih, and_assoc]

theorem Walk.last {b : α} (h : Walk next prev a l b) : ∃ z ∈ a :: l, prev b = some z ∧ next z = some b := by
  induction l generalizing a with
  | nil => exact ⟨a, by simp, h.2, h.1⟩
  | cons c l ih =>
    obtain ⟨z, hz, hp, hn⟩ := ih h.2.2
    exact ⟨z, by simp at hz ⊢; tauto, hp, hn⟩

theorem Walk.first {b : α} (h : Walk next prev a l b) : ∃ z, next a = some z ∧ (z = b ∨ z ∈ l) := by
  cases l with
  | nil => exact ⟨b, h.1, Or.inl rfl⟩
  | cons c l => exact ⟨c, h.1, Or.inr (by simp)⟩

/-- The last node is made to point to `y` in the place of `x`. -/
theorem Walk.retarget {y : α} (h : Walk next prev a l x) (hnd : (a :: l).Nodup)
    (hn : ∀ c ∈ a :: l, prev x ≠ some c → next' c = next c) (hn' : ∀ c, prev x = some c → next' c = some y)
    (hp : ∀ c ∈ l, prev' c = prev c) (hpy : prev' y = prev x) : Walk next' prev' a l y := by
  induction l generalizing a with
  | nil => exact ⟨hn' a h.2, hpy.trans h.2⟩
  | cons c l ih =>
    obtain ⟨hac, hca, hrest⟩ := h
    obtain ⟨z, hz, hpz, -⟩ := hrest.last
    have haz : prev x ≠ some a := by
      rw [hpz]
      intro he
      cases Option.some.inj he
      exact (List.nodup_cons.mp hnd).1 hz
    refine ⟨(hn a (by simp) haz).trans hac, (hp c (by simp)).trans hca, ?_⟩
    exact ih hrest (List.nodup_cons.mp hnd).2 (fun d hd => hn d (by simp at hd ⊢; tauto))
      (fun d hd => hp d (by simp [hd]))

/-- The nodes of a circular list, from any one of them on. -/
def Ring (next prev : α → Option α) : List α → Prop
  | [] => False
  | a :: l => (a :: l).Nodup ∧ Walk next prev a l a

/-- Nodes that are numbered one after the other along the links. -/
theorem walk_map {f : ℕ → α} {i n : ℕ} {b : α}
    (h : ∀ j, i ≤ j → j < i + n → next (f j) = some (f (j + 1)) ∧ prev (f (j + 1)) = some (f j))
    (hn : next (f (i + n)) = some b) (hp : prev b = some (f (i + n))) :
    Walk next prev (f i) ((List.range' (i + 1) n).map f) b := by
  induction n generalizing i with
  | zero => exact ⟨hn, hp⟩
  | succ n ih =>
    obtain ⟨hni, hpi⟩ := h i (Nat.le_refl i) (by omega)
    have hlast : i + 1 + n = i + (n + 1) := by omega
    exact ⟨hni, hpi, ih (fun j hj hjn => h j (by omega) (by omega)) (by rw [hlast, hn]) (by rw [hlast, hp])⟩

/-- Consecutive indices that are linked one to the next. -/
theorem walk_range' {next prev : ℕ → Option ℕ} {a n b : ℕ}
    (h : ∀ i, a ≤ i → i < a + n → next i = some (i + 1) ∧ prev (i + 1) = some i) (hn : next (a + n) = some b)
    (hp : prev b = some (a + n)) : Walk next prev a (List.range' (a + 1) n) b := by
  have hwalk := walk_map (f := id) h hn hp
  rwa [List.map_id] at hwalk

theorem Ring.rotate (h : Ring next prev (a :: l)) : Ring next prev (l ++ [a]) := by
  cases l with
  | nil => exact h
  | cons b m =>
    obtain ⟨hnd, hab, hba, hw⟩ := h
    refine ⟨?_, walk_append.mpr ⟨hw, hab, hba⟩⟩
    exact (List.perm_append_singleton a (b :: m)).nodup_iff.mpr hnd

/-- Any node can be taken as the first one. -/
theorem Ring.start_at (h : Ring next prev l) (hx : x ∈ l) :
    ∃ m, Ring next prev (x :: m) ∧ ∀ c, c ∈ x :: m ↔ c ∈ l := by
  obtain ⟨u, v, rfl⟩ := List.append_of_mem hx
  induction u generalizing v with
  | nil => exact ⟨v, h, fun c => Iff.rfl⟩
  | cons a u ih =>
    have hrot : Ring next prev (u ++ x :: (v ++ [a])) := by simpa using h.rotate
    obtain ⟨m, hm, hmem⟩ := ih (v ++ [a]) hrot (by simp)
    refine ⟨m, hm, fun c => (hmem c).trans ?_⟩
    simp
    tauto

theorem Ring.next_mem (h : Ring next prev l) (hx : x ∈ l) : ∃ y ∈ l, next x = some y := by
  obtain ⟨m, hm, hmem⟩ := h.start_at hx
  obtain ⟨z, hz, hzm⟩ := hm.2.first
  exact ⟨z, (hmem z).mp (by simpa using hzm), hz⟩

theorem Ring.prev_mem (h : Ring next prev l) (hx : x ∈ l) : ∃ y ∈ l, prev x = some y := by
  obtain ⟨m, hm, hmem⟩ := h.start_at hx
  obtain ⟨z, hz, hp, -⟩ := hm.2.last
  exact ⟨z, (hmem z).mp hz, hp⟩

/-- A node taken out of a ring of at least two. -/
theorem Ring.remove (h : Ring next prev l) (hx : x ∈ l) (hmore : next x ≠ some x)
    (hn : ∀ c, prev x ≠ some c → next' c = next c) (hn' : ∀ c, prev x = some c → next' c = next x)
    (hp : ∀ c, next x ≠ some c → prev' c = prev c) (hp' : ∀ c, next x = some c → prev' c = prev x) :
    ∃ m, Ring next' prev' m ∧ ∀ c, c ∈ m ↔ c ∈ l ∧ c ≠ x := by
  obtain ⟨m, ⟨hnd, hw⟩, hmem⟩ := h.start_at hx
  have hm : ∀ c, c ∈ m ↔ c ∈ l ∧ c ≠ x := by
    intro c
    rw [← hmem c]
    constructor
    · intro hc
      exact ⟨by simp [hc], fun he => (List.nodup_cons.mp hnd).1 (he ▸ hc)⟩
    · rintro ⟨hc, hne⟩
      exact (List.mem_cons.mp hc).resolve_left hne
  cases m with
  | nil => exact absurd hw.1 hmore
  | cons b k =>
    obtain ⟨hxb, hbx, hk⟩ := hw
    have hbk := (List.nodup_cons.mp hnd).2
    refine ⟨b :: k, ⟨hbk, hk.retarget hbk (fun c _ => hn c) ?_ ?_ (hp' b hxb)⟩, hm⟩
    · intro c hc
      rw [hn' c hc, hxb]
    · intro c hc
      refine hp c ?_
      rw [hxb]
      intro he
      cases Option.some.inj he
      exact (List.nodup_cons.mp hbk).1 hc

/-- A node put in before `a`. -/
theorem Ring.insert (h : Ring next prev l) (ha : a ∈ l) (hx : x ∉ l) (hxa : next' x = some a)
    (hpx : prev' x = prev a) (hpa : prev' a = some x) (hn' : ∀ c, prev a = some c → next' c = some x)
    (hn : ∀ c, c ≠ x → prev a ≠ some c → next' c = next c) (hp : ∀ c, c ≠ x → c ≠ a → prev' c = prev c) :
    ∃ m, Ring next' prev' m ∧ ∀ c, c ∈ m ↔ c ∈ l ∨ c = x := by
  obtain ⟨m, ⟨hnd, hw⟩, hmem⟩ := h.start_at ha
  have hxm : x ∉ a :: m := fun hc => hx ((hmem x).mp hc)
  have hne : ∀ c ∈ a :: m, c ≠ x := fun c hc he => hxm (he ▸ hc)
  refine ⟨a :: (m ++ [x]), ⟨?_, ?_⟩, ?_⟩
  · have hperm : (a :: (m ++ [x])).Perm (x :: a :: m) := by
      simpa using List.perm_append_singleton x (a :: m)
    exact hperm.nodup_iff.mpr (List.nodup_cons.mpr ⟨hxm, hnd⟩)
  · rw [walk_append]
    refine ⟨hw.retarget hnd (fun c hc hpc => hn c (hne c hc) hpc) hn' ?_ hpx, hxa, hpa⟩
    intro c hc
    refine hp c (hne c (by simp [hc])) ?_
    rintro rfl
    exact (List.nodup_cons.mp hnd).1 hc
  · intro c
    rw [← hmem c]
    simp
    tauto

end Linked
