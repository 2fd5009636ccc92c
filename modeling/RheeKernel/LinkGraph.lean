import RheeKernel.Counting

open Finset

/-- Nodes with numbers from 1 to `top`, some of them directories: tables of nodes, in which a zero is a free place. Each node has a counter
of the entries that name it. -/
@[ext]
structure LinkGraph where
  top : Nat
  used : Nat → Bool
  dir : Nat → Bool
  links : Nat → Nat
  len : Nat → Nat
  entry : Nat → Nat → Nat

namespace LinkGraph

def hit (m x : Nat) : Nat := if x = m then 1 else 0

/-- A directory that is linked itself. -/
def Live (G : LinkGraph) (d : Nat) : Prop := G.used d = true ∧ G.dir d = true ∧ G.links d ≠ 0

instance liveDecidable (G : LinkGraph) (d : Nat) : Decidable (G.Live d) := inferInstanceAs (Decidable (_ ∧ _))

/-- The number of entries of `d` that name `m`. -/
def names (G : LinkGraph) (d m : Nat) : Nat := if G.Live d then ∑ i ∈ range (G.len d), hit m (G.entry d i) else 0

/-- The number of entries in live directories that name `m`. -/
def refs (G : LinkGraph) (m : Nat) : Nat := ∑ d ∈ range (G.top + 1), G.names d m

/-- The live directories make a tree: each has itself in its first place, its parent in the second one, and is in one place of its parent. -/
structure Tree (G : LinkGraph) : Prop where
  bound : ∀ n, G.used n = true → 0 < n ∧ n ≤ G.top
  named : ∀ d i, G.Live d → i < G.len d → G.entry d i ≠ 0 → G.used (G.entry d i) = true
  long : ∀ d, G.Live d → 2 ≤ G.len d
  self : ∀ d, G.Live d → G.entry d 0 = d
  parent : ∀ d, G.Live d → G.Live (G.entry d 1)
  up : ∀ d, G.Live d → G.entry d 1 ≠ d → ∃ i, 2 ≤ i ∧ i < G.len (G.entry d 1) ∧ G.entry (G.entry d 1) i = d
  down : ∀ d i, G.Live d → 2 ≤ i → i < G.len d → G.entry d i ≠ 0 → G.dir (G.entry d i) = true → G.entry (G.entry d i) 1 = d
  once : ∀ d i j, G.Live d → 2 ≤ i → i < G.len d → 2 ≤ j → j < G.len d → G.entry d i = G.entry d j → G.entry d i ≠ 0 →
    G.dir (G.entry d i) = true → i = j

/-- The counters are right besides. -/
structure Sound (G : LinkGraph) : Prop extends Tree G where
  law : ∀ n, G.used n = true → G.links n = G.refs n

variable {G G' : LinkGraph} {d i m n c x old new : Nat}

theorem hit_self : hit m m = 1 := if_pos rfl

theorem hit_ne (h : x ≠ m) : hit m x = 0 := if_neg h

theorem Live.ne_unused (hd : G.Live d) (hn : G.used n = false) : d ≠ n := by
  rintro rfl
  rw [hd.1] at hn
  cases hn

theorem Tree.live_le (h : G.Tree) (hd : G.Live d) : 0 < d ∧ d ≤ G.top := h.bound d hd.1

theorem names_live (hd : G.Live d) : G.names d m = ∑ i ∈ range (G.len d), hit m (G.entry d i) := if_pos hd

theorem names_dead (hd : ¬ G.Live d) : G.names d m = 0 := if_neg hd

theorem names_pos (hd : G.Live d) (hi : i < G.len d) (hm : G.entry d i = m) : 0 < G.names d m := by
  rw [names_live hd]
  have one := Counting.le_sum_of_mem (mem_range.mpr hi) fun i => hit m (G.entry d i)
  rw [hm, hit_self] at one
  exact one

theorem names_le_refs (hd : d ≤ G.top) : G.names d m ≤ G.refs m :=
  Counting.le_sum_of_mem (mem_range.mpr (Nat.lt_succ_of_le hd)) fun d => G.names d m

/-- No live directory names a node without references. -/
theorem Tree.entry_ne (h : G.Tree) (hrefs : G.refs m = 0) (hd : G.Live d) (hi : i < G.len d) : G.entry d i ≠ m := by
  intro hm
  have pos := names_pos hd hi hm
  have le := @names_le_refs G d m (h.live_le hd).2
  omega

theorem refs_eq_zero (h : ∀ d i, G.Live d → i < G.len d → G.entry d i ≠ m) : G.refs m = 0 := by
  apply Finset.sum_eq_zero
  intro d _
  unfold names
  split
  next hd =>
    apply Finset.sum_eq_zero
    intro i hi
    exact hit_ne (h d i hd (mem_range.mp hi))
  next => rfl

theorem Tree.refs_unused (h : G.Tree) (hn : G.used n = false) (hpos : n ≠ 0) : G.refs n = 0 := by
  apply refs_eq_zero
  intro d i hd hi same
  have used := h.named d i hd hi (same ▸ hpos)
  rw [same, hn] at used
  cases used

/-- What is named has links. -/
theorem Sound.linked (h : G.Sound) (hd : G.Live d) (hi : i < G.len d) (hpos : G.entry d i ≠ 0) : G.links (G.entry d i) ≠ 0 := by
  have used := h.named d i hd hi hpos
  have law := h.law _ used
  have pos := names_pos hd hi rfl
  have le := @names_le_refs G d (G.entry d i) (h.live_le hd).2
  omega

/-- A directory that is named is live. -/
theorem Sound.live_of_named (h : G.Sound) (hd : G.Live d) (hi : i < G.len d) (hpos : G.entry d i ≠ 0)
    (hdir : G.dir (G.entry d i) = true) : G.Live (G.entry d i) :=
  ⟨h.named d i hd hi hpos, hdir, h.linked hd hi hpos⟩

/-- Every directory that is named has been named in the same place before, and live directories keep their parents. -/
structure Narrowed (G G' : LinkGraph) : Prop where
  bound : ∀ n, G'.used n = true → 0 < n ∧ n ≤ G'.top
  named : ∀ d i, G'.Live d → i < G'.len d → G'.entry d i ≠ 0 → G'.used (G'.entry d i) = true
  live : ∀ d, G'.Live d → G.Live d ∧ 2 ≤ G'.len d
  first : ∀ d i, G.Live d → i < 2 → G'.entry d i = G.entry d i
  parent : ∀ d, G'.Live d → G'.Live (G.entry d 1)
  stays : ∀ d i, G'.Live d → 2 ≤ i → i < G.len (G.entry d 1) → G.entry (G.entry d 1) i = d →
    i < G'.len (G.entry d 1) ∧ G'.entry (G.entry d 1) i = d
  old : ∀ d i, G'.Live d → i < G'.len d → G'.entry d i ≠ 0 → G'.dir (G'.entry d i) = true →
    i < G.len d ∧ G'.entry d i = G.entry d i ∧ G.dir (G.entry d i) = true

theorem Narrowed.tree (r : Narrowed G G') (h : G.Sound) : G'.Tree := by
  constructor
  case bound => exact r.bound
  case named => exact r.named
  case long =>
    intro x hx
    exact (r.live x hx).2
  case self =>
    intro x hx
    obtain ⟨live, -⟩ := r.live x hx
    rw [r.first x 0 live (by omega)]
    exact h.self x live
  case parent =>
    intro x hx
    rw [r.first x 1 (r.live x hx).1 (by omega)]
    exact r.parent x hx
  case up =>
    intro x hx hne
    obtain ⟨live, -⟩ := r.live x hx
    rw [r.first x 1 live (by omega)] at hne ⊢
    obtain ⟨i, high, inside, found⟩ := h.up x live hne
    obtain ⟨inside', found'⟩ := r.stays x i hx high inside found
    exact ⟨i, high, inside', found'⟩
  case down =>
    intro x i hx high hi hpos hdir
    obtain ⟨live, -⟩ := r.live x hx
    obtain ⟨inside, same, dir⟩ := r.old x i hx hi hpos hdir
    rw [same] at hpos ⊢
    rw [r.first _ 1 (h.live_of_named live inside hpos dir) (by omega)]
    exact h.down x i live high inside hpos dir
  case once =>
    intro x i j hx high hi high' hj eq hpos hdir
    obtain ⟨live, -⟩ := r.live x hx
    obtain ⟨inside, same, dir⟩ := r.old x i hx hi hpos hdir
    obtain ⟨inside', same', -⟩ := r.old x j hx hj (eq ▸ hpos) (eq ▸ hdir)
    rw [same] at eq hpos
    rw [same'] at eq
    exact h.once x i j live high inside high' inside' eq hpos dir

/-- One directory at most changes what it names. -/
theorem refs_change (htop : G'.top = G.top) (hd : d ≤ G.top) (others : ∀ x, x ≠ d → G'.names x m = G.names x m) :
    G'.refs m + G.names d m = G.refs m + G'.names d m := by
  have hd' : d ∈ range (G.top + 1) := mem_range.mpr (Nat.lt_succ_of_le hd)
  have rest : ∑ x ∈ (range (G.top + 1)).erase d, G'.names x m = ∑ x ∈ (range (G.top + 1)).erase d, G.names x m := by
    apply Finset.sum_congr rfl
    intro x hx
    exact others x (ne_of_mem_erase hx)
  unfold refs
  rw [htop, ← add_sum_erase _ (fun x => G.names x m) hd', ← add_sum_erase _ (fun x => G'.names x m) hd', rest]
  omega

/-- Two directories at most change what they name. -/
theorem refs_change_two (htop : G'.top = G.top) (hd : d ≤ G.top) (hc : c ≤ G.top) (hne : d ≠ c)
    (others : ∀ x, x ≠ d → x ≠ c → G'.names x m = G.names x m) :
    G'.refs m + G.names d m + G.names c m = G.refs m + G'.names d m + G'.names c m := by
  have hd' : d ∈ range (G.top + 1) := mem_range.mpr (Nat.lt_succ_of_le hd)
  have hc' : c ∈ (range (G.top + 1)).erase d := mem_erase.mpr ⟨hne.symm, mem_range.mpr (Nat.lt_succ_of_le hc)⟩
  have rest : ∑ x ∈ ((range (G.top + 1)).erase d).erase c, G'.names x m = ∑ x ∈ ((range (G.top + 1)).erase d).erase c, G.names x m := by
    apply Finset.sum_congr rfl
    intro x hx
    obtain ⟨hxc, hx⟩ := mem_erase.mp hx
    exact others x (ne_of_mem_erase hx) hxc
  unfold refs
  rw [htop, ← add_sum_erase _ (fun x => G.names x m) hd', ← add_sum_erase _ (fun x => G.names x m) hc',
    ← add_sum_erase _ (fun x => G'.names x m) hd', ← add_sum_erase _ (fun x => G'.names x m) hc', rest]
  omega

/-- One place of a directory changes. -/
theorem names_change (hd : G.Live d) (hd' : G'.Live d) (hi : i < G.len d) (hlen : G'.len d = G.len d) (hold : G.entry d i = old)
    (hentry : ∀ j, G'.entry d j = if j = i then new else G.entry d j) : G'.names d m + hit m old = G.names d m + hit m new := by
  have update : G'.entry d = Function.update (G.entry d) i new := by
    funext j
    rw [hentry, Function.update_apply]
  have sum := Counting.sum_update_add (mem_range.mpr hi) (hit m) (G.entry d) new
  rw [hold] at sum
  rw [names_live hd, names_live hd', hlen, update]
  exact sum


theorem names_congr (hlive : G'.Live d ↔ G.Live d) (hlen : G.Live d → G'.len d = G.len d)
    (hentry : ∀ i, G.Live d → i < G.len d → hit m (G'.entry d i) = hit m (G.entry d i)) : G'.names d m = G.names d m := by
  by_cases live : G.Live d
  · rw [names_live live, names_live (hlive.mpr live), hlen live]
    apply Finset.sum_congr rfl
    intro i hi
    exact hentry i live (mem_range.mp hi)
  · rw [names_dead live, names_dead fun live' => live (hlive.mp live')]

/-- Place `i` of `d` gets another content; neither the old one nor the new one is a directory. -/
structure Retargeted (G G' : LinkGraph) (d i old new : Nat) : Prop where
  top : G'.top = G.top
  here : G.Live d ∧ i < G.len d ∧ G.entry d i = old
  live : ∀ x, G'.Live x ↔ G.Live x
  len : ∀ x, G.Live x → G'.len x = G.len x
  entry : ∀ x j, G.Live x → G'.entry x j = if x = d ∧ j = i then new else G.entry x j
  left : old ≠ 0 → G.dir old = false
  goal : new ≠ 0 → G'.used new = true ∧ G'.dir new = false
  bound : ∀ n, G'.used n = true → 0 < n ∧ n ≤ G.top
  kept : ∀ n, G.used n = true → G'.used n = true ∧ G'.dir n = G.dir n

/-- The first two places of a directory are taken by directories. -/
theorem Tree.place (h : G.Tree) (hd : G.Live d) (hleft : G.entry d i ≠ 0 → G.dir (G.entry d i) = false) : 2 ≤ i := by
  rcases Nat.lt_or_ge i 2 with low | high
  · have dirs : G.Live (G.entry d i) := by
      rcases Nat.lt_succ_iff_lt_or_eq.mp low with zero | one
      · rw [Nat.lt_one_iff.mp zero, h.self d hd]
        exact hd
      · rw [one]
        exact h.parent d hd
    have plain := hleft (Nat.ne_of_gt (h.live_le dirs).1)
    rw [dirs.2.1] at plain
    cases plain
  · exact high

theorem Retargeted.refs (r : Retargeted G G' d i old new) (h : G.Tree) : G'.refs m + hit m old = G.refs m + hit m new := by
  obtain ⟨hd, hi, hold⟩ := r.here
  have one : G'.names d m + hit m old = G.names d m + hit m new := by
    apply names_change hd ((r.live d).mpr hd) hi (r.len d hd) hold
    intro j
    rw [r.entry d j hd]
    simp only [true_and]
  have all := @refs_change G G' d m r.top (h.live_le hd).2 fun x hx => names_congr (r.live x) (r.len x) fun j live _ => by
    rw [r.entry x j live, if_neg fun both => hx both.1]
  omega

/-- The other places keep their contents, the first two of each directory among them. -/
theorem Retargeted.others (r : Retargeted G G' d i old new) (hx : G.Live x) {j : Nat} (hj : ¬ (x = d ∧ j = i)) : G'.entry x j = G.entry x j := by
  rw [r.entry x j hx, if_neg hj]

theorem Retargeted.narrowed (r : Retargeted G G' d i old new) (h : G.Sound) : Narrowed G G' := by
  obtain ⟨hd, hi, hold⟩ := r.here
  have place : 2 ≤ i := h.place hd fun hne => hold ▸ r.left (hold ▸ hne)
  constructor
  case bound =>
    intro n hn
    rw [r.top]
    exact r.bound n hn
  case named =>
    intro x j hx hj hne
    have live := (r.live x).mp hx
    rw [r.len x live] at hj
    rw [r.entry x j live] at hne ⊢
    split at hne
    next both =>
      rw [if_pos both]
      exact (r.goal hne).1
    next other =>
      rw [if_neg other]
      exact (r.kept _ (h.named x j live hj hne)).1
  case live =>
    intro x hx
    have live := (r.live x).mp hx
    rw [r.len x live]
    exact ⟨live, h.long x live⟩
  case first =>
    intro x j live hj
    exact r.others live (by omega)
  case parent =>
    intro x hx
    exact (r.live _).mpr (h.parent x ((r.live x).mp hx))
  case stays =>
    intro x j hx high inside found
    have live := (r.live x).mp hx
    have parent := h.parent x live
    refine ⟨by rwa [r.len _ parent], ?_⟩
    rw [r.others parent, found]
    rintro ⟨here, rfl⟩
    rw [here, hold] at found
    have plain := r.left (found ▸ Nat.ne_of_gt (h.live_le live).1)
    rw [found, live.2.1] at plain
    cases plain
  case old =>
    intro x j hx hj hne hdir
    have live := (r.live x).mp hx
    rw [r.len x live] at hj
    by_cases both : x = d ∧ j = i
    · rw [r.entry x j live, if_pos both] at hne hdir
      rw [(r.goal hne).2] at hdir
      cases hdir
    · rw [r.others live both] at hne hdir ⊢
      rw [(r.kept _ (h.named x j live hj hne)).2] at hdir
      exact ⟨hj, rfl, hdir⟩

/-- The counters follow what the place names. -/
theorem Retargeted.sound (r : Retargeted G G' d i old new) (h : G.Sound)
    (law : ∀ n, G'.used n = true → G'.links n + hit n old = G.refs n + hit n new) : G'.Sound := by
  refine ⟨(r.narrowed h).tree h, ?_⟩
  intro n hn
  have count := law n hn
  have refs := @Retargeted.refs G G' d i n old new r h.toTree
  omega

/-- A new directory `n` gets into the free place `i` of `d`. -/
structure Sprouted (G G' : LinkGraph) (d i n : Nat) : Prop where
  top : G'.top = G.top
  here : G.Live d ∧ i < G.len d ∧ G.entry d i = 0
  fresh : G.used n = false ∧ 0 < n ∧ n ≤ G.top
  used : ∀ x, G'.used x = true ↔ G.used x = true ∨ x = n
  dir : ∀ x, G.used x = true → G'.dir x = G.dir x
  live : ∀ x, G'.Live x ↔ G.Live x ∨ x = n
  len : ∀ x, G.Live x → G'.len x = G.len x
  entry : ∀ x j, G.Live x → G'.entry x j = if x = d ∧ j = i then n else G.entry x j
  own : G'.len n = 2 ∧ G'.entry n 0 = n ∧ G'.entry n 1 = d

theorem Sprouted.place (r : Sprouted G G' d i n) (h : G.Tree) : 2 ≤ i :=
  h.place r.here.1 fun hne => absurd r.here.2.2 hne

theorem Sprouted.others (r : Sprouted G G' d i n) (hx : G.Live x) {j : Nat} (hj : ¬ (x = d ∧ j = i)) : G'.entry x j = G.entry x j := by
  rw [r.entry x j hx, if_neg hj]

theorem Sprouted.not_live (r : Sprouted G G' d i n) (hx : G.Live x) : x ≠ n := by
  rintro rfl
  have unused := r.fresh.1
  rw [hx.1] at unused
  cases unused

theorem Sprouted.tree (r : Sprouted G G' d i n) (h : G.Sound) : G'.Tree := by
  obtain ⟨hd, hi, hold⟩ := r.here
  obtain ⟨unused, positive, below⟩ := r.fresh
  obtain ⟨two, zero, one⟩ := r.own
  have place := r.place h.toTree
  have first {x j : Nat} (hx : G.Live x) (hj : j < 2) : G'.entry x j = G.entry x j := r.others hx (by omega)
  have apart {x j : Nat} (hx : G.Live x) (hj : j < G.len x) : G.entry x j ≠ n :=
    h.entry_ne (h.refs_unused unused (Nat.ne_of_gt positive)) hx hj
  constructor
  case bound =>
    intro x hx
    rw [r.top]
    rcases (r.used x).mp hx with old | rfl
    · exact h.bound x old
    · exact ⟨positive, below⟩
  case named =>
    intro x j hx hj hne
    apply (r.used _).mpr
    rcases (r.live x).mp hx with live | rfl
    · rw [r.len x live] at hj
      rw [r.entry x j live] at hne ⊢
      split at hne
      next both => exact Or.inr (if_pos both)
      next other =>
        rw [if_neg other]
        exact Or.inl (h.named x j live hj hne)
    · rw [two] at hj
      rcases Nat.lt_succ_iff_lt_or_eq.mp hj with low | rfl
      · rw [Nat.lt_one_iff.mp low, zero]
        exact Or.inr rfl
      · rw [one]
        exact Or.inl hd.1
  case long =>
    intro x hx
    rcases (r.live x).mp hx with live | rfl
    · rw [r.len x live]
      exact h.long x live
    · exact Nat.le_of_eq two.symm
  case self =>
    intro x hx
    rcases (r.live x).mp hx with live | rfl
    · rw [first live (by omega)]
      exact h.self x live
    · exact zero
  case parent =>
    intro x hx
    apply (r.live _).mpr
    rcases (r.live x).mp hx with live | rfl
    · rw [first live (by omega)]
      exact Or.inl (h.parent x live)
    · rw [one]
      exact Or.inl hd
  case up =>
    intro x hx hne
    rcases (r.live x).mp hx with live | rfl
    · rw [first live (by omega)] at hne ⊢
      have parent := h.parent x live
      obtain ⟨j, high, inside, found⟩ := h.up x live hne
      refine ⟨j, high, by rwa [r.len _ parent], ?_⟩
      rw [r.others parent, found]
      rintro ⟨here, rfl⟩
      rw [here, hold] at found
      exact absurd found.symm (Nat.ne_of_gt (h.live_le live).1)
    · rw [one]
      refine ⟨i, place, by rwa [r.len d hd], ?_⟩
      rw [r.entry d i hd, if_pos ⟨rfl, rfl⟩]
  case down =>
    intro x j hx high hj hne hdir
    rcases (r.live x).mp hx with live | rfl
    · rw [r.len x live] at hj
      by_cases both : x = d ∧ j = i
      · rw [r.entry x j live, if_pos both, one]
        exact both.1.symm
      · rw [r.others live both] at hne hdir ⊢
        rw [r.dir _ (h.named x j live hj hne)] at hdir
        rw [first (h.live_of_named live hj hne hdir) (by omega)]
        exact h.down x j live high hj hne hdir
    · omega
  case once =>
    intro x j k hx high hj high' hk eq hne hdir
    rcases (r.live x).mp hx with live | rfl
    · rw [r.len x live] at hj hk
      by_cases both : x = d ∧ j = i
      · by_cases both' : x = d ∧ k = i
        · exact both.2.trans both'.2.symm
        · rw [r.others live both', r.entry x j live, if_pos both] at eq
          exact absurd eq.symm (apart live hk)
      · by_cases both' : x = d ∧ k = i
        · rw [r.others live both, r.entry x k live, if_pos both'] at eq
          exact absurd eq (apart live hj)
        · rw [r.others live both] at eq hne hdir
          rw [r.others live both'] at eq
          rw [r.dir _ (h.named x j live hj hne)] at hdir
          exact h.once x j k live high hj high' hk eq hne hdir
    · omega

theorem Sprouted.refs (r : Sprouted G G' d i n) (h : G.Tree) (hm : m ≠ 0) : G'.refs m = G.refs m + 2 * hit m n + hit m d := by
  obtain ⟨hd, hi, hold⟩ := r.here
  obtain ⟨two, zero, one⟩ := r.own
  have hne : d ≠ n := r.not_live hd
  have parent : G'.names d m + hit m 0 = G.names d m + hit m n := by
    apply names_change hd ((r.live d).mpr (Or.inl hd)) hi (r.len d hd) hold
    intro j
    rw [r.entry d j hd]
    simp only [true_and]
  have own : G'.names n m = hit m n + hit m d := by
    rw [names_live ((r.live n).mpr (Or.inr rfl)), two, sum_range_succ, sum_range_one, zero, one]
  have before : G.names n m = 0 := names_dead fun live => r.not_live live rfl
  have all := @refs_change_two G G' d m n r.top (h.live_le hd).2 r.fresh.2.2 hne fun x hxd hxn => by
    apply names_congr
    · rw [r.live x]
      exact or_iff_left hxn
    · exact r.len x
    · intro j live _
      rw [r.others live fun both => hxd both.1]
  have none : hit m 0 = 0 := hit_ne hm.symm
  omega

theorem Sprouted.sound (r : Sprouted G G' d i n) (h : G.Sound)
    (law : ∀ m, G'.used m = true → G'.links m = G.refs m + 2 * hit m n + hit m d) : G'.Sound := by
  have tree := r.tree h
  refine ⟨tree, ?_⟩
  intro m hm
  rw [law m hm, r.refs h.toTree (Nat.ne_of_gt (tree.bound m hm).1)]

/-- The empty directory `c` goes out of place `i` of `d`. -/
structure Pruned (G G' : LinkGraph) (d i c : Nat) : Prop where
  top : G'.top = G.top
  here : G.Live d ∧ i < G.len d ∧ G.entry d i = c
  gone : G.Live c ∧ c ≠ d
  empty : ∀ j, 2 ≤ j → j < G.len c → G.entry c j = 0
  used : ∀ x, G'.used x = G.used x
  dir : ∀ x, G'.dir x = G.dir x
  live : ∀ x, G'.Live x ↔ G.Live x ∧ x ≠ c
  len : ∀ x, G.Live x → G'.len x = G.len x
  entry : ∀ x j, G.Live x → G'.entry x j = if x = d ∧ j = i then 0 else G.entry x j

/-- No other directory has an empty one as its parent. -/
theorem Tree.no_child (h : G.Tree) (empty : ∀ j, 2 ≤ j → j < G.len c → G.entry c j = 0) (hx : G.Live x)
    (parent : G.entry x 1 = c) : x = c := by
  by_contra hne
  obtain ⟨j, high, inside, found⟩ := h.up x hx fun same => hne (same.symm.trans parent)
  rw [parent] at inside found
  have zero := (empty j high inside).symm.trans found
  exact absurd zero.symm (Nat.ne_of_gt (h.live_le hx).1)

/-- The place of an empty directory is not one of the first two. -/
theorem Tree.empty_place (h : G.Tree) (hd : G.Live d) (hold : G.entry d i = c) (hne : c ≠ d)
    (empty : ∀ j, 2 ≤ j → j < G.len c → G.entry c j = 0) : 2 ≤ i := by
  rcases Nat.lt_or_ge i 2 with low | high
  · rcases Nat.lt_succ_iff_lt_or_eq.mp low with zero | rfl
    · rw [Nat.lt_one_iff.mp zero, h.self d hd] at hold
      exact absurd hold.symm hne
    · exact absurd (h.no_child empty hd hold).symm hne
  · exact high

/-- A directory that is not in one of the first two places is in its parent. -/
theorem Tree.parent_of_place (h : G.Tree) (hd : G.Live d) (hi : i < G.len d) (hold : G.entry d i = c) (hc : G.Live c) (place : 2 ≤ i) :
    G.entry c 1 = d := by
  have positive := Nat.ne_of_gt (h.live_le hc).1
  have down := h.down d i hd place hi (by rwa [hold]) (by rw [hold]; exact hc.2.1)
  rwa [hold] at down

theorem Pruned.place (r : Pruned G G' d i c) (h : G.Tree) : 2 ≤ i :=
  h.empty_place r.here.1 r.here.2.2 r.gone.2 r.empty

theorem Pruned.parent (r : Pruned G G' d i c) (h : G.Tree) : G.entry c 1 = d :=
  h.parent_of_place r.here.1 r.here.2.1 r.here.2.2 r.gone.1 (r.place h)

theorem Pruned.others (r : Pruned G G' d i c) (hx : G.Live x) {j : Nat} (hj : ¬ (x = d ∧ j = i)) : G'.entry x j = G.entry x j := by
  rw [r.entry x j hx, if_neg hj]

theorem Pruned.narrowed (r : Pruned G G' d i c) (h : G.Tree) : Narrowed G G' := by
  obtain ⟨hd, hi, hold⟩ := r.here
  have place := r.place h
  have same {x j : Nat} (hx : G.Live x) (hne : G'.entry x j ≠ 0) : G'.entry x j = G.entry x j := by
    apply r.others hx
    intro both
    rw [r.entry x j hx, if_pos both] at hne
    exact hne rfl
  constructor
  case bound =>
    intro n hn
    rw [r.top]
    exact h.bound n ((r.used n).symm.trans hn)
  case named =>
    intro x j hx hj hne
    obtain ⟨live, -⟩ := (r.live x).mp hx
    rw [r.len x live] at hj
    have old := same live hne
    rw [old] at hne ⊢
    rw [r.used]
    exact h.named x j live hj hne
  case live =>
    intro x hx
    obtain ⟨live, -⟩ := (r.live x).mp hx
    rw [r.len x live]
    exact ⟨live, h.long x live⟩
  case first =>
    intro x j live hj
    exact r.others live (by omega)
  case parent =>
    intro x hx
    obtain ⟨live, hxc⟩ := (r.live x).mp hx
    exact (r.live _).mpr ⟨h.parent x live, fun child => hxc (h.no_child r.empty live child)⟩
  case stays =>
    intro x j hx high inside found
    obtain ⟨live, hxc⟩ := (r.live x).mp hx
    have parent := h.parent x live
    refine ⟨by rwa [r.len _ parent], ?_⟩
    rw [r.others parent, found]
    rintro ⟨here, rfl⟩
    rw [here, hold] at found
    exact hxc found.symm
  case old =>
    intro x j hx hj hne hdir
    obtain ⟨live, -⟩ := (r.live x).mp hx
    rw [r.len x live] at hj
    have old := same live hne
    rw [old, r.dir] at hdir
    exact ⟨hj, old, hdir⟩

/-- What an empty directory names. -/
theorem Tree.names_empty (h : G.Tree) (hc : G.Live c) (empty : ∀ j, 2 ≤ j → j < G.len c → G.entry c j = 0) (hm : m ≠ 0) :
    G.names c m = hit m c + hit m (G.entry c 1) := by
  have long := h.long c hc
  obtain ⟨k, two⟩ : ∃ k, G.len c = k + 2 := ⟨G.len c - 2, by omega⟩
  have rest : ∑ i ∈ range k, hit m (G.entry c (i + 1 + 1)) = 0 := by
    apply Finset.sum_eq_zero
    intro i hi
    have inside := mem_range.mp hi
    rw [empty (i + 1 + 1) (by omega) (by omega), hit_ne hm.symm]
  rw [names_live hc, two, sum_range_succ', sum_range_succ', rest, h.self c hc, Nat.zero_add, Nat.add_comm]

theorem Pruned.refs (r : Pruned G G' d i c) (h : G.Tree) (hm : m ≠ 0) : G'.refs m + 2 * hit m c + hit m d = G.refs m := by
  obtain ⟨hd, hi, hold⟩ := r.here
  obtain ⟨hc, hne⟩ := r.gone
  have parent : G'.names d m + hit m c = G.names d m + hit m 0 := by
    apply names_change hd ((r.live d).mpr ⟨hd, hne.symm⟩) hi (r.len d hd) hold
    intro j
    rw [r.entry d j hd]
    simp only [true_and]
  have own := h.names_empty hc r.empty hm
  have after : G'.names c m = 0 := names_dead fun live => ((r.live c).mp live).2 rfl
  have all := @refs_change_two G G' d m c r.top (h.live_le hd).2 (h.live_le hc).2 hne.symm fun x hxd hxc => by
    apply names_congr
    · rw [r.live x]
      exact and_iff_left hxc
    · exact r.len x
    · intro j live _
      rw [r.others live fun both => hxd both.1]
  have none : hit m 0 = 0 := hit_ne hm.symm
  rw [r.parent h] at own
  omega

/-- Nobody names the directory any more. -/
theorem Pruned.unnamed (r : Pruned G G' d i c) (h : G.Tree) : G'.refs c = 0 := by
  obtain ⟨hd, hi, hold⟩ := r.here
  apply refs_eq_zero
  intro x j hx hj names
  obtain ⟨live, other⟩ := (r.live x).mp hx
  have positive := Nat.ne_of_gt (h.live_le r.gone.1).1
  rw [r.entry x j live] at names
  split at names
  next => exact positive names.symm
  next away =>
    rw [r.len x live] at hj
    rcases Nat.lt_or_ge j 2 with low | high
    · rcases Nat.lt_succ_iff_lt_or_eq.mp low with zero | rfl
      · rw [Nat.lt_one_iff.mp zero, h.self x live] at names
        exact other names
      · exact other (h.no_child r.empty live names)
    · have parent := h.parent_of_place live hj names r.gone.1 high
      rw [r.parent h] at parent
      subst parent
      apply away
      refine ⟨rfl, h.once d j i hd high hj (r.place h) hi (names.trans hold.symm) (names ▸ positive) ?_⟩
      rw [names]
      exact r.gone.1.2.1

theorem Pruned.sound (r : Pruned G G' d i c) (h : G.Sound)
    (law : ∀ m, G.used m = true → G'.links m + 2 * hit m c + hit m d = G.refs m) : G'.Sound := by
  refine ⟨(r.narrowed h.toTree).tree h, ?_⟩
  intro m hm
  rw [r.used] at hm
  have count := law m hm
  have refs := r.refs h.toTree (Nat.ne_of_gt (h.bound m hm).1)
  omega

/-- A directory with a directory in it has two links. -/
theorem Sound.two_links (h : G.Sound) (hd : G.Live d) (hc : G.Live c) (hne : c ≠ d) (parent : G.entry c 1 = d) : 2 ≤ G.links d := by
  have own : 0 < G.names d d := names_pos hd (Nat.lt_of_lt_of_le Nat.two_pos (h.long d hd)) (h.self d hd)
  have child : 0 < G.names c d := names_pos hc (h.long c hc) parent
  have both := Counting.add_le_sum_of_ne (mem_range.mpr (Nat.lt_succ_of_le (h.live_le hd).2))
    (mem_range.mpr (Nat.lt_succ_of_le (h.live_le hc).2)) hne.symm fun x => G.names x d
  have law := h.law d hd.1
  change 2 ≤ G.links d
  rw [law]
  exact (Nat.add_le_add own child).trans both

/-- Nothing changes for the nodes in use but that some without links are given up. -/
structure Released (G G' : LinkGraph) : Prop where
  top : G'.top = G.top
  less : ∀ x, G'.used x = true → G.used x = true
  gone : ∀ x, G.used x = true → G'.used x = false → G.links x = 0
  dir : ∀ x, G'.used x = true → G'.dir x = G.dir x
  links : ∀ x, G'.used x = true → G'.links x = G.links x
  len : ∀ x, G'.used x = true → G.dir x = true → G'.len x = G.len x
  entry : ∀ x i, G'.used x = true → G.dir x = true → i < G.len x → G'.entry x i = G.entry x i

theorem Released.refl : Released G G := by
  refine ⟨rfl, fun _ hx => hx, ?_, fun _ _ => rfl, fun _ _ => rfl, fun _ _ _ => rfl, fun _ _ _ _ _ => rfl⟩
  intro x used lost
  rw [used] at lost
  cases lost

theorem Released.live (r : Released G G') : G'.Live x ↔ G.Live x := by
  unfold Live
  constructor
  · rintro ⟨used, dir, links⟩
    rw [r.dir x used] at dir
    rw [r.links x used] at links
    exact ⟨r.less x used, dir, links⟩
  · rintro ⟨used, dir, links⟩
    have used' : G'.used x = true := by
      by_contra lost
      exact links (r.gone x used (Bool.eq_false_iff.mpr lost))
    rw [r.dir x used', r.links x used']
    exact ⟨used', dir, links⟩

theorem Released.same (r : Released G G') (hx : G.Live x) : G'.len x = G.len x ∧ ∀ i, i < G.len x → G'.entry x i = G.entry x i := by
  have used := (r.live.mpr hx).1
  exact ⟨r.len x used hx.2.1, fun i hi => r.entry x i used hx.2.1 hi⟩

theorem Released.used (r : Released G G') (h : G.Sound) (hx : G.Live x) (hi : i < G.len x) (hpos : G.entry x i ≠ 0) :
    G'.used (G.entry x i) = true := by
  have used := h.named x i hx hi hpos
  by_contra lost
  have none := r.gone _ used (Bool.eq_false_iff.mpr lost)
  rw [h.law _ used] at none
  exact h.entry_ne none hx hi rfl

theorem Released.narrowed (r : Released G G') (h : G.Sound) : Narrowed G G' := by
  constructor
  case bound =>
    intro n hn
    rw [r.top]
    exact h.bound n (r.less n hn)
  case named =>
    intro x i hx hi hpos
    have live := r.live.mp hx
    rw [(r.same live).1] at hi
    rw [(r.same live).2 i hi] at hpos ⊢
    exact r.used h live hi hpos
  case live =>
    intro x hx
    have live := r.live.mp hx
    rw [(r.same live).1]
    exact ⟨live, h.long x live⟩
  case first =>
    intro x i live hi
    exact (r.same live).2 i (Nat.lt_of_lt_of_le hi (h.long x live))
  case parent =>
    intro x hx
    exact r.live.mpr (h.parent x (r.live.mp hx))
  case stays =>
    intro x i hx high inside found
    have parent := r.same (h.parent x (r.live.mp hx))
    exact ⟨by rwa [parent.1], (parent.2 i inside).trans found⟩
  case old =>
    intro x i hx hi hpos hdir
    have live := r.live.mp hx
    rw [(r.same live).1] at hi
    have same := (r.same live).2 i hi
    rw [same] at hpos hdir
    rw [r.dir _ (r.used h live hi hpos)] at hdir
    exact ⟨hi, same, hdir⟩

theorem Released.sound (r : Released G G') (h : G.Sound) : G'.Sound := by
  refine ⟨(r.narrowed h).tree h, ?_⟩
  intro n hn
  rw [r.links n hn, h.law n (r.less n hn)]
  unfold refs
  rw [r.top]
  apply Finset.sum_congr rfl
  intro x _
  apply Eq.symm
  apply names_congr r.live
  · intro hx
    exact (r.same hx).1
  · intro i hx hi
    rw [(r.same hx).2 i hi]

/-- Directory `d` gets a free place at its end. -/
structure Grown (G G' : LinkGraph) (d : Nat) : Prop where
  top : G'.top = G.top
  used : G'.used = G.used
  dir : G'.dir = G.dir
  links : G'.links = G.links
  len : ∀ x, G'.len x = if x = d then G.len d + 1 else G.len x
  entry : ∀ x j, G'.entry x j = if x = d ∧ j = G.len d then 0 else G.entry x j

theorem Grown.live (r : Grown G G' d) : G'.Live x ↔ G.Live x := by
  unfold Live
  rw [r.used, r.dir, r.links]

/-- A place is an old one, or it is free. -/
theorem Grown.place (r : Grown G G' d) {j : Nat} (hj : j < G'.len x) (hpos : G'.entry x j ≠ 0) : j < G.len x ∧ G'.entry x j = G.entry x j := by
  rw [r.len] at hj
  rw [r.entry] at hpos ⊢
  split at hpos
  next => exact absurd rfl hpos
  next other =>
    rw [if_neg other]
    refine ⟨?_, rfl⟩
    split at hj
    next same =>
      subst same
      have apart : j ≠ G.len x := fun last => other ⟨rfl, last⟩
      omega
    next => exact hj

theorem Grown.kept (r : Grown G G' d) {j : Nat} (hj : j < G.len x) : j < G'.len x ∧ G'.entry x j = G.entry x j := by
  have old : ¬ (x = d ∧ j = G.len d) := by
    rintro ⟨rfl, last⟩
    omega
  rw [r.len, r.entry, if_neg old]
  refine ⟨?_, rfl⟩
  split
  next same =>
    subst same
    omega
  next => exact hj

theorem Grown.narrowed (r : Grown G G' d) (h : G.Tree) : Narrowed G G' := by
  constructor
  case bound =>
    rw [r.used, r.top]
    exact h.bound
  case named =>
    intro x i hx hi hpos
    obtain ⟨hi, same⟩ := r.place hi hpos
    rw [same] at hpos ⊢
    rw [r.used]
    exact h.named x i (r.live.mp hx) hi hpos
  case live =>
    intro x hx
    have live := r.live.mp hx
    exact ⟨live, (r.kept (h.long x live)).1⟩
  case first =>
    intro x i live hi
    exact (r.kept (Nat.lt_of_lt_of_le hi (h.long x live))).2
  case parent =>
    intro x hx
    exact r.live.mpr (h.parent x (r.live.mp hx))
  case stays =>
    intro x i hx high inside found
    obtain ⟨inside', same⟩ := r.kept inside
    exact ⟨inside', same.trans found⟩
  case old =>
    intro x i hx hi hpos hdir
    obtain ⟨hi, same⟩ := r.place hi hpos
    rw [same, r.dir] at hdir
    exact ⟨hi, same, hdir⟩

theorem Grown.sound (r : Grown G G' d) (h : G.Sound) : G'.Sound := by
  refine ⟨(r.narrowed h.toTree).tree h, ?_⟩
  intro n hn
  rw [r.used] at hn
  rw [r.links, h.law n hn]
  unfold refs
  rw [r.top]
  apply Finset.sum_congr rfl
  intro x _
  by_cases live : G.Live x
  · have old : ∑ i ∈ range (G.len x), hit n (G'.entry x i) = ∑ i ∈ range (G.len x), hit n (G.entry x i) := by
      apply Finset.sum_congr rfl
      intro i hi
      rw [(r.kept (mem_range.mp hi)).2]
    rw [names_live live, names_live (r.live.mpr live), r.len]
    split
    next same =>
      subst same
      have free : G'.entry x (G.len x) = 0 := (r.entry x _).trans (if_pos ⟨rfl, rfl⟩)
      rw [sum_range_succ, old, free, hit_ne (Nat.ne_of_lt (h.bound n hn).1), Nat.add_zero]
    next => exact old.symm
  · rw [names_dead live, names_dead fun live' => live (r.live.mp live')]

def setEntry (G : LinkGraph) (d i x : Nat) : LinkGraph :=
  { G with entry := Function.update G.entry d (Function.update (G.entry d) i x) }

def setLinks (G : LinkGraph) (n l : Nat) : LinkGraph := { G with links := Function.update G.links n l }

/-- The graph with a new node that has one link. -/
def add (G : LinkGraph) (n : Nat) : LinkGraph :=
  { G with used := Function.update G.used n true, dir := Function.update G.dir n false, links := Function.update G.links n 1 }

/-- The graph with a new directory `n`, which has `d` as its parent and is not in it. -/
def sprout (G : LinkGraph) (d n : Nat) : LinkGraph :=
  { ((G.add n).setEntry n 0 n).setEntry n 1 d with
    dir := Function.update G.dir n true, links := Function.update G.links n 2, len := Function.update G.len n 2 }

def grow (G : LinkGraph) (d : Nat) : LinkGraph := { G.setEntry d (G.len d) 0 with len := Function.update G.len d (G.len d + 1) }

theorem setEntry_entry {y j : Nat} : (G.setEntry d i x).entry y j = if y = d ∧ j = i then x else G.entry y j := by
  unfold setEntry
  dsimp only
  by_cases same : y = d
  · subst same
    rw [Function.update_self, Function.update_apply]
    simp only [true_and]
  · rw [Function.update_of_ne same, if_neg fun both => same both.1]

theorem setEntry_same (h : G.entry d i = x) : G.setEntry d i x = G := by
  unfold setEntry
  rw [← h, Function.update_eq_self, Function.update_eq_self]

theorem grow_grown : Grown G (G.grow d) d := by
  refine ⟨rfl, rfl, rfl, rfl, ?_, ?_⟩
  · intro x
    exact Function.update_apply ..
  · intro x j
    exact setEntry_entry

/-- Place `i` of `d` is free; it may have been made at the end. -/
inductive Opens (G : LinkGraph) (d i : Nat) : LinkGraph → Prop
  | free : i < G.len d → G.entry d i = 0 → Opens G d i G
  | grown : i = G.len d → Opens G d i (G.grow d)

theorem Opens.sound (r : Opens G d i G') (h : G.Sound) : G'.Sound := by
  cases r with
  | free => exact h
  | grown => exact grow_grown.sound h

theorem Opens.live (r : Opens G d i G') : G'.Live x ↔ G.Live x := by
  cases r with
  | free => exact Iff.rfl
  | grown => exact grow_grown.live

theorem Opens.place (r : Opens G d i G') : i < G'.len d ∧ G'.entry d i = 0 := by
  cases r with
  | free inside zero => exact ⟨inside, zero⟩
  | grown last =>
    have len : (G.grow d).len d = G.len d + 1 := (grow_grown.len d).trans (if_pos rfl)
    rw [len, grow_grown.entry]
    exact ⟨by omega, if_pos ⟨rfl, last⟩⟩

theorem Opens.same (r : Opens G d i G') : G'.top = G.top ∧ G'.used = G.used ∧ G'.dir = G.dir ∧ G'.links = G.links := by
  cases r with
  | free => exact ⟨rfl, rfl, rfl, rfl⟩
  | grown => exact ⟨rfl, rfl, rfl, rfl⟩

theorem Opens.of_add (r : (G.add n).Opens d i G') : ∃ B, G.Opens d i B ∧ G' = B.add n := by
  cases r with
  | free inside zero => exact ⟨G, .free inside zero, rfl⟩
  | grown last => exact ⟨G.grow d, .grown last, rfl⟩

theorem add_of_ne (hne : x ≠ n) : (G.add n).used x = G.used x ∧ (G.add n).dir x = G.dir x :=
  ⟨Function.update_of_ne hne _ _, Function.update_of_ne hne _ _⟩

theorem add_live (fresh : G.used n = false) : (G.add n).Live x ↔ G.Live x := by
  unfold Live add
  by_cases same : x = n
  · subst same
    simp [fresh]
  · simp only [Function.update_of_ne same]

/-- The number of links does not matter for a node that is no directory. -/
theorem setLinks_live (plain : G.dir n = false) {l : Nat} : (G.setLinks n l).Live x ↔ G.Live x := by
  unfold Live setLinks
  by_cases same : x = n
  · subst same
    simp [plain]
  · simp only [Function.update_of_ne same]

/-- A directory that has links and keeps some stays live. -/
theorem setLinks_live_of_ne {l : Nat} (before : G.links n ≠ 0) (after : l ≠ 0) : (G.setLinks n l).Live x ↔ G.Live x := by
  unfold Live setLinks
  by_cases same : x = n
  · subst same
    simp [before, after]
  · simp only [Function.update_of_ne same]

/-- A new node that was not linked anywhere loses its one link. -/
theorem Sound.discard (h : G.Sound) (fresh : G.used n = false) (bound : 0 < n ∧ n ≤ G.top) : ((G.add n).setLinks n 0).Sound := by
  have live {x : Nat} : ((G.add n).setLinks n 0).Live x ↔ G.Live x :=
    (setLinks_live (G := G.add n) (Function.update_self _ _ _)).trans (add_live fresh)
  have apart {x : Nat} (hx : G.used x = true) : x ≠ n := by
    rintro rfl
    rw [fresh] at hx
    cases hx
  have used {x : Nat} (hx : G.used x = true) : ((G.add n).setLinks n 0).used x = true := (Function.update_of_ne (apart hx) _ _).trans hx
  have old {x : Nat} (hx : ((G.add n).setLinks n 0).used x = true) (hne : x ≠ n) : G.used x = true :=
    (add_of_ne hne).1.symm.trans hx
  have narrowed : Narrowed G ((G.add n).setLinks n 0) := by
    refine ⟨?_, fun x j hx hj hpos => used (h.named x j (live.mp hx) hj hpos), fun x hx => ⟨live.mp hx, h.long x (live.mp hx)⟩,
      fun _ _ _ _ => rfl, fun x hx => live.mpr (h.parent x (live.mp hx)), fun _ _ _ _ inside found => ⟨inside, found⟩, ?_⟩
    · intro x hx
      by_cases same : x = n
      · exact same ▸ bound
      · exact h.bound x (old hx same)
    · intro x j hx hj hpos hdir
      have named := h.named x j (live.mp hx) hj hpos
      exact ⟨hj, rfl, (add_of_ne (apart named)).2.symm.trans hdir⟩
  have refs {m : Nat} : ((G.add n).setLinks n 0).refs m = G.refs m :=
    Finset.sum_congr rfl fun x _ => names_congr live (fun _ => rfl) fun _ _ _ => rfl
  refine ⟨narrowed.tree h, ?_⟩
  intro x hx
  rw [refs]
  by_cases same : x = n
  · subst same
    rw [h.refs_unused fresh (Nat.ne_of_gt bound.1)]
    exact Function.update_self ..
  · rw [← h.law x (old hx same)]
    exact (Function.update_of_ne same _ _).trans (Function.update_of_ne same _ _)

/-- A new node is linked once. -/
theorem Sound.create (h : G.Sound) (hd : G.Live d) (place : i < G.len d ∧ G.entry d i = 0) (fresh : G.used n = false)
    (bound : 0 < n ∧ n ≤ G.top) : ((G.add n).setEntry d i n).Sound := by
  have r : Retargeted G ((G.add n).setEntry d i n) d i 0 n := by
    refine ⟨rfl, ⟨hd, place⟩, fun x => add_live fresh, fun _ _ => rfl, fun _ _ _ => setEntry_entry, fun hne => absurd rfl hne, ?_, ?_, ?_⟩
    · intro _
      exact ⟨Function.update_self .., Function.update_self ..⟩
    · intro x hx
      by_cases same : x = n
      · exact same ▸ bound
      · exact h.bound x ((add_of_ne same).1.symm.trans hx)
    · intro x hx
      have old : x ≠ n := by
        rintro rfl
        rw [fresh] at hx
        cases hx
      exact ⟨(add_of_ne old).1.trans hx, (add_of_ne old).2⟩
  apply r.sound h
  intro x hx
  have positive := (r.bound x hx).1
  rw [hit_ne (Nat.ne_of_lt positive)]
  by_cases same : x = n
  · subst same
    rw [hit_self, h.refs_unused fresh (Nat.ne_of_gt bound.1)]
    exact Function.update_self ..
  · rw [hit_ne (Ne.symm same), ← h.law x ((add_of_ne same).1.symm.trans hx)]
    exact Function.update_of_ne same _ _

/-- A node is linked once more. -/
theorem Sound.link (h : G.Sound) (hd : G.Live d) (place : i < G.len d ∧ G.entry d i = 0) (used : G.used n = true) (plain : G.dir n = false) :
    ((G.setEntry d i n).setLinks n (G.links n + 1)).Sound := by
  have r : Retargeted G ((G.setEntry d i n).setLinks n (G.links n + 1)) d i 0 n :=
    ⟨rfl, ⟨hd, place⟩, fun x => setLinks_live (G := G.setEntry d i n) plain, fun _ _ => rfl, fun _ _ _ => setEntry_entry, fun hne => absurd rfl hne,
      fun _ => ⟨used, plain⟩, h.bound, fun _ hx => ⟨hx, rfl⟩⟩
  apply r.sound h
  intro x hx
  rw [hit_ne (Nat.ne_of_lt (h.bound x hx).1), ← h.law x hx]
  by_cases same : x = n
  · subst same
    rw [hit_self]
    exact Function.update_self ..
  · rw [hit_ne (Ne.symm same)]
    exact Function.update_of_ne same _ _

/-- A link is taken away. -/
theorem Sound.unlink (h : G.Sound) (hd : G.Live d) (hi : i < G.len d) (hpos : G.entry d i ≠ 0) (plain : G.dir (G.entry d i) = false) :
    ((G.setEntry d i 0).setLinks (G.entry d i) (G.links (G.entry d i) - 1)).Sound := by
  have linked := h.linked hd hi hpos
  have r : Retargeted G ((G.setEntry d i 0).setLinks (G.entry d i) (G.links (G.entry d i) - 1)) d i (G.entry d i) 0 :=
    ⟨rfl, ⟨hd, hi, rfl⟩, fun x => setLinks_live (G := G.setEntry d i 0) plain, fun _ _ => rfl, fun _ _ _ => setEntry_entry, fun _ => plain,
      fun hne => absurd rfl hne, h.bound, fun _ hx => ⟨hx, rfl⟩⟩
  apply r.sound h
  intro x hx
  rw [hit_ne (Nat.ne_of_lt (h.bound x hx).1), ← h.law x hx]
  by_cases same : x = G.entry d i
  · rw [same, hit_self]
    have count : ((G.setEntry d i 0).setLinks (G.entry d i) (G.links (G.entry d i) - 1)).links (G.entry d i) = G.links (G.entry d i) - 1 :=
      Function.update_self ..
    omega
  · rw [hit_ne (Ne.symm same)]
    exact Function.update_of_ne same _ _

theorem sprout_entry {x j : Nat} : (G.sprout d n).entry x j = if x = n ∧ j = 1 then d else if x = n ∧ j = 0 then n else G.entry x j :=
  setEntry_entry.trans (if_congr Iff.rfl rfl setEntry_entry)

theorem sprout_live : (G.sprout d n).Live x ↔ G.Live x ∨ x = n := by
  unfold Live sprout setEntry add
  by_cases same : x = n
  · subst same
    simp
  · simp [same]

theorem Opens.of_sprout (r : (G.sprout d n).Opens d i G') (hne : d ≠ n) : ∃ B, G.Opens d i B ∧ G' = B.sprout d n := by
  have len : (G.sprout d n).len d = G.len d := Function.update_of_ne hne _ _
  cases r with
  | free inside zero =>
    rw [len] at inside
    rw [sprout_entry, if_neg fun both => hne both.1, if_neg fun both => hne both.1] at zero
    exact ⟨G, .free inside zero, rfl⟩
  | grown last =>
    refine ⟨G.grow d, .grown (last.trans len), ?_⟩
    ext x j
    case top => rfl
    case used => rfl
    case dir => rfl
    case links => rfl
    case len =>
      change Function.update (G.sprout d n).len d ((G.sprout d n).len d + 1) x = Function.update (Function.update G.len d (G.len d + 1)) n 2 x
      rw [len]
      exact congrFun (Function.update_comm hne.symm 2 (G.len d + 1) G.len) x
    case entry =>
      rw [grow_grown.entry, sprout_entry, sprout_entry, grow_grown.entry, len]
      by_cases here : x = d
      · simp [here, hne]
      · simp [here]

/-- A directory is made. -/
theorem Sound.makeDir (h : G.Sound) (hd : G.Live d) (place : i < G.len d ∧ G.entry d i = 0) (fresh : G.used n = false)
    (bound : 0 < n ∧ n ≤ G.top) : (((G.sprout d n).setEntry d i n).setLinks d (G.links d + 1)).Sound := by
  have apart {x : Nat} (hx : G.used x = true) : x ≠ n := by
    rintro rfl
    rw [fresh] at hx
    cases hx
  have hne := apart hd.1
  have before : (G.sprout d n).links d ≠ 0 := by
    have same : (G.sprout d n).links d = G.links d := Function.update_of_ne hne _ _
    rw [same]
    exact hd.2.2
  have entry {x j : Nat} : (((G.sprout d n).setEntry d i n).setLinks d (G.links d + 1)).entry x j =
      if x = d ∧ j = i then n else (G.sprout d n).entry x j := setEntry_entry
  have own {j : Nat} : (((G.sprout d n).setEntry d i n).setLinks d (G.links d + 1)).entry n j = (G.sprout d n).entry n j :=
    entry.trans (if_neg fun both => hne both.1.symm)
  have r : Sprouted G (((G.sprout d n).setEntry d i n).setLinks d (G.links d + 1)) d i n := by
    refine ⟨rfl, ⟨hd, place⟩, ⟨fresh, bound⟩, ?_, fun x hx => Function.update_of_ne (apart hx) _ _, ?_, ?_, ?_, ?_⟩
    · intro x
      change Function.update G.used n true x = true ↔ _
      by_cases same : x = n
      · simp [same]
      · simp [same]
    · intro x
      exact (setLinks_live_of_ne (G := (G.sprout d n).setEntry d i n) before (Nat.succ_ne_zero _)).trans (sprout_live (d := d))
    · intro x hx
      exact Function.update_of_ne (apart hx.1) _ _
    · intro x j hx
      have old := apart hx.1
      rw [entry, sprout_entry]
      simp only [old, false_and, if_false]
    · refine ⟨Function.update_self .., ?_, ?_⟩
      · rw [own, sprout_entry]
        simp
      · rw [own, sprout_entry]
        simp
  apply r.sound h
  intro x hx
  change Function.update (Function.update G.links n 2) d (G.links d + 1) x = _
  by_cases parent : x = d
  · subst parent
    rw [Function.update_self, hit_self, hit_ne hne.symm, h.law x hd.1]
  · rw [Function.update_of_ne parent, hit_ne (Ne.symm parent)]
    by_cases same : x = n
    · subst same
      rw [Function.update_self, hit_self, h.refs_unused fresh (Nat.ne_of_gt bound.1)]
    · rw [Function.update_of_ne same, hit_ne (Ne.symm same), h.law x (((r.used x).mp hx).resolve_right same)]
      rfl

/-- An empty directory is removed. -/
theorem Sound.removeDir (h : G.Sound) (hd : G.Live d) (hi : i < G.len d) (hold : G.entry d i = c) (hc : G.Live c) (hne : c ≠ d)
    (empty : ∀ j, 2 ≤ j → j < G.len c → G.entry c j = 0) : (((G.setEntry d i 0).setLinks c 0).setLinks d (G.links d - 1)).Sound := by
  have place := h.empty_place hd hold hne empty
  have parent := h.parent_of_place hd hi hold hc place
  have two := h.two_links hd hc hne parent
  have before : ((G.setEntry d i 0).setLinks c 0).links d ≠ 0 := by
    have same : ((G.setEntry d i 0).setLinks c 0).links d = G.links d := Function.update_of_ne hne.symm _ _
    omega
  have r : Pruned G (((G.setEntry d i 0).setLinks c 0).setLinks d (G.links d - 1)) d i c := by
    refine ⟨rfl, ⟨hd, hi, hold⟩, ⟨hc, hne⟩, empty, fun _ => rfl, fun _ => rfl, ?_, fun _ _ => rfl, fun _ _ _ => setEntry_entry⟩
    intro x
    rw [setLinks_live_of_ne before (by omega)]
    unfold Live setLinks setEntry
    by_cases same : x = c
    · simp [same]
    · simp [same]
  apply r.sound h
  intro x hx
  change Function.update (Function.update G.links c 0) d (G.links d - 1) x + _ + _ = _
  rw [← h.law x hx]
  by_cases here : x = d
  · subst here
    rw [Function.update_self, hit_self, hit_ne hne]
    omega
  · rw [Function.update_of_ne here, hit_ne (Ne.symm here)]
    by_cases same : x = c
    · subst same
      have refs := r.refs h.toTree (Nat.ne_of_gt (h.bound x hx).1)
      rw [r.unnamed h.toTree, hit_self, hit_ne (Ne.symm hne)] at refs
      rw [Function.update_self, hit_self, h.law x hx]
      exact refs
    · rw [Function.update_of_ne same, hit_ne (Ne.symm same)]
      rfl

end LinkGraph
