import RheeKernel.DirectoryRaces

namespace RheeKernel

/-- A directory as the table that its blocks hold; the entries from `entries` on are not looked at. -/
structure DirTable where
  entry : Nat → NameEntry
  entries : Nat

namespace DirTable

/-- What `find_entry` comes back with: the number of the entry, and the entry. -/
def find (t : DirTable) (name : List UInt8) : Option (Nat × NameEntry) :=
  (findEntry t.entry t.entries name).map fun k => (k, t.entry k)

/-- Entry `k`, which was free or the first one behind the table, is now `de`. -/
structure Put (t t' : DirTable) (k : Nat) (de : NameEntry) : Prop where
  low : k ≤ t.entries
  free : (t.entry k).inode = 0 ∨ k = t.entries
  entry : ∀ j, t'.entry j = if j = k then de else t.entry j
  entries : t'.entries = max t.entries (k + 1)

end DirTable

variable {t t' : DirTable} {name name' : List UInt8} {de : NameEntry} {i j k m n : Nat} {p p' : Nat → Bool}

/-- An index that satisfies `p`, all lower ones not, is the first one. -/
theorem firstIndex_eq (hk : k < n) (hp : p k = true) (hbefore : ∀ j < k, p j = false) : Files.firstIndex p n 0 = some k := by
  cases hfirst : Files.firstIndex p n 0 with
  | none =>
    rw [Files.firstIndex_none hfirst (Nat.zero_le k) (by omega)] at hp
    cases hp
  | some m =>
    obtain ⟨_, _, hm⟩ := Files.firstIndex_spec hfirst
    rcases Nat.lt_trichotomy m k with hlt | heq | hgt
    · rw [hbefore m hlt] at hm
      cases hm
    · rw [heq]
    · rw [Files.firstIndex_before hfirst (Nat.zero_le k) hgt] at hp
      cases hp

theorem firstIndex_eq_none (h : ∀ j < n, p j = false) : Files.firstIndex p n 0 = none := by
  cases hfirst : Files.firstIndex p n 0 with
  | none => rfl
  | some m =>
    obtain ⟨_, hlt, hm⟩ := Files.firstIndex_spec hfirst
    rw [h m (by omega)] at hm
    cases hm

/-- The first index does not change if none is gained or lost. -/
theorem firstIndex_congr (h : ∀ j, j < n ∧ p j = true ↔ j < m ∧ p' j = true) : Files.firstIndex p n 0 = Files.firstIndex p' m 0 := by
  cases hfirst : Files.firstIndex p' m 0 with
  | none =>
    refine firstIndex_eq_none fun j hj => Bool.eq_false_iff.mpr fun hp => ?_
    obtain ⟨hlt, hp'⟩ := (h j).mp ⟨hj, hp⟩
    rw [Files.firstIndex_none hfirst (Nat.zero_le j) (by omega)] at hp'
    cases hp'
  | some k =>
    obtain ⟨_, hlt, hk⟩ := Files.firstIndex_spec hfirst
    obtain ⟨hlt', hk'⟩ := (h k).mpr ⟨by omega, hk⟩
    refine firstIndex_eq hlt' hk' fun j hj => Bool.eq_false_iff.mpr fun hp => ?_
    obtain ⟨_, hp'⟩ := (h j).mp ⟨by omega, hp⟩
    rw [Files.firstIndex_before hfirst (Nat.zero_le j) hj] at hp'
    cases hp'

/-- A name without zero bytes matches the entry that `add_entry` has made for a name exactly if the first 14 bytes are the same. -/
theorem matchName_pad_iff (hn : n ≠ 0) (hz : ∀ c ∈ name, c ≠ 0) (hz' : ∀ c ∈ name', c ≠ 0) :
    matchName (name'.take nameLen) ⟨n, padName name⟩ = true ↔ name'.take nameLen = name.take nameLen := by
  have hself : matchName (name.take nameLen) ⟨n, padName name⟩ = true := DirSys.matchName_pad hn rfl
  constructor
  · intro h
    exact matchName_unique (fun c hc => hz' c (List.mem_of_mem_take hc)) (fun c hc => hz c (List.mem_of_mem_take hc)) h hself
  · intro h
    rw [h]
    exact hself

theorem matchName_free (h : de.inode = 0) : matchName name de = false := if_pos (.inl h)

namespace DirTable

theorem find_nil (hname : name.take nameLen = []) : t.find name = none := by
  unfold find findEntry
  rw [if_pos hname]
  rfl

theorem find_eq (hname : name.take nameLen ≠ []) :
    t.find name = (Files.firstIndex (fun i => matchName (name.take nameLen) (t.entry i)) t.entries 0).map fun k => (k, t.entry k) := by
  unfold find findEntry
  rw [if_neg hname]

/-- Only the first 14 bytes of a name count. -/
theorem find_take : t.find name = t.find (name.take nameLen) := by
  unfold find findEntry
  rw [List.take_take, Nat.min_self]

theorem find_none (hname : name.take nameLen ≠ []) (h : t.find name = none) (hj : j < t.entries) :
    matchName (name.take nameLen) (t.entry j) = false := by
  rw [find_eq hname] at h
  exact Files.firstIndex_none (Option.map_eq_none_iff.mp h) (Nat.zero_le j) (by omega)

theorem Put.entry_self (h : t.Put t' k de) : t'.entry k = de := (h.entry k).trans (if_pos rfl)

/-- The table has no match at the place of the new entry. -/
theorem Put.no_match (h : t.Put t' k de) : ¬ (k < t.entries ∧ matchName name (t.entry k) = true) := by
  intro ⟨hlt, hm⟩
  rcases h.free with hfree | heq
  · rw [matchName_free hfree] at hm
    cases hm
  · omega

/-- Names that the new entry does not match are looked up as before. -/
theorem Put.find_other (h : t.Put t' k de) (hno : matchName (name.take nameLen) de = false) : t'.find name = t.find name := by
  by_cases hname : name.take nameLen = []
  · rw [find_nil hname, find_nil hname]
  · have hsame : ∀ j, j < t'.entries ∧ matchName (name.take nameLen) (t'.entry j) = true ↔
        j < t.entries ∧ matchName (name.take nameLen) (t.entry j) = true := by
      intro j
      have hlow := h.low
      rw [h.entries, h.entry]
      by_cases hj : j = k
      · rw [if_pos hj, hno, hj]
        exact ⟨nofun, fun hm => absurd hm h.no_match⟩
      · rw [if_neg hj]
        exact ⟨fun hm => ⟨by omega, hm.2⟩, fun hm => ⟨by omega, hm.2⟩⟩
    rw [find_eq hname, find_eq hname, firstIndex_congr hsame]
    refine Option.map_congr fun m hm => ?_
    obtain ⟨_, hlt, hmatch⟩ := Files.firstIndex_spec hm
    have hmk : m ≠ k := fun hmk => h.no_match ⟨by omega, hmk ▸ hmatch⟩
    rw [h.entry, if_neg hmk]

/-- A name that was not there and that the new entry matches is found in it. -/
theorem Put.find_new (h : t.Put t' k de) (hname : name.take nameLen ≠ []) (habsent : t.find name = none)
    (hmatch : matchName (name.take nameLen) de = true) : t'.find name = some (k, de) := by
  have hlow := h.low
  have hentries := h.entries
  have hbefore : ∀ j < k, matchName (name.take nameLen) (t'.entry j) = false := by
    intro j hj
    rw [h.entry, if_neg (by omega)]
    exact find_none hname habsent (by omega)
  have hself := h.entry_self
  rw [find_eq hname, firstIndex_eq (k := k) (by omega) (by rw [hself]; exact hmatch) hbefore, Option.map_some, hself]

end DirTable

end RheeKernel
