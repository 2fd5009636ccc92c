import RheeKernel.ZoneTruncate
import RheeKernel.Machine

namespace RheeKernel

inductive ZoneOp
  | create (i : Nat) (block : Int)
  | truncate (i : Nat)

/-- `none` is a panic. -/
def zoneStep (s : ZoneFs) : ZoneOp → Option ZoneFs
  | .create i block => (createBlock s.dev (s.inode i) block).map fun r => ⟨r.1, Function.update s.inode i r.2.1⟩
  | .truncate i => (truncateZones s.dev (s.inode i)).map fun r => ⟨r.1, Function.update s.inode i r.2⟩

/-- Owned zones are pairwise distinct, are data zones, and are exactly the zones whose bit is set. -/
structure ZoneFs.Exact (s : ZoneFs) : Prop where
  first : 0 < s.dev.firstdatazone
  reserved : s.dev.zmap 0 = true
  distinct : ∀ i p j q, s.zoneNr i p ≠ 0 → s.zoneNr i p = s.zoneNr j q → i = j ∧ p = q
  range : ∀ i p, s.zoneNr i p ≠ 0 → s.dev.firstdatazone ≤ s.zoneNr i p ∧ s.zoneNr i p < s.dev.nzones
  marked : ∀ z, s.Owned z ↔ s.dev.Marked z

/-- The block numbers for which `_bmap` itself panics. -/
def ZoneOp.OutOfRange : ZoneOp → Prop
  | .create _ block => block < 0 ∨ block ≥ maxFileBlocks
  | .truncate _ => False

/-- A block is asked for while there are free zones for it and its tables, or while the bitmap ends with the last zone. -/
def ZoneOp.HasRoom (s : ZoneFs) : ZoneOp → Prop
  | .create i block => s.missing i block.toNat ≤ s.dev.freeZones ∨ s.dev.NoSpare
  | .truncate _ => True

variable {s s' : ZoneFs} {i n : Nat} {op : ZoneOp}

theorem ZoneFs.exact_iff : s.Exact ↔ s.Sound ∧ s.dev.Tidy := by
  constructor
  · intro h
    refine ⟨⟨h.first, h.reserved, h.distinct, h.range, fun z _ => h.marked z⟩, fun z hz hm => ?_⟩
    obtain ⟨hne, i, p, hp⟩ := (h.marked z).mpr hm
    have := (h.range i p (by rw [hp]; exact hne)).2
    omega
  · intro ⟨h, ht⟩
    refine ⟨h.first, h.reserved, h.distinct, h.range, fun z => ?_⟩
    by_cases hz : z < s.dev.nzones
    · exact h.marked z hz
    · constructor
      · intro ⟨hne, i, p, hp⟩
        have := (h.range i p (by rw [hp]; exact hne)).2
        omega
      · intro hm
        exact absurd hm (ht z (by omega))

/-- An inode that has lost its zones owns nothing; all others keep what they have. -/
theorem ZoneFs.Sound.truncate {d' : Device} {ip' : ZoneInode} (h : s.Sound) (hc : Cleared s.dev d' (s.Of i fun _ => True))
    (hz : ∀ k < 9, ip'.zone k = 0) :
    ZoneFs.Sound ⟨d', Function.update s.inode i ip'⟩ ∧ (d'.Tidy ↔ s.dev.Tidy) ∧
      ∀ j q, (⟨d', Function.update s.inode i ip'⟩ : ZoneFs).zoneNr j q = if j = i then 0 else s.zoneNr j q := by
  have hentry : ∀ b k, tableEntry d' b k = tableEntry s.dev b k := by
    intro b k
    unfold tableEntry
    rw [hc.word]
  have hnr : ∀ j q, (⟨d', Function.update s.inode i ip'⟩ : ZoneFs).zoneNr j q = if j = i then 0 else s.zoneNr j q := by
    intro j q
    by_cases hj : j = i
    · subst hj
      rw [if_pos rfl]
      simp only [ZoneFs.zoneNr, Function.update_self]
      cases q with
      | zone k =>
        by_cases hk : k < 9
        · exact (if_pos hk).trans (hz k hk)
        · exact if_neg hk
      | ind k => simp only [zoneAt, hz 7 (by decide), tableEntry_zero]
      | dind k => simp only [zoneAt, hz 8 (by decide), tableEntry_zero]
      | leaf k l => simp only [zoneAt, hz 8 (by decide), tableEntry_zero]
    · rw [if_neg hj]
      simp only [ZoneFs.zoneNr, Function.update_of_ne hj]
      cases q with
      | zone k => rfl
      | ind k => exact hentry _ _
      | dind k => exact hentry _ _
      | leaf k l =>
        change tableEntry d' (tableEntry d' _ _) _ = tableEntry s.dev (tableEntry s.dev _ _) _
        rw [hentry, hentry]
  refine ⟨⟨?_, ?_, ?_, ?_, ?_⟩, ?_, hnr⟩
  · exact hc.first ▸ h.first
  · refine (hc.map 0).mpr ⟨h.reserved, fun hp => absurd hp.1 (Nat.lt_irrefl 0)⟩
  · intro j q j' q' hne heq
    rw [hnr, hnr] at heq
    rw [hnr] at hne
    by_cases hj : j = i
    · exact absurd (if_pos hj) hne
    · rw [if_neg hj] at hne heq
      by_cases hj' : j' = i
      · rw [if_pos hj'] at heq
        exact absurd heq hne
      · rw [if_neg hj'] at heq
        exact h.distinct j q j' q' hne heq
  · intro j q hne
    rw [hnr] at hne ⊢
    by_cases hj : j = i
    · exact absurd (if_pos hj) hne
    · rw [if_neg hj] at hne ⊢
      change d'.firstdatazone ≤ _ ∧ _ < d'.nzones
      rw [hc.first, hc.nzones]
      exact h.range j q hne
  · intro z hlt
    change z < d'.nzones at hlt
    rw [hc.nzones] at hlt
    change _ ↔ d'.Marked z
    rw [hc.marked h.first, ← h.marked z hlt]
    constructor
    · rintro ⟨hne, j, q, hq⟩
      rw [hnr] at hq
      by_cases hj : j = i
      · rw [if_pos hj] at hq
        exact absurd hq.symm hne
      · rw [if_neg hj] at hq
        refine ⟨⟨hne, j, q, hq⟩, ?_⟩
        rintro ⟨_, p, _, hp⟩
        exact hj (h.distinct j q i p (by rw [hq]; exact hne) (hq.trans hp.symm)).1
    · rintro ⟨⟨hne, j, q, hq⟩, hnot⟩
      refine ⟨hne, j, q, ?_⟩
      rw [hnr, if_neg, hq]
      intro hj
      subst hj
      exact hnot ⟨hne, q, trivial, hq⟩
  · have hmarked : ∀ z, s.dev.nzones ≤ z → (d'.Marked z ↔ s.dev.Marked z) := by
      intro z hz
      rw [hc.marked h.first]
      refine ⟨fun hm => hm.1, fun hm => ⟨hm, ?_⟩⟩
      rintro ⟨hne, p, _, hp⟩
      have := (h.range i p (by rw [hp]; exact hne)).2
      omega
    unfold Device.Tidy
    rw [hc.nzones]
    exact ⟨fun ht z hz hm => ht z hz ((hmarked z hz).mpr hm), fun ht z hz hm => ht z hz ((hmarked z hz).mp hm)⟩

/-- One call on a sound file system: it does not panic for want of a zone or for freeing one, and what it does to the bits
past the last zone depends on the room there is. -/
theorem ZoneFs.Sound.step (h : s.Sound) (hin : ¬ op.OutOfRange) :
    ∃ s', zoneStep s op = some s' ∧ s'.Sound ∧ (s.dev.Tidy → (s'.dev.Tidy ↔ op.HasRoom s)) := by
  cases op with
  | create i block =>
    obtain ⟨n, rfl⟩ : ∃ n : Nat, block = n := ⟨block.toNat, by unfold ZoneOp.OutOfRange at hin; omega⟩
    have hn : n < maxFileBlocks := by
      unfold ZoneOp.OutOfRange at hin
      omega
    obtain ⟨d', ip', r, hcreate, hspec⟩ := h.createBlock (i := i) hn
    refine ⟨⟨d', Function.update s.inode i ip'⟩, ?_, hspec.sound, fun ht => ?_⟩
    · simp only [zoneStep, hcreate, Option.map_some]
    · change _ ↔ s.missing i n ≤ s.dev.freeZones ∨ s.dev.NoSpare
      by_cases hroom : s.missing i n ≤ s.dev.freeZones
      · exact ⟨fun _ => .inl hroom, fun _ => (hspec.room hroom).2.mpr ht⟩
      · have hfull := (hspec.full (Nat.not_le.mp hroom)).2 ht
        exact ⟨fun ht' => .inr (hfull.mp ht'), fun hor => hfull.mpr (hor.resolve_left hroom)⟩
  | truncate i =>
    obtain ⟨d', ip', htrunc, hc, hz⟩ := h.truncateZones (i := i)
    obtain ⟨hsound, htidy, _⟩ := h.truncate hc hz
    refine ⟨⟨d', Function.update s.inode i ip'⟩, ?_, hsound, fun ht => ⟨fun _ => trivial, fun _ => htidy.mpr ht⟩⟩
    simp only [zoneStep, htrunc, Option.map_some]

theorem zoneStep_outOfRange (hout : op.OutOfRange) : zoneStep s op = none := by
  cases op with
  | create i block =>
    have hnone : createBlock s.dev (s.inode i) block = none := by
      unfold createBlock bmapCore
      rcases hout with hlow | hhigh
      · rw [if_pos hlow]
      · rw [if_neg (by omega), if_pos hhigh]
    simp only [zoneStep, hnone, Option.map_none]
  | truncate i => exact hout.elim

theorem ZoneFs.Sound.keep (h : s.Sound) (hs : zoneStep s op = some s') :
    s'.Sound ∧ (s.dev.Tidy → (s'.dev.Tidy ↔ op.HasRoom s)) := by
  by_cases hout : op.OutOfRange
  · rw [zoneStep_outOfRange hout] at hs
    cases hs
  · obtain ⟨t, ht, hspec⟩ := h.step hout
    rw [hs] at ht
    cases Option.some.inj ht
    exact hspec

/-- From a file system whose owned zones are exactly the marked ones: no run of block creations and truncations panics in
`free_block` or `new_block`, and the data zones in use stay distinct, in range and exactly the marked ones; all marked zones
are in use in the runs, and only in those, where no block is asked for without room for it. -/
theorem zone_ownership_iff {s₀ : ZoneFs} (h₀ : s₀.Exact) :
    (∀ s, Machine.Reach zoneStep (fun _ _ => True) s₀ s →
      s.Sound ∧ ∀ op, zoneStep s op = none → op.OutOfRange) ∧
    ∀ s, Machine.Reach zoneStep (fun s op => op.HasRoom s) s₀ s →
      s.Exact ∧ ∀ op s', zoneStep s op = some s' → (s'.Exact ↔ op.HasRoom s) := by
  obtain ⟨hsound₀, htidy₀⟩ := ZoneFs.exact_iff.mp h₀
  refine ⟨fun s h => ?_, fun s h => ?_⟩
  · have hsound : s.Sound := h.invariant hsound₀ fun _ _ _ hs _ hstep => (hs.keep hstep).1
    refine ⟨hsound, fun op hnone => ?_⟩
    by_contra hin
    obtain ⟨t, ht, _⟩ := hsound.step hin
    rw [hnone] at ht
    cases ht
  · have hboth : s.Sound ∧ s.dev.Tidy := by
      refine @Machine.Reach.invariant _ _ _ _ _ _ (fun s => s.Sound ∧ s.dev.Tidy) ⟨hsound₀, htidy₀⟩ ?_ h
      intro t op t' ht hroom hstep
      obtain ⟨hsound, htidy⟩ := ht.1.keep hstep
      exact ⟨hsound, (htidy ht.2).mpr hroom⟩
    refine ⟨ZoneFs.exact_iff.mpr hboth, fun op s' hstep => ?_⟩
    obtain ⟨hsound, htidy⟩ := hboth.1.keep hstep
    rw [ZoneFs.exact_iff, htidy hboth.2]
    exact ⟨fun h => h.2, fun h => ⟨hsound, h⟩⟩

/-- A device with one data zone, zone 5, which is block 0 of inode 1. -/
def oneZoneFs : ZoneFs where
  dev := { firstdatazone := 5, nzones := 6, zmapBlocks := 1, zmap := fun m => m < 2, word := fun _ _ => 0 }
  inode := fun i => ⟨fun k => if i = 1 ∧ k = 0 then 5 else 0⟩

section

variable {t : ZoneFs}

/-- The zones of a file system whose only block in use is that of inode 1, whatever it holds. -/
theorem sole_nr (hinode : t.inode = oneZoneFs.inode) (i : Nat) (p : ZonePos) : t.zoneNr i p = if i = 1 ∧ p = .zone 0 then 5 else 0 := by
  have hzero : ∀ k, 0 < k → (t.inode i).zone k = 0 := by
    intro k hk
    rw [hinode]
    exact if_neg (by omega)
  unfold ZoneFs.zoneNr zoneAt
  cases p with
  | zone k =>
    simp only [hinode, oneZoneFs, ZonePos.zone.injEq]
    split
    next => rfl
    next hk =>
      rw [if_neg]
      omega
  | ind k =>
    dsimp only
    rw [hzero 7 (by decide), tableEntry_zero, if_neg (by simp)]
  | dind k =>
    dsimp only
    rw [hzero 8 (by decide), tableEntry_zero, if_neg (by simp)]
  | leaf k l =>
    dsimp only
    rw [hzero 8 (by decide), tableEntry_zero, tableEntry_zero, if_neg (by simp)]

theorem sole_exact (hinode : t.inode = oneZoneFs.inode) (hfirst : t.dev.firstdatazone = 5) (hnzones : 5 < t.dev.nzones)
    (hblocks : t.dev.zmapBlocks = 1) (hmap : t.dev.zmap = oneZoneFs.dev.zmap) : t.Exact := by
  refine ⟨by omega, by rw [hmap]; rfl, fun i p j q hne heq => ?_, fun i p hne => ?_, fun z => ?_⟩
  · rw [sole_nr hinode] at hne
    rw [sole_nr hinode, sole_nr hinode] at heq
    split at hne
    next hi =>
      rw [if_pos hi] at heq
      split at heq
      next hj => exact ⟨hi.1.trans hj.1.symm, hi.2.trans hj.2.symm⟩
      next => cases heq
    next => exact absurd rfl hne
  · rw [sole_nr hinode] at hne ⊢
    split at hne
    next hi =>
      rw [if_pos hi]
      omega
    next => exact absurd rfl hne
  · have howned : t.Owned z ↔ z = 5 := by
      constructor
      · intro ⟨hne, i, p, hp⟩
        rw [sole_nr hinode] at hp
        split at hp
        next => exact hp.symm
        next => exact absurd hp.symm hne
      · rintro rfl
        exact ⟨by decide, 1, .zone 0, by rw [sole_nr hinode, if_pos ⟨rfl, rfl⟩]⟩
    rw [howned]
    unfold Device.Marked Device.bits
    rw [hfirst, hblocks, hmap]
    change _ ↔ 5 ≤ z ∧ z + 1 - 5 < 8192 ∧ decide (z + 1 - 5 < 2) = true
    rw [decide_eq_true_eq]
    omega

end

theorem oneZoneFs_exact : oneZoneFs.Exact := sole_exact rfl rfl (by decide) rfl rfl

/-- The second block of the file finds no zone, but leaves a set bit behind that is nobody's. -/
theorem zone_ownership_leak :
    ¬ ∀ s₀ s, s₀.Exact → Machine.Reach zoneStep (fun _ _ => True) s₀ s → s.Exact := by
  intro hall
  obtain ⟨s, hs, hbit⟩ : ∃ s, zoneStep oneZoneFs (.create 1 1) = some s ∧
      (s.dev.firstdatazone, s.dev.nzones, s.dev.zmapBlocks, s.dev.zmap 2) = (5, 6, 1, true) :=
    Option.map_eq_some_iff.mp (show (zoneStep oneZoneFs (.create 1 1)).map
      (fun s => (s.dev.firstdatazone, s.dev.nzones, s.dev.zmapBlocks, s.dev.zmap 2)) = some (5, 6, 1, true) by decide +kernel)
  have hreach : Machine.Reach zoneStep (fun _ _ => True) oneZoneFs s := .next .start trivial hs
  have hexact := hall oneZoneFs s oneZoneFs_exact hreach
  simp only [Prod.mk.injEq] at hbit
  obtain ⟨hf, hn, hb, hz⟩ := hbit
  have hbits : s.dev.bits = 8192 := by
    unfold Device.bits
    rw [hb]
    rfl
  obtain ⟨hne, i, p, hp⟩ := (hexact.marked 6).mpr ⟨by omega, by omega, by rw [hf]; exact hz⟩
  have := (hexact.range i p (by rw [hp]; exact hne)).2
  omega

theorem zone_ownership_sample :
    ∃ s, zoneStep oneZoneFs (.truncate 1) = some s ∧ s.Exact ∧ ¬ s.Owned 5 := by
  obtain ⟨s, hs, hbit⟩ : ∃ s, zoneStep oneZoneFs (.truncate 1) = some s ∧
      (s.dev.firstdatazone, s.dev.zmap 1) = (5, false) :=
    Option.map_eq_some_iff.mp (show (zoneStep oneZoneFs (.truncate 1)).map
      (fun s => (s.dev.firstdatazone, s.dev.zmap 1)) = some (5, false) by decide +kernel)
  have hreach : Machine.Reach zoneStep (fun s op => op.HasRoom s) oneZoneFs s := .next (e := .truncate 1) .start trivial hs
  have hexact := ((zone_ownership_iff oneZoneFs_exact).2 s hreach).1
  simp only [Prod.mk.injEq] at hbit
  refine ⟨s, hs, hexact, fun ho => ?_⟩
  obtain ⟨_, _, hset⟩ := (hexact.marked 5).mp ho
  rw [hbit.1, hbit.2] at hset
  cases hset

end RheeKernel
