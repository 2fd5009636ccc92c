import RheeKernel.ZoneFill

namespace RheeKernel

/-- A place whose zone holds file data and no zone numbers. -/
def ZonePos.IsData : ZonePos → Prop
  | .zone k => k < 7
  | .ind _ => True
  | .dind _ => False
  | .leaf _ _ => True

/-- The places of a list that have no zone. -/
def missingOf (s : ZoneFs) (i : Nat) (ps : List ZonePos) : Nat := ps.countP fun p => s.zoneNr i p = 0

/-- The number of zones that block `n` of inode `i` still needs. -/
def ZoneFs.missing (s : ZoneFs) (i n : Nat) : Nat := missingOf s i (zonePath n)

namespace Device

/-- No bit past the last zone is set. -/
def Tidy (d : Device) : Prop := ∀ z, d.nzones ≤ z → ¬ d.Marked z

/-- The bitmap has no bits past the last zone. -/
def NoSpare (d : Device) : Prop := ∀ m, 0 < m → m < d.bits → m + d.firstdatazone ≤ d.nzones

end Device

/-- Inode `i` has grown by zones in places of the list: zones stay where they are with what they hold, and a new data
zone is all zero. -/
structure Grows (s s' : ZoneFs) (i : Nat) (ps : List ZonePos) : Prop where
  keep : ∀ j q, s.zoneNr j q ≠ 0 → s'.zoneNr j q = s.zoneNr j q
  only : ∀ j q, s'.zoneNr j q ≠ s.zoneNr j q → j = i ∧ q ∈ ps
  data : ∀ j q, q.IsData → s'.zoneNr j q ≠ 0 →
    s'.dev.word (s'.zoneNr j q) = if s.zoneNr j q = 0 then fun _ => 0 else s.dev.word (s.zoneNr j q)
  nzones : s'.dev.nzones = s.dev.nzones
  first : s'.dev.firstdatazone = s.dev.firstdatazone
  blocks : s'.dev.zmapBlocks = s.dev.zmapBlocks

variable {d d' : Device} {ip : ZoneInode} {s s' t : ZoneFs} {i j k n m z : Nat} {p q : ZonePos} {ps : List ZonePos}

theorem Grows.refl (s : ZoneFs) (i : Nat) (ps : List ZonePos) : Grows s s i ps := by
  refine ⟨fun _ _ _ => rfl, fun _ _ hne => absurd rfl hne, fun j q _ hne => ?_, rfl, rfl, rfl⟩
  rw [if_neg hne]

theorem Grows.trans {qs : List ZonePos} (h : Grows s t i ps) (h' : Grows t s' i qs) : Grows s s' i (ps ++ qs) := by
  refine ⟨fun j q hne => ?_, fun j q hne => ?_, fun j q hq hne => ?_, h'.nzones.trans h.nzones, h'.first.trans h.first,
    h'.blocks.trans h.blocks⟩
  · have hmid := h.keep j q hne
    rw [h'.keep j q (by rw [hmid]; exact hne), hmid]
  · by_cases hsame : t.zoneNr j q = s.zoneNr j q
    · obtain ⟨hj, hq⟩ := h'.only j q (by rw [hsame]; exact hne)
      exact ⟨hj, List.mem_append_right _ hq⟩
    · obtain ⟨hj, hq⟩ := h.only j q hsame
      exact ⟨hj, List.mem_append_left _ hq⟩
  · rw [h'.data j q hq hne]
    by_cases ht : t.zoneNr j q = 0
    · have hs : s.zoneNr j q = 0 := by
        by_contra hs
        rw [h.keep j q hs] at ht
        exact hs ht
      rw [if_pos ht, if_pos hs]
    · rw [if_neg ht, h.data j q hq ht]

theorem Fills.grows (h : s.Sound) (hf : Fills s s' i p z) (hempty : s.zoneNr i p = 0) : Grows s s' i [p] := by
  have hfree := h.not_owned hf.data.2 hf.clear
  have hpos : z ≠ 0 := by
    have := h.first
    have := hf.data
    omega
  have hf' := hf.filled
  refine ⟨fun j q hne => ?_, fun j q hne => ?_, fun j q hq hne => ?_, hf'.nzones, hf'.first, hf'.blocks⟩
  · rw [hf'.nr, if_neg]
    intro hat
    rw [hat.1, hat.2] at hne
    exact hne hempty
  · rw [hf'.nr] at hne
    split at hne
    next hat => exact ⟨hat.1, by rw [hat.2]; exact List.mem_singleton.mpr rfl⟩
    next => exact absurd rfl hne
  · rw [hf'.nr] at hne ⊢
    split
    next hat =>
      rw [hat.1, hat.2, if_pos hempty]
      exact hf'.fresh
    next hat =>
      rw [if_neg hat] at hne
      rw [if_neg hne]
      refine hf'.word _ (fun hz => hfree ⟨hpos, j, q, hz⟩) fun htable => ?_
      -- A data zone is no table.
      cases hp : p.parent with
      | none =>
        rw [tableOf_root hp] at htable
        exact hne htable
      | some r =>
        rw [tableOf_parent hp] at htable
        obtain ⟨_, hqr⟩ := h.distinct j q i r hne htable
        rw [hqr] at hq
        cases p with
        | zone k => cases hp
        | ind k =>
          cases Option.some.inj hp
          exact absurd hq (by simp [ZonePos.IsData])
        | dind k =>
          cases Option.some.inj hp
          exact absurd hq (by simp [ZonePos.IsData])
        | leaf k l =>
          cases Option.some.inj hp
          exact hq

theorem Fills.sound (h : s.Sound) (hf : Fills s s' i p z) (hempty : s.zoneNr i p = 0) : s'.Sound :=
  h.filled hf.filled hempty hf.data hf.bit hf.clear

theorem bits_congr (h : d'.zmapBlocks = d.zmapBlocks) : d'.bits = d.bits := by
  unfold Device.bits
  rw [h]

theorem Fills.tidy (hf : Fills s s' i p z) : s'.dev.Tidy ↔ s.dev.Tidy := by
  have hf' := hf.filled
  have hdata := hf.data
  have hmarked : ∀ y, s.dev.nzones ≤ y → (s'.dev.Marked y ↔ s.dev.Marked y) := by
    intro y hy
    unfold Device.Marked
    rw [hf'.first, bits_congr hf'.blocks, hf'.map]
    constructor
    · intro ⟨hlow, hlt, hset⟩
      rw [Function.update_of_ne (by omega)] at hset
      exact ⟨hlow, hlt, hset⟩
    · intro ⟨hlow, hlt, hset⟩
      rw [Function.update_of_ne (by omega)]
      exact ⟨hlow, hlt, hset⟩
  unfold Device.Tidy
  rw [hf'.nzones]
  exact ⟨fun h y hy hm => h y hy ((hmarked y hy).mpr hm), fun h y hy hm => h y hy ((hmarked y hy).mp hm)⟩

theorem exhausted_fields (h : d.Exhausted d') : d'.word = d.word ∧ d'.firstdatazone = d.firstdatazone ∧
    d'.nzones = d.nzones ∧ d'.zmapBlocks = d.zmapBlocks := by
  rcases h with ⟨_, rfl⟩ | ⟨m, _, _, _, rfl⟩
  · exact ⟨rfl, rfl, rfl, rfl⟩
  · exact ⟨rfl, rfl, rfl, rfl⟩

theorem exhausted_freeZones (h0 : d.zmap 0 = true) (hf : 0 < d.firstdatazone) (h : d.Exhausted d') (hfull : d.freeZones = 0) :
    d'.freeZones = 0 := by
  by_contra hne
  obtain ⟨z, hz, hb, hc⟩ := Device.freeZones_pos.mp (Nat.pos_of_ne_zero hne)
  have hpos : 0 < d.freeZones := by
    rcases h with ⟨_, rfl⟩ | ⟨m, hpast, hm, hclear, rfl⟩
    · exact Device.freeZones_pos.mpr ⟨z, hz, hb, hc⟩
    · change d.firstdatazone ≤ z ∧ z < d.nzones at hz
      change Function.update d.zmap m true (z + 1 - d.firstdatazone) = false at hc
      rw [Function.update_of_ne (by omega)] at hc
      exact Device.freeZones_pos.mpr ⟨z, hz, hb, hc⟩
  omega

/-- A bit past the last zone is nobody's: setting it changes no data zone's bit. -/
theorem exhausted_marked (h0 : d.zmap 0 = true) (h : d.Exhausted d') (hz : z < d.nzones) : d'.Marked z ↔ d.Marked z := by
  rcases h with ⟨_, rfl⟩ | ⟨m, hpast, hm, hc, rfl⟩
  · exact Iff.rfl
  · have hpos : m ≠ 0 := fun hm0 => by rw [hm0, h0] at hc; cases hc
    unfold Device.Marked
    change _ ∧ _ ∧ Function.update d.zmap m true (z + 1 - d.firstdatazone) = true ↔ _
    constructor
    · intro ⟨hlow, hlt, hset⟩
      change d.firstdatazone ≤ z at hlow
      rw [Function.update_of_ne (by omega)] at hset
      exact ⟨hlow, hlt, hset⟩
    · intro ⟨hlow, hlt, hset⟩
      rw [Function.update_of_ne (by omega)]
      exact ⟨hlow, hlt, hset⟩

theorem exhausted_tidy (h0 : d.zmap 0 = true) (hf : 0 < d.firstdatazone) (ht : d.Tidy) (h : d.Exhausted d') :
    d'.Tidy ↔ d.NoSpare := by
  rcases h with ⟨hall, rfl⟩ | ⟨m, hpast, hm, hc, rfl⟩
  · constructor
    · intro _ m hpos hm
      by_contra hlt
      refine ht (m + d'.firstdatazone - 1) (by omega) ⟨by omega, ?_, ?_⟩
      · rw [show m + d'.firstdatazone - 1 + 1 - d'.firstdatazone = m by omega]
        exact hm
      · rw [show m + d'.firstdatazone - 1 + 1 - d'.firstdatazone = m by omega]
        exact hall m hm
    · exact fun _ => ht
  · have hpos : 0 < m := by
      rcases Nat.eq_zero_or_pos m with hm0 | hm0
      · rw [hm0, h0] at hc
        cases hc
      · exact hm0
    constructor
    · intro ht'
      refine absurd ⟨?_, ?_, ?_⟩ (ht' (m + d.firstdatazone - 1) (by change d.nzones ≤ _; omega))
      · change d.firstdatazone ≤ _
        omega
      · change m + d.firstdatazone - 1 + 1 - d.firstdatazone < d.bits
        omega
      · change Function.update d.zmap m true (m + d.firstdatazone - 1 + 1 - d.firstdatazone) = true
        rw [show m + d.firstdatazone - 1 + 1 - d.firstdatazone = m by omega, Function.update_self]
    · intro hspare
      have := hspare m hpos hm
      omega

/-- Running out of zones leaves every inode's tree and all blocks alone. -/
theorem ZoneFs.Sound.exhausted (h : s.Sound) (hex : s.dev.Exhausted d') :
    ZoneFs.Sound ⟨d', s.inode⟩ ∧ ∀ ps, Grows s ⟨d', s.inode⟩ i ps := by
  obtain ⟨hword, hfirst, hnz, hblocks⟩ := exhausted_fields hex
  have hentry : ∀ b k, tableEntry d' b k = tableEntry s.dev b k := by
    intro b k
    unfold tableEntry
    rw [hword]
  have hnr : ∀ j q, (⟨d', s.inode⟩ : ZoneFs).zoneNr j q = s.zoneNr j q := by
    intro j q
    cases q with
    | zone k => rfl
    | ind k => exact hentry _ _
    | dind k => exact hentry _ _
    | leaf k l =>
      change tableEntry d' (tableEntry d' _ _) _ = tableEntry s.dev (tableEntry s.dev _ _) _
      rw [hentry, hentry]
  have howned : ∀ y, (⟨d', s.inode⟩ : ZoneFs).Owned y ↔ s.Owned y := by
    intro y
    unfold ZoneFs.Owned
    simp only [hnr]
  refine ⟨⟨?_, ?_, ?_, ?_, ?_⟩, fun ps => ⟨fun j q _ => hnr j q, fun j q hne => absurd (hnr j q) hne, ?_, hnz, hfirst, hblocks⟩⟩
  · exact hfirst ▸ h.first
  · rcases hex with ⟨_, rfl⟩ | ⟨m, _, _, hc, rfl⟩
    · exact h.reserved
    · change Function.update s.dev.zmap m true 0 = true
      by_cases hm : m = 0
      · rw [hm, Function.update_self]
      · rw [Function.update_of_ne (Ne.symm hm)]
        exact h.reserved
  · intro j q j' q' hne heq
    rw [hnr] at hne
    rw [hnr, hnr] at heq
    exact h.distinct j q j' q' hne heq
  · intro j q hne
    rw [hnr] at hne ⊢
    change d'.firstdatazone ≤ _ ∧ _ < d'.nzones
    rw [hfirst, hnz]
    exact h.range j q hne
  · intro y hy
    change y < d'.nzones at hy
    rw [hnz] at hy
    rw [howned, h.marked y hy]
    exact (exhausted_marked h.reserved hex hy).symm
  · intro j q _ hne
    rw [hnr] at hne ⊢
    rw [if_neg hne]
    exact congrFun hword _

/-- Each place of the list is an entry of the table that the one before it names. -/
def IsPath : ZonePos → List ZonePos → Prop
  | _, [] => True
  | p, q :: qs => q.parent = some p ∧ q.index < 512 ∧ IsPath q qs

def ZonePos.depth : ZonePos → Nat
  | .zone _ => 0
  | .ind _ => 1
  | .dind _ => 1
  | .leaf _ _ => 2

theorem ZonePos.depth_parent (hp : p.parent = some q) : q.depth < p.depth := by
  cases p with
  | zone k => cases hp
  | ind k => cases Option.some.inj hp; exact Nat.zero_lt_one
  | dind k => cases Option.some.inj hp; exact Nat.zero_lt_one
  | leaf k l => cases Option.some.inj hp; exact Nat.one_lt_two

theorem IsPath.depth (h : IsPath p ps) (hq : q ∈ ps) : p.depth < q.depth := by
  induction ps generalizing p with
  | nil => cases hq
  | cons r rs ih =>
    have hr := ZonePos.depth_parent h.1
    rcases List.mem_cons.mp hq with rfl | hq
    · exact hr
    · exact Nat.lt_trans hr (ih h.2.2 hq)

/-- Below a missing zone everything is missing. -/
theorem IsPath.last_zero (h : IsPath p ps) (hzero : s.zoneNr i p = 0) : s.zoneNr i ((p :: ps).getLast (by simp)) = 0 := by
  induction ps generalizing p with
  | nil => exact hzero
  | cons q qs ih =>
    have hchild : s.zoneNr i q = 0 := by
      have hentry : s.zoneNr i q = tableEntry s.dev (s.zoneNr i p) q.index := zoneAt_parent h.1
      rw [hentry, hzero, tableEntry_zero]
    have hlast := ih h.2.2 hchild
    rw [List.getLast_cons (by simp)]
    exact hlast

theorem missingOf_cons : missingOf s i (p :: ps) = missingOf s i ps + if s.zoneNr i p = 0 then 1 else 0 := by
  unfold missingOf
  rw [List.countP_cons]
  simp only [decide_eq_true_eq]

theorem attached_child (hq : q.parent = some p) (hidx : q.index < 512) (hne : zoneAt d ip p ≠ 0) : Attached d ip q := by
  have ht : tableOf d ip q ≠ 0 := by
    rw [tableOf_parent hq]
    exact hne
  cases q with
  | zone k => cases hq
  | ind k => exact ⟨hidx, ht⟩
  | dind k => exact ⟨hidx, ht⟩
  | leaf k l => exact ⟨hidx, ht⟩

theorem Fills.ne_zero (h : s.Sound) (hf : Fills s s' i p z) : z ≠ 0 := by
  have := hf.data
  have := h.first
  omega

/-- An entry of the table that has been put there can be filled next. -/
theorem Fills.attached (h : s.Sound) (hf : Fills s ⟨d', Function.update s.inode i ip⟩ i p z) (hq : q.parent = some p)
    (hidx : q.index < 512) : Attached d' (Function.update s.inode i ip i) q := by
  refine attached_child hq hidx ?_
  have hp := hf.filled.nr i p
  rw [if_pos ⟨rfl, rfl⟩] at hp
  change ZoneFs.zoneNr ⟨d', Function.update s.inode i ip⟩ i p ≠ 0
  rw [hp]
  exact hf.ne_zero h

/-- A fill changes nothing of the places below it. -/
theorem Fills.missing (hf : Fills s s' i p z) (hps : IsPath p ps) : missingOf s' i ps = missingOf s i ps := by
  refine List.countP_congr fun x hx => ?_
  have hne : x ≠ p := by
    have hdepth := hps.depth hx
    intro hxp
    rw [hxp] at hdepth
    exact Nat.lt_irrefl _ hdepth
  rw [hf.filled.nr, if_neg fun hc => hne hc.2]

/-- What filling the places of a path comes to: all of them are there, or the device has run out of zones. -/
structure PathFilled (s s' : ZoneFs) (i : Nat) (ps : List ZonePos) (p : ZonePos) (r : Nat) : Prop where
  sound : s'.Sound
  grows : Grows s s' i ps
  last : s'.zoneNr i p = r
  room : missingOf s i ps ≤ s.dev.freeZones → r ≠ 0 ∧ (s'.dev.Tidy ↔ s.dev.Tidy)
  full : s.dev.freeZones < missingOf s i ps → r = 0 ∧ (s.dev.Tidy → (s'.dev.Tidy ↔ s.dev.NoSpare))

theorem ZoneFs.update_same (s : ZoneFs) (i : Nat) : (⟨s.dev, Function.update s.inode i (s.inode i)⟩ : ZoneFs) = s := by
  rw [Function.update_eq_self]

theorem fillPath_stop {ip' : ZoneInode} (h : fillAt d ip p = some (d', ip', 0)) :
    fillPath (p :: q :: ps) d ip = some (d', ip', 0) := by
  rw [fillPath, h]
  · rfl
  · intro hp
    cases hp

theorem fillPath_go {ip' : ZoneInode} (h : fillAt d ip p = some (d', ip', z)) (hz : z ≠ 0) :
    fillPath (p :: q :: ps) d ip = fillPath (q :: ps) d' ip' := by
  rw [fillPath, h]
  · exact if_neg hz
  · intro hp
    cases hp

theorem fillPath_spec (h : s.Sound) (hatt : Attached s.dev (s.inode i) p) (hps : IsPath p ps) :
    ∃ d' ip' r, fillPath (p :: ps) s.dev (s.inode i) = some (d', ip', r) ∧
      PathFilled s ⟨d', Function.update s.inode i ip'⟩ i (p :: ps) ((p :: ps).getLast (by simp)) r := by
  induction ps generalizing s p with
  | nil =>
    by_cases hempty : s.zoneNr i p = 0
    · rcases Nat.eq_zero_or_pos s.dev.freeZones with hfull | hroom
      · obtain ⟨d', hfill, hex⟩ := h.fillAt_full hatt hempty hfull
        obtain ⟨hsound, hgrows⟩ := h.exhausted (i := i) hex
        refine ⟨d', s.inode i, 0, hfill, ?_⟩
        rw [Function.update_eq_self]
        refine ⟨hsound, hgrows _, ?_, fun hm => ?_, fun _ => ⟨rfl, fun ht => exhausted_tidy h.reserved h.first ht hex⟩⟩
        · by_contra hne
          have hkeep := (hgrows [p]).data
          have hword := (exhausted_fields hex).1
          refine hne ?_
          by_contra hne'
          have hsame : (⟨d', s.inode⟩ : ZoneFs).zoneNr i p = s.zoneNr i p := by
            by_contra hdiff
            have honly := (hgrows []).only i p hdiff
            cases honly.2
          exact hne' (hsame.trans hempty)
        · rw [missingOf_cons, if_pos hempty] at hm
          omega
      · obtain ⟨z, d', ip', hfill, hf⟩ := h.fillAt_room hatt hempty hroom
        have hz := hf.ne_zero h
        refine ⟨d', ip', z, hfill, hf.sound h hempty, hf.grows h hempty, ?_, fun _ => ⟨hz, hf.tidy⟩, fun hm => ?_⟩
        · change ZoneFs.zoneNr _ i p = z
          rw [hf.filled.nr, if_pos ⟨rfl, rfl⟩]
        · rw [missingOf_cons, if_pos hempty] at hm
          simp only [missingOf, List.countP_nil] at hm
          omega
    · refine ⟨s.dev, s.inode i, s.zoneNr i p, fillAt_present hempty, ?_⟩
      rw [ZoneFs.update_same]
      refine ⟨h, Grows.refl _ _ _, rfl, fun _ => ⟨hempty, Iff.rfl⟩, fun hm => ?_⟩
      rw [missingOf_cons, if_neg hempty] at hm
      simp only [missingOf, List.countP_nil] at hm
      omega
  | cons q qs ih =>
    by_cases hempty : s.zoneNr i p = 0
    · rcases Nat.eq_zero_or_pos s.dev.freeZones with hfull | hroom
      · obtain ⟨d', hfill, hex⟩ := h.fillAt_full hatt hempty hfull
        obtain ⟨hsound, hgrows⟩ := h.exhausted (i := i) hex
        refine ⟨d', s.inode i, 0, ?_, ?_⟩
        · exact fillPath_stop hfill
        · rw [Function.update_eq_self]
          have hsame : (⟨d', s.inode⟩ : ZoneFs).zoneNr i p = 0 := by
            by_contra hdiff
            have honly := (hgrows []).only i p (by rw [hempty]; exact hdiff)
            cases honly.2
          refine ⟨hsound, hgrows _, hps.last_zero hsame, fun hm => ?_, fun _ => ⟨rfl, fun ht => exhausted_tidy h.reserved h.first ht hex⟩⟩
          rw [missingOf_cons, if_pos hempty] at hm
          omega
      · obtain ⟨z, d₁, ip₁, hfill, hf⟩ := h.fillAt_room hatt hempty hroom
        have hz := hf.ne_zero h
        obtain ⟨d', ip', r, hrest, hpath⟩ := ih (hf.sound h hempty) (hf.attached h hps.1 hps.2.1) hps.2.2
        simp only [Function.update_self, Function.update_idem] at hrest hpath
        refine ⟨d', ip', r, ?_, ?_⟩
        · rw [fillPath_go hfill hz]
          exact hrest
        · have hmissing := hf.missing hps
          have hcount := hf.count
          have htidy := hf.tidy
          refine ⟨hpath.sound, (hf.grows h hempty).trans hpath.grows, ?_, fun hm => ?_, fun hm => ?_⟩
          · rw [List.getLast_cons (by simp)]
            exact hpath.last
          · rw [missingOf_cons, if_pos hempty] at hm
            obtain ⟨hr, ht⟩ := hpath.room (by rw [hmissing]; omega)
            exact ⟨hr, ht.trans htidy⟩
          · rw [missingOf_cons, if_pos hempty] at hm
            obtain ⟨hr, ht⟩ := hpath.full (by rw [hmissing]; omega)
            refine ⟨hr, fun hs => (ht (htidy.mpr hs)).trans ?_⟩
            unfold Device.NoSpare
            rw [hf.filled.first, hf.filled.nzones, bits_congr hf.filled.blocks]
    · have hatt' : Attached s.dev (s.inode i) q := attached_child hps.1 hps.2.1 hempty
      obtain ⟨d', ip', r, hrest, hpath⟩ := ih h hatt' hps.2.2
      refine ⟨d', ip', r, ?_, hpath.sound, (Grows.refl s i [p]).trans hpath.grows, ?_, fun hm => ?_, fun hm => ?_⟩
      · rw [fillPath_go (fillAt_present hempty) hempty]
        exact hrest
      · rw [List.getLast_cons (by simp)]
        exact hpath.last
      · rw [missingOf_cons, if_neg hempty] at hm
        exact hpath.room (by omega)
      · rw [missingOf_cons, if_neg hempty] at hm
        exact hpath.full (by omega)

/-- A path is left unfinished only when the device has no free zone any more. -/
theorem fillPath_dry {ip' : ZoneInode} (h : s.Sound) (hatt : Attached s.dev (s.inode i) p) (hps : IsPath p ps)
    (hfill : fillPath (p :: ps) s.dev (s.inode i) = some (d', ip', 0)) : d'.freeZones = 0 := by
  induction ps generalizing s p with
  | nil =>
    change fillAt s.dev (s.inode i) p = some (d', ip', 0) at hfill
    by_cases hempty : s.zoneNr i p = 0
    · rcases Nat.eq_zero_or_pos s.dev.freeZones with hfull | hroom
      · obtain ⟨d₁, hat, hex⟩ := h.fillAt_full hatt hempty hfull
        rw [hat] at hfill
        cases hfill
        exact exhausted_freeZones h.reserved h.first hex hfull
      · obtain ⟨z, d₁, ip₁, hat, hf⟩ := h.fillAt_room hatt hempty hroom
        rw [hat] at hfill
        cases hfill
        have := hf.data
        have := h.first
        omega
    · rw [fillAt_present hempty] at hfill
      simp only [Option.some.injEq, Prod.mk.injEq] at hfill
      exact absurd hfill.2.2 hempty
  | cons q qs ih =>
    by_cases hempty : s.zoneNr i p = 0
    · rcases Nat.eq_zero_or_pos s.dev.freeZones with hfull | hroom
      · obtain ⟨d₁, hat, hex⟩ := h.fillAt_full hatt hempty hfull
        rw [fillPath_stop hat] at hfill
        cases hfill
        exact exhausted_freeZones h.reserved h.first hex hfull
      · obtain ⟨z, d₁, ip₁, hat, hf⟩ := h.fillAt_room hatt hempty hroom
        have hz := hf.ne_zero h
        rw [fillPath_go hat hz] at hfill
        refine ih (hf.sound h hempty) (hf.attached h hps.1 hps.2.1) hps.2.2 ?_
        dsimp only
        rw [Function.update_self]
        exact hfill
    · rw [fillPath_go (fillAt_present hempty) hempty] at hfill
      exact ih h (attached_child hps.1 hps.2.1 hempty) hps.2.2 hfill

theorem zonePath_isPath (hn : n < maxFileBlocks) :
    ∃ p ps, zonePath n = p :: ps ∧ IsPath p ps ∧ ∀ d ip, Attached d ip p := by
  unfold maxFileBlocks at hn
  unfold zonePath
  split
  next h7 => exact ⟨_, _, rfl, trivial, fun _ _ => show n < 9 by omega⟩
  next h7 =>
    split
    next h519 => exact ⟨_, _, rfl, ⟨rfl, show n - 7 < 512 by omega, trivial⟩, fun _ _ => show 7 < 9 by omega⟩
    next h519 =>
      refine ⟨_, _, rfl, ⟨rfl, show (n - 519) / 512 < 512 by omega, rfl, show (n - 519) % 512 < 512 by omega, trivial⟩, ?_⟩
      exact fun _ _ => show 8 < 9 by omega

/-- The place of block `n` itself. -/
def blockPos (n : Nat) : ZonePos :=
  if n < 7 then .zone n
  else if n < 519 then .ind (n - 7)
  else .leaf ((n - 519) / 512) ((n - 519) % 512)

theorem zonePath_last (hne : zonePath n ≠ []) : (zonePath n).getLast hne = blockPos n := by
  unfold blockPos
  revert hne
  unfold zonePath
  split
  next => exact fun _ => rfl
  next =>
    split
    next => exact fun _ => rfl
    next => exact fun _ => rfl

/-- `create_block` on a sound file system. -/
theorem ZoneFs.Sound.createBlock (h : s.Sound) (hn : n < maxFileBlocks) :
    ∃ d' ip' r, createBlock s.dev (s.inode i) n = some (d', ip', r) ∧
      PathFilled s ⟨d', Function.update s.inode i ip'⟩ i (zonePath n) (blockPos n) r := by
  obtain ⟨p, ps, hpath, hps, hatt⟩ := zonePath_isPath hn
  obtain ⟨d', ip', r, hfill, hspec⟩ := fillPath_spec h (hatt _ _) hps
  rw [createBlock_eq hn, hpath]
  refine ⟨d', ip', r, hfill, ?_⟩
  have hlast := @zonePath_last n (by rw [hpath]; simp)
  simp only [hpath] at hlast
  rw [hlast] at hspec
  exact hspec

theorem ZoneFs.Sound.createBlock_dry {ip' : ZoneInode} (h : s.Sound) (hn : n < maxFileBlocks)
    (hcreate : RheeKernel.createBlock s.dev (s.inode i) n = some (d', ip', 0)) : d'.freeZones = 0 := by
  obtain ⟨p, ps, hpath, hps, hatt⟩ := zonePath_isPath hn
  rw [createBlock_eq hn, hpath] at hcreate
  exact fillPath_dry h (hatt _ _) hps hcreate

end RheeKernel
