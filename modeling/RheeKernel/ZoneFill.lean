import RheeKernel.ZoneTree

namespace RheeKernel

/-- Place `p` of inode `i`, empty before, has got zone `z`: nobody else's zones are changed. -/
structure Filled (s s' : ZoneFs) (i : Nat) (p : ZonePos) (z : Nat) : Prop where
  nr : ∀ j q, s'.zoneNr j q = if j = i ∧ q = p then z else s.zoneNr j q
  map : s'.dev.zmap = Function.update s.dev.zmap (z + 1 - s.dev.firstdatazone) true
  first : s'.dev.firstdatazone = s.dev.firstdatazone
  nzones : s'.dev.nzones = s.dev.nzones
  blocks : s'.dev.zmapBlocks = s.dev.zmapBlocks
  word : ∀ b, b ≠ z → b ≠ tableOf s.dev (s.inode i) p → s'.dev.word b = s.dev.word b
  fresh : s'.dev.word z = fun _ => 0

variable {d d' : Device} {ip ip' : ZoneInode} {s s' : ZoneFs} {i j k l m n z b : Nat} {p q : ZonePos}

namespace ZoneFs

theorem Sound.not_owned (h : s.Sound) (hz : z < s.dev.nzones) (hc : s.dev.zmap (z + 1 - s.dev.firstdatazone) = false) :
    ¬ s.Owned z := by
  intro ho
  obtain ⟨_, _, hset⟩ := (h.marked z hz).mp ho
  rw [hc] at hset
  cases hset

theorem Sound.zoneNr_marked (h : s.Sound) (hne : s.zoneNr i p ≠ 0) : s.dev.Marked (s.zoneNr i p) :=
  (h.marked _ (h.range i p hne).2).mp ⟨hne, i, p, rfl⟩

theorem Sound.filled (h : s.Sound) (hf : Filled s s' i p z) (hempty : s.zoneNr i p = 0)
    (hz : s.dev.firstdatazone ≤ z ∧ z < s.dev.nzones) (hb : z + 1 - s.dev.firstdatazone < s.dev.bits)
    (hc : s.dev.zmap (z + 1 - s.dev.firstdatazone) = false) : s'.Sound := by
  have hfree := h.not_owned hz.2 hc
  have hpos : z ≠ 0 := by
    have := h.first
    omega
  have hno : ∀ j q, s.zoneNr j q ≠ z := fun j q hq => hfree ⟨hpos, j, q, hq⟩
  have hbits : s'.dev.bits = s.dev.bits := by
    unfold Device.bits
    rw [hf.blocks]
  refine ⟨?_, ?_, ?_, ?_, ?_⟩
  · rw [hf.first]
    exact h.first
  · rw [hf.map, Function.update_of_ne (by omega)]
    exact h.reserved
  · intro j q j' q' hne heq
    rw [hf.nr, hf.nr] at heq
    rw [hf.nr] at hne
    by_cases hj : j = i ∧ q = p
    · by_cases hj' : j' = i ∧ q' = p
      · exact ⟨hj.1.trans hj'.1.symm, hj.2.trans hj'.2.symm⟩
      · rw [if_pos hj, if_neg hj'] at heq
        exact absurd heq.symm (hno j' q')
    · rw [if_neg hj] at heq hne
      by_cases hj' : j' = i ∧ q' = p
      · rw [if_pos hj'] at heq
        exact absurd heq (hno j q)
      · rw [if_neg hj'] at heq
        exact h.distinct j q j' q' hne heq
  · intro j q hne
    rw [hf.nr] at hne ⊢
    rw [hf.first, hf.nzones]
    split
    next => exact hz
    next hj =>
      rw [if_neg hj] at hne
      exact h.range j q hne
  · intro y hy
    rw [hf.nzones] at hy
    unfold Device.Marked
    rw [hf.first, hbits, hf.map]
    by_cases hyz : y = z
    · subst hyz
      rw [Function.update_self]
      exact ⟨fun _ => ⟨hz.1, hb, rfl⟩, fun _ => ⟨hpos, i, p, by rw [hf.nr, if_pos ⟨rfl, rfl⟩]⟩⟩
    · have hold : s'.Owned y ↔ s.Owned y := by
        constructor
        · intro ⟨hy0, j, q, hq⟩
          rw [hf.nr] at hq
          split at hq
          next => exact absurd hq.symm hyz
          next => exact ⟨hy0, j, q, hq⟩
        · intro ⟨hy0, j, q, hq⟩
          refine ⟨hy0, j, q, ?_⟩
          rw [hf.nr, if_neg, hq]
          intro hat
          rw [hat.1, hat.2, hempty] at hq
          exact hy0 hq.symm
      rw [hold, h.marked y hy]
      unfold Device.Marked
      constructor
      · intro ⟨hlow, hlt, hset⟩
        rw [Function.update_of_ne (by omega)]
        exact ⟨hlow, hlt, hset⟩
      · intro ⟨hlow, hlt, hset⟩
        rw [Function.update_of_ne (by omega)] at hset
        exact ⟨hlow, hlt, hset⟩

end ZoneFs

/-- Tables whose contents are as before give the places in them the same zones. -/
theorem tableEntry_congr (h : b ≠ 0 → d'.word b k = d.word b k) : tableEntry d' b k = tableEntry d b k := by
  unfold tableEntry
  split
  next hc => exact h hc.2
  next => rfl

theorem tableEntry_fresh (h : d.word b = fun _ => 0) : tableEntry d b k = 0 := by
  unfold tableEntry
  rw [h]
  split <;> rfl

/-- The place that holds the number of a place's table. -/
def ZonePos.parent : ZonePos → Option ZonePos
  | .zone _ => none
  | .ind _ => some (.zone 7)
  | .dind _ => some (.zone 8)
  | .leaf k _ => some (.dind k)

theorem tableOf_parent (hp : p.parent = some q) : tableOf d ip p = zoneAt d ip q := by
  cases p with
  | zone k => cases hp
  | ind k => cases Option.some.inj hp; rfl
  | dind k => cases Option.some.inj hp; rfl
  | leaf k l => cases Option.some.inj hp; rfl

theorem tableOf_root (hp : p.parent = none) : tableOf d ip p = 0 := by
  cases p with
  | zone k => rfl
  | ind k => cases hp
  | dind k => cases hp
  | leaf k l => cases hp

theorem zoneAt_parent (hp : p.parent = some q) : zoneAt d ip p = tableEntry d (zoneAt d ip q) p.index := by
  cases p with
  | zone k => cases hp
  | ind k => cases Option.some.inj hp; rfl
  | dind k => cases Option.some.inj hp; rfl
  | leaf k l => cases Option.some.inj hp; rfl

theorem ZonePos.eq_of_parent {r : ZonePos} (hp : p.parent = some r) (hq : q.parent = some r) (hi : p.index = q.index) :
    p = q := by
  cases p with
  | zone k => cases hp
  | ind k =>
    cases Option.some.inj hp
    cases q with
    | ind l => exact congrArg ZonePos.ind hi
    | zone l | dind l | leaf l m => cases hq
  | dind k =>
    cases Option.some.inj hp
    cases q with
    | dind l => exact congrArg ZonePos.dind hi
    | zone l | ind l | leaf l m => cases hq
  | leaf k l =>
    cases Option.some.inj hp
    cases q with
    | leaf m n =>
      cases Option.some.inj hq
      exact congrArg (ZonePos.leaf k) hi
    | zone m | ind m | dind m => cases hq

/-- Two places with the same table belong to the same inode and have the same parent. -/
theorem ZoneFs.Sound.same_table {r r' : ZonePos} (h : s.Sound) (hp : p.parent = some r) (hq : q.parent = some r')
    (hne : tableOf s.dev (s.inode i) p ≠ 0) (heq : tableOf s.dev (s.inode j) q = tableOf s.dev (s.inode i) p) :
    j = i ∧ r' = r := by
  rw [tableOf_parent hp] at hne heq
  rw [tableOf_parent hq] at heq
  obtain ⟨hij, hrr⟩ := h.distinct i r j r' hne heq.symm
  exact ⟨hij.symm, hrr.symm⟩

theorem ZonePos.parent_ne : p.parent ≠ some p := by
  cases p with
  | zone k => exact nofun
  | ind k => exact nofun
  | dind k => exact nofun
  | leaf k l => exact nofun

theorem Attached.parent {r : ZonePos} (h : Attached d ip p) (hp : p.parent = some r) : p.index < 512 ∧ zoneAt d ip r ≠ 0 := by
  rw [← tableOf_parent hp]
  cases p with
  | zone k => cases hp
  | ind k => exact h
  | dind k => exact h
  | leaf k l => exact h

/-- A zone put into one place of one inode, level by level: what the other places show is as before. -/
theorem ZoneFs.Sound.filled_nr (h : s.Sound) (hno : ∀ j q, s.zoneNr j q ≠ z) (hempty : s.zoneNr i p = 0)
    (hatt : Attached s.dev (s.inode i) p)
    (hroot : ∀ j k, s'.zoneNr j (.zone k) = if j = i ∧ .zone k = p then z else s.zoneNr j (.zone k))
    (hword : ∀ b, b ≠ z → b ≠ tableOf s.dev (s.inode i) p → s'.dev.word b = s.dev.word b)
    (hfresh : s'.dev.word z = fun _ => 0)
    (htable : tableOf s.dev (s.inode i) p ≠ 0 → ∀ k, s'.dev.word (tableOf s.dev (s.inode i) p) k =
      if k = p.index then z else s.dev.word (tableOf s.dev (s.inode i) p) k) :
    ∀ j q, s'.zoneNr j q = if j = i ∧ q = p then z else s.zoneNr j q := by
  have hstep : ∀ j q r, q.parent = some r → (s'.zoneNr j r = if j = i ∧ r = p then z else s.zoneNr j r) →
      s'.zoneNr j q = if j = i ∧ q = p then z else s.zoneNr j q := by
    intro j q r hq hr
    have hnew : s'.zoneNr j q = tableEntry s'.dev (s'.zoneNr j r) q.index := zoneAt_parent hq
    have hold : s.zoneNr j q = tableEntry s.dev (s.zoneNr j r) q.index := zoneAt_parent hq
    rw [hnew, hr]
    by_cases hat : j = i ∧ r = p
    · -- The table is the new zone: it is empty, and there was none before.
      have hne : ¬ (j = i ∧ q = p) := by
        intro hqp
        rw [hqp.2, hat.2] at hq
        exact ZonePos.parent_ne hq
      rw [if_pos hat, if_neg hne, hold, hat.1, hat.2, hempty, tableEntry_zero, tableEntry_fresh hfresh]
    · rw [if_neg hat]
      by_cases ht : s.zoneNr j r = 0
      · have hne : ¬ (j = i ∧ q = p) := by
          intro hqp
          rw [hqp.2] at hq
          rw [hqp.1] at ht
          exact (hatt.parent hq).2 ht
        rw [if_neg hne, hold, ht, tableEntry_zero, tableEntry_zero]
      · by_cases hsame : s.zoneNr j r = tableOf s.dev (s.inode i) p
        · have hne : tableOf s.dev (s.inode i) p ≠ 0 := hsame ▸ ht
          obtain ⟨r', hp⟩ : ∃ r', p.parent = some r' := by
            cases hp : p.parent with
            | none => exact absurd (tableOf_root hp) hne
            | some r' => exact ⟨r', rfl⟩
          obtain ⟨hji, hrr⟩ := h.same_table hp hq hne ((tableOf_parent hq).trans hsame)
          by_cases hidx : q.index = p.index
          · have hqp : q = p := ZonePos.eq_of_parent hq (hrr ▸ hp) hidx
            rw [if_pos ⟨hji, hqp⟩, hsame, hidx, tableEntry_eq (hatt.parent hp).1 hne, htable hne, if_pos rfl]
          · rw [if_neg fun hc => hidx (congrArg ZonePos.index hc.2), hold, hsame]
            unfold tableEntry
            rw [htable hne, if_neg hidx]
        · have hne : ¬ (j = i ∧ q = p) := by
            intro hqp
            refine hsame ?_
            rw [hqp.2] at hq
            rw [hqp.1, tableOf_parent hq]
            rfl
          rw [if_neg hne, hold]
          exact tableEntry_congr fun _ => congrFun (hword _ (hno j r) hsame) _
  intro j q
  cases q with
  | zone k => exact hroot j k
  | ind k => exact hstep j (.ind k) (.zone 7) rfl (hroot j 7)
  | dind k => exact hstep j (.dind k) (.zone 8) rfl (hroot j 8)
  | leaf k l => exact hstep j (.leaf k l) (.dind k) rfl (hstep j (.dind k) (.zone 8) rfl (hroot j 8))

theorem fillZone_zero {held : List Nat} : fillZone d held true 0 = newBlock d held := rfl

/-- What a fill did: it gave the place a free zone. -/
structure Fills (s s' : ZoneFs) (i : Nat) (p : ZonePos) (z : Nat) : Prop where
  filled : Filled s s' i p z
  data : s.dev.firstdatazone ≤ z ∧ z < s.dev.nzones
  bit : z + 1 - s.dev.firstdatazone < s.dev.bits
  clear : s.dev.zmap (z + 1 - s.dev.firstdatazone) = false
  count : s'.dev.freeZones + 1 = s.dev.freeZones

theorem ZonePos.root (hp : p.parent = none) : ∃ k, p = .zone k := by
  cases p with
  | zone k => exact ⟨k, rfl⟩
  | ind k | dind k | leaf k l => cases hp

/-- An empty place of the inode gets a new block. -/
theorem fillAt_zone {k : Nat} (hzero : ip.zone k = 0) :
    fillAt d ip (.zone k) = (newBlock d []).map fun r => (r.1, ⟨Function.update ip.zone k r.2⟩, r.2) := by
  simp only [fillAt, fillInode, hzero, fillZone_zero]

/-- An empty place of a table gets a new block, while the table is held. -/
theorem fillAt_table {r : ZonePos} (hp : p.parent = some r) (hword : d.word (tableOf d ip p) p.index = 0) :
    fillAt d ip p = (newBlock d [tableOf d ip p]).map fun r => (r.1.setWord (tableOf d ip p) p.index r.2, ip, r.2) := by
  have hone : (fillWord d true (tableOf d ip p) p.index).map (fun r => (r.1, ip, r.2)) =
      (newBlock d [tableOf d ip p]).map fun r => (r.1.setWord (tableOf d ip p) p.index r.2, ip, r.2) := by
    simp only [fillWord, hword, fillZone_zero, Option.map_map]
    rfl
  cases p with
  | zone k => cases hp
  | ind k | dind k | leaf k l => exact hone

theorem ZoneFs.word_empty {r : ZonePos} (hatt : Attached s.dev (s.inode i) p) (hp : p.parent = some r) (hempty : s.zoneNr i p = 0) :
    s.dev.word (tableOf s.dev (s.inode i) p) p.index = 0 := by
  obtain ⟨hidx, htne⟩ := hatt.parent hp
  have hentry : s.zoneNr i p = tableEntry s.dev (zoneAt s.dev (s.inode i) r) p.index := zoneAt_parent hp
  rw [hentry, tableEntry_eq hidx htne] at hempty
  rw [tableOf_parent hp]
  exact hempty

/-- A free zone, and what is so of it before it is taken. -/
structure ZoneFs.Fresh (s : ZoneFs) (z : Nat) : Prop where
  data : s.dev.firstdatazone ≤ z ∧ z < s.dev.nzones
  bit : z + 1 - s.dev.firstdatazone < s.dev.bits
  clear : s.dev.zmap (z + 1 - s.dev.firstdatazone) = false
  unused : ∀ j q, s.zoneNr j q ≠ z
  count : (s.dev.setBit (z + 1 - s.dev.firstdatazone)).freeZones + 1 = s.dev.freeZones

/-- The device once zone `z` is taken and emptied. -/
def Device.taken (d : Device) (z : Nat) : Device := (d.setBit (z + 1 - d.firstdatazone)).clearBlock z

theorem ZoneFs.Sound.newBlock_fresh {held : List Nat} (h : s.Sound) (hheld : ∀ y ∈ held, s.dev.Marked y) (hroom : 0 < s.dev.freeZones) :
    ∃ z, newBlock s.dev held = some (s.dev.taken z, z) ∧ s.Fresh z := by
  obtain ⟨z, hnew, hz, hb, hc⟩ := newBlock_room h.reserved h.first hheld hroom
  have hfree := h.not_owned hz.2 hc
  have hpos : z ≠ 0 := by
    have := h.first
    omega
  exact ⟨z, hnew, hz, hb, hc, fun j q hq => hfree ⟨hpos, j, q, hq⟩, Device.freeZones_setBit (by omega) h.first hb hc (by omega)⟩

/-- The new zone in the inode. -/
theorem ZoneFs.Sound.fill_zone {k : Nat} (h : s.Sound) (hk : k < 9) (hempty : s.zoneNr i (.zone k) = 0) (hz : s.Fresh z) :
    Fills s ⟨s.dev.taken z, Function.update s.inode i ⟨Function.update (s.inode i).zone k z⟩⟩ i (.zone k) z := by
  refine ⟨⟨?_, rfl, rfl, rfl, rfl, ?_, Function.update_self _ _ _⟩, hz.data, hz.bit, hz.clear, hz.count⟩
  · refine h.filled_nr hz.unused hempty hk (fun j l => ?_) (fun b hb _ => Function.update_of_ne hb _ _)
      (Function.update_self _ _ _) (fun hne => absurd rfl hne)
    change zoneAt _ (Function.update s.inode i _ j) (.zone l) = _
    by_cases hj : j = i
    · subst hj
      rw [Function.update_self]
      by_cases hl : l = k
      · subst hl
        rw [if_pos ⟨rfl, rfl⟩]
        simp only [zoneAt, if_pos hk, Function.update_self]
      · have hne : ¬ (j = j ∧ ZonePos.zone l = ZonePos.zone k) := by
          intro hc
          exact hl (ZonePos.zone.inj hc.2)
        rw [if_neg hne]
        simp only [ZoneFs.zoneNr, zoneAt, Function.update_of_ne hl]
    · rw [if_neg fun hc => hj hc.1, Function.update_of_ne hj]
      rfl
  · intro b hb _
    exact Function.update_of_ne hb _ _

/-- The new zone in a table. -/
theorem ZoneFs.Sound.fill_table {r : ZonePos} (h : s.Sound) (hatt : Attached s.dev (s.inode i) p) (hp : p.parent = some r)
    (hempty : s.zoneNr i p = 0) (hz : s.Fresh z) :
    Fills s ⟨(s.dev.taken z).setWord (tableOf s.dev (s.inode i) p) p.index z, Function.update s.inode i (s.inode i)⟩ i p z := by
  have ht : tableOf s.dev (s.inode i) p = s.zoneNr i r := tableOf_parent hp
  have htz : tableOf s.dev (s.inode i) p ≠ z := ht ▸ hz.unused i r
  have hsame : Function.update s.inode i (s.inode i) = s.inode := Function.update_eq_self _ _
  refine ⟨⟨?_, rfl, rfl, rfl, rfl, ?_, ?_⟩, hz.data, hz.bit, hz.clear, hz.count⟩
  · refine h.filled_nr hz.unused hempty hatt (fun j k => ?_) (fun b hbz hbt => ?_) ?_ (fun _ k => ?_)
    · have hne : ¬ (j = i ∧ ZonePos.zone k = p) := by
        intro hc
        rw [← hc.2] at hp
        cases hp
      rw [if_neg hne]
      change zoneAt _ (Function.update s.inode i (s.inode i) j) _ = _
      rw [hsame]
      rfl
    · change Function.update (Function.update s.dev.word z _) _ _ b = _
      rw [Function.update_of_ne hbt, Function.update_of_ne hbz]
    · change Function.update (Function.update s.dev.word z _) _ _ z = _
      rw [Function.update_of_ne htz.symm, Function.update_self]
    · change Function.update (Function.update s.dev.word z _) _ _ _ k = _
      rw [Function.update_self]
      change Function.update (Function.update s.dev.word z _ _) p.index z k = _
      rw [Function.update_of_ne htz]
      exact Function.update_apply _ _ _ _
  · intro b hbz hbt
    change Function.update (Function.update s.dev.word z _) _ _ b = _
    rw [Function.update_of_ne hbt, Function.update_of_ne hbz]
  · change Function.update (Function.update s.dev.word z _) _ _ z = _
    rw [Function.update_of_ne htz.symm, Function.update_self]

theorem ZoneFs.Sound.fillAt_room (h : s.Sound) (hatt : Attached s.dev (s.inode i) p) (hempty : s.zoneNr i p = 0)
    (hroom : 0 < s.dev.freeZones) :
    ∃ z d' ip', fillAt s.dev (s.inode i) p = some (d', ip', z) ∧
      Fills s ⟨d', Function.update s.inode i ip'⟩ i p z := by
  cases hp : p.parent with
  | none =>
    obtain ⟨k, rfl⟩ := ZonePos.root hp
    have hk : k < 9 := hatt
    obtain ⟨z, hnew, hz⟩ := h.newBlock_fresh (fun y hy => absurd hy List.not_mem_nil) hroom
    refine ⟨z, _, _, ?_, h.fill_zone hk hempty hz⟩
    rw [fillAt_zone ((if_pos hk).symm.trans hempty), hnew]
    rfl
  | some r =>
    have hheld : ∀ y ∈ [tableOf s.dev (s.inode i) p], s.dev.Marked y := by
      intro y hy
      rw [List.mem_singleton.mp hy, tableOf_parent hp]
      exact h.zoneNr_marked (hatt.parent hp).2
    obtain ⟨z, hnew, hz⟩ := h.newBlock_fresh hheld hroom
    refine ⟨z, _, _, ?_, h.fill_table hatt hp hempty hz⟩
    rw [fillAt_table hp (ZoneFs.word_empty hatt hp hempty), hnew]
    rfl

/-- Without a free zone a fill leaves the inode and all blocks as they are. -/
theorem ZoneFs.Sound.fillAt_full (h : s.Sound) (hatt : Attached s.dev (s.inode i) p) (hempty : s.zoneNr i p = 0)
    (hfull : s.dev.freeZones = 0) :
    ∃ d', fillAt s.dev (s.inode i) p = some (d', s.inode i, 0) ∧ s.dev.Exhausted d' := by
  cases hp : p.parent with
  | none =>
    obtain ⟨k, rfl⟩ := ZonePos.root hp
    have hk : k < 9 := hatt
    have hzero : (s.inode i).zone k = 0 := (if_pos hk).symm.trans hempty
    obtain ⟨d', hnew, hex⟩ := @newBlock_full s.dev [] h.reserved h.first hfull
    refine ⟨d', ?_, hex⟩
    have hkeep : Function.update (s.inode i).zone k 0 = (s.inode i).zone := by
      rw [← hzero]
      exact Function.update_eq_self _ _
    rw [fillAt_zone hzero, hnew, Option.map_some, hkeep]
  | some r =>
    have hword := ZoneFs.word_empty hatt hp hempty
    obtain ⟨d', hnew, hex⟩ := @newBlock_full s.dev [tableOf s.dev (s.inode i) p] h.reserved h.first hfull
    have hword' : d'.word = s.dev.word := by
      rcases hex with ⟨_, rfl⟩ | ⟨m, _, _, _, rfl⟩
      · rfl
      · rfl
    have hkeep : d'.setWord (tableOf s.dev (s.inode i) p) p.index 0 = d' := by
      rw [← hword, ← hword']
      exact Device.setWord_self
    refine ⟨d', ?_, hex⟩
    rw [fillAt_table hp hword, hnew, Option.map_some, hkeep]

end RheeKernel
