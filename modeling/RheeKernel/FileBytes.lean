import RheeKernel.ZoneRuns
import Mathlib.Data.UInt

namespace RheeKernel

namespace Device

/-- Byte `o` of block `b`: the words of a block are little-endian. -/
def byteAt (d : Device) (b o : Nat) : UInt8 := UInt8.ofNat (d.word b (o / 2) / 256 ^ (o % 2))

def putByte (d : Device) (b o : Nat) (v : UInt8) : Device :=
  d.setWord b (o / 2) (if o % 2 = 0 then 256 * (d.word b (o / 2) / 256) + v.toNat
    else d.word b (o / 2) % 256 + 256 * v.toNat)

/-- The bytes of a buffer are filled in from `o` on. -/
def putBytes (d : Device) (b : Nat) : Nat → List UInt8 → Device
  | _, [] => d
  | o, v :: vs => (d.putByte b o v).putBytes b (o + 1) vs

variable {d : Device} {b b' o o' : Nat} {v : UInt8} {vs : List UInt8}

theorem byteAt_putByte : (d.putByte b o v).byteAt b' o' = if b' = b ∧ o' = o then v else d.byteAt b' o' := by
  have hv := v.toNat_lt
  unfold byteAt putByte setWord
  dsimp only
  by_cases hb : b' = b
  · subst hb
    rw [Function.update_self]
    by_cases hw : o' / 2 = o / 2
    · rw [hw, Function.update_self]
      have hmod := Nat.mod_two_eq_zero_or_one o
      have hmod' := Nat.mod_two_eq_zero_or_one o'
      apply UInt8.toNat_inj.mp
      rcases hmod with h | h <;> rcases hmod' with h' | h'
      · rw [if_pos h, if_pos ⟨rfl, by omega⟩, h', UInt8.toNat_ofNat']
        omega
      · rw [if_pos h, if_neg (by omega), h', UInt8.toNat_ofNat', UInt8.toNat_ofNat']
        omega
      · rw [if_neg (by omega), if_neg (by omega), h', UInt8.toNat_ofNat', UInt8.toNat_ofNat']
        omega
      · rw [if_neg (by omega), if_pos ⟨rfl, by omega⟩, h', UInt8.toNat_ofNat']
        omega
    · rw [Function.update_of_ne hw, if_neg (by omega)]
  · rw [Function.update_of_ne hb, if_neg fun h => hb h.1]

theorem byteAt_putBytes : (d.putBytes b o vs).byteAt b' o' =
    if b' = b ∧ o ≤ o' then (vs[o' - o]?).getD (d.byteAt b' o') else d.byteAt b' o' := by
  induction vs generalizing d o with
  | nil =>
    unfold putBytes
    split
    next => rfl
    next => rfl
  | cons v vs ih =>
    unfold putBytes
    rw [ih, byteAt_putByte]
    by_cases hb : b' = b
    · by_cases heq : o' = o
      · subst heq
        rw [if_neg (by omega), if_pos ⟨hb, rfl⟩, if_pos ⟨hb, le_rfl⟩, Nat.sub_self]
        rfl
      · rw [if_neg (fun h : b' = b ∧ o' = o => heq h.2)]
        by_cases hlt : o < o'
        · rw [if_pos ⟨hb, hlt⟩, if_pos ⟨hb, by omega⟩, show o' - o = o' - (o + 1) + 1 by omega, List.getElem?_cons_succ]
        · rw [if_neg (by omega), if_neg (by omega)]
    · rw [if_neg fun h => hb h.1, if_neg fun h => hb h.1, if_neg fun h => hb h.1]

/-- What a store to a buffer leaves alone. -/
structure SameBut (d d' : Device) (b : Nat) : Prop where
  word : ∀ b', b' ≠ b → d'.word b' = d.word b'
  zmap : d'.zmap = d.zmap
  first : d'.firstdatazone = d.firstdatazone
  nzones : d'.nzones = d.nzones
  blocks : d'.zmapBlocks = d.zmapBlocks

theorem putBytes_same : SameBut d (d.putBytes b o vs) b := by
  induction vs generalizing d o with
  | nil => exact ⟨fun _ _ => rfl, rfl, rfl, rfl, rfl⟩
  | cons v vs ih =>
    have h := @ih (d.putByte b o v) (o + 1)
    refine ⟨fun b' hb => ?_, h.zmap, h.first, h.nzones, h.blocks⟩
    change ((d.putByte b o v).putBytes b (o + 1) vs).word b' = _
    rw [h.word b' hb]
    exact Function.update_of_ne hb _ _

end Device

variable {d d' : Device} {ip ip' : ZoneInode} {s s' : ZoneFs} {i j m n o z : Nat} {p q : ZonePos}

theorem blockPos_isData : (blockPos n).IsData := by
  unfold blockPos
  split
  next h => exact h
  next =>
    split
    next => trivial
    next => trivial

theorem blockPos_inj (h : blockPos m = blockPos n) : m = n := by
  unfold blockPos at h
  split at h
  next =>
    split at h
    next => exact ZonePos.zone.inj h
    next => split at h <;> cases h
  next =>
    split at h
    next =>
      split at h
      next => cases h
      next =>
        split at h
        next =>
          have := ZonePos.ind.inj h
          omega
        next => cases h
    next =>
      split at h
      next => cases h
      next =>
        split at h
        next => cases h
        next =>
          have := ZonePos.leaf.inj h
          omega

/-- The zone map of a block in terms of its place in the tree. -/
theorem zoneOf_eq (hn : n < maxFileBlocks) : zoneOf d ip n = zoneAt d ip (blockPos n) := by
  unfold maxFileBlocks at hn
  unfold zoneOf blockPos
  by_cases h7 : n < 7
  · rw [if_pos h7, if_pos h7]
    exact (if_pos (by omega)).symm
  · rw [if_neg h7, if_neg h7]
    by_cases h519 : n < 519
    · rw [if_pos h519, if_pos h519]
      change _ = tableEntry d (ip.zone 7) (n - 7)
      by_cases hz : ip.zone 7 = 0
      · rw [if_pos hz, hz, tableEntry_zero]
      · rw [if_neg hz, tableEntry_eq (by omega) hz]
    · rw [if_neg h519, if_neg h519]
      change _ = tableEntry d (tableEntry d (ip.zone 8) ((n - 519) / 512)) ((n - 519) % 512)
      by_cases hz : ip.zone 8 = 0
      · rw [if_pos hz, hz, tableEntry_zero, tableEntry_zero]
      · rw [if_neg hz, @tableEntry_eq d _ (ip.zone 8) (by omega) hz]
        dsimp only
        by_cases hi : d.word (ip.zone 8) ((n - 519) / 512) = 0
        · rw [if_pos hi, hi, tableEntry_zero]
        · rw [if_neg hi, tableEntry_eq (Nat.mod_lt _ (by decide)) hi]

theorem ZonePos.parent_not_data (hp : p.parent = some q) : ¬ q.IsData := by
  cases p with
  | zone k => cases hp
  | ind k =>
    cases Option.some.inj hp
    exact fun h : 7 < 7 => absurd h (Nat.lt_irrefl 7)
  | dind k =>
    cases Option.some.inj hp
    exact fun h : 8 < 7 => absurd h (by decide)
  | leaf k l =>
    cases Option.some.inj hp
    exact id

namespace ZoneFs

/-- A store to a data zone moves no zone. -/
theorem Sound.store_nr (h : s.Sound) (hp : p.IsData) (hne : s.zoneNr i p ≠ 0) (hd : s.dev.SameBut d' (s.zoneNr i p)) :
    ∀ j q, (⟨d', s.inode⟩ : ZoneFs).zoneNr j q = s.zoneNr j q := by
  have hstep : ∀ j q r, q.parent = some r → (⟨d', s.inode⟩ : ZoneFs).zoneNr j r = s.zoneNr j r →
      (⟨d', s.inode⟩ : ZoneFs).zoneNr j q = s.zoneNr j q := by
    intro j q r hq hr
    have hnew : (⟨d', s.inode⟩ : ZoneFs).zoneNr j q = tableEntry d' ((⟨d', s.inode⟩ : ZoneFs).zoneNr j r) q.index :=
      zoneAt_parent hq
    have hold : s.zoneNr j q = tableEntry s.dev (s.zoneNr j r) q.index := zoneAt_parent hq
    rw [hnew, hr, hold]
    refine tableEntry_congr fun hpos => congrFun (hd.word _ fun hsame => ?_) _
    -- A table is no data zone.
    obtain ⟨_, rfl⟩ := h.distinct j r i p hpos hsame
    exact ZonePos.parent_not_data hq hp
  intro j q
  cases q with
  | zone k => rfl
  | ind k => exact hstep j (.ind k) (.zone 7) rfl rfl
  | dind k => exact hstep j (.dind k) (.zone 8) rfl rfl
  | leaf k l => exact hstep j (.leaf k l) (.dind k) rfl (hstep j (.dind k) (.zone 8) rfl rfl)

theorem Sound.store (h : s.Sound) (hp : p.IsData) (hne : s.zoneNr i p ≠ 0) (hd : s.dev.SameBut d' (s.zoneNr i p)) :
    (⟨d', s.inode⟩ : ZoneFs).Sound := by
  have hnr := h.store_nr hp hne hd
  have hmarked : ∀ z, d'.Marked z ↔ s.dev.Marked z := by
    intro z
    unfold Device.Marked
    rw [hd.first, bits_congr hd.blocks, hd.zmap]
  refine ⟨?_, ?_, fun j q j' q' hpos heq => ?_, fun j q hpos => ?_, fun z hz => ?_⟩
  · exact hd.first ▸ h.first
  · exact hd.zmap ▸ h.reserved
  · rw [hnr] at hpos
    rw [hnr, hnr] at heq
    exact h.distinct j q j' q' hpos heq
  · rw [hnr] at hpos ⊢
    exact hd.first ▸ hd.nzones ▸ h.range j q hpos
  · change z < d'.nzones at hz
    rw [hmarked, ← h.marked z (hd.nzones ▸ hz)]
    unfold Owned
    simp only [hnr]

/-- Byte `o` of a file; a hole reads as zero. -/
def byte (s : ZoneFs) (i o : Nat) : UInt8 :=
  if s.zoneNr i (blockPos (o / 1024)) = 0 then 0 else s.dev.byteAt (s.zoneNr i (blockPos (o / 1024))) (o % 1024)

theorem byte_hole (h : s.zoneNr i (blockPos (o / 1024)) = 0) : s.byte i o = 0 := if_pos h

theorem byte_at (h : s.zoneNr i (blockPos (o / 1024)) ≠ 0) :
    s.byte i o = s.dev.byteAt (s.zoneNr i (blockPos (o / 1024))) (o % 1024) := if_neg h

end ZoneFs

/-- New blocks are cleared, so a file reads as before. -/
theorem Grows.byte {ps : List ZonePos} (h : Grows s s' i ps) : s'.byte j o = s.byte j o := by
  by_cases hold : s.zoneNr j (blockPos (o / 1024)) = 0
  · rw [ZoneFs.byte_hole hold]
    by_cases hnew : s'.zoneNr j (blockPos (o / 1024)) = 0
    · exact ZoneFs.byte_hole hnew
    · have hword := h.data j _ blockPos_isData hnew
      rw [if_pos hold] at hword
      rw [ZoneFs.byte_at hnew]
      unfold Device.byteAt
      rw [hword, Nat.zero_div]
      rfl
  · have hkeep := h.keep j _ hold
    have hnew : s'.zoneNr j (blockPos (o / 1024)) ≠ 0 := by
      rw [hkeep]
      exact hold
    have hword := h.data j _ blockPos_isData hnew
    rw [if_neg hold] at hword
    rw [ZoneFs.byte_at hnew, ZoneFs.byte_at hold]
    unfold Device.byteAt
    rw [hword]

namespace ZoneFs

/-- The bytes of a block that lies in a file after a store to it. -/
theorem Sound.store_byte {vs : List UInt8} (h : s.Sound) (hne : s.zoneNr i (blockPos n) ≠ 0) :
    (⟨s.dev.putBytes (s.zoneNr i (blockPos n)) m vs, s.inode⟩ : ZoneFs).byte j o =
      if j = i ∧ o / 1024 = n ∧ m ≤ o % 1024 then (vs[o % 1024 - m]?).getD (s.byte j o) else s.byte j o := by
  have hnr := h.store_nr blockPos_isData hne (@Device.putBytes_same s.dev _ m vs)
  by_cases hz : s.zoneNr j (blockPos (o / 1024)) = 0
  · have hno : ¬ (j = i ∧ o / 1024 = n ∧ m ≤ o % 1024) := by
      intro ⟨hj, hn, _⟩
      rw [hj, hn] at hz
      exact hne hz
    rw [if_neg hno, byte_hole hz]
    exact byte_hole ((hnr _ _).trans hz)
  · have hz' : (⟨s.dev.putBytes (s.zoneNr i (blockPos n)) m vs, s.inode⟩ : ZoneFs).zoneNr j (blockPos (o / 1024)) ≠ 0 := by
      rw [hnr]
      exact hz
    rw [byte_at hz', byte_at hz, hnr, Device.byteAt_putBytes]
    by_cases hat : s.zoneNr j (blockPos (o / 1024)) = s.zoneNr i (blockPos n)
    · obtain ⟨hj, hpos⟩ := h.distinct j _ i _ hz hat
      have hn := blockPos_inj hpos
      by_cases hm : m ≤ o % 1024
      · rw [if_pos ⟨hat, hm⟩, if_pos ⟨hj, hn, hm⟩]
      · rw [if_neg fun hc => hm hc.2, if_neg fun hc => hm hc.2.2]
    · have hno : ¬ (j = i ∧ o / 1024 = n ∧ m ≤ o % 1024) := by
        intro ⟨hj, hn, _⟩
        rw [hj, hn] at hat
        exact hat rfl
      rw [if_neg fun hc => hat hc.1, if_neg hno]

end ZoneFs

end RheeKernel
