import RheeKernel.ZoneBitmap

namespace RheeKernel

/-- The places of an inode's zone tree: its nine zone numbers, the entries of the single-indirect block, and both
levels of the double-indirect one. -/
inductive ZonePos
  | zone (k : Nat)
  | ind (k : Nat)
  | dind (k : Nat)
  | leaf (k l : Nat)
deriving DecidableEq

def tableEntry (d : Device) (b k : Nat) : Nat := if k < 512 ∧ b ≠ 0 then d.word b k else 0

def zoneAt (d : Device) (ip : ZoneInode) : ZonePos → Nat
  | .zone k => if k < 9 then ip.zone k else 0
  | .ind k => tableEntry d (ip.zone 7) k
  | .dind k => tableEntry d (ip.zone 8) k
  | .leaf k l => tableEntry d (tableEntry d (ip.zone 8) k) l

/-- The block that a place is an entry of. -/
def tableOf (d : Device) (ip : ZoneInode) : ZonePos → Nat
  | .zone _ => 0
  | .ind _ => ip.zone 7
  | .dind _ => ip.zone 8
  | .leaf k _ => tableEntry d (ip.zone 8) k

def ZonePos.index : ZonePos → Nat
  | .zone k => k
  | .ind k => k
  | .dind k => k
  | .leaf _ l => l

/-- A place that can be filled: its table, if it is in one, is there. -/
def Attached (d : Device) (ip : ZoneInode) : ZonePos → Prop
  | .zone k => k < 9
  | p => p.index < 512 ∧ tableOf d ip p ≠ 0

/-- A device with the inodes of its regular files and directories. -/
structure ZoneFs where
  dev : Device
  inode : Nat → ZoneInode

namespace ZoneFs

def zoneNr (s : ZoneFs) (i : Nat) (p : ZonePos) : Nat := zoneAt s.dev (s.inode i) p

def Owned (s : ZoneFs) (z : Nat) : Prop := z ≠ 0 ∧ ∃ i p, s.zoneNr i p = z

/-- Owned zones are pairwise distinct and data zones, and among the data zones exactly those whose bit is set. -/
structure Sound (s : ZoneFs) : Prop where
  first : 0 < s.dev.firstdatazone
  reserved : s.dev.zmap 0 = true
  distinct : ∀ i p j q, s.zoneNr i p ≠ 0 → s.zoneNr i p = s.zoneNr j q → i = j ∧ p = q
  range : ∀ i p, s.zoneNr i p ≠ 0 → s.dev.firstdatazone ≤ s.zoneNr i p ∧ s.zoneNr i p < s.dev.nzones
  marked : ∀ z < s.dev.nzones, s.Owned z ↔ s.dev.Marked z

end ZoneFs

/-- One zone number of `_bmap`, filled in where it is missing. -/
def fillAt (d : Device) (ip : ZoneInode) : ZonePos → Option (Device × ZoneInode × Nat)
  | .zone k => fillInode d ip true k
  | p => (fillWord d true (tableOf d ip p) p.index).map fun (d, i) => (d, ip, i)

/-- The places that `_bmap` passes on the way to block `n`. -/
def zonePath (n : Nat) : List ZonePos :=
  if n < 7 then [.zone n]
  else if n < 519 then [.zone 7, .ind (n - 7)]
  else [.zone 8, .dind ((n - 519) / 512), .leaf ((n - 519) / 512) ((n - 519) % 512)]

def fillPath : List ZonePos → Device → ZoneInode → Option (Device × ZoneInode × Nat)
  | [], d, ip => some (d, ip, 0)
  | [p], d, ip => fillAt d ip p
  | p :: ps, d, ip => (fillAt d ip p).bind fun (d, ip, i) => if i = 0 then some (d, ip, 0) else fillPath ps d ip

variable {d d' : Device} {ip ip' : ZoneInode} {s s' : ZoneFs} {i j k n z b : Nat} {p q : ZonePos}

theorem tableEntry_eq (hk : k < 512) (hb : b ≠ 0) : tableEntry d b k = d.word b k := if_pos ⟨hk, hb⟩

theorem tableEntry_zero : tableEntry d 0 k = 0 := if_neg fun h => h.2 rfl

/-- `create_block` fills the places on the way to the block, from the inode down. -/
theorem createBlock_eq (hn : n < maxFileBlocks) : createBlock d ip n = fillPath (zonePath n) d ip := by
  have hlow : ¬ (n : Int) < 0 := by omega
  have hhigh : ¬ (n : Int) ≥ maxFileBlocks := by omega
  unfold createBlock bmapCore
  rw [if_neg hlow, if_neg hhigh]
  by_cases h7 : n < 7
  · rw [if_pos (by omega), zonePath, if_pos h7]
    rfl
  · rw [if_neg (by omega), zonePath, if_neg h7]
    by_cases h519 : n < 519
    · rw [if_pos h519]
      have hk : ((n : Int) - 7).toNat = n - 7 := by omega
      simp only [show (n : Int) - 7 < 512 by omega, ↓reduceIte, hk, fillPath, fillAt, fillInode, tableOf, ZonePos.index]
      cases hz : fillZone d [] true (ip.zone 7) with
      | none => rfl
      | some r =>
        simp only [Option.map_some, Option.bind_some, Function.update_self]
    · rw [if_neg h519]
      have hk : ((n : Int) - 7 - 512).toNat = n - 519 := by omega
      simp only [show ¬ (n : Int) - 7 < 512 by omega, ↓reduceIte, hk, fillPath, fillAt, fillInode, tableOf, ZonePos.index]
      cases hz : fillZone d [] true (ip.zone 8) with
      | none => rfl
      | some r =>
        obtain ⟨d₁, t⟩ := r
        simp only [Option.map_some, Option.bind_some, Function.update_self]
        by_cases ht : t = 0
        · rw [if_pos ht, if_pos ht]
        · rw [if_neg ht, if_neg ht]
          unfold fillWord
          cases hw : fillZone d₁ [t] true (d₁.word t ((n - 519) / 512)) with
          | none => rfl
          | some r =>
            obtain ⟨d₂, e⟩ := r
            have hentry : tableEntry (d₂.setWord t ((n - 519) / 512) e) t ((n - 519) / 512) = e := by
              have hbound : (n - 519) / 512 < 512 := by
                unfold maxFileBlocks at hn
                omega
              rw [tableEntry_eq hbound ht]
              simp [Device.setWord]
            simp only [Option.map_some, Option.bind_some, Function.update_self, hentry]

theorem fillAt_present (h : zoneAt d ip p ≠ 0) : fillAt d ip p = some (d, ip, zoneAt d ip p) := by
  have hword : ∀ b k, tableEntry d b k ≠ 0 →
      (fillWord d true b k).map (fun (d, i) => (d, ip, i)) = some (d, ip, tableEntry d b k) := by
    intro b k hne
    have hin : k < 512 ∧ b ≠ 0 := by
      by_contra hout
      exact hne (if_neg hout)
    rw [tableEntry_eq hin.1 hin.2] at hne ⊢
    have hkeep : fillZone d [b] true (d.word b k) = some (d, d.word b k) := by
      unfold fillZone
      rw [if_neg (by simpa using hne)]
    simp only [fillWord, hkeep, Option.map_some, Device.setWord_self]
  cases p with
  | zone k =>
    have hk : k < 9 := by
      by_contra hout
      exact h (if_neg hout)
    have hat : zoneAt d ip (.zone k) = ip.zone k := if_pos hk
    rw [hat] at h ⊢
    have hkeep : fillZone d [] true (ip.zone k) = some (d, ip.zone k) := by
      unfold fillZone
      rw [if_neg (by simpa using h)]
    simp only [fillAt, fillInode, hkeep, Option.map_some, Function.update_eq_self]
  | ind k => exact hword _ _ h
  | dind k => exact hword _ _ h
  | leaf k l => exact hword _ _ h

end RheeKernel
