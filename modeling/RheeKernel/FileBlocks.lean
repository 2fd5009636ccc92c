import RheeKernel.Zones

namespace RheeKernel

/-- What the loader's block walk comes back with: the buffer of a block, a null pointer, a panic, or a
value read outside of the array it indexes. -/
inductive Fetch
  | buffer (b : Nat)
  | null
  | panic
  | wild
deriving DecidableEq

/-- A table entry at an `int` index; the data area of a buffer has 512 of them. -/
def Device.entry (d : Device) (b : Nat) (k : Int) : Option Nat :=
  if 0 ≤ k ∧ k < 512 then some (d.word b k.toNat) else none

/-- The disk delivers every block that is asked for, block 0 included. -/
def readFileBlockInd (d : Device) (ind : Nat) (blockNum : Int) : Fetch :=
  match d.entry ind blockNum with
  | none => .wild
  | some 0 => .null
  | some block => .buffer block

def readFileBlock (d : Device) (ip : ZoneInode) (blockNum : Int) : Fetch :=
  if blockNum ≤ 6 then
    if 0 ≤ blockNum then .buffer (ip.zone blockNum.toNat) else .wild
  else
    let blockNum := blockNum - 7
    if blockNum < 512 then readFileBlockInd d (ip.zone 7) blockNum
    else
      let blockNum := blockNum - 512
      if blockNum > 512 * 512 then .panic
      else if ip.zone 8 = 0 then .null
      else
        match d.entry (ip.zone 8) (blockNum / 512) with
        | none => .wild
        | some table =>
          let blockNum := if blockNum ≥ 512 then blockNum - (blockNum - 1) * 512 else blockNum
          readFileBlockInd d table blockNum

/-- The buffer of a zone, and no buffer for a hole. -/
def fetchZone (b : Nat) : Fetch := if b = 0 then .null else .buffer b

/-- The walk comes back with the buffer of the block that `bmap` names, and with none for a hole. -/
def AgreesWithBmap (d : Device) (ip : ZoneInode) (n : Int) : Prop :=
  ∃ b, bmap d ip n = some b ∧ readFileBlock d ip n = fetchZone b

/-- Where the walk may go: no hole among the direct zones, no missing table unless block 0 happens to
hold a zero in its place, and nothing past the first table of the double-indirect block. -/
def WalkInBounds (d : Device) (ip : ZoneInode) (n : Int) : Prop :=
  (n < 7 → ip.zone n.toNat ≠ 0) ∧
  (7 ≤ n → n < 519 → ip.zone 7 = 0 → d.word 0 (n - 7).toNat = 0) ∧
  (519 ≤ n → ip.zone 8 ≠ 0 → n < 1031 ∧ (d.word (ip.zone 8) 0 = 0 → d.word 0 (n - 519).toNat = 0))

instance {d : Device} {ip : ZoneInode} {n : Int} : Decidable (WalkInBounds d ip n) :=
  inferInstanceAs (Decidable (_ ∧ _ ∧ _))

theorem Device.entry_eq {d : Device} {b k : Nat} (hk : k < 512) : d.entry b k = some (d.word b k) := by
  simp [Device.entry, show (k : Int) < 512 by omega]

theorem readFileBlockInd_eq {d : Device} {ind k : Nat} (hk : k < 512) :
    readFileBlockInd d ind k = fetchZone (d.word ind k) := by
  unfold readFileBlockInd fetchZone
  rw [Device.entry_eq hk]
  cases d.word ind k <;> simp

theorem readFileBlockInd_wild {d : Device} {ind : Nat} {k : Int} (hk : k < 0) :
    readFileBlockInd d ind k = .wild := by
  simp [readFileBlockInd, Device.entry, show ¬ 0 ≤ k by omega]

theorem fetchZone_inj {a b : Nat} : fetchZone a = fetchZone b ↔ a = b := by
  unfold fetchZone
  split <;> split <;> simp <;> omega

theorem fetchZone_ne_wild {b : Nat} : Fetch.wild ≠ fetchZone b := by
  unfold fetchZone
  split <;> simp

theorem readFileBlock_direct {d : Device} {ip : ZoneInode} {n : Nat} (hn : n < 7) :
    readFileBlock d ip n = .buffer (ip.zone n) := by
  unfold readFileBlock
  rw [if_pos (by omega), if_pos (by omega)]
  simp

theorem readFileBlock_single {d : Device} {ip : ZoneInode} {n : Nat} (h7 : 7 ≤ n) (hn : n < 519) :
    readFileBlock d ip n = fetchZone (d.word (ip.zone 7) (n - 7)) := by
  have hk : (n : Int) - 7 = (n - 7 : Nat) := by omega
  unfold readFileBlock
  rw [if_neg (by omega)]
  simp only [show (n : Int) - 7 < 512 by omega, ↓reduceIte]
  rw [hk, readFileBlockInd_eq (by omega)]

/-- From the second table on, the second-level index is negative: `m - (m - 1) * 512` for `m` past 511. -/
theorem readFileBlock_double {d : Device} {ip : ZoneInode} {n : Nat} (h519 : 519 ≤ n) (hn : n < maxFileBlocks) :
    readFileBlock d ip n =
      if ip.zone 8 = 0 then .null
      else if n < 1031 then fetchZone (d.word (d.word (ip.zone 8) 0) (n - 519)) else .wild := by
  have hmax : n < 262663 := hn
  have hk : (n : Int) - 7 - 512 = (n - 519 : Nat) := by omega
  unfold readFileBlock
  rw [if_neg (by omega)]
  simp only [show ¬ (n : Int) - 7 < 512 by omega, ↓reduceIte, hk]
  rw [if_neg (by omega)]
  by_cases hz : ip.zone 8 = 0
  · rw [if_pos hz, if_pos hz]
  · rw [if_neg hz, if_neg hz]
    have hq : ((n - 519 : Nat) : Int) / 512 = ((n - 519) / 512 : Nat) := by omega
    rw [hq, Device.entry_eq (by omega)]
    by_cases hlow : n < 1031
    · have h0 : (n - 519) / 512 = 0 := by omega
      rw [if_pos hlow, h0]
      simp only [show ¬ ((n - 519 : Nat) : Int) ≥ 512 by omega, ↓reduceIte]
      exact readFileBlockInd_eq (by omega)
    · rw [if_neg hlow]
      simp only [show ((n - 519 : Nat) : Int) ≥ 512 by omega, ↓reduceIte]
      exact readFileBlockInd_wild (by omega)

theorem agreesWithBmap_iff {d : Device} {ip : ZoneInode} {n : Nat} (hn : n < maxFileBlocks) :
    AgreesWithBmap d ip n ↔ readFileBlock d ip n = fetchZone (zoneOf d ip n) := by
  constructor
  · intro h
    obtain ⟨b, hb, h⟩ := h
    cases Option.some.inj ((bmap_eq hn).symm.trans hb)
    exact h
  · intro h
    exact ⟨_, bmap_eq hn, h⟩

theorem agrees_direct {d : Device} {ip : ZoneInode} {n : Nat} (hn : n < 7) :
    readFileBlock d ip n = fetchZone (zoneOf d ip n) ↔ ip.zone n ≠ 0 := by
  rw [readFileBlock_direct hn]
  by_cases hz : ip.zone n = 0
  · simp [zoneOf, hn, hz, fetchZone]
  · simp [zoneOf, hn, hz, fetchZone]

theorem agrees_single {d : Device} {ip : ZoneInode} {n : Nat} (h7 : 7 ≤ n) (hn : n < 519) :
    readFileBlock d ip n = fetchZone (zoneOf d ip n) ↔ (ip.zone 7 = 0 → d.word 0 (n - 7) = 0) := by
  rw [readFileBlock_single h7 hn, fetchZone_inj]
  by_cases hz : ip.zone 7 = 0
  · simp [zoneOf, show ¬ n < 7 by omega, hn, hz]
  · simp [zoneOf, show ¬ n < 7 by omega, hn, hz]

theorem agrees_double {d : Device} {ip : ZoneInode} {n : Nat} (h519 : 519 ≤ n) (hn : n < maxFileBlocks) :
    readFileBlock d ip n = fetchZone (zoneOf d ip n) ↔
      (ip.zone 8 ≠ 0 → n < 1031 ∧ (d.word (ip.zone 8) 0 = 0 → d.word 0 (n - 519) = 0)) := by
  rw [readFileBlock_double h519 hn]
  by_cases hz : ip.zone 8 = 0
  · simp [zoneOf, show ¬ n < 7 by omega, show ¬ n < 519 by omega, hz, fetchZone]
  · rw [if_neg hz]
    by_cases hlow : n < 1031
    · have hq : (n - 519) / 512 = 0 := by omega
      have hr : (n - 519) % 512 = n - 519 := by omega
      rw [if_pos hlow, fetchZone_inj]
      by_cases hi : d.word (ip.zone 8) 0 = 0
      · simp [zoneOf, show ¬ n < 7 by omega, show ¬ n < 519 by omega, hz, hi, hq, hlow]
      · simp [zoneOf, show ¬ n < 7 by omega, show ¬ n < 519 by omega, hz, hi, hq, hr, hlow]
    · rw [if_neg hlow]
      simp [hz, hlow, fetchZone_ne_wild]

/-- Block for block, the walk agrees with `bmap` exactly inside its bounds. -/
theorem read_file_block_agrees_iff {d : Device} {ip : ZoneInode} {n : Int} (h0 : 0 ≤ n)
    (hn : n < maxFileBlocks) : AgreesWithBmap d ip n ↔ WalkInBounds d ip n := by
  obtain ⟨m, rfl⟩ := Int.eq_ofNat_of_zero_le h0
  have hm : m < maxFileBlocks := by omega
  rw [agreesWithBmap_iff hm]
  unfold WalkInBounds
  by_cases h7 : m < 7
  · rw [agrees_direct h7]
    simp only [Int.toNat_natCast]
    constructor
    · intro h
      exact ⟨fun _ => h, fun _ _ => by omega, fun _ => by omega⟩
    · intro h
      exact h.1 (by omega)
  · by_cases h519 : m < 519
    · rw [agrees_single (by omega) h519]
      have hk : ((m : Int) - 7).toNat = m - 7 := by omega
      rw [hk]
      constructor
      · intro h
        exact ⟨fun _ => by omega, fun _ _ => h, fun _ => by omega⟩
      · intro h
        exact h.2.1 (by omega) (by omega)
    · rw [agrees_double (by omega) hm]
      have hk : ((m : Int) - 519).toNat = m - 519 := by omega
      rw [hk]
      constructor
      · intro h
        exact ⟨fun _ => by omega, fun _ => by omega, fun _ hz => ⟨by have := (h hz).1; omega, (h hz).2⟩⟩
      · intro h hz
        obtain ⟨hlow, hi⟩ := h.2.2 (by omega) hz
        exact ⟨by omega, hi⟩

/-- Blocks 20 and 21 are table blocks, 20 the outer one; block 0 holds boot code. -/
def sampleTables : Device where
  firstdatazone := 19
  nzones := 100
  zmapBlocks := 1
  zmap := fun _ => true
  word := fun b k =>
    if b = 0 then 7
    else if b = 20 ∧ k ≤ 1 then 21 + k
    else if (b = 21 ∨ b = 22) ∧ k = 0 then 30 + b
    else 0

/-- Direct zones 0 and 2 in use, a hole between them, no single-indirect block, a double-indirect one. -/
def sampleFile : ZoneInode where
  zone := fun k => if k = 0 then 25 else if k = 2 then 26 else if k = 8 then 20 else 0

/-- The hole at block 1 and the missing table at block 7 give blocks of another owner, and block 1031,
mapped to 52, is looked up outside of its table. -/
theorem read_file_block_disagrees :
    (bmap sampleTables sampleFile 1 = some 0 ∧ readFileBlock sampleTables sampleFile 1 = .buffer 0) ∧
    (bmap sampleTables sampleFile 7 = some 0 ∧ readFileBlock sampleTables sampleFile 7 = .buffer 7) ∧
    (bmap sampleTables sampleFile 1031 = some 52 ∧ readFileBlock sampleTables sampleFile 1031 = .wild) ∧
    ¬ AgreesWithBmap sampleTables sampleFile 1 ∧ ¬ AgreesWithBmap sampleTables sampleFile 1031 := by
  have hhole : bmap sampleTables sampleFile 1 = some 0 ∧ readFileBlock sampleTables sampleFile 1 = .buffer 0 := by
    decide
  have htable : bmap sampleTables sampleFile 1031 = some 52 ∧ readFileBlock sampleTables sampleFile 1031 = .wild := by
    decide
  refine ⟨hhole, by decide, htable, ?_, ?_⟩
  · intro h
    obtain ⟨b, hb, h⟩ := h
    cases Option.some.inj (hhole.1.symm.trans hb)
    exact absurd (hhole.2.symm.trans h) (by decide)
  · intro h
    obtain ⟨b, hb, h⟩ := h
    exact fetchZone_ne_wild (htable.2.symm.trans h)

theorem read_file_block_agrees_first_table :
    WalkInBounds sampleTables sampleFile 519 ∧ AgreesWithBmap sampleTables sampleFile 519 := by
  have h : WalkInBounds sampleTables sampleFile 519 := by decide
  exact ⟨h, (read_file_block_agrees_iff (by decide) (by decide)).mpr h⟩

end RheeKernel
