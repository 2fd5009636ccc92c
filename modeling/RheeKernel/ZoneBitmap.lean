import RheeKernel.Zones
import Mathlib.Data.Finset.Card
import Mathlib.Order.Interval.Finset.Nat

namespace RheeKernel

namespace Device

/-- Bits that the bitmap blocks in memory hold. -/
def bits (d : Device) : Nat := zmapBits * min zmapSlots d.zmapBlocks

/-- The bit of zone `z` is set. Bit 0 belongs to no zone. -/
def Marked (d : Device) (z : Nat) : Prop :=
  d.firstdatazone ≤ z ∧ z + 1 - d.firstdatazone < d.bits ∧ d.zmap (z + 1 - d.firstdatazone) = true

/-- Zones of the device whose bit is clear. -/
def freeZones (d : Device) : Nat :=
  ((Finset.Ico d.firstdatazone d.nzones).filter fun z =>
    z + 1 - d.firstdatazone < d.bits ∧ d.zmap (z + 1 - d.firstdatazone) = false).card

def setBit (d : Device) (m : Nat) : Device := { d with zmap := Function.update d.zmap m true }

def clearBlock (d : Device) (z : Nat) : Device := { d with word := Function.update d.word z fun _ => 0 }

end Device

/-- `none` is a panic. `held` lists the blocks whose buffers somebody else keeps a reference to. -/
def freeBlock (d : Device) (held : List Nat) (block : Nat) : Option Device :=
  if block < d.firstdatazone ∨ d.nzones ≤ block then none
  else if block ∈ held then some d
  else
    let k := block - (d.firstdatazone - 1)
    if k < d.bits ∧ d.zmap k = true then some { d with zmap := Function.update d.zmap k false } else none

variable {d : Device} {held : List Nat} {bit : Nat → Bool} {a i j m n z : Nat}

theorem findFirstZero_clear (h : findFirstZero bit n j < j + n) : bit (findFirstZero bit n j) = false := by
  induction n generalizing j with
  | zero => exact absurd h (by simp [findFirstZero])
  | succ n ih =>
    unfold findFirstZero at h ⊢
    split
    next hb =>
      rw [if_pos hb] at h
      exact ih (by omega)
    next hb => exact Bool.eq_false_iff.mpr hb

theorem findFirstZero_before (hj : j ≤ m) (h : m < findFirstZero bit n j) : bit m = true := by
  induction n generalizing j with
  | zero => exact absurd h (by simp only [findFirstZero]; omega)
  | succ n ih =>
    unfold findFirstZero at h
    split at h
    next hb =>
      by_cases hm : m = j
      · exact hm ▸ hb
      · exact ih (by omega) h
    next => omega

/-- All bits of the slots that `new_block` looks at are set. -/
theorem zmapScan_none (h : zmapScan d n i = none) (hlow : zmapBits * i ≤ m) (hhigh : m < zmapBits * (i + n))
    (hm : m < zmapBits * d.zmapBlocks) : d.zmap m = true := by
  induction n generalizing i with
  | zero =>
    rw [Nat.add_zero] at hhigh
    omega
  | succ n ih =>
    unfold zmapScan at h
    unfold zmapBits at *
    split at h
    next hi =>
      dsimp only at h
      split at h
      next => cases h
      next hfull =>
        by_cases hin : m < 8192 * (i + 1)
        · have hbefore := @findFirstZero_before (fun j => d.zmap (8192 * i + j)) 0 (m - 8192 * i) 8192 (Nat.zero_le _) (by omega)
          rw [show 8192 * i + (m - 8192 * i) = m by omega] at hbefore
          exact hbefore
        · exact ih h (by omega) (by rw [show i + 1 + n = i + (n + 1) by omega]; exact hhigh)
    next hi => exact absurd hm (by omega)

/-- The scan stops at the first clear bit. -/
theorem zmapScan_some (h : zmapScan d n i = some (a, j)) :
    (i ≤ a ∧ a < i + n ∧ a < d.zmapBlocks ∧ j < zmapBits) ∧ d.zmap (zmapBits * a + j) = false ∧
      ∀ m, zmapBits * i ≤ m → m < zmapBits * a + j → d.zmap m = true := by
  induction n generalizing i with
  | zero => cases h
  | succ n ih =>
    unfold zmapScan at h
    split at h
    next hi =>
      dsimp only at h
      split at h
      next hj =>
        cases h
        refine ⟨⟨le_rfl, by omega, hi, hj⟩, ?_, fun m hlow hlt => ?_⟩
        · exact @findFirstZero_clear (fun j => d.zmap (zmapBits * a + j)) 0 zmapBits (by omega)
        · have hbefore := @findFirstZero_before (fun j => d.zmap (zmapBits * a + j)) 0 (m - zmapBits * a) zmapBits
            (Nat.zero_le _) (by omega)
          rw [show zmapBits * a + (m - zmapBits * a) = m by omega] at hbefore
          exact hbefore
      next hfull =>
        obtain ⟨⟨hia, han, hab, hj⟩, hclear, hbefore⟩ := ih h
        refine ⟨⟨by omega, by omega, hab, hj⟩, hclear, fun m hlow hlt => ?_⟩
        unfold zmapBits at *
        by_cases hin : m < 8192 * (i + 1)
        · have hset := @findFirstZero_before (fun j => d.zmap (8192 * i + j)) 0 (m - 8192 * i) 8192 (Nat.zero_le _) (by omega)
          rw [show 8192 * i + (m - 8192 * i) = m by omega] at hset
          exact hset
        · exact hbefore m (by omega) hlt
    next hi =>
      obtain ⟨⟨hia, _, hab, _⟩, _⟩ := ih h
      omega

/-- What `new_block` does: it finds no clear bit, or sets the first one, and gives out the zone of that bit
unless it lies past the last zone. -/
theorem newBlock_cases (h0 : d.zmap 0 = true) (hf : 0 < d.firstdatazone) :
    ((∀ m < d.bits, d.zmap m = true) ∧ newBlock d held = some (d, 0)) ∨
    ∃ m, (0 < m ∧ m < d.bits) ∧ d.zmap m = false ∧ (∀ k < m, d.zmap k = true) ∧
      newBlock d held = if d.nzones < m + d.firstdatazone then some (d.setBit m, 0)
        else if m + d.firstdatazone - 1 ∈ held then none
        else some ((d.setBit m).clearBlock (m + d.firstdatazone - 1), m + d.firstdatazone - 1) := by
  cases hscan : zmapScan d zmapSlots 0 with
  | none =>
    refine .inl ⟨fun m hm => ?_, ?_⟩
    · unfold Device.bits at hm
      exact zmapScan_none hscan (by omega) (by unfold zmapSlots zmapBits at *; omega) (by unfold zmapSlots zmapBits at *; omega)
    · unfold newBlock
      rw [hscan]
  | some r =>
    obtain ⟨a, j⟩ := r
    obtain ⟨⟨_, ha, hab, hj⟩, hclear, hbefore⟩ := zmapScan_some hscan
    have hpos : zmapBits * a + j ≠ 0 := fun hz => by rw [hz, h0] at hclear; cases hclear
    refine .inr ⟨zmapBits * a + j, ⟨by omega, ?_⟩, hclear, fun k hk => hbefore k (by omega) hk, ?_⟩
    · unfold Device.bits
      unfold zmapBits zmapSlots at *
      omega
    · unfold newBlock
      rw [hscan]
      dsimp only
      have hz : j + a * zmapBits + d.firstdatazone - 1 = zmapBits * a + j + d.firstdatazone - 1 := by
        rw [Nat.mul_comm a zmapBits]
        omega
      rw [hz]
      have hiff : d.nzones ≤ zmapBits * a + j + d.firstdatazone - 1 ↔ d.nzones < zmapBits * a + j + d.firstdatazone := by omega
      simp only [hiff]
      rfl

namespace Device

@[simp] theorem setBit_bits (d : Device) (m : Nat) : (d.setBit m).bits = d.bits := rfl
@[simp] theorem clearBlock_bits (d : Device) (z : Nat) : (d.clearBlock z).bits = d.bits := rfl
@[simp] theorem setWord_bits (d : Device) (b k i : Nat) : (d.setWord b k i).bits = d.bits := rfl
@[simp] theorem setWord_freeZones (d : Device) (b k i : Nat) : (d.setWord b k i).freeZones = d.freeZones := rfl
@[simp] theorem clearBlock_freeZones (d : Device) (z : Nat) : (d.clearBlock z).freeZones = d.freeZones := rfl

/-- Setting a bit of a data zone takes that zone from the free ones. -/
theorem freeZones_setBit (hm : 0 < m) (hf : 0 < d.firstdatazone) (hb : m < d.bits) (hc : d.zmap m = false)
    (hz : m + d.firstdatazone ≤ d.nzones) : (d.setBit m).freeZones + 1 = d.freeZones := by
  unfold freeZones
  generalize hS : ((Finset.Ico d.firstdatazone d.nzones).filter fun z =>
    z + 1 - d.firstdatazone < d.bits ∧ d.zmap (z + 1 - d.firstdatazone) = false) = S
  have hmem : m + d.firstdatazone - 1 ∈ S := by
    rw [← hS, Finset.mem_filter, Finset.mem_Ico, show m + d.firstdatazone - 1 + 1 - d.firstdatazone = m by omega]
    exact ⟨by omega, hb, hc⟩
  have herase : ((Finset.Ico (d.setBit m).firstdatazone (d.setBit m).nzones).filter fun z =>
      z + 1 - (d.setBit m).firstdatazone < (d.setBit m).bits ∧
        (d.setBit m).zmap (z + 1 - (d.setBit m).firstdatazone) = false) = S.erase (m + d.firstdatazone - 1) := by
    ext z
    rw [← hS, Finset.mem_erase, Finset.mem_filter, Finset.mem_filter, setBit_bits]
    change z ∈ Finset.Ico d.firstdatazone d.nzones ∧ z + 1 - d.firstdatazone < d.bits ∧
      Function.update d.zmap m true (z + 1 - d.firstdatazone) = false ↔ _
    rw [Finset.mem_Ico]
    by_cases hat : z = m + d.firstdatazone - 1
    · rw [hat, show m + d.firstdatazone - 1 + 1 - d.firstdatazone = m by omega, Function.update_self]
      simp
    · constructor
      · intro ⟨hr, hlt, hu⟩
        rw [Function.update_of_ne (by omega)] at hu
        exact ⟨hat, hr, hlt, hu⟩
      · intro ⟨_, hr, hlt, hu⟩
        rw [Function.update_of_ne (by omega)]
        exact ⟨hr, hlt, hu⟩
  rw [herase, Finset.card_erase_of_mem hmem]
  have hpos := Finset.card_pos.mpr ⟨_, hmem⟩
  omega

theorem freeZones_pos : 0 < d.freeZones ↔ ∃ z, (d.firstdatazone ≤ z ∧ z < d.nzones) ∧ z + 1 - d.firstdatazone < d.bits ∧
    d.zmap (z + 1 - d.firstdatazone) = false := by
  unfold freeZones
  rw [Finset.card_pos]
  constructor
  · intro ⟨z, hz⟩
    rw [Finset.mem_filter, Finset.mem_Ico] at hz
    exact ⟨z, hz⟩
  · intro ⟨z, hz⟩
    exact ⟨z, Finset.mem_filter.mpr ⟨Finset.mem_Ico.mpr hz.1, hz.2⟩⟩

/-- What `new_block` leaves when it has no zone to give: nothing is changed, or a bit past the last zone is set. -/
def Exhausted (d d' : Device) : Prop :=
  (∀ m < d.bits, d.zmap m = true) ∧ d' = d ∨
    ∃ m, d.nzones < m + d.firstdatazone ∧ m < d.bits ∧ d.zmap m = false ∧ d' = d.setBit m

end Device

theorem newBlock_room (h0 : d.zmap 0 = true) (hf : 0 < d.firstdatazone) (hheld : ∀ z ∈ held, d.Marked z)
    (hroom : 0 < d.freeZones) :
    ∃ z, newBlock d held = some ((d.setBit (z + 1 - d.firstdatazone)).clearBlock z, z) ∧
      (d.firstdatazone ≤ z ∧ z < d.nzones) ∧ z + 1 - d.firstdatazone < d.bits ∧
      d.zmap (z + 1 - d.firstdatazone) = false := by
  obtain ⟨y, hy, hyb, hyc⟩ := Device.freeZones_pos.mp hroom
  rcases @newBlock_cases d held h0 hf with ⟨hfull, _⟩ | ⟨m, hm, hc, hbefore, heq⟩
  · rw [hfull _ hyb] at hyc
    cases hyc
  · have hle : m ≤ y + 1 - d.firstdatazone := by
      by_contra hlt
      rw [hbefore _ (by omega)] at hyc
      cases hyc
    have hidx : m + d.firstdatazone - 1 + 1 - d.firstdatazone = m := by omega
    refine ⟨m + d.firstdatazone - 1, ?_, by omega, by omega, by rw [hidx]; exact hc⟩
    rw [heq, if_neg (by omega), if_neg, hidx]
    intro hin
    obtain ⟨_, _, hset⟩ := hheld _ hin
    rw [hidx, hc] at hset
    cases hset

theorem newBlock_full (h0 : d.zmap 0 = true) (hf : 0 < d.firstdatazone) (hfull : d.freeZones = 0) :
    ∃ d', newBlock d held = some (d', 0) ∧ d.Exhausted d' := by
  rcases @newBlock_cases d held h0 hf with ⟨hall, heq⟩ | ⟨m, hm, hc, _, heq⟩
  · exact ⟨d, heq, .inl ⟨hall, rfl⟩⟩
  · have hpast : d.nzones < m + d.firstdatazone := by
      by_contra hin
      have hidx : m + d.firstdatazone - 1 + 1 - d.firstdatazone = m := by omega
      have hpos : 0 < d.freeZones := by
        refine Device.freeZones_pos.mpr ⟨m + d.firstdatazone - 1, by omega, by omega, ?_⟩
        rw [hidx]
        exact hc
      omega
    rw [if_pos hpast] at heq
    exact ⟨d.setBit m, heq, .inr ⟨m, hpast, hm.2, hc, rfl⟩⟩

end RheeKernel
