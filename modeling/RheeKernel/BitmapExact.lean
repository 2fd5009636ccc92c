import RheeKernel.BitmapAlloc

namespace RheeKernel

namespace CachedDevice

variable {v v' : CachedDevice} {pick : CachedDevice → Option Nat} {n z : Nat}

/-- A zone whose buffer is in use cannot be given out. -/
theorem clearNew_held (hpick : Idle pick) (hz : 0 < v.count z) : clearNew pick v z = none := by
  obtain ⟨u, hget, _, hcount⟩ := getblk_spec hpick v z
  unfold clearNew
  rw [hget, Option.bind_some, hcount, if_pos rfl, if_pos (by omega)]

theorem clearNew_zone (h : clearNew pick v z = some (v', n)) : n = z := by
  unfold clearNew at h
  obtain ⟨u, _, h⟩ := Option.bind_eq_some_iff.mp h
  split at h
  next => cases h
  next =>
    cases h
    rfl

theorem newBlock_zero_iff (hm : v.Mounted) (hf : 0 < v.firstdatazone) :
    (∃ v', newBlock pick v = some (v', 0)) ↔ ∀ z, ¬ v.FreeZone z := by
  constructor
  · intro ⟨v', h⟩ z hz
    rcases newBlock_cases pick hm with ⟨hfull, _⟩ | ⟨k, u, hk, hbefore, _, _, _, _, _, heq⟩
    · exact hfull _ hz.2.2
    · have hle : k ≤ z + 1 - v.firstdatazone := by
        by_contra hlt
        exact hbefore _ (by omega) hz.2.2
      obtain ⟨hlow, hhigh, _⟩ := hz
      rw [heq, if_neg (by omega)] at h
      have := clearNew_zone h
      omega
  · exact newBlock_none hm

/-- Blocks 2 and 3 are the bitmaps, which begin with the bits `bits`. -/
def smallBlock (bits : BitVec 32) (b : Nat) : Nat → BitVec 32 := fun i => if (b = 2 ∨ b = 3) ∧ i = 0 then bits else 0

/-- A device with three inodes and ten zones; the buffer of block `held` is in use. -/
def smallDevice (first : Nat) (bits : BitVec 32) (held : Nat) : CachedDevice where
  ninodes := 3
  nzones := 10
  imapBlocks := 1
  zmapBlocks := 1
  firstdatazone := first
  imap := fun i => if i = 0 then some 2 else none
  zmap := fun i => if i = 0 then some 3 else none
  buf := fun b => if b = 2 ∨ b = 3 ∨ b = held then some { data := smallBlock bits b, count := 1, uptodate := true } else none
  disk := fun b => some (smallBlock bits b)

def noVictim : CachedDevice → Option Nat := fun _ => none

theorem idle_noVictim : Idle noVictim := fun _ _ h => by cases h

theorem smallDevice_mounted {first held : Nat} {bits : BitVec 32} (hbits : bits.getLsbD 0 = true) :
    (smallDevice first bits held).Mounted := by
  have hone : ∀ {x i b : Nat}, (if i = 0 then some x else none) = some b → i = 0 ∧ b = x := by
    intro x i b h
    split at h
    next hi =>
      cases h
      exact ⟨hi, rfl⟩
    next => cases h
  refine ⟨⟨fun i b hb => ?_, fun i j b hi hj => ?_, fun i b hb => ?_, congrArg some hbits⟩,
    ⟨fun i b hb => ?_, fun i j b hi hj => ?_, fun i b hb => ?_, congrArg some hbits⟩, fun i j b hi hj => ?_⟩
  · rw [(hone hb).2]
    exact ⟨Nat.one_pos, rfl⟩
  · rw [(hone hi).1, (hone hj).1]
  · have := (hone hb).1
    omega
  · rw [(hone hb).2]
    exact ⟨Nat.one_pos, rfl⟩
  · rw [(hone hi).1, (hone hj).1]
  · have := (hone hb).1
    omega
  · have := (hone hi).2
    have := (hone hj).2
    omega

/-- `new_block` and `new_inode` give out the smallest free number and set its bit, and fail when there is none; `free_block` and
`free_inode` clear the bit that had been set. -/
theorem allocation_exact (hpick : Idle pick) (hm : v.Mounted) (hf : 0 < v.firstdatazone) :
    (∀ z, IsLeast {z | v.FreeZone z} z → v.count z = 0 → ∃ v', newBlock pick v = some (v', z) ∧
      v.ZoneBitTo v' (z + 1 - v.firstdatazone) true ∧
      v'.buf z = some { data := fun _ => 0, count := 0, dirt := true, uptodate := true }) ∧
    ((∃ v', newBlock pick v = some (v', 0)) ↔ ∀ z, ¬ v.FreeZone z) ∧
    (∀ dev now n, IsLeast {n | v.FreeInode n} n → ∃ v' inode, newInode v dev now = some (v', some inode) ∧ inode.num = n ∧
      v.InodeBitTo v' n true) ∧
    (∀ dev now, (∃ v', newInode v dev now = some (v', none)) ↔ ∀ n, ¬ v.FreeInode n) ∧
    (∀ z, v.firstdatazone ≤ z → z < v.nzones → v.zoneBit z = some true → v.count z = 0 → ∃ v', freeBlock v z = some v' ∧
      v.ZoneBitTo v' (z + 1 - v.firstdatazone) false) ∧
    (∀ inode : CoreInode, inode.dev ≠ 0 → inode.count ≤ 1 → inode.nlinks = 0 → 1 ≤ inode.num → inode.num ≤ v.ninodes →
      v.inodeBit inode.num = some true → ∃ v', freeInode v inode = some (v', {}) ∧ v.InodeBitTo v' inode.num false) := by
  refine ⟨fun z hz hheld => ?_, newBlock_zero_iff hm hf, fun dev now n hn => ?_, fun dev now => ?_, fun z hlow hhigh hset hheld => ?_,
    fun inode hdev hcount hlinks hlow hhigh hset => ?_⟩
  · obtain ⟨v', hv', _, hto, hbuf⟩ := newBlock_least hm hpick hf hz hheld
    exact ⟨v', hv', hto, hbuf⟩
  · rcases newInode_cases hm with ⟨_, hnone⟩ | ⟨k, u, hk, _, hto, heq⟩
    · exact absurd hn.1 (hnone n)
    · rw [hn.unique hk]
      exact ⟨u, _, heq, rfl, hto⟩
  · rcases newInode_cases hm with ⟨heq, hnone⟩ | ⟨k, u, hk, _, _, heq⟩
    · exact ⟨fun _ => hnone, fun _ => ⟨v, heq⟩⟩
    · constructor
      · intro ⟨v', h⟩
        rw [heq] at h
        cases h
      · exact fun hnone => absurd hk.1 (hnone k)
  · obtain ⟨v', hv', _, hto⟩ := freeBlock_idle hm hlow hhigh hset hheld
    exact ⟨v', hv', hto⟩
  · obtain ⟨v', hv', _, hto⟩ := freeInode_used hm hdev hcount hlinks hlow hhigh hset
    exact ⟨v', hv', hto⟩

theorem smallDevice_free : IsLeast {z | (smallDevice 5 3 0).FreeZone z} 6 := by
  refine ⟨⟨by decide, by decide, by decide⟩, fun z hz => ?_⟩
  obtain ⟨hlow, _, hclear⟩ := hz
  by_contra hlt
  have h5 : z = 5 := by
    have : 5 ≤ z := hlow
    omega
  rw [h5] at hclear
  revert hclear
  decide

/-- Zone 6 is the next one, and inode 1 can be freed. -/
theorem allocation_exact_small :
    (∃ v', newBlock noVictim (smallDevice 5 3 0) = some (v', 6) ∧ (smallDevice 5 3 0).ZoneBitTo v' 2 true ∧
      v'.buf 6 = some { data := fun _ => 0, count := 0, dirt := true, uptodate := true }) ∧
    ∃ v', freeInode (smallDevice 5 3 0) { dev := 1, num := 1, count := 1 } = some (v', {}) ∧
      (smallDevice 5 3 0).InodeBitTo v' 1 false := by
  have hm : (smallDevice 5 3 0).Mounted := smallDevice_mounted (by decide)
  obtain ⟨hnew, _, _, _, _, hfree⟩ := allocation_exact idle_noVictim hm (by decide)
  exact ⟨hnew 6 smallDevice_free (by decide), hfree { dev := 1, num := 1, count := 1 } (by decide) (by decide) (by decide) (by decide)
    (by decide) (by decide)⟩

/-- With `s_firstdatazone` 0 the free zone 0 looks like a failure; a zone whose buffer is held cannot be given out, which is a panic,
and is not freed when it is in use. -/
theorem allocation_not_exact :
    ((smallDevice 0 1 5).Mounted ∧ (smallDevice 0 1 5).FreeZone 0 ∧ (newBlock noVictim (smallDevice 0 1 5)).map Prod.snd = some 0) ∧
    ((smallDevice 5 1 5).Mounted ∧ (smallDevice 5 1 5).FreeZone 5 ∧ (newBlock noVictim (smallDevice 5 1 5)).map Prod.snd = none) ∧
    (smallDevice 5 3 5).Mounted ∧ (smallDevice 5 3 5).zoneBit 5 = some true ∧
      (freeBlock (smallDevice 5 3 5) 5).map (fun v' => v'.zoneBit 5) = some (some true) := by
  refine ⟨⟨smallDevice_mounted (by decide), ⟨by decide, by decide, by decide⟩, by decide +kernel⟩,
    ⟨smallDevice_mounted (by decide), ⟨by decide, by decide, by decide⟩, by decide +kernel⟩,
    smallDevice_mounted (by decide), by decide, by decide +kernel⟩

/-- The bits of the zone bitmap and the dirty flags are as they were. -/
def Unchanged (v v' : CachedDevice) : Prop :=
  (∀ n, v'.mapBit v'.zmap n = v.mapBit v.zmap n) ∧ ∀ b, (v'.buf b).map BlockBuffer.dirt = (v.buf b).map BlockBuffer.dirt

/-- When `new_block` fails it has changed nothing exactly if it found no clear bit; `new_inode` checks the number first, and its
failures change nothing. -/
theorem failed_allocation_iff (hpick : Idle pick) (hm : v.Mounted) :
    (∀ v', newBlock pick v = some (v', 0) → (v.Unchanged v' ↔ ∀ n, v.mapBit v.zmap n ≠ some false)) ∧
      ∀ dev now v', newInode v dev now = some (v', none) → v' = v := by
  refine ⟨fun v' h => ?_, fun dev now v' h => ?_⟩
  · rcases newBlock_cases pick hm with ⟨hfull, heq⟩ | ⟨k, u, ⟨_, hbit⟩, _, hu, hto, _, _, _, heq⟩
    · rw [heq] at h
      cases h
      exact ⟨fun _ => hfull, fun _ => ⟨fun _ => rfl, fun _ => rfl⟩⟩
    · have hset : v.ZoneBitTo v' k true := by
        rw [heq] at h
        split at h
        next =>
          cases h
          exact hto
        next =>
          -- Zone 0 has been given out.
          rw [← clearNew_zone h] at h
          by_cases hz : u.count 0 = 0
          · obtain ⟨w, hw, hk, _⟩ := clearNew_spec hpick hz
            rw [h] at hw
            cases hw
            exact hto.keeps hu hk
          · rw [clearNew_held hpick (by omega)] at h
            cases h
      constructor
      · intro ⟨hsame, _⟩
        have hk := hset.zmap k
        rw [hsame, hbit, if_pos rfl] at hk
        cases hk
      · exact fun hfull => absurd hbit (hfull k)
  · rcases newInode_cases hm with ⟨heq, _⟩ | ⟨k, u, _, _, _, heq⟩
    · rw [heq] at h
      cases h
      rfl
    · rw [heq] at h
      cases h

theorem failed_allocation_small :
    ∃ v', newBlock noVictim (smallDevice 9 3 0) = some (v', 0) ∧ ¬ (smallDevice 9 3 0).Unchanged v' := by
  have hm : (smallDevice 9 3 0).Mounted := smallDevice_mounted (by decide)
  obtain ⟨v', hv'⟩ := @newBlock_none _ noVictim hm fun z hz => by
    obtain ⟨hlow, hhigh, hclear⟩ := hz
    have hlow' : 9 ≤ z := hlow
    have hhigh' : z < 10 := hhigh
    rw [show z = 9 by omega] at hclear
    revert hclear
    decide
  refine ⟨v', hv', fun h => ?_⟩
  exact ((failed_allocation_iff idle_noVictim hm).1 v' hv').mp h 2 (by decide)

/-- The one zone is in use, and `new_block` sets a bit that belongs to no zone. -/
theorem failed_allocation_marks :
    (smallDevice 9 3 0).Mounted ∧ (smallDevice 9 3 0).mapBit (smallDevice 9 3 0).zmap 2 = some false ∧
      (newBlock noVictim (smallDevice 9 3 0)).map (fun r => (r.2, r.1.mapBit r.1.zmap 2)) = some (0, some true) :=
  ⟨smallDevice_mounted (by decide), by decide, by decide +kernel⟩

end CachedDevice

end RheeKernel
