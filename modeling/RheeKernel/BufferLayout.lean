import Mathlib.Order.CompletePartialOrder
import Mathlib.Order.Interval.Set.Disjoint
import RheeKernel.LinkedDouble
import RheeKernel.BufferRuns

namespace RheeKernel

open Linked (Ring)

/-- A `struct buffer_head` with its pointers as addresses; a null pointer is zero. -/
structure HeadAt where
  bData : Nat
  bDev : Nat
  bUptodate : Nat
  bDirt : Nat
  bCount : Nat
  bLock : Nat
  bWait : Nat
  bPrev : Nat
  bNext : Nat
  bPrevFree : Nat
  bNextFree : Nat

/-- What `buffer_init` stores: the heads by their addresses, and its variables. -/
structure BufferArea where
  bh : Nat → HeadAt
  nrBuffers : Nat
  freeList : Nat
  hashTable : Nat → Nat

namespace BufferArea

/-- `sizeof(struct buffer_head)` -/
def headSize : Nat := 32

def blockSize : Nat := 1024

def highMemory : Nat := 0x800000

def bufferEnd : Nat := if 0x600000 ≤ highMemory then 0x200000 else 0xA0000

/-- A pointer moved down by `n`, in 32 bits. -/
def lowered (p n : Nat) : Nat := (p + 2 ^ 32 - n) % 2 ^ 32

def setHead (m : BufferArea) (h : Nat) (b : HeadAt) : BufferArea := { m with bh := Function.update m.bh h b }

/-- The body of the loop up to the jump over the hole. -/
def makeHead (m : BufferArea) (h b : Nat) : BufferArea :=
  let head : HeadAt := {
    bDev := 0
    bDirt := 0
    bCount := 0
    bLock := 0
    bUptodate := 0
    bWait := 0
    bNext := 0
    bPrev := 0
    bData := b
    bPrevFree := lowered h headSize
    bNextFree := h + headSize }
  { m.setHead h head with nrBuffers := m.nrBuffers + 1 }

/-- The loop, in so many turns at most; it leaves `h` behind the last head. -/
def makeHeads : Nat → Nat → Nat → BufferArea → Option (Nat × BufferArea)
  | 0, _, _, _ => none
  | fuel + 1, h, b, m =>
    let b := lowered b blockSize
    if h + headSize ≤ b then
      makeHeads fuel (h + headSize) (if b = 0x100000 then 0xA0000 else b) (m.makeHead h b)
    else some (h, m)

/-- The end of `buffer_init`, with `h` behind the last head. -/
def closeRing (startBuffer h : Nat) (m : BufferArea) : BufferArea :=
  let h := lowered h headSize
  let m := { m with freeList := startBuffer }
  let m := m.setHead m.freeList { m.bh m.freeList with bPrevFree := h }
  let m := m.setHead h { m.bh h with bNextFree := m.freeList }
  { m with hashTable := fun i => if i < nrHash then 0 else m.hashTable i }

def bufferInit (fuel startBuffer : Nat) (m : BufferArea) : Option BufferArea :=
  (makeHeads fuel startBuffer bufferEnd m).map fun x => closeRing startBuffer x.1 x.2

/-- The data block of the buffer number `i`: those below the end of the buffers first, then those below the hole. -/
def blockAt (i : Nat) : Nat := if i < 1024 then 0x200000 - 1024 * (i + 1) else 0xA0000 - 1024 * (i - 1023)

/-- Where `b` is before the turn that makes the buffer number `i`. -/
def cursorAt (i : Nat) : Nat := if i < 1024 then 0x200000 - 1024 * i else 0xA0000 - 1024 * (i - 1024)

/-- There is room for the first `n` heads below the block of the last of them. -/
def Fits (startBuffer n : Nat) : Prop := ∀ i < n, startBuffer + 32 * (i + 1) ≤ blockAt i

/-- The first `n` heads are made. -/
structure Made (startBuffer n : Nat) (m : BufferArea) : Prop where
  count : m.nrBuffers = n
  data : ∀ i < n, (m.bh (startBuffer + 32 * i)).bData = blockAt i
  next : ∀ i < n, (m.bh (startBuffer + 32 * i)).bNextFree = startBuffer + 32 * (i + 1)
  prev : ∀ i, i + 1 < n → (m.bh (startBuffer + 32 * (i + 1))).bPrevFree = startBuffer + 32 * i

section Loop

variable {startBuffer n k fuel : Nat} {m : BufferArea}

/-- The last block that fits is not far below the hole. -/
theorem Fits.bound (fits : Fits startBuffer n) : n ≤ 1614 := by
  rcases Nat.lt_or_ge 1614 n with large | small
  · have far := fits 1614 large
    simp [blockAt] at far
  · exact small

theorem lowered_cursor (h : k ≤ 1614) : lowered (cursorAt k) blockSize = blockAt k := by
  unfold lowered cursorAt blockAt blockSize
  split <;> omega

/-- The jump over the hole. -/
theorem cursor_succ : (if blockAt k = 0x100000 then 0xA0000 else blockAt k) = cursorAt (k + 1) := by
  unfold cursorAt blockAt
  split <;> split <;> split <;> omega

theorem head_ne {i : Nat} (h : i < k) : startBuffer + 32 * i ≠ startBuffer + 32 * k := by omega

theorem makeHead_self {h b : Nat} : ((m.makeHead h b).bh h).bData = b ∧ ((m.makeHead h b).bh h).bNextFree = h + 32 ∧
    ((m.makeHead h b).bh h).bPrevFree = lowered h 32 := by
  simp only [makeHead, setHead, Function.update_self]
  exact ⟨trivial, rfl, rfl⟩

theorem makeHead_other {h b a : Nat} (hne : a ≠ h) : (m.makeHead h b).bh a = m.bh a := Function.update_of_ne hne _ _

theorem Made.step (made : Made startBuffer k m) (low : startBuffer + 32 * k < 2 ^ 32) :
    Made startBuffer (k + 1) (m.makeHead (startBuffer + 32 * k) (blockAt k)) := by
  obtain ⟨data, next, prev⟩ := @makeHead_self m (startBuffer + 32 * k) (blockAt k)
  constructor
  · exact congrArg (· + 1) made.count
  · intro i hi
    rcases Nat.lt_succ_iff_lt_or_eq.mp hi with old | rfl
    · rw [makeHead_other (head_ne old), made.data i old]
    · exact data
  · intro i hi
    rcases Nat.lt_succ_iff_lt_or_eq.mp hi with old | rfl
    · rw [makeHead_other (head_ne old), made.next i old]
    · rw [next]
      omega
  · intro i hi
    rcases Nat.lt_succ_iff_lt_or_eq.mp hi with old | rfl
    · rw [makeHead_other (head_ne old), made.prev i old]
    · rw [prev]
      unfold lowered
      omega

/-- The loop makes a number of heads that fit, until the next one does not. -/
theorem makeHeads_spec (enough : 1615 ≤ fuel + k) (fits : Fits startBuffer k) (made : Made startBuffer k m) :
    ∃ n m', makeHeads fuel (startBuffer + 32 * k) (cursorAt k) m = some (startBuffer + 32 * n, m') ∧
      Made startBuffer n m' ∧ Fits startBuffer n ∧ blockAt n < startBuffer + 32 * (n + 1) := by
  have bound := fits.bound
  induction fuel generalizing k m with
  | zero => omega
  | succ fuel ih =>
    have next : startBuffer + 32 * k + headSize = startBuffer + 32 * (k + 1) := by
      unfold headSize
      omega
    rw [makeHeads, lowered_cursor bound, next, cursor_succ]
    split
    next room =>
      have fits' : Fits startBuffer (k + 1) := by
        intro i hi
        rcases Nat.lt_succ_iff_lt_or_eq.mp hi with old | rfl
        · exact fits i old
        · exact room
      have low : blockAt k ≤ 0x200000 := by
        unfold blockAt
        split <;> omega
      exact ih (by omega) fits' (made.step (by omega)) fits'.bound
    next full => exact ⟨k, m, rfl, made, fits, Nat.lt_of_not_le full⟩

/-- Where the head number `i` is. -/
def headAt (startBuffer i : Nat) : Nat := startBuffer + headSize * i

theorem headAt_eq {i : Nat} : headAt startBuffer i = startBuffer + 32 * i := rfl

theorem headAt_inj {i j : Nat} : headAt startBuffer i = headAt startBuffer j ↔ i = j := by
  rw [headAt_eq, headAt_eq]
  omega

theorem closeRing_bh {last a : Nat} (hlast : lowered k headSize = last) : (closeRing startBuffer k m).bh a =
    { m.bh a with
      bPrevFree := if a = startBuffer then last else (m.bh a).bPrevFree
      bNextFree := if a = last then startBuffer else (m.bh a).bNextFree } := by
  simp only [closeRing, setHead, hlast, Function.update_apply]
  by_cases h : a = last
  · subst h
    rw [if_pos rfl, if_pos rfl]
    split
    next same => rw [same]
    next => rfl
  · rw [if_neg h, if_neg h]
    split
    next same => rw [same]
    next => rfl

/-- The links of the closed ring, from one head to the next and from the last to the first. -/
theorem closeRing_links (made : Made startBuffer (k + 1) m) (low : headAt startBuffer (k + 1) < 2 ^ 32) :
    ∀ i ≤ k,
      ((closeRing startBuffer (headAt startBuffer (k + 1)) m).bh (headAt startBuffer i)).bData = blockAt i ∧
      ((closeRing startBuffer (headAt startBuffer (k + 1)) m).bh (headAt startBuffer i)).bNextFree =
        headAt startBuffer (if i = k then 0 else i + 1) ∧
      ((closeRing startBuffer (headAt startBuffer (k + 1)) m).bh (headAt startBuffer i)).bPrevFree =
        headAt startBuffer (if i = 0 then k else i - 1) := by
  intro i hi
  have last : lowered (headAt startBuffer (k + 1)) headSize = headAt startBuffer k := by
    rw [headAt_eq] at low ⊢
    rw [headAt_eq]
    unfold lowered headSize
    omega
  have first : headAt startBuffer i = startBuffer ↔ i = 0 := @headAt_inj startBuffer i 0
  rw [closeRing_bh last]
  refine ⟨made.data i (by omega), ?_, ?_⟩
  · simp only [headAt_inj]
    split
    next => rfl
    next => exact made.next i (by omega)
  · simp only [first]
    split
    next => rfl
    next positive =>
      obtain ⟨j, rfl⟩ := Nat.exists_eq_succ_of_ne_zero positive
      exact made.prev j (by omega)

theorem blockAt_lt {i j : Nat} (h : i < j) (hj : j < 1614) : blockAt j + blockSize ≤ blockAt i := by
  unfold blockAt blockSize
  split <;> split <;> omega

/-- The blocks are below the end of the buffers, and not in the hole. -/
theorem blockAt_place {i : Nat} (hi : i < 1614) :
    blockAt i + blockSize ≤ bufferEnd ∧ (blockAt i + blockSize ≤ 0xA0000 ∨ 0x100000 ≤ blockAt i) := by
  have ends : bufferEnd = 0x200000 := rfl
  rw [ends]
  unfold blockAt blockSize
  split <;> omega

theorem Fits.below {i j : Nat} (fits : Fits startBuffer n) (hi : i < n) (hj : j < n) :
    headAt startBuffer j + headSize ≤ blockAt i := by
  have bound := fits.bound
  have own := fits i hi
  have other := fits j hj
  rw [headAt_eq]
  unfold headSize
  rcases Nat.lt_or_ge i j with less | more
  · have := blockAt_lt less (by omega)
    unfold blockSize at this
    omega
  · omega

theorem disjoint_of_apart {a b c d : Nat} (h : b ≤ c ∨ d ≤ a) : Disjoint (Set.Ico a b) (Set.Ico c d) := by
  apply Set.Ico_disjoint_Ico.mpr
  rcases h with before | behind
  · exact (min_le_left b d).trans (before.trans (le_max_right a c))
  · exact (min_le_right b d).trans (behind.trans (le_max_left a c))

/-- The memory of the head number `i`. -/
def headBytes (startBuffer i : Nat) : Set Nat := Set.Ico (headAt startBuffer i) (headAt startBuffer i + headSize)

/-- The memory of the block of the buffer whose head is at `h`. -/
def blockBytes (m : BufferArea) (h : Nat) : Set Nat := Set.Ico (m.bh h).bData ((m.bh h).bData + blockSize)

/-- The memory of the screen and of the BIOS. -/
def hole : Set Nat := Set.Ico 0xA0000 0x100000

/-- The heads from `startBuffer` on and their blocks do not overlap, no block is in the hole, and the heads are linked to one ring. -/
structure Layout (startBuffer : Nat) (m : BufferArea) : Prop where
  positive : 0 < m.nrBuffers
  first : m.freeList = startBuffer
  inside : ∀ i < m.nrBuffers, blockBytes m (headAt startBuffer i) ⊆ Set.Ico startBuffer bufferEnd
  hole : ∀ i < m.nrBuffers, Disjoint (blockBytes m (headAt startBuffer i)) hole
  heads : ∀ i < m.nrBuffers, ∀ j < m.nrBuffers, Disjoint (blockBytes m (headAt startBuffer i)) (headBytes startBuffer j)
  blocks : ∀ i < m.nrBuffers, ∀ j < m.nrBuffers, i ≠ j →
    Disjoint (blockBytes m (headAt startBuffer i)) (blockBytes m (headAt startBuffer j))
  ring : Ring (fun h => some (m.bh h).bNextFree) (fun h => some (m.bh h).bPrevFree)
    ((List.range m.nrBuffers).map (headAt startBuffer))

/-- The loop and what comes behind it: the heads are made as far as they fit, and the ring is closed. -/
theorem bufferInit_links (room : startBuffer + headSize ≤ 0xA0000 - blockSize) (enough : 1615 ≤ fuel) (fresh : m.nrBuffers = 0) :
    ∃ k m', bufferInit fuel startBuffer m = some m' ∧ m'.nrBuffers = k + 1 ∧ m'.freeList = startBuffer ∧ Fits startBuffer (k + 1) ∧
      ∀ i ≤ k, (m'.bh (headAt startBuffer i)).bData = blockAt i ∧
        (m'.bh (headAt startBuffer i)).bNextFree = headAt startBuffer (if i = k then 0 else i + 1) ∧
        (m'.bh (headAt startBuffer i)).bPrevFree = headAt startBuffer (if i = 0 then k else i - 1) := by
  have none : Made startBuffer 0 m := ⟨fresh, nofun, nofun, nofun⟩
  obtain ⟨n, m', run, made, fits, full⟩ := makeHeads_spec (k := 0) enough nofun none
  have begins : cursorAt 0 = bufferEnd := rfl
  rw [Nat.mul_zero, Nat.add_zero, begins] at run
  unfold headSize blockSize at room
  cases n with
  | zero =>
    have highest : blockAt 0 = 0x1FFC00 := rfl
    omega
  | succ k =>
    have bound := fits.bound
    have low : headAt startBuffer (k + 1) < 2 ^ 32 := by
      rw [headAt_eq]
      omega
    refine ⟨k, closeRing startBuffer (headAt startBuffer (k + 1)) m', ?_, made.count, rfl, fits, closeRing_links made low⟩
    rw [bufferInit, run]
    rfl

/-- `buffer_init` comes to its end with the heads and the blocks laid out. -/
theorem bufferInit_layout (room : startBuffer + headSize ≤ 0xA0000 - blockSize) (enough : 1615 ≤ fuel) (fresh : m.nrBuffers = 0) :
    ∃ m', bufferInit fuel startBuffer m = some m' ∧ Layout startBuffer m' := by
  obtain ⟨k, m', run, count, first, fits, links⟩ := bufferInit_links room enough fresh
  have bound := fits.bound
  refine ⟨m', run, ?_⟩
  have block {i : Nat} (hi : i < m'.nrBuffers) :
      blockBytes m' (headAt startBuffer i) = Set.Ico (blockAt i) (blockAt i + blockSize) := by
    rw [blockBytes, (links i (by omega)).1]
  constructor
  case positive => omega
  case first => exact first
  case inside =>
    intro i hi
    have place := @blockAt_place i (by omega)
    have above := fits.below (i := i) (j := 0) (by omega) (by omega)
    rw [block hi]
    apply Set.Ico_subset_Ico
    · exact Nat.le_trans (Nat.le_add_right _ _) above
    · exact place.1
  case hole =>
    intro i hi
    have place := @blockAt_place i (by omega)
    rw [block hi, hole]
    exact disjoint_of_apart place.2
  case heads =>
    intro i hi j hj
    have below := fits.below (i := i) (j := j) (by omega) (by omega)
    rw [block hi, headBytes]
    exact disjoint_of_apart (.inr below)
  case blocks =>
    intro i hi j hj hne
    rw [block hi, block hj]
    apply disjoint_of_apart
    rcases Nat.lt_or_gt_of_ne hne with less | more
    · exact .inr (blockAt_lt less (by omega))
    · exact .inl (blockAt_lt more (by omega))
  case ring =>
    have nodes : (List.range (k + 1)).map (headAt startBuffer) =
        headAt startBuffer 0 :: (List.range' 1 k).map (headAt startBuffer) := by
      rw [List.range_eq_range', List.range'_succ, List.map_cons]
    have distinct : ((List.range (k + 1)).map (headAt startBuffer)).Nodup :=
      List.nodup_range.map fun i j same => headAt_inj.mp same
    rw [count, nodes]
    rw [nodes] at distinct
    refine ⟨distinct, Linked.walk_map (i := 0) ?_ ?_ ?_⟩
    · intro j _ hj
      have next := (links j (by omega)).2.1
      have prev := (links (j + 1) (by omega)).2.2
      rw [if_neg (by omega)] at next prev
      rw [next, prev]
      exact ⟨rfl, rfl⟩
    · rw [Nat.zero_add, (links k le_rfl).2.1, if_pos rfl]
    · rw [Nat.zero_add, (links 0 (Nat.zero_le k)).2.2, if_pos rfl]

/-- The heads of the cache model are numbered along these. -/
theorem bufferInit_cache {tasks : Nat} {hd : Nat → HdStruct} {disk : Nat → Nat → Bool → Sector} {data : Nat → Sector × Sector}
    (room : startBuffer + headSize ≤ 0xA0000 - blockSize) (enough : 1615 ≤ fuel) (fresh : m.nrBuffers = 0) :
    ∃ m', bufferInit fuel startBuffer m = some m' ∧ ∀ i < m'.nrBuffers,
      (((RheeKernel.bufferInit m'.nrBuffers tasks hd disk data).bh i).bNextFree).map (headAt startBuffer) =
        some (m'.bh (headAt startBuffer i)).bNextFree ∧
      (((RheeKernel.bufferInit m'.nrBuffers tasks hd disk data).bh i).bPrevFree).map (headAt startBuffer) =
        some (m'.bh (headAt startBuffer i)).bPrevFree := by
  obtain ⟨k, m', run, count, -, -, links⟩ := bufferInit_links room enough fresh
  refine ⟨m', run, ?_⟩
  intro i hi
  obtain ⟨-, next, prev⟩ := links i (by omega)
  rw [count, Cache.bufferInit_head, next, prev, Nat.add_sub_cancel]
  dsimp only
  constructor
  · split
    next => rfl
    next => rfl
  · split
    next => rfl
    next => rfl

end Loop

/-- The memory before `buffer_init`, in which nothing is counted. -/
def unset : BufferArea := ⟨fun _ => ⟨0, 0, 0, 0, 0, 0, 0, 0, 0, 0, 0⟩, 0, 0, fun _ => 0⟩

theorem bufferInit_layout_low : ∃ m', bufferInit 1615 0x20000 unset = some m' ∧ Layout 0x20000 m' :=
  bufferInit_layout (by decide) le_rfl rfl

end BufferArea

end RheeKernel
