import RheeKernel.BufferCache
import RheeKernel.InodeTable

namespace RheeKernel

def inodesPerBlock : Nat := 32

/-- A buffer as a lone process finds it: nothing is locked, and the place in the queues is kept elsewhere. -/
structure SyncBuffer where
  bDev : Nat
  bBlocknr : Nat
  bUptodate : Bool
  bDirt : Bool
  bCount : Nat
  bData : Nat → UInt8

/-- An inode in memory; `dInode` is its first 32 bytes, the `struct d_inode`. -/
structure SyncInode where
  dInode : Nat → UInt8
  iDev : Nat
  iNum : Nat
  iDirt : Bool
  iPipe : Bool

/-- The numbers of bitmap blocks in a super block. -/
structure SyncSuper where
  sImapBlocks : Nat
  sZmapBlocks : Nat

/-- The buffers, the free list from its head on, the super blocks by device, the inode table and the disk. -/
structure SyncSys where
  nrBuffers : Nat
  bh : Nat → SyncBuffer
  freeList : List Nat
  super : Nat → Option SyncSuper
  inode : Nat → SyncInode
  hd : Nat → HdStruct
  disk : Nat → Nat → Nat → UInt8

namespace SyncSys

def setBh (s : SyncSys) (i : Nat) (b : SyncBuffer) : SyncSys := { s with bh := Function.update s.bh i b }

/-- `rw_hd` reads or writes a block that is on the disk. -/
def OnDisk (s : SyncSys) (dev block : Nat) : Prop :=
  dev / 256 = 3 ∧ dev % 256 < 5 * nrHd ∧ 2 * block + 2 ≤ (s.hd (dev % 256)).nrSects

instance {s : SyncSys} {dev block : Nat} : Decidable (s.OnDisk dev block) := inferInstanceAs (Decidable (_ ∧ _ ∧ _))

/-- What the interrupts of a request leave behind; no request fails. -/
def transfer (s : SyncSys) (read : Bool) (i : Nat) : SyncSys :=
  let b := s.bh i
  if read then s.setBh i { b with bData := s.disk b.bDev b.bBlocknr, bUptodate := true, bDirt := false }
  else
    { s with disk := Function.update s.disk b.bDev (Function.update (s.disk b.bDev) b.bBlocknr b.bData) }.setBh i
      { b with bUptodate := true, bDirt := false }

/-- `ll_rw_block`, up to the end of the wait in `rw_abs_hd`; `none` is a panic. -/
def llRwBlock (s : SyncSys) (read : Bool) (i : Nat) : Option SyncSys :=
  if (s.bh i).bDev / 256 ≠ 3 then none
  else if s.OnDisk (s.bh i).bDev (s.bh i).bBlocknr then some (s.transfer read i)
  else some s

/-- A loop over the buffers below `n` that writes those that are dirty and pass the test. -/
def writeDirty (p : SyncBuffer → Bool) : Nat → SyncSys → Option SyncSys
  | 0, s => some s
  | n + 1, s => (writeDirty p n s).bind fun s => if p (s.bh n) && (s.bh n).bDirt then s.llRwBlock false n else some s

def syncDev (s : SyncSys) (dev : Nat) : Option SyncSys := writeDirty (fun b => b.bDev == dev) s.nrBuffers s

def findBuffer (s : SyncSys) (dev block : Nat) : Option Nat :=
  (List.range s.nrBuffers).find? fun i => (s.bh i).bDev == dev && (s.bh i).bBlocknr == block

/-- The scan of `getblk`: without a free buffer it comes round to the head of the list. -/
def scanFree (s : SyncSys) : Option Nat := (s.freeList.find? fun i => (s.bh i).bCount == 0).or s.freeList.head?

def brelse (s : SyncSys) (i : Nat) : Option SyncSys :=
  if (s.bh i).bCount = 0 then none else some (s.setBh i { s.bh i with bCount := (s.bh i).bCount - 1 })

/-- `none` is a panic or an empty free list. The second `find_buffer` finds what the first one did: nobody else has run. -/
def getblk (s : SyncSys) (dev block : Nat) : Option (SyncSys × Nat) :=
  match s.findBuffer dev block with
  | some i => some (s.setBh i { s.bh i with bCount := uchar ((s.bh i).bCount + 1) }, i)
  | none =>
    match s.scanFree with
    | none => none
    | some tmp =>
      let s := { s.setBh tmp { s.bh tmp with bCount := uchar ((s.bh tmp).bCount + 1) } with freeList := s.freeList.erase tmp }
      (if (s.bh tmp).bDirt then s.syncDev (s.bh tmp).bDev else some s).map fun s =>
        ({ s.setBh tmp { s.bh tmp with bDev := dev, bBlocknr := block, bDirt := false, bUptodate := false } with
          freeList := s.freeList ++ [tmp] }, tmp)

/-- No buffer is returned for a block that cannot be read. -/
def bread (s : SyncSys) (dev block : Nat) : Option (SyncSys × Option Nat) :=
  (s.getblk dev block).bind fun (s, i) =>
    if (s.bh i).bUptodate then some (s, some i)
    else (s.llRwBlock true i).bind fun s =>
      if (s.bh i).bUptodate then some (s, some i) else (s.brelse i).map fun s => (s, none)

/-- The block of an inode on a device with this super block. -/
def inodeBlock (sb : SyncSuper) (num : Nat) : Nat := 2 + sb.sImapBlocks + sb.sZmapBlocks + (num - 1) / inodesPerBlock

/-- Copies a `struct d_inode` to place `k` of a block. -/
def putInode (data : Nat → UInt8) (k : Nat) (d : Nat → UInt8) : Nat → UInt8 := fun o =>
  if o / 32 = k then d (o % 32) else data o

/-- The stores of `write_inode`, with the buffer `b` of the inode's block in hand. -/
def putBack (s : SyncSys) (k b : Nat) : SyncSys :=
  let i := s.inode k
  let data := putInode (s.bh b).bData ((i.iNum - 1) % inodesPerBlock) i.dInode
  { s.setBh b { s.bh b with bData := data, bDirt := true } with inode := Function.update s.inode k { i with iDirt := false } }

/-- `none` is a panic, or the use of a null super block; an inode number 0 would lie in front of its block. -/
def writeInode (s : SyncSys) (k : Nat) : Option SyncSys :=
  match s.super (s.inode k).iDev with
  | none => none
  | some sb =>
    if (s.inode k).iNum = 0 then none
    else (s.bread (s.inode k).iDev (inodeBlock sb (s.inode k).iNum)).bind fun
      | (_, none) => none
      | (s, some b) => (s.putBack k b).brelse b

/-- The loop of `sync_inodes` over the first `n` slots. -/
def syncInodes : Nat → SyncSys → Option SyncSys
  | 0, s => some s
  | n + 1, s => (syncInodes n s).bind fun s => if (s.inode n).iDirt && !(s.inode n).iPipe then s.writeInode n else some s

def sysSync (s : SyncSys) : Option SyncSys :=
  (syncInodes nrInode s).bind fun s => writeDirty (fun _ => true) s.nrBuffers s

/-- Inode `k` of the table has to be written. -/
def Stale (s : SyncSys) (k : Nat) : Prop := k < nrInode ∧ (s.inode k).iDirt = true ∧ (s.inode k).iPipe = false

/-- The inode of slot `k` has its place on disk in this block. -/
def Home (s : SyncSys) (k dev block : Nat) : Prop :=
  ∃ sb, s.super dev = some sb ∧ (s.inode k).iDev = dev ∧ 0 < (s.inode k).iNum ∧ inodeBlock sb (s.inode k).iNum = block

/-- The bytes of a block that the inode of slot `k` takes. -/
def Covers (s : SyncSys) (k dev block o : Nat) : Prop :=
  s.Home k dev block ∧ o / 32 = ((s.inode k).iNum - 1) % inodesPerBlock

/-- The buffer stands for the block. -/
def Of (s : SyncSys) (i dev block : Nat) : Prop := i < s.nrBuffers ∧ (s.bh i).bDev = dev ∧ (s.bh i).bBlocknr = block

/-- The buffer cache is in order: a block has one buffer at most; what is dirty has been read and can be written; a clean
buffer holds what is on disk. -/
structure Sound (s : SyncSys) : Prop where
  unique : ∀ i j dev block, dev ≠ 0 → s.Of i dev block → s.Of j dev block → i = j
  read : ∀ i < s.nrBuffers, (s.bh i).bDirt = true → (s.bh i).bUptodate = true
  onDisk : ∀ i < s.nrBuffers, (s.bh i).bDirt = true → s.OnDisk (s.bh i).bDev (s.bh i).bBlocknr
  clean : ∀ i < s.nrBuffers, (s.bh i).bDev ≠ 0 → (s.bh i).bUptodate = true → (s.bh i).bDirt = false →
    (s.bh i).bData = s.disk (s.bh i).bDev (s.bh i).bBlocknr

/-- What the buffer code relies on of this: only the blocks that are on the disk have to have one buffer. -/
structure Coherent (s : SyncSys) : Prop where
  unique : ∀ i j dev block, s.OnDisk dev block → s.Of i dev block → s.Of j dev block → i = j
  read : ∀ i < s.nrBuffers, (s.bh i).bDirt = true → (s.bh i).bUptodate = true
  onDisk : ∀ i < s.nrBuffers, (s.bh i).bDirt = true → s.OnDisk (s.bh i).bDev (s.bh i).bBlocknr
  clean : ∀ i < s.nrBuffers, (s.bh i).bDev ≠ 0 → (s.bh i).bUptodate = true → (s.bh i).bDirt = false →
    (s.bh i).bData = s.disk (s.bh i).bDev (s.bh i).bBlocknr

/-- The free list goes through all buffers. -/
structure Listed (s : SyncSys) : Prop where
  pos : 0 < s.nrBuffers
  mem : ∀ i, i ∈ s.freeList ↔ i < s.nrBuffers
  distinct : s.freeList.Nodup

/-- A dirty inode has a place on the disk, and no two have the same. -/
structure Homed (s : SyncSys) : Prop where
  home : ∀ k, s.Stale k → ∃ block, s.Home k (s.inode k).iDev block ∧ s.OnDisk (s.inode k).iDev block
  apart : ∀ k l, s.Stale k → s.Stale l → (s.inode k).iDev = (s.inode l).iDev → (s.inode k).iNum = (s.inode l).iNum → k = l

/-- The cache is in order, every dirty inode has its place on the disk, and no count is about to overflow. -/
structure Consistent (s : SyncSys) : Prop extends Sound s, Listed s, Homed s where
  counts : ∀ i, (s.bh i).bCount < 255

/-- What the block holds, in its buffer or else on the disk. -/
def Contents (s : SyncSys) (dev block : Nat) (v : Nat → UInt8) : Prop :=
  (∃ i, s.Of i dev block ∧ (s.bh i).bUptodate = true ∧ v = (s.bh i).bData) ∨
    ((∀ i, s.Of i dev block → (s.bh i).bUptodate = false) ∧ v = s.disk dev block)

/-- The cache moves buffers about, and every block holds what it held. -/
structure Keeps (s s' : SyncSys) : Prop where
  nrBuffers : s'.nrBuffers = s.nrBuffers
  super : s'.super = s.super
  inode : s'.inode = s.inode
  hd : s'.hd = s.hd
  contents : ∀ dev block v, s.OnDisk dev block → s.Contents dev block v → s'.Contents dev block v

/-- Buffers are written, not moved. -/
structure Written (s s' : SyncSys) : Prop extends Keeps s s' where
  freeList : s'.freeList = s.freeList
  dev : ∀ i, (s'.bh i).bDev = (s.bh i).bDev
  blocknr : ∀ i, (s'.bh i).bBlocknr = (s.bh i).bBlocknr
  count : ∀ i, (s'.bh i).bCount = (s.bh i).bCount
  dirt : ∀ i, (s'.bh i).bDirt = true → (s.bh i).bDirt = true
  uptodate : ∀ i, (s.bh i).bUptodate = true → (s'.bh i).bUptodate = true
  data : ∀ i, (s'.bh i).bData = (s.bh i).bData

variable {s s' t : SyncSys} {i j k n dev block : Nat} {v w : Nat → UInt8} {p : SyncBuffer → Bool}

theorem OnDisk.dev_ne (h : s.OnDisk dev block) : dev ≠ 0 := by
  have := h.1
  omega

theorem OnDisk.congr (h : s'.hd = s.hd) : s'.OnDisk dev block ↔ s.OnDisk dev block := by
  unfold OnDisk
  rw [h]

theorem Sound.coherent (h : s.Sound) : s.Coherent :=
  ⟨fun i j dev block hon hi hj => h.unique i j dev block hon.dev_ne hi hj, h.read, h.onDisk, h.clean⟩

theorem contents_exists : ∃ v, s.Contents dev block v := by
  by_cases hex : ∃ i, s.Of i dev block ∧ (s.bh i).bUptodate = true
  · obtain ⟨i, hi, hup⟩ := hex
    exact ⟨_, .inl ⟨i, hi, hup, rfl⟩⟩
  · refine ⟨_, .inr ⟨fun i hi => ?_, rfl⟩⟩
    exact Bool.eq_false_iff.mpr fun hup => hex ⟨i, hi, hup⟩

theorem Coherent.contents_unique (h : s.Coherent) (hon : s.OnDisk dev block) (hv : s.Contents dev block v) (hw : s.Contents dev block w) : v = w := by
  rcases hv with ⟨i, hi, hup, rfl⟩ | ⟨hno, rfl⟩
  · rcases hw with ⟨j, hj, _, rfl⟩ | ⟨hno, rfl⟩
    · rw [h.unique i j dev block hon hi hj]
    · rw [hno i hi] at hup
      cases hup
  · rcases hw with ⟨j, hj, hup, rfl⟩ | ⟨_, rfl⟩
    · rw [hno j hj] at hup
      cases hup
    · rfl

theorem Keeps.trans (h : Keeps s t) (h' : Keeps t s') : Keeps s s' := by
  refine ⟨h'.nrBuffers.trans h.nrBuffers, h'.super.trans h.super, h'.inode.trans h.inode, h'.hd.trans h.hd, ?_⟩
  intro dev block v hon hv
  refine h'.contents dev block v ?_ (h.contents dev block v hon hv)
  unfold OnDisk
  rw [h.hd]
  exact hon

theorem Written.refl (s : SyncSys) : Written s s :=
  ⟨⟨rfl, rfl, rfl, rfl, fun _ _ _ _ hv => hv⟩, rfl, fun _ => rfl, fun _ => rfl, fun _ => rfl, fun _ hi => hi, fun _ hi => hi,
    fun _ => rfl⟩

theorem Written.trans (h : Written s t) (h' : Written t s') : Written s s' :=
  ⟨h.toKeeps.trans h'.toKeeps, h'.freeList.trans h.freeList, fun i => (h'.dev i).trans (h.dev i),
    fun i => (h'.blocknr i).trans (h.blocknr i), fun i => (h'.count i).trans (h.count i), fun i hi => h.dirt i (h'.dirt i hi),
    fun i hi => h'.uptodate i (h.uptodate i hi), fun i => (h'.data i).trans (h.data i)⟩

theorem Written.of (h : Written s s') : s'.Of i dev block ↔ s.Of i dev block := by
  unfold Of
  rw [h.nrBuffers, h.dev, h.blocknr]

theorem transfer_bh : (s.transfer false i).bh j = if j = i then { s.bh i with bUptodate := true, bDirt := false } else s.bh j :=
  Function.update_apply _ _ _ _

theorem transfer_disk : (s.transfer false i).disk dev block =
    if dev = (s.bh i).bDev ∧ block = (s.bh i).bBlocknr then (s.bh i).bData else s.disk dev block := by
  change Function.update s.disk _ _ dev block = _
  by_cases hdev : dev = (s.bh i).bDev
  · rw [hdev, Function.update_self, Function.update_apply]
    simp
  · rw [Function.update_of_ne hdev, if_neg fun hc => hdev hc.1]

theorem transfer_same (j : Nat) : ((s.transfer false i).bh j).bDev = (s.bh j).bDev ∧
    ((s.transfer false i).bh j).bBlocknr = (s.bh j).bBlocknr ∧ ((s.transfer false i).bh j).bCount = (s.bh j).bCount ∧
    ((s.transfer false i).bh j).bData = (s.bh j).bData := by
  rw [transfer_bh]
  split
  next hj =>
    subst hj
    exact ⟨rfl, rfl, rfl, rfl⟩
  next => exact ⟨rfl, rfl, rfl, rfl⟩

theorem transfer_of : (s.transfer false i).Of j dev block ↔ s.Of j dev block := by
  obtain ⟨hdev, hblock, _, _⟩ := transfer_same (s := s) (i := i) j
  unfold Of
  rw [hdev, hblock]
  exact Iff.rfl

/-- A dirty buffer is written, and every block holds what it held. -/
theorem Coherent.written (h : s.Coherent) (hi : i < s.nrBuffers) (hd : (s.bh i).bDirt = true) : Written s (s.transfer false i) := by
  have hup := h.read i hi hd
  refine ⟨⟨rfl, rfl, rfl, rfl, fun dev block v hon hv => ?_⟩, rfl, fun j => (transfer_same j).1, fun j => (transfer_same j).2.1,
    fun j => (transfer_same j).2.2.1, fun j hj => ?_, fun j hj => ?_, fun j => (transfer_same j).2.2.2⟩
  · rcases hv with ⟨j, hj, hjup, rfl⟩ | ⟨hno, rfl⟩
    · refine .inl ⟨j, transfer_of.mpr hj, ?_, (transfer_same j).2.2.2.symm⟩
      rw [transfer_bh]
      split
      next => rfl
      next => exact hjup
    · have hother : ∀ j, s.Of j dev block → j ≠ i := by
        intro j hj hji
        rw [← hji, hno j hj] at hup
        cases hup
      refine .inr ⟨fun j hj => ?_, ?_⟩
      · rw [transfer_bh, if_neg (hother j (transfer_of.mp hj))]
        exact hno j (transfer_of.mp hj)
      · rw [transfer_disk, if_neg]
        exact fun hc => hother i ⟨hi, hc.1.symm, hc.2.symm⟩ rfl
  · rw [transfer_bh] at hj
    split at hj
    next => cases hj
    next => exact hj
  · rw [transfer_bh]
    split
    next => rfl
    next => exact hj

theorem Coherent.transfer (h : s.Coherent) (hi : i < s.nrBuffers) (hd : (s.bh i).bDirt = true) : (s.transfer false i).Coherent := by
  have hw := h.written hi hd
  have hup := h.read i hi hd
  refine ⟨fun j k dev block hdev hj hk => h.unique j k dev block hdev (hw.of.mp hj) (hw.of.mp hk),
    fun j hj hdj => ?_, fun j hj hdj => ?_, fun j hj hdev hup' hdj => ?_⟩
  · exact hw.uptodate j (h.read j hj (hw.dirt j hdj))
  · rw [hw.dev, hw.blocknr]
    exact h.onDisk j hj (hw.dirt j hdj)
  · rw [hw.data, hw.dev, hw.blocknr, transfer_disk]
    rw [hw.dev] at hdev
    by_cases hji : j = i
    · rw [hji, if_pos ⟨rfl, rfl⟩]
    · rw [if_neg fun hc => hji (h.unique j i _ _ (h.onDisk i hi hd) ⟨hj, hc.1, hc.2⟩ ⟨hi, rfl, rfl⟩)]
      rw [transfer_bh, if_neg hji] at hup' hdj
      exact h.clean j hj hdev hup' hdj

/-- The loops of `sync_dev` and `sys_sync`. -/
theorem Coherent.writeDirty (h : s.Coherent) (hn : n ≤ s.nrBuffers) (hp : ∀ b c : SyncBuffer, b.bDev = c.bDev → p b = p c) :
    ∃ s', writeDirty p n s = some s' ∧ s'.Coherent ∧ Written s s' ∧ ∀ i < n, p (s.bh i) = true → (s'.bh i).bDirt = false := by
  induction n with
  | zero => exact ⟨s, rfl, h, .refl s, fun i hi => absurd hi (Nat.not_lt_zero i)⟩
  | succ n ih =>
    obtain ⟨t, ht, hsound, hw, hclean⟩ := ih (by omega)
    unfold SyncSys.writeDirty
    rw [ht, Option.bind_some]
    have hpn : p (t.bh n) = p (s.bh n) := hp _ _ (hw.dev n)
    by_cases hcond : (p (t.bh n) && (t.bh n).bDirt) = true
    · rw [Bool.and_eq_true] at hcond
      have hlt : n < t.nrBuffers := by
        rw [hw.nrBuffers]
        omega
      have hon := hsound.onDisk n hlt hcond.2
      have hw' := hsound.written hlt hcond.2
      refine ⟨t.transfer false n, ?_, hsound.transfer hlt hcond.2, hw.trans hw', fun i hi hpi => ?_⟩
      · rw [if_pos (Bool.and_eq_true _ _ ▸ hcond)]
        unfold llRwBlock
        rw [if_neg (not_not_intro hon.1), if_pos hon]
      · rw [transfer_bh]
        split
        next => rfl
        next hin => exact hclean i (by omega) hpi
    · rw [if_neg hcond]
      refine ⟨t, rfl, hsound, hw, fun i hi hpi => ?_⟩
      by_cases hin : i = n
      · subst hin
        rw [hpn, hpi, Bool.true_and] at hcond
        exact Bool.eq_false_iff.mpr hcond
      · exact hclean i (by omega) hpi

theorem findBuffer_some (h : s.findBuffer dev block = some i) : s.Of i dev block := by
  have hmem := List.mem_of_find?_eq_some h
  have hp := List.find?_some h
  simp only [Bool.and_eq_true, beq_iff_eq] at hp
  exact ⟨List.mem_range.mp hmem, hp.1, hp.2⟩

theorem findBuffer_none (h : s.findBuffer dev block = none) : ¬ s.Of i dev block := by
  intro ⟨hi, hdev, hblock⟩
  have hp := List.find?_eq_none.mp h i (List.mem_range.mpr hi)
  simp [hdev, hblock] at hp

theorem Listed.scanFree (h : s.Listed) : ∃ i, s.scanFree = some i ∧ i < s.nrBuffers := by
  unfold SyncSys.scanFree
  cases hfind : s.freeList.find? fun i => (s.bh i).bCount == 0 with
  | some i => exact ⟨i, rfl, (h.mem i).mp (List.mem_of_find?_eq_some hfind)⟩
  | none =>
    cases hlist : s.freeList with
    | nil =>
      have hzero := (h.mem 0).mpr h.pos
      rw [hlist] at hzero
      cases hzero
    | cons i is => exact ⟨i, rfl, (h.mem i).mp (by rw [hlist]; exact List.mem_cons_self)⟩

/-- Counts and the order of the free list change; the buffers are as before. -/
structure Recounted (s s' : SyncSys) : Prop where
  nrBuffers : s'.nrBuffers = s.nrBuffers
  super : s'.super = s.super
  inode : s'.inode = s.inode
  hd : s'.hd = s.hd
  disk : s'.disk = s.disk
  dev : ∀ i, (s'.bh i).bDev = (s.bh i).bDev
  blocknr : ∀ i, (s'.bh i).bBlocknr = (s.bh i).bBlocknr
  dirt : ∀ i, (s'.bh i).bDirt = (s.bh i).bDirt
  uptodate : ∀ i, (s'.bh i).bUptodate = (s.bh i).bUptodate
  data : ∀ i, (s'.bh i).bData = (s.bh i).bData

theorem Recounted.of (h : Recounted s s') : s'.Of i dev block ↔ s.Of i dev block := by
  unfold Of
  rw [h.nrBuffers, h.dev, h.blocknr]

theorem Recounted.keeps (h : Recounted s s') : Keeps s s' := by
  refine ⟨h.nrBuffers, h.super, h.inode, h.hd, fun dev block v _ hv => ?_⟩
  rcases hv with ⟨i, hi, hup, rfl⟩ | ⟨hno, rfl⟩
  · exact .inl ⟨i, h.of.mpr hi, (h.uptodate i).trans hup, (h.data i).symm⟩
  · exact .inr ⟨fun i hi => (h.uptodate i).trans (hno i (h.of.mp hi)), by rw [h.disk]⟩

theorem Recounted.coherent (h : Recounted s s') (hs : s.Coherent) : s'.Coherent := by
  refine ⟨fun i j dev block hon hi hj => hs.unique i j dev block ((OnDisk.congr h.hd).mp hon) (h.of.mp hi) (h.of.mp hj),
    fun i hi hd => ?_, fun i hi hd => ?_, fun i hi hdev hup hd => ?_⟩
  · rw [h.nrBuffers] at hi
    exact (h.uptodate i).trans (hs.read i hi ((h.dirt i).symm.trans hd))
  · rw [h.nrBuffers] at hi
    unfold OnDisk
    rw [h.dev, h.blocknr, h.hd]
    exact hs.onDisk i hi ((h.dirt i).symm.trans hd)
  · rw [h.nrBuffers] at hi
    rw [h.dev] at hdev
    rw [h.data, h.disk, h.dev, h.blocknr]
    exact hs.clean i hi hdev ((h.uptodate i).symm.trans hup) ((h.dirt i).symm.trans hd)

/-- A buffer with another count, and another free list. -/
def recount (s : SyncSys) (i c : Nat) (l : List Nat) : SyncSys := { s.setBh i { s.bh i with bCount := c } with freeList := l }

theorem recount_bh {c : Nat} {l : List Nat} : (s.recount i c l).bh j = if j = i then { s.bh i with bCount := c } else s.bh j :=
  Function.update_apply _ _ _ _

theorem recounted (s : SyncSys) (i c : Nat) (l : List Nat) : Recounted s (s.recount i c l) := by
  have hsame : ∀ j, ∃ c', (s.recount i c l).bh j = { s.bh j with bCount := c' } := by
    intro j
    rw [recount_bh]
    split
    next hj => exact ⟨c, by rw [hj]⟩
    next => exact ⟨_, rfl⟩
  refine ⟨rfl, rfl, rfl, rfl, rfl, fun j => ?_, fun j => ?_, fun j => ?_, fun j => ?_, fun j => ?_⟩
  all_goals
    obtain ⟨c', hc⟩ := hsame j
    rw [hc]

/-- A clean buffer gets the identity of a block that has no buffer. -/
def renamed (s : SyncSys) (i dev block : Nat) (l : List Nat) : SyncSys :=
  { s.setBh i { s.bh i with bDev := dev, bBlocknr := block, bDirt := false, bUptodate := false } with freeList := l }

theorem renamed_bh {l : List Nat} : (s.renamed i dev block l).bh j =
    if j = i then { s.bh i with bDev := dev, bBlocknr := block, bDirt := false, bUptodate := false } else s.bh j :=
  Function.update_apply _ _ _ _

theorem Coherent.renamed {l : List Nat} (h : s.Coherent) (hi : i < s.nrBuffers) (hd : (s.bh i).bDirt = false)
    (hno : s.OnDisk dev block → ∀ j, ¬ s.Of j dev block) : (s.renamed i dev block l).Coherent ∧ Keeps s (s.renamed i dev block l) := by
  have hof : ∀ j d b, (s.renamed i dev block l).Of j d b → j ≠ i → s.Of j d b := by
    intro j d b ⟨hj, hjd, hjb⟩ hji
    rw [renamed_bh, if_neg hji] at hjd hjb
    exact ⟨hj, hjd, hjb⟩
  have hnew : ∀ d b, (s.renamed i dev block l).Of i d b → d = dev ∧ b = block := by
    intro d b ⟨_, hjd, hjb⟩
    rw [renamed_bh, if_pos rfl] at hjd hjb
    exact ⟨hjd.symm, hjb.symm⟩
  have hback : ∀ j d b, j ≠ i → s.Of j d b → (s.renamed i dev block l).Of j d b := by
    intro j d b hji ⟨hj, hjd, hjb⟩
    refine ⟨hj, ?_, ?_⟩
    · rw [renamed_bh, if_neg hji]
      exact hjd
    · rw [renamed_bh, if_neg hji]
      exact hjb
  refine ⟨⟨fun j k d b hd0 hj hk => ?_, fun j hj hdj => ?_, fun j hj hdj => ?_, fun j hj hdev' hup hdj => ?_⟩, ⟨rfl, rfl, rfl, rfl, ?_⟩⟩
  · by_cases hji : j = i
    · by_cases hki : k = i
      · rw [hji, hki]
      · rw [hji] at hj
        obtain ⟨rfl, rfl⟩ := hnew d b hj
        exact absurd (hof k d b hk hki) (hno hd0 k)
    · by_cases hki : k = i
      · rw [hki] at hk
        obtain ⟨rfl, rfl⟩ := hnew d b hk
        exact absurd (hof j d b hj hji) (hno hd0 j)
      · exact h.unique j k d b hd0 (hof j d b hj hji) (hof k d b hk hki)
  · rw [renamed_bh] at hdj ⊢
    split at hdj
    next => cases hdj
    next hji =>
      rw [if_neg hji]
      exact h.read j hj hdj
  · rw [renamed_bh] at hdj ⊢
    split at hdj
    next => cases hdj
    next hji =>
      rw [if_neg hji]
      exact h.onDisk j hj hdj
  · rw [renamed_bh] at hdev' hup hdj ⊢
    split at hup
    next => cases hup
    next hji =>
      rw [if_neg hji] at hdev' hdj ⊢
      exact h.clean j hj hdev' hup hdj
  · intro d b v hon hv
    rcases hv with ⟨j, hj, hup, rfl⟩ | ⟨hold, rfl⟩
    · by_cases hji : j = i
      · -- The old block of the buffer is as it is on the disk.
        subst hji
        obtain ⟨hj', hjd, hjb⟩ := hj
        refine .inr ⟨fun k hk => ?_, ?_⟩
        · by_cases hkj : k = j
          · rw [hkj, renamed_bh, if_pos rfl]
          · exact absurd (h.unique k j d b hon (hof k d b hk hkj) ⟨hj', hjd, hjb⟩) hkj
        · rw [h.clean j hi (by rw [hjd]; exact hon.dev_ne) hup hd, hjd, hjb]
          rfl
      · refine .inl ⟨j, hback j d b hji hj, ?_, ?_⟩
        · rw [renamed_bh, if_neg hji]
          exact hup
        · rw [renamed_bh, if_neg hji]
    · refine .inr ⟨fun j hj => ?_, rfl⟩
      by_cases hji : j = i
      · rw [hji, renamed_bh, if_pos rfl]
      · rw [renamed_bh, if_neg hji]
        exact hold j (hof j d b hj hji)

/-- What `getblk` does with the buffer that its scan has found. -/
def reuse (s : SyncSys) (tmp dev block : Nat) : Option (SyncSys × Nat) :=
  let s := { s.setBh tmp { s.bh tmp with bCount := uchar ((s.bh tmp).bCount + 1) } with freeList := s.freeList.erase tmp }
  (if (s.bh tmp).bDirt then s.syncDev (s.bh tmp).bDev else some s).map fun s =>
    (s.renamed tmp dev block (s.freeList ++ [tmp]), tmp)

theorem Coherent.reuse {tmp : Nat} (h : s.Coherent) (hl : s.Listed) (hlt : tmp < s.nrBuffers)
    (hno : s.OnDisk dev block → ∀ j, ¬ s.Of j dev block) :
    ∃ s', s.reuse tmp dev block = some (s', tmp) ∧ s'.Coherent ∧ s'.Listed ∧ Keeps s s' ∧ s'.Of tmp dev block ∧
      ∀ j, (s'.bh j).bCount = if j = tmp then uchar ((s.bh tmp).bCount + 1) else (s.bh j).bCount := by
  unfold SyncSys.reuse
  have hr := recounted s tmp (uchar ((s.bh tmp).bCount + 1)) (s.freeList.erase tmp)
  have hcount : ∀ j, ((s.recount tmp (uchar ((s.bh tmp).bCount + 1)) (s.freeList.erase tmp)).bh j).bCount =
      if j = tmp then uchar ((s.bh tmp).bCount + 1) else (s.bh j).bCount := by
    intro j
    rw [recount_bh]
    split
    next => rfl
    next => rfl
  change ∃ s', (if ((s.recount tmp (uchar ((s.bh tmp).bCount + 1)) (s.freeList.erase tmp)).bh tmp).bDirt then
    (s.recount tmp (uchar ((s.bh tmp).bCount + 1)) (s.freeList.erase tmp)).syncDev
      ((s.recount tmp (uchar ((s.bh tmp).bCount + 1)) (s.freeList.erase tmp)).bh tmp).bDev
    else some (s.recount tmp (uchar ((s.bh tmp).bCount + 1)) (s.freeList.erase tmp))).map
      (fun s => (s.renamed tmp dev block (s.freeList ++ [tmp]), tmp)) = some (s', tmp) ∧ _
  have hfree : (s.recount tmp (uchar ((s.bh tmp).bCount + 1)) (s.freeList.erase tmp)).freeList = s.freeList.erase tmp := rfl
  generalize s.recount tmp (uchar ((s.bh tmp).bCount + 1)) (s.freeList.erase tmp) = u at hr hcount hfree ⊢
  have hu := hr.coherent h
  obtain ⟨t, ht, hsound, hw, hclean⟩ : ∃ t, (if (u.bh tmp).bDirt then u.syncDev (u.bh tmp).bDev else some u) = some t ∧ t.Coherent ∧
      Written u t ∧ (t.bh tmp).bDirt = false := by
    by_cases hdirt : (u.bh tmp).bDirt = true
    · rw [if_pos hdirt]
      obtain ⟨t, ht, hsound, hw, hclean⟩ := @Coherent.writeDirty u u.nrBuffers (fun b => b.bDev == (u.bh tmp).bDev) hu (Nat.le_refl _)
        fun b c hbc => by rw [hbc]
      exact ⟨t, ht, hsound, hw, hclean tmp (by rw [hr.nrBuffers]; exact hlt) (beq_self_eq_true _)⟩
    · rw [if_neg hdirt]
      exact ⟨u, rfl, hu, .refl u, Bool.eq_false_iff.mpr hdirt⟩
  have hn : t.nrBuffers = s.nrBuffers := hw.nrBuffers.trans hr.nrBuffers
  obtain ⟨hsound', hkeeps⟩ := hsound.renamed (l := t.freeList ++ [tmp]) (by rw [hn]; exact hlt) hclean
    fun hon j hj => hno ((OnDisk.congr (hw.hd.trans hr.hd)).mp hon) j (hr.of.mp (hw.of.mp hj))
  rw [ht]
  refine ⟨_, rfl, hsound', ⟨?_, fun j => ?_, ?_⟩, (hr.keeps.trans hw.toKeeps).trans hkeeps, ⟨?_, ?_, ?_⟩, fun j => ?_⟩
  · change 0 < t.nrBuffers
    rw [hn]
    exact hl.pos
  · change j ∈ t.freeList ++ [tmp] ↔ j < t.nrBuffers
    rw [hn, hw.freeList, hfree, List.mem_append, List.mem_singleton, hl.distinct.mem_erase_iff, hl.mem]
    by_cases hj : j = tmp
    · rw [hj]
      exact ⟨fun _ => hlt, fun _ => .inr rfl⟩
    · exact ⟨fun hc => hc.elim (·.2) fun hc => absurd hc hj, fun hc => .inl ⟨hj, hc⟩⟩
  · change (t.freeList ++ [tmp]).Nodup
    rw [hw.freeList, hfree]
    refine List.nodup_append.mpr ⟨hl.distinct.erase _, List.pairwise_singleton _ _, fun a ha b hb => ?_⟩
    rw [List.mem_singleton.mp hb]
    exact (hl.distinct.mem_erase_iff.mp ha).1
  · change tmp < t.nrBuffers
    rw [hn]
    exact hlt
  · rw [renamed_bh, if_pos rfl]
  · rw [renamed_bh, if_pos rfl]
  · rw [← hcount j, ← hw.count j, renamed_bh]
    split
    next hj => rw [hj]
    next => rfl

/-- The buffer that is there already gets one more user. -/
theorem Coherent.found (h : s.Coherent) (hl : s.Listed) (hi : s.Of i dev block) :
    ∃ s', some (s.setBh i { s.bh i with bCount := uchar ((s.bh i).bCount + 1) }, i) = some (s', i) ∧ s'.Coherent ∧ s'.Listed ∧
      Keeps s s' ∧ s'.Of i dev block ∧
      ∀ j, (s'.bh j).bCount = if j = i then uchar ((s.bh i).bCount + 1) else (s.bh j).bCount := by
  have hr := recounted s i (uchar ((s.bh i).bCount + 1)) s.freeList
  refine ⟨_, rfl, hr.coherent h, ⟨hl.pos, hl.mem, hl.distinct⟩, hr.keeps, hr.of.mpr hi, fun j => ?_⟩
  change ((s.recount i _ s.freeList).bh j).bCount = _
  rw [recount_bh]
  split
  next => rfl
  next => rfl

/-- `getblk` gives the block a buffer. -/
theorem Coherent.getblk (h : s.Coherent) (hl : s.Listed) :
    ∃ s' i, s.getblk dev block = some (s', i) ∧ s'.Coherent ∧ s'.Listed ∧ Keeps s s' ∧ s'.Of i dev block ∧
      ∀ j, (s'.bh j).bCount = if j = i then uchar ((s.bh i).bCount + 1) else (s.bh j).bCount := by
  unfold SyncSys.getblk
  cases hfind : s.findBuffer dev block with
  | some i =>
    obtain ⟨s', hs', hrest⟩ := h.found hl (findBuffer_some hfind)
    exact ⟨s', i, hs', hrest⟩
  | none =>
    obtain ⟨tmp, hscan, hlt⟩ := hl.scanFree
    rw [hscan]
    have hno : s.OnDisk dev block → ∀ j, ¬ s.Of j dev block := fun _ j => findBuffer_none hfind
    obtain ⟨s', hs', hrest⟩ := h.reuse hl hlt hno
    exact ⟨s', tmp, hs', hrest⟩

end SyncSys

end RheeKernel
