import RheeKernel.BitArray
import RheeKernel.CoreInodes

namespace RheeKernel

def iMapSlots : Nat := 8
def zMapSlots : Nat := 8

/-- A `buffer_head` of the device: its block as 256 longs, and the users that hold it. -/
structure BlockBuffer where
  data : Nat → BitVec 32
  count : Nat := 0
  dirt : Bool := false
  uptodate : Bool := false

/-- A mounted device: what the super block has in memory, the buffers by block number and the blocks on the disk, `none` where
a block cannot be read. A slot of the bitmaps names the block whose buffer it holds. -/
structure CachedDevice where
  ninodes : Nat
  nzones : Nat
  imapBlocks : Nat
  zmapBlocks : Nat
  firstdatazone : Nat
  rdOnly : Bool := false
  imap : Nat → Option Nat
  zmap : Nat → Option Nat
  buf : Nat → Option BlockBuffer
  disk : Nat → Option (Nat → BitVec 32)

/-- `find_first_zero`; the first argument bounds the rounds of its loop. -/
def firstZero (data : Nat → BitVec 32) : Nat → Nat → Nat
  | 0, ecx => ecx
  | n + 1, ecx =>
    match BitArray.lowest (~~~data (ecx / 32)) with
    | some edx => ecx + edx
    | none => if ecx + 32 < 8192 then firstZero data n (ecx + 32) else ecx + 32

namespace CachedDevice

def setBuf (v : CachedDevice) (b : Nat) (h : Option BlockBuffer) : CachedDevice := { v with buf := Function.update v.buf b h }

def edit (v : CachedDevice) (b : Nat) (f : BlockBuffer → BlockBuffer) : CachedDevice := v.setBuf b ((v.buf b).map f)

/-- `b_count++`. -/
def hold (v : CachedDevice) (b : Nat) : CachedDevice := v.edit b fun h => { h with count := h.count + 1 }

/-- `b_dirt = 0` and `b_uptodate = 0`. -/
def forget (v : CachedDevice) (b : Nat) : CachedDevice := v.edit b fun h => { h with dirt := false, uptodate := false }

/-- `b_data` of the buffer of block `b`. -/
def data (v : CachedDevice) (b : Nat) : Nat → BitVec 32 := ((v.buf b).map BlockBuffer.data).getD fun _ => 0

/-- `b_count` of the buffer of block `b`, zero where there is none. It does not wrap at 256 here. -/
def count (v : CachedDevice) (b : Nat) : Nat := ((v.buf b).map BlockBuffer.count).getD 0

/-- `set_bit` in a bitmap block that was found clear, and the block is marked dirty. -/
def markBit (v : CachedDevice) (b j : Nat) : CachedDevice := v.edit b fun h => { h with data := BitArray.set h.data j, dirt := true }

def unmarkBit (v : CachedDevice) (b j : Nat) : CachedDevice := v.edit b fun h => { h with data := BitArray.clear h.data j, dirt := true }

/-- `sync_dev`: every dirty buffer is written. -/
def syncDev (v : CachedDevice) : CachedDevice where
  __ := v
  buf := fun b => (v.buf b).map fun h => { h with dirt := false }
  disk := fun b => match v.buf b with
    | some h => if h.dirt then some h.data else v.disk b
    | none => v.disk b

/-- The buffer `h` of block `a` becomes the buffer of block `b`. -/
def rename (v : CachedDevice) (a b : Nat) (h : BlockBuffer) : CachedDevice :=
  (v.setBuf a none).setBuf b (some { data := h.data, count := h.count + 1 })

/-- `getblk` for a block that is not in the cache: it takes the buffer of block `victim`, or one that belongs to no block. -/
def recycle (v : CachedDevice) (victim : Option Nat) (b : Nat) : Option CachedDevice :=
  match victim with
  | none => some (v.setBuf b (some { data := fun _ => 0, count := 1 }))
  | some a => (v.buf a).map fun h => (if h.dirt then v.syncDev else v).rename a b h

/-- `getblk`; `pick` is its scan of the free list. -/
def getblk (pick : CachedDevice → Option Nat) (v : CachedDevice) (b : Nat) : Option CachedDevice :=
  match v.buf b with
  | some _ => some (v.hold b)
  | none => v.recycle (pick v) b

/-- `none` is a panic. -/
def brelse (v : CachedDevice) (b : Nat) : Option CachedDevice :=
  if v.count b = 0 then none else some (v.edit b fun h => { h with count := h.count - 1 })

def uptodate (v : CachedDevice) (b : Nat) : Bool := ((v.buf b).map BlockBuffer.uptodate).getD false

/-- `bread`, and whether it returns the buffer. -/
def bread (pick : CachedDevice → Option Nat) (v : CachedDevice) (b : Nat) : Option (CachedDevice × Bool) :=
  (getblk pick v b).bind fun v =>
    if v.uptodate b = true then some (v, true)
    else match v.disk b with
      | some data => some (v.edit b fun h => { h with data := data, uptodate := true }, true)
      | none => (v.brelse b).map fun v => (v, false)

/-- A loop of `do_mount` over the slots of one bitmap, with the block it has come to; the array has eight slots. -/
def loadMap (pick : CachedDevice → Option Nat) : Nat → Nat → CachedDevice → (Nat → Option Nat) → Nat →
    Option (CachedDevice × (Nat → Option Nat) × Nat)
  | 0, _, v, map, block => some (v, map, block)
  | n + 1, i, v, map, block =>
    (bread pick v block).bind fun (v, ok) =>
      if ok = true then
        if 8 ≤ i then none else loadMap pick n (i + 1) v (Function.update map i (some block)) (block + 1)
      else some (v, map, block)

def dropMap (map : Nat → Option Nat) (v : CachedDevice) : Option CachedDevice :=
  (List.range 8).foldlM (fun v i => match map i with
    | none => some v
    | some b => v.brelse b) v

/-- `b_data[0] |= 1` in the first slot, which is there. -/
def reserveFirst (v : CachedDevice) (map : Nat → Option Nat) : Option CachedDevice :=
  (map 0).map fun b => v.edit b fun h => { h with data := BitArray.set h.data 0 }

/-- The super block takes the bitmaps; it is not read-only. -/
def withMaps (v : CachedDevice) (imap zmap : Nat → Option Nat) : CachedDevice :=
  { v with imap := imap, zmap := zmap, rdOnly := false }

/-- The part of `do_mount` that loads the bitmaps, once the super block has been read, and whether it succeeds. -/
def loadMaps (pick : CachedDevice → Option Nat) (v : CachedDevice) : Option (CachedDevice × Bool) :=
  (loadMap pick v.imapBlocks 0 v (fun _ => none) 2).bind fun (u, imap, block) =>
    (loadMap pick v.zmapBlocks 0 u (fun _ => none) block).bind fun (u, zmap, block) =>
      if block ≠ 2 + v.imapBlocks + v.zmapBlocks then
        ((u.dropMap imap).bind fun u => u.dropMap zmap).map fun u => (u, false)
      else
        ((u.reserveFirst imap).bind fun u => u.reserveFirst zmap).map fun u => (u.withMaps imap zmap, true)

/-- The loop of `new_block` and `new_inode` over the slots: `i`, `bh` and `j` as it leaves them. -/
def scanMap (v : CachedDevice) (map : Nat → Option Nat) : Nat → Nat → Option Nat → Nat → Nat × Option Nat × Nat
  | 0, i, bh, j => (i, bh, j)
  | n + 1, i, _, j =>
    match map i with
    | none => scanMap v map n (i + 1) none j
    | some b =>
      let j := firstZero (v.data b) 256 0
      if j < 8192 then (i, some b, j) else scanMap v map n (i + 1) (some b) j

/-- `s_rd_only = 0`. -/
def writable (v : CachedDevice) : CachedDevice := { v with rdOnly := false }

/-- The end of `new_block`: the buffer of the new zone is cleared. -/
def clearNew (pick : CachedDevice → Option Nat) (v : CachedDevice) (z : Nat) : Option (CachedDevice × Nat) :=
  (getblk pick v z).bind fun v =>
    if v.count z ≠ 1 then none
    else some (v.edit z fun h => { data := fun _ => 0, count := h.count - 1, dirt := true, uptodate := true }, z)

def newBlock (pick : CachedDevice → Option Nat) (v : CachedDevice) : Option (CachedDevice × Nat) :=
  match v.scanMap v.zmap zMapSlots 0 none 8192 with
  | (_, none, _) => some (v, 0)
  | (i, some b, j) =>
    if 8 ≤ i ∨ 8192 ≤ j then some (v, 0)
    else
      let v := v.writable
      if BitArray.get (v.data b) j = true then none
      else
        let v := v.markBit b j
        let z := j + i * 8192 + v.firstdatazone - 1
        if v.nzones ≤ z then some (v, 0) else clearNew pick v z

/-- The end of `free_block`: the bit is cleared. -/
def freeBit (v : CachedDevice) (block : Nat) : Option CachedDevice :=
  let k := block + 1 - v.firstdatazone
  (v.zmap (k / 8192)).bind fun b => if BitArray.get (v.data b) (k % 8192) = true then some (v.unmarkBit b (k % 8192)) else none

def freeBlock (v : CachedDevice) (block : Nat) : Option CachedDevice :=
  if block < v.firstdatazone ∨ v.nzones ≤ block then none
  else match v.buf block with
    | none => v.freeBit block
    | some h =>
      -- `get_hash_table` has taken a reference. A busy block is left alone, and so is that reference.
      if h.count + 1 ≠ 1 then some (v.hold block) else (v.forget block).freeBit block

/-- `new_inode`, with the zeroed inode that `get_empty_inode` has found for it. -/
def newInode (v : CachedDevice) (dev now : Nat) : Option (CachedDevice × Option CoreInode) :=
  match v.scanMap v.imap iMapSlots 0 none 8192 with
  | (_, none, _) => some (v, none)
  | (i, some b, j) =>
    if 8192 ≤ j ∨ v.ninodes < j + i * 8192 then some (v, none)
    else if BitArray.get (v.data b) j = true then none
    else some (v.markBit b j, some { count := 1, nlinks := 1, dev := dev, dirt := true, num := j + i * 8192, mtime := now })

/-- `free_inode`, with the inode that it leaves in the slot. -/
def freeInode (v : CachedDevice) (inode : CoreInode) : Option (CachedDevice × CoreInode) :=
  if inode.dev = 0 then some (v, {})
  else if 1 < inode.count then none
  else if inode.nlinks ≠ 0 then none
  else if inode.num < 1 ∨ v.ninodes < inode.num then none
  else (v.imap (inode.num / 8192)).bind fun b =>
    if BitArray.get (v.data b) (inode.num % 8192) = true then some (v.unmarkBit b (inode.num % 8192), {}) else none

end CachedDevice

end RheeKernel
