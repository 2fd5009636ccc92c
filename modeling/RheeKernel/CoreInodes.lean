import Mathlib.Algebra.GroupWithZero.Nat
import RheeKernel.DirectoryCalls
import RheeKernel.PathWalk
import RheeKernel.InodeTable

namespace RheeKernel

@[instance] theorem zones_neZero : NeZero 9 := ⟨by decide⟩

/-- `struct d_inode`. -/
structure DiskInode where
  mode : BitVec 16 := 0
  uid : Nat := 0
  size : Nat := 0
  mtime : Nat := 0
  gid : Nat := 0
  nlinks : Nat := 0
  zone : Fin 9 → Nat := fun _ => 0
deriving DecidableEq

/-- `struct m_inode`: what is on disk, and where it belongs. -/
structure CoreInode extends DiskInode where
  dev : Nat := 0
  num : Nat := 0
  count : Nat := 0
  dirt : Bool := false
  pipe : Bool := false
deriving DecidableEq

namespace CoreInode

def view (i : CoreInode) : FileInode where
  mode := i.mode.setWidth 32
  uid := i.uid
  gid := i.gid
  dev := i.dev
  nlinks := i.nlinks
  rdev := i.zone 0
  pipe := i.pipe
  size := i.size
  byte := fun _ => 0

def isReg (i : CoreInode) : Bool := i.view.isReg
def isDir (i : CoreInode) : Bool := i.view.isDir
def isChr (i : CoreInode) : Bool := i.view.isChr

end CoreInode

/-- What the calls read of `task_struct`. -/
structure FsTask where
  live : Bool := false
  cred : Cred
  pwd : Option Nat := none
  root : Option Nat := none
  filp : Nat → Option Nat := fun _ => none
  closeOnExec : Nat → Bool := fun _ => false

/-- The one mounted device `dev`: its super block with the inode bitmap, its inode blocks as the buffer cache has them, and the
contents of its directories by inode number; `inode_table`, `file_table` and the tasks. The disk's answers are what `new_block`,
`get_free_page` and `bread` come back with next. -/
structure Vfs where
  dev : Nat
  ninodes : Nat
  imap : Nat → Bool
  isup : Option Nat
  imount : Option Nat
  disk : Nat → DiskInode
  dir : Nat → Nat → NameEntry
  slot : Nat → CoreInode
  last : Nat
  file : Nat → OpenFile
  task : Nat → FsTask
  now : Nat
  answers : List Nat

/-- A piece of kernel code; `failure` is a panic. -/
abbrev Call := StateT Vfs Option

namespace Vfs

def inode (k : Nat) : Call CoreInode := do return (← get).slot k

/-- Assignments to the fields of the inode in slot `k`. -/
def edit (k : Nat) (f : CoreInode → CoreInode) : Call Unit :=
  modify fun s => { s with slot := Function.update s.slot k (f (s.slot k)) }

def answer : Call Nat := do
  let s ← get
  match s.answers with
  | [] => return 0
  | a :: as =>
    modify fun s => { s with answers := as }
    return a

/-- What reads the state goes on from it. -/
theorem get_bind {α : Type} {f : Vfs → Call α} {s : Vfs} : ((get : Call Vfs) >>= f) s = f s s := rfl

/-- `new_block`; 0 if there is no room. -/
def newBlock : Call Nat := answer

def writeInode (k : Nat) : Call Unit := do
  let s ← get
  if (s.slot k).dev ≠ s.dev then failure
  else
    modify fun s => { s with disk := Function.update s.disk (s.slot k).num (s.slot k).toDiskInode }
    edit k fun i => { i with dirt := false }

def readInode (k : Nat) : Call Unit := do
  let s ← get
  if (s.slot k).dev ≠ s.dev then failure
  else edit k fun i => { i with toDiskInode := s.disk i.num }

def getEmptyInode : Call Nat := do
  let s ← get
  match ((List.range nrInode).map fun i => (s.last + i) % nrInode).find? fun k => (s.slot k).count == 0 with
  | none => failure
  | some k =>
    modify fun s => { s with last := k }
    if (s.slot k).dirt then
      writeInode k
      edit k fun _ => { count := 1 }
      return k
    else
      edit k fun _ => { count := 1 }
      return k

/-- The zones are freed; a directory without blocks has no entries. -/
def truncate (k : Nat) : Call Unit := do
  let i ← inode k
  if i.isReg || i.isDir then
    modify fun s => { s with dir := if i.isDir then Function.update s.dir i.num fun _ => ⟨0, fun _ => 0⟩ else s.dir }
    let s ← get
    edit k fun i => { i with zone := fun _ => 0, size := 0, dirt := true, mtime := s.now }
  else return ()

def freeInode (k : Nat) : Call Unit := do
  let s ← get
  let i := s.slot k
  if i.dev = 0 then edit k fun _ => {}
  else if i.count > 1 ∨ i.nlinks ≠ 0 ∨ i.dev ≠ s.dev ∨ i.num < 1 ∨ i.num > s.ninodes ∨ s.imap i.num = false then failure
  else
    modify fun s => { s with imap := Function.update s.imap i.num false }
    edit k fun _ => {}

def iput (k : Nat) : Call Unit := do
  let i ← inode k
  if i.count = 0 then failure
  else if i.pipe then
    if i.count = 1 then edit k fun i => { i with count := 0, dirt := false, pipe := false }
    else edit k fun i => { i with count := i.count - 1 }
  else if i.dev = 0 ∨ i.count > 1 then edit k fun i => { i with count := i.count - 1 }
  else if i.nlinks = 0 then
    truncate k
    freeInode k
  else if i.dirt then
    writeInode k
    edit k fun i => { i with count := i.count - 1 }
  else edit k fun i => { i with count := i.count - 1 }

def iget (dev nr : Nat) : Call Nat := do
  if dev = 0 then failure
  else
    let empty ← getEmptyInode
    let s ← get
    match (List.range nrInode).find? fun k => (s.slot k).dev == dev && (s.slot k).num == nr with
    | some k =>
      edit k fun i => { i with count := i.count + 1 }
      iput empty
      return k
    | none =>
      edit empty fun i => { i with dev := dev, num := nr }
      readInode empty
      return empty

/-- The first inode number that the bitmap has as free. -/
def freeNumber (s : Vfs) : Option Nat := Files.firstIndex (fun n => !s.imap n) (s.ninodes + 1) 0

def newInode (dev : Nat) : Call (Option Nat) := do
  let k ← getEmptyInode
  let s ← get
  if dev ≠ s.dev then failure
  else
    match s.freeNumber with
    | none =>
      iput k
      return none
    | some n =>
      modify fun s => { s with imap := Function.update s.imap n true }
      edit k fun i => { i with count := 1, nlinks := 1, dev := dev, dirt := true, num := n, mtime := s.now }
      return some k

def getPipeInode : Call (Option Nat) := do
  let k ← getEmptyInode
  let page ← answer
  if page = 0 then
    edit k fun i => { i with count := 0 }
    return none
  else
    edit k fun i => { i with size := page, count := 2, zone := fun _ => 0, pipe := true }
    return some k

/-- `create_block`, as far as the inode's own zones go; the blocks behind an indirect one are the disk's. -/
def createBlock (k block : Nat) : Call Bool := do
  let i ← inode k
  if h : block < 7 then
    let z : Fin 9 := ⟨block, by omega⟩
    if i.zone z = 0 then
      let new ← newBlock
      if new = 0 then return false
      else
        edit k fun i => { i with zone := Function.update i.zone z new, dirt := true }
        return true
    else return true
  else if block ≥ 7 + 512 + 512 * 512 then failure
  else
    let z : Fin 9 := if block < 7 + 512 then 7 else 8
    if i.zone z = 0 then
      let new ← newBlock
      if new = 0 then return false
      else
        edit k fun i => { i with zone := Function.update i.zone z new, dirt := true }
        return (← answer) ≠ 0
    else return (← answer) ≠ 0

def findEntry (k : Nat) (name : List UInt8) : Call (Option Nat) := do
  let s ← get
  if (s.slot k).zone 0 = 0 then return none
  else return RheeKernel.findEntry (s.dir (s.slot k).num) ((s.slot k).size / direntSize) name

/-- A write to entry `i` of the directory in slot `k`. -/
def putEntry (k i : Nat) (f : NameEntry → NameEntry) : Call Unit :=
  modify fun s =>
    let n := (s.slot k).num
    { s with dir := Function.update s.dir n (Function.update (s.dir n) i (f (s.dir n i))) }

/-- `add_entry` at entry `i`, which it takes if it is behind the end of the directory or free. -/
def takeEntry (k : Nat) (name : List UInt8) (i : Nat) : Call Bool := do
  let s ← get
  let d := s.slot k
  if d.size ≤ direntSize * i then
    edit k fun d => { d with size := direntSize * (i + 1), dirt := true, mtime := s.now }
    putEntry k i fun _ => ⟨0, padName name⟩
    return true
  else if (s.dir d.num i).inode = 0 then
    edit k fun d => { d with mtime := s.now }
    putEntry k i fun _ => ⟨0, padName name⟩
    return true
  else return false

/-- `add_entry` makes the block of entry `i` when it comes to it; the first block is there. -/
def roomAt (k i : Nat) : Call Bool :=
  if i % dirEntriesPerBlock = 0 ∧ i ≠ 0 then createBlock k (i / dirEntriesPerBlock) else pure true

/-- The loop of `add_entry` from entry `i` on; it does not get past the end of the directory, so `n` steps will do. -/
def addEntryFrom (k : Nat) (name : List UInt8) : Nat → Nat → Call (Option Nat)
  | 0, _ => return none
  | n + 1, i => do
    let room ← roomAt k i
    if room then
      let taken ← takeEntry k name i
      if taken then return some i else addEntryFrom k name n (i + 1)
    else return none

def addEntry (k : Nat) (name : List UInt8) : Call (Option Nat) := do
  let i ← inode k
  if name.take nameLen = [] ∨ i.zone 0 = 0 then return none
  else addEntryFrom k name (i.size / direntSize + 2) 0

/-- One turn of the loop of `file_write` at position `pos` with `left` bytes to go: the number of bytes written. -/
def writeBlock (k pos left : Nat) : Call Nat := do
  let room ← createBlock k (pos / 1024)
  if room then
    let c := min (1024 - pos % 1024) left
    let i ← inode k
    if i.size < pos + c then
      edit k fun i => { i with size := pos + c, dirt := true }
      return c
    else return c
  else return 0

/-- The end of `file_write`. -/
def stampWritten (k : Nat) : Call Unit := do
  let s ← get
  edit k fun i => { i with mtime := s.now }

/-- The loop of `file_write`; every turn but the last writes a byte, so `n` turns will do for `n` bytes. -/
def writeFrom (k : Nat) : Nat → Nat → Nat → Call Nat
  | 0, pos, _ => return pos
  | n + 1, pos, left => do
    if left = 0 then return pos
    else
      let c ← writeBlock k pos left
      if c = 0 then return pos else writeFrom k n (pos + c) (left - c)

/-- `file_write`, without the bytes; it returns the position where it ends. -/
def fileWrite (k pos count : Nat) : Call Nat := do
  let pos ← writeFrom k count pos count
  stampWritten k
  return pos

end Vfs

end RheeKernel
