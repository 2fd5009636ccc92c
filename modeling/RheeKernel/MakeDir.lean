import RheeKernel.DirEntries
import RheeKernel.FileTable

namespace RheeKernel

/-- What an inode holds beside its zones and its size, and the users of its slot in the inode table. -/
structure InodeInfo where
  mode : BitVec 16 := 0
  uid : Nat := 0
  gid : Nat := 0
  nlinks : Nat := 0
  count : Nat := 0

/-- A mounted device with its inodes; `imap` is its inode bitmap, of which `imapBlocks` blocks are in memory. -/
structure DirFs where
  dev : Nat
  files : FileSys
  ninodes : Nat
  imapBlocks : Nat
  imap : Nat → Bool
  info : Nat → InodeInfo

/-- A call of `sys_mkdir`: who makes it, the mode, and what the kernel comes upon: what `dir_namei` has found, whether the inode
table has a slot for `get_empty_inode`, and whether the new block can be read. -/
structure MkdirCall where
  cred : Cred
  mode : BitVec 32
  dir : Option Nat
  name : List UInt8
  slot : Bool
  readable : Bool

namespace DirFs

def setFiles (s : DirFs) (files : FileSys) : DirFs := { s with files := files }

def setInfo (s : DirFs) (i : Nat) (f : InodeInfo → InodeInfo) : DirFs := { s with info := Function.update s.info i (f (s.info i)) }

def setLinks (s : DirFs) (i n : Nat) : DirFs := s.setInfo i fun ip => { ip with nlinks := n }

def view (s : DirFs) (i : Nat) : FileInode where
  mode := (s.info i).mode.setWidth 32
  uid := (s.info i).uid
  gid := (s.info i).gid
  dev := s.dev
  nlinks := (s.info i).nlinks
  rdev := (s.files.zones.inode i).zone 0
  pipe := false
  size := s.files.size i
  byte := s.files.byte i

/-- The slot of inode `i` gets new contents: no zones and no bytes. -/
def reset (s : DirFs) (i : Nat) (ip : InodeInfo) : DirFs :=
  { s with
    files := (s.files.setZones s.files.zones.dev i ⟨fun _ => 0⟩).setSize i 0
    info := Function.update s.info i ip }

def setMap (s : DirFs) (i : Nat) (v : Bool) : DirFs := { s with imap := Function.update s.imap i v }

/-- The bit of inode `i` lies in a block of the bitmap that is in memory. -/
def inMap (s : DirFs) (i : Nat) : Bool := i / 8192 < min 8 s.imapBlocks

/-- `free_inode`; `none` is a panic. -/
def freeInode (s : DirFs) (i : Nat) : Option DirFs :=
  if s.dev = 0 then some (s.reset i {})
  else if 1 < (s.info i).count ∨ (s.info i).nlinks ≠ 0 then none
  else if i < 1 ∨ s.ninodes < i then none
  else if s.inMap i = false ∨ s.imap i = false then none
  else some ((s.setMap i false).reset i {})

/-- `truncate`, of regular files and directories only. -/
def truncate (s : DirFs) (i : Nat) : Option DirFs :=
  if (s.view i).isReg = false ∧ (s.view i).isDir = false then some s
  else (truncateFile s.files i).map fun files => s.setFiles files

/-- `iput`; an inode that stays is written back, which changes nothing here. -/
def iput (s : DirFs) (i : Nat) : Option DirFs :=
  if (s.info i).count = 0 then none
  else if s.dev = 0 ∨ 1 < (s.info i).count then some (s.setInfo i fun ip => { ip with count := ip.count - 1 })
  else if (s.info i).nlinks = 0 then (s.truncate i).bind fun s => s.freeInode i
  else some (s.setInfo i fun ip => { ip with count := ip.count - 1 })

/-- The loop of `new_inode` over `s_imap[i]`: it is the one of `new_block`, over the other bitmap. -/
def imapScan (s : DirFs) : Option (Nat × Nat) :=
  zmapScan { s.files.zones.dev with zmap := s.imap, zmapBlocks := s.imapBlocks } zmapSlots 0

/-- `new_inode`; without a slot `get_empty_inode` panics. -/
def newInode (s : DirFs) (slot : Bool) : Option (DirFs × Option Nat) :=
  if slot = false then none
  else match s.imapScan with
    | none => some (s, none)
    | some (i, j) =>
      if s.ninodes < j + i * zmapBits then some (s, none)
      else some ((s.setMap (j + i * zmapBits) true).reset (j + i * zmapBits) { nlinks := 1, count := 1 }, some (j + i * zmapBits))

def setDevice (s : DirFs) (d : Device) : DirFs := s.setFiles { s.files with zones := ⟨d, s.files.zones.inode⟩ }

/-- `free_block` of a block whose buffer nobody holds. -/
def freeZone (s : DirFs) (z : Nat) : Option DirFs := (freeBlock s.files.zones.dev [] z).map fun d => s.setDevice d

/-- The inode goes back to `iput` with `n` links. -/
def giveUp (s : DirFs) (i n : Nat) : Option DirFs := (s.setLinks i n).iput i

/-- A call ends after `iput(dir)`. -/
def leave (s : DirFs) (dir : Nat) (ret : Int) : Option (Int × DirFs) := (s.iput dir).map fun s => (ret, s)

/-- `i_size = 32`, and what `new_block` has come back with as `i_zone[0]`. -/
def firstBlock (s : DirFs) (i : Nat) (d : Device) (z : Nat) : DirFs :=
  s.setFiles ((s.files.setZones d i ⟨Function.update (s.files.zones.inode i).zone 0 z⟩).setSize i 32)

/-- The entries `.` and `..`, the link count and the mode. -/
def fillDir (s : DirFs) (i dir z : Nat) (mode : BitVec 32) : DirFs :=
  (s.setFiles ((((s.files.setInode z 0 i).putBytes z 2 [46, 0]).setInode z 1 dir).putBytes z 18 [46, 46, 0])).setInfo i
    fun ip => { ip with nlinks := 2, mode := (ifdir ||| mode).truncate 16 }

/-- `add_entry` and what follows it; the new directory is inode `i` with block `z`. -/
def enterDir (s : DirFs) (dir i z : Nat) (name : List UInt8) : Option (Int × DirFs) :=
  (s.files.addEntry dir name).bind fun (files, place) =>
    let s := s.setFiles files
    match place with
    | none => (s.iput dir).bind fun s => (s.freeZone z).bind fun s => (s.giveUp i 0).map fun s => (-28, s)
    | some (b, de) =>
      let s := s.setFiles (s.files.setInode b de i)
      ((s.setLinks dir (((s.info dir).nlinks + 1) % 256)).iput dir).bind fun s => (s.iput i).map fun s => (0, s)

/-- What follows `new_inode`, which has found inode number `i`. -/
def makeDir (c : MkdirCall) (s : DirFs) (dir i : Nat) : Option (Int × DirFs) :=
  (newBlock s.files.zones.dev []).bind fun (d, z) =>
    let s := s.firstBlock i d z
    if z = 0 then (s.iput dir).bind fun s => (s.giveUp i (((s.info i).nlinks + 255) % 256)).map fun s => (-28, s)
    else if c.readable = false then
      (s.iput dir).bind fun s => (s.freeZone z).bind fun s => (s.giveUp i (((s.info i).nlinks + 255) % 256)).map fun s => (-99, s)
    else (s.fillDir i dir z (c.mode &&& 0o777 &&& ~~~c.cred.umask)).enterDir dir i z c.name

/-- `sys_mkdir`, from the end of `dir_namei` on; `none` is a panic, or a null pointer in `find_entry`. -/
def sysMkdir (c : MkdirCall) (s : DirFs) : Option (Int × DirFs) :=
  if c.cred.euid ≠ 0 ∧ c.cred.uid ≠ 0 then some (-1, s)
  else match c.dir with
    | none => some (-2, s)
    | some dir =>
      if c.name = [] then s.leave dir (-2)
      else if permission c.cred (s.view dir) mayWrite = 0 then s.leave dir (-1)
      else match s.files.find dir c.name with
        | .error _ => none
        | .ok (some _) => s.leave dir (-17)
        | .ok none =>
          (s.newInode c.slot).bind fun
            | (s, none) => s.leave dir (-28)
            | (s, some i) => makeDir c s dir i

end DirFs

end RheeKernel
