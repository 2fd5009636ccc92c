import RheeKernel.Counting
import RheeKernel.Machine
import RheeKernel.ProcessTree

namespace RheeKernel

def nrOpen : Nat := 20
def nrFile : Nat := 64

def oAccmode : BitVec 32 := 3
def oWronly : BitVec 32 := 1
def oCreat : BitVec 32 := 0o100
def oExcl : BitVec 32 := 0o200
def oTrunc : BitVec 32 := 0o1000
def oAppend : BitVec 32 := 0o2000
def oNonblock : BitVec 32 := 0o4000

def mayWrite : BitVec 32 := 2
def mayRead : BitVec 32 := 4

def ifmt : BitVec 32 := 0o170000
def ifreg : BitVec 32 := 0o100000
def ifblk : BitVec 32 := 0o60000
def ifdir : BitVec 32 := 0o40000
def ifchr : BitVec 32 := 0o20000

/-- An inode as the calls on descriptors see it; `byte` is the file as `bmap` maps it, holes read as 0. -/
structure FileInode where
  mode : BitVec 32
  uid : Nat
  gid : Nat
  dev : Nat
  nlinks : Nat
  rdev : Nat
  pipe : Bool
  size : Nat
  byte : Nat → UInt8

namespace FileInode

def isReg (ip : FileInode) : Bool := ip.mode &&& ifmt == ifreg
def isDir (ip : FileInode) : Bool := ip.mode &&& ifmt == ifdir
def isChr (ip : FileInode) : Bool := ip.mode &&& ifmt == ifchr
def isBlk (ip : FileInode) : Bool := ip.mode &&& ifmt == ifblk

/-- `truncate` as far as the contents go. -/
def truncate (ip : FileInode) : FileInode := if ip.isReg || ip.isDir then { ip with size := 0, byte := fun _ => 0 } else ip

end FileInode

structure Cred where
  uid : Nat
  euid : Nat
  gid : Nat
  egid : Nat
  umask : BitVec 32
  leader : Bool
  tty : Int
  pgrp : Nat

structure OpenFile where
  mode : BitVec 16
  flags : BitVec 16
  count : Nat
  inode : Nat
  pos : Nat

/-- The `sys_open` that a descriptor comes from: its flags, the inode, whether the call made the inode,
and the rights that `permission` gave the caller on it at that time. -/
structure Opening where
  flag : BitVec 32
  inode : Nat
  created : Bool
  rights : BitVec 32

/-- Inodes, `file_table`, and for each task its descriptors; `opening` remembers where each descriptor
comes from and is read by no call. -/
structure Files where
  inode : Nat → Option FileInode
  file : Nat → OpenFile
  filp : Nat → Nat → Option Nat
  closeOnExec : Nat → Nat → Bool
  cred : Nat → Cred
  opening : Nat → Nat → Option Opening

def permission (c : Cred) (ip : FileInode) (mask : BitVec 32) : BitVec 32 :=
  if ip.dev ≠ 0 ∧ ip.nlinks = 0 then 0
  else
    let mode :=
      if c.uid = 0 ∨ c.euid = 0 then (0o777 : BitVec 32)
      else if c.uid = ip.uid ∨ c.euid = ip.uid then ip.mode >>> 6
      else if c.gid = ip.gid ∨ c.egid = ip.gid then ip.mode >>> 3
      else ip.mode
    mode &&& mask &&& 7

/-- `ACC_MODE`: the entry of the string for access mode 3 is the character `\377`, which is -1. -/
def accMode (flag : BitVec 32) : BitVec 32 :=
  if flag &&& oAccmode = 0 then 4
  else if flag &&& oAccmode = 1 then 2
  else if flag &&& oAccmode = 2 then 6
  else -1

/-- The flags that `open_namei` goes by: truncation asks for write access. -/
def checkedFlag (flag : BitVec 32) : BitVec 32 :=
  if flag &&& oTrunc ≠ 0 ∧ flag &&& oAccmode = 0 then flag ||| oWronly else flag

/-- What `dir_namei`, `find_entry` and, for a new name, `new_inode` and `add_entry` come back with. -/
inductive Lookup
  | noDirectory
  | directory (i : Nat)
  | absent (i : Nat) (node : Option Nat) (entry : Bool)
  | present (node : Option Nat)

namespace Files

def setInode (s : Files) (i : Nat) (ip : FileInode) : Files := { s with inode := Function.update s.inode i (some ip) }

def setFile (s : Files) (j : Nat) (f : OpenFile) : Files := { s with file := Function.update s.file j f }

def setFilp (s : Files) (t fd : Nat) (j : Option Nat) : Files :=
  { s with filp := Function.update s.filp t (Function.update (s.filp t) fd j) }

def setOpening (s : Files) (t fd : Nat) (o : Option Opening) : Files :=
  { s with opening := Function.update s.opening t (Function.update (s.opening t) fd o) }

def setCloseOnExec (s : Files) (t fd : Nat) (b : Bool) : Files :=
  { s with closeOnExec := Function.update s.closeOnExec t (Function.update (s.closeOnExec t) fd b) }

/-- A possible outcome of the look-up: directories are directories, a new inode was free. -/
def LookupOk (s : Files) : Lookup → Prop
  | .noDirectory => True
  | .directory i => (s.inode i).any FileInode.isDir = true
  | .absent i node _ => (s.inode i).any FileInode.isDir = true ∧ ∀ k ∈ node, s.inode k = none
  | .present node => ∀ k ∈ node, s.inode k ≠ none

/-- `open_namei`: the inode and the state, or an error. -/
def openNamei (s : Files) (t : Nat) (l : Lookup) (flag mode : BitVec 32) : Files × Except Int (Nat × Opening) :=
  let acc := checkedFlag flag
  let mode := mode &&& 0o777 &&& ~~~(s.cred t).umask ||| ifreg
  match l with
  | .noDirectory => (s, .error (-2))
  | .directory i =>
    if acc &&& (oAccmode ||| oCreat ||| oTrunc) = 0 then (s, .ok (i, ⟨flag, i, false, 0⟩)) else (s, .error (-21))
  | .absent i node entry =>
    if acc &&& oCreat = 0 then (s, .error (-2))
    else if (s.inode i).any fun dir => permission (s.cred t) dir mayWrite == 0 then (s, .error (-13))
    else
      match node with
      | none => (s, .error (-28))
      | some k =>
        -- Without room for the entry the new inode goes back to where it came from.
        if ¬ entry then (s, .error (-28))
        else
          let ip : FileInode := ⟨mode, 0, 0, (s.inode i).elim 0 FileInode.dev, 1, 0, false, 0, fun _ => 0⟩
          (s.setInode k ip, .ok (k, ⟨flag, k, true, permission (s.cred t) ip 7⟩))
  | .present node =>
    if acc &&& oExcl ≠ 0 then (s, .error (-17))
    else
      match node.bind fun k => (s.inode k).map fun ip => (k, ip) with
      | none => (s, .error (-13))
      | some (k, ip) =>
        if (ip.isDir ∧ acc &&& oAccmode ≠ 0) ∨ permission (s.cred t) ip (accMode acc) ≠ accMode acc then (s, .error (-1))
        else (if acc &&& oTrunc ≠ 0 then s.setInode k ip.truncate else s,
          .ok (k, ⟨flag, k, false, permission (s.cred t) ip 7⟩))

/-- The first index from `i` on, among `n`, for which the test holds. -/
def firstIndex (p : Nat → Bool) : Nat → Nat → Option Nat
  | 0, _ => none
  | n + 1, i => if p i then some i else firstIndex p n (i + 1)

/-- Opening a terminal may give a session leader its controlling one. -/
def claimTty (s : Files) (t : Nat) (ip : FileInode) : Files :=
  if ip.isChr ∧ ip.rdev / 256 = 4 ∧ (s.cred t).leader = true ∧ (s.cred t).tty < 0 then
    { s with cred := Function.update s.cred t { s.cred t with tty := ip.rdev % 256 } }
  else s

def sysOpen (s : Files) (t : Nat) (l : Lookup) (flag mode : BitVec 32) : Files × Int :=
  match firstIndex (fun fd => (s.filp t fd).isNone) nrOpen 0 with
  | none => (s, -22)
  | some fd =>
    let s := s.setCloseOnExec t fd false
    match firstIndex (fun j => (s.file j).count == 0) nrFile 0 with
    | none => (s, -22)
    | some j =>
      match s.openNamei t l flag (mode &&& 0o777 &&& ~~~(s.cred t).umask) with
      | (s, .error e) => (s, e)
      | (s, .ok (i, o)) =>
        match s.inode i with
        | none => (s, -13)
        | some ip =>
          if ip.isChr ∧ ip.rdev / 256 = 5 ∧ (s.cred t).tty < 0 then (s, -1)
          else
            let s := s.claimTty t ip
            (((s.setFile j ⟨ip.mode.truncate 16, flag.truncate 16, 1, i, 0⟩).setFilp t fd (some j)).setOpening t fd (some o), fd)

/-- `none` is a panic. -/
def sysClose (s : Files) (t fd : Nat) : Option (Files × Int) :=
  if nrOpen ≤ fd then some (s, -22)
  else
    let s := s.setCloseOnExec t fd false
    match s.filp t fd with
    | none => some (s, -22)
    | some j =>
      if (s.file j).count = 0 then none
      else some (((s.setFilp t fd none).setOpening t fd none).setFile j { s.file j with count := (s.file j).count - 1 }, 0)

def dupfd (s : Files) (t fd arg : Nat) : Files × Int :=
  if nrOpen ≤ fd then (s, -9)
  else
    match s.filp t fd with
    | none => (s, -9)
    | some j =>
      if nrOpen ≤ arg then (s, -22)
      else
        match firstIndex (fun k => (s.filp t k).isNone) (nrOpen - arg) arg with
        | none => (s, -24)
        | some k =>
          ((((s.setCloseOnExec t k false).setFilp t k (some j)).setOpening t k (s.opening t fd)).setFile j
            { s.file j with count := (s.file j).count + 1 }, k)

def sysDup (s : Files) (t fildes : Nat) : Files × Int := s.dupfd t fildes 0

def sysDup2 (s : Files) (t oldfd newfd : Nat) : Option (Files × Int) :=
  (s.sysClose t newfd).map fun (s, _) => s.dupfd t oldfd newfd

def sysFcntl (s : Files) (t fd cmd : Nat) (arg : BitVec 32) : Files × Int :=
  if nrOpen ≤ fd then (s, -9)
  else
    match s.filp t fd with
    | none => (s, -9)
    | some j =>
      match cmd with
      | 0 => s.dupfd t fd arg.toNat
      | 1 => (s, if s.closeOnExec t fd then 1 else 0)
      | 2 => (s.setCloseOnExec t fd (arg &&& 1 != 0), 0)
      | 3 => (s, (s.file j).flags.toNat)
      | 4 =>
        let mask : BitVec 16 := (oAppend ||| oNonblock).truncate 16
        (s.setFile j { s.file j with flags := (s.file j).flags &&& ~~~mask ||| (arg.truncate 16 &&& mask) }, 0)
      | _ => (s, -1)

/-- The loop of `copy_process` that counts the inherited descriptors. -/
def inherit (s : Files) (t : Nat) : Nat → Files
  | 0 => s
  | n + 1 =>
    let s := s.inherit t n
    match s.filp t n with
    | none => s
    | some j => s.setFile j { s.file j with count := (s.file j).count + 1 }

/-- A successful fork, as far as descriptors go. -/
def forkFiles (s : Files) (t u : Nat) : Files :=
  let s := s.inherit t nrOpen
  { s with
    filp := Function.update s.filp u (s.filp t)
    closeOnExec := Function.update s.closeOnExec u (s.closeOnExec t)
    cred := Function.update s.cred u { s.cred t with leader := false }
    opening := Function.update s.opening u (s.opening t) }

/-- The descriptor of a task as `sys_read` and `sys_write` take it: entry number, entry and inode. -/
def descriptor (s : Files) (t fd : Nat) : Option (Nat × OpenFile × FileInode) :=
  if nrOpen ≤ fd then none
  else (s.filp t fd).bind fun j => (s.inode (s.file j).inode).map fun ip => (j, s.file j, ip)

/-- `sys_read` on a regular file or a directory: the bytes put into the caller's buffer. The disk
delivers at most `avail` bytes before an error; terminals, disks and pipes are none of this model's files. -/
def sysRead (s : Files) (t fd : Nat) (count : Int) (avail : Nat) : Files × List UInt8 :=
  if count ≤ 0 then (s, [])
  else
    match s.descriptor t fd with
    | none => (s, [])
    | some (j, f, ip) =>
      if ip.pipe ∨ ip.isChr ∨ ip.isBlk ∨ ¬ (ip.isDir ∨ ip.isReg) then (s, [])
      else
        let count := if count + f.pos > ip.size then (ip.size : Int) - f.pos else count
        if count ≤ 0 then (s, [])
        else
          let n := min count.toNat avail
          (s.setFile j { f with pos := f.pos + n }, (List.range n).map fun k => ip.byte (f.pos + k))

/-- `sys_write` on a regular file; `avail` bytes of it find a block. -/
def sysWrite (s : Files) (t fd : Nat) (buf : Nat → UInt8) (count : Int) (avail : Nat) : Files :=
  if count ≤ 0 then s
  else
    match s.descriptor t fd with
    | none => s
    | some (j, f, ip) =>
      if ip.pipe ∨ ip.isChr ∨ ip.isBlk ∨ ¬ ip.isReg then s
      else
        let append := f.flags &&& oAppend.truncate 16 ≠ 0
        let pos := if append then ip.size else f.pos
        let n := min count.toNat avail
        let ip' := { ip with
          size := max ip.size (if n = 0 then 0 else pos + n)
          byte := fun k => if pos ≤ k ∧ k < pos + n then buf (k - pos) else ip.byte k }
        (s.setInode f.inode ip').setFile j (if append then f else { f with pos := pos + n })

end Files

inductive FileEvent
  | sysOpen (t : Nat) (l : Lookup) (flag mode : BitVec 32)
  | sysClose (t fd : Nat)
  | sysDup (t fd : Nat)
  | sysDup2 (t oldfd newfd : Nat)
  | sysFcntl (t fd cmd : Nat) (arg : BitVec 32)
  | fork (t u : Nat)
  | sysRead (t fd : Nat) (count : Int) (avail : Nat)
  | sysWrite (t fd : Nat) (buf : Nat → UInt8) (count : Int) (avail : Nat)

namespace Files

instance {s : Files} {l : Lookup} : Decidable (s.LookupOk l) :=
  match l with
  | .noDirectory => isTrue trivial
  | .directory i => inferInstanceAs (Decidable ((s.inode i).any FileInode.isDir = true))
  | .absent i none _ => decidable_of_iff ((s.inode i).any FileInode.isDir = true) (by simp [LookupOk])
  | .absent i (some k) _ =>
    decidable_of_iff ((s.inode i).any FileInode.isDir = true ∧ (s.inode k).isNone = true) (by simp [LookupOk])
  | .present none => isTrue (by simp [LookupOk])
  | .present (some k) => decidable_of_iff ((s.inode k).isSome = true) (by simp [LookupOk, Option.isSome_iff_ne_none])

/-- A free slot of the task table holds no descriptors. -/
def NoDescriptors (s : Files) (u : Nat) : Prop := ∀ fd < nrOpen, s.filp u fd = none

instance {s : Files} {u : Nat} : Decidable (s.NoDescriptors u) := inferInstanceAs (Decidable (∀ fd < nrOpen, _))

end Files

def fileStep (s : Files) : FileEvent → Option Files
  | .sysOpen t l flag mode => if t < nrTasks ∧ s.LookupOk l then some (s.sysOpen t l flag mode).1 else none
  | .sysClose t fd => if t < nrTasks then (s.sysClose t fd).map Prod.fst else none
  | .sysDup t fd => if t < nrTasks then some (s.sysDup t fd).1 else none
  | .sysDup2 t oldfd newfd => if t < nrTasks then (s.sysDup2 t oldfd newfd).map Prod.fst else none
  | .sysFcntl t fd cmd arg => if t < nrTasks then some (s.sysFcntl t fd cmd arg).1 else none
  | .fork t u => if t < nrTasks ∧ u < nrTasks ∧ s.NoDescriptors u then some (s.forkFiles t u) else none
  | .sysRead t fd count avail => if t < nrTasks then some (s.sysRead t fd count avail).1 else none
  | .sysWrite t fd buf count avail => if t < nrTasks then some (s.sysWrite t fd buf count avail) else none

/-- Any inodes and any credentials, every descriptor closed. -/
def fileInit (inode : Nat → Option FileInode) (cred : Nat → Cred) : Files where
  inode := inode
  file := fun _ => ⟨0, 0, 0, 0, 0⟩
  filp := fun _ _ => none
  closeOnExec := fun _ _ => false
  cred := cred
  opening := fun _ _ => none

end RheeKernel
