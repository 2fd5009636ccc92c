import RheeKernel.CoreInodes
import RheeKernel.Descriptors

namespace RheeKernel

namespace Vfs

def permission (t k : Nat) (mask : BitVec 32) : Call (BitVec 32) := do
  let s ← get
  return RheeKernel.permission (s.task t).cred (s.slot k).view mask

def cred (t : Nat) : Call Cred := do return ((← get).task t).cred

def editTask (t : Nat) (f : FsTask → FsTask) : Call Unit := modify fun s => { s with task := Function.update s.task t (f (s.task t)) }

def editFile (j : Nat) (f : OpenFile → OpenFile) : Call Unit := modify fun s => { s with file := Function.update s.file j (f (s.file j)) }

/-- The inode number in entry `i` of the directory in slot `k`. -/
def entryInode (k i : Nat) : Call Nat := do
  let s ← get
  return (s.dir (s.slot k).num i).inode

/-- The loop of `get_dir` from slot `k` on; it comes back with the last component. -/
def getDirFrom (t k : Nat) : List (List UInt8) → Call (Option (Nat × List UInt8))
  | [] => do
    iput k
    return none
  | name :: names => do
    let i ← inode k
    let exec ← permission t k mayExec
    if i.isDir = false ∨ exec = 0 then
      iput k
      return none
    else if names = [] then return some (k, name)
    else
      let de ← findEntry k name
      match de with
      | none =>
        iput k
        return none
      | some e =>
        let inr ← entryInode k e
        iput k
        let j ← iget i.dev inr
        getDirFrom t j names

/-- `dir_namei`: the slot of the directory and the name within it. -/
def dirNamei (t : Nat) (pathname : List UInt8) : Call (Option (Nat × List UInt8)) := do
  let s ← get
  match (s.task t).root, (s.task t).pwd with
  | some root, some pwd =>
    if (s.slot root).count = 0 ∨ (s.slot pwd).count = 0 then failure
    else
      match pathname with
      | [] => return none
      | c :: cs =>
        if c = 0 then return none
        else if c = 47 then
          edit root fun i => { i with count := i.count + 1 }
          getDirFrom t root (components cs)
        else
          edit pwd fun i => { i with count := i.count + 1 }
          getDirFrom t pwd (components (c :: cs))
  | _, _ => failure

/-- The end of a look-up: the directory goes back, and the inode that the entry names is taken. -/
def enter (dir e : Nat) : Call Nat := do
  let inr ← entryInode dir e
  let i ← inode dir
  iput dir
  iget i.dev inr

def namei (t : Nat) (pathname : List UInt8) : Call (Option Nat) := do
  let found ← dirNamei t pathname
  match found with
  | none => return none
  | some (dir, basename) =>
    if basename = [] then return some dir
    else
      let de ← findEntry dir basename
      match de with
      | none =>
        iput dir
        return none
      | some e =>
        let k ← enter dir e
        edit k fun i => { i with dirt := true }
        return some k

/-- What `open_namei` does for a name that is not there. -/
def createEntry (t dir : Nat) (basename : List UInt8) (mode : BitVec 32) : Call (Except Int Nat) := do
  let write ← permission t dir mayWrite
  if write = 0 then
    iput dir
    return .error (-13)
  else
    let d ← inode dir
    let new ← newInode d.dev
    match new with
    | none =>
      iput dir
      return .error (-28)
    | some k =>
      edit k fun i => { i with mode := mode.truncate 16, dirt := true }
      let de ← addEntry dir basename
      match de with
      | none =>
        edit k fun i => { i with nlinks := (i.nlinks + 255) % 256 }
        iput k
        iput dir
        return .error (-28)
      | some e =>
        let i ← inode k
        putEntry dir e fun de => { de with inode := i.num }
        iput dir
        return .ok k

def openNamei (t : Nat) (pathname : List UInt8) (flag mode : BitVec 32) : Call (Except Int Nat) := do
  let flag := checkedFlag flag
  let c ← cred t
  let mode := mode &&& 0o777 &&& ~~~c.umask ||| ifreg
  let found ← dirNamei t pathname
  match found with
  | none => return .error (-2)
  | some (dir, basename) =>
    if basename = [] then
      if flag &&& (oAccmode ||| oCreat ||| oTrunc) = 0 then return .ok dir
      else
        iput dir
        return .error (-21)
    else
      let de ← findEntry dir basename
      match de with
      | none =>
        if flag &&& oCreat = 0 then
          iput dir
          return .error (-2)
        else createEntry t dir basename mode
      | some e =>
        if flag &&& oExcl ≠ 0 then
          iput dir
          return .error (-17)
        else
          let k ← enter dir e
          let i ← inode k
          let rights ← permission t k (accMode flag)
          if (i.isDir ∧ flag &&& oAccmode ≠ 0) ∨ rights ≠ accMode flag then
            iput k
            return .error (-1)
          else if flag &&& oTrunc ≠ 0 then
            truncate k
            return .ok k
          else return .ok k

def sysMkdir (t : Nat) (pathname : List UInt8) (mode : BitVec 32) : Call Int := do
  let c ← cred t
  if c.euid ≠ 0 ∧ c.uid ≠ 0 then return -1
  else
    let found ← dirNamei t pathname
    match found with
    | none => return -2
    | some (dir, basename) =>
      if basename = [] then
        iput dir
        return -2
      else
        let write ← permission t dir mayWrite
        if write = 0 then
          iput dir
          return -1
        else
          let de ← findEntry dir basename
          match de with
          | some _ =>
            iput dir
            return -17
          | none =>
            let d ← inode dir
            let new ← newInode d.dev
            match new with
            | none =>
              iput dir
              return -28
            | some k =>
              let s ← get
              edit k fun i => { i with size := 32, dirt := true, mtime := s.now }
              let block ← newBlock
              if block = 0 then
                iput dir
                edit k fun i => { i with nlinks := (i.nlinks + 255) % 256 }
                iput k
                return -28
              else
                edit k fun i => { i with zone := Function.update i.zone 0 block, dirt := true }
                let bh ← answer
                if bh = 0 then
                  iput dir
                  edit k fun i => { i with nlinks := (i.nlinks + 255) % 256 }
                  iput k
                  return -99
                else
                  let i ← inode k
                  putEntry k 0 fun _ => ⟨i.num, padName dotName⟩
                  putEntry k 1 fun _ => ⟨d.num, padName dotdotName⟩
                  edit k fun i => { i with
                    nlinks := 2, mode := (ifdir ||| (mode &&& 0o777 &&& ~~~c.umask)).truncate 16, dirt := true }
                  let de ← addEntry dir basename
                  match de with
                  -- The block is freed here and once more by the `truncate` of `iput`: `free_block` panics.
                  | none => failure
                  | some e =>
                    putEntry dir e fun de => { de with inode := i.num }
                    edit dir fun i => { i with nlinks := (i.nlinks + 1) % 256, dirt := true }
                    iput dir
                    iput k
                    return 0

/-- `empty_dir`: nothing but `.` and `..`. -/
def emptyDir (k : Nat) : Call Bool := do
  let s ← get
  let i := s.slot k
  let len := i.size / direntSize
  return !(len < 2 || i.zone 0 == 0 || (s.dir i.num 0).inode != i.num || (s.dir i.num 1).inode == 0 ||
    !matchName dotName (s.dir i.num 0) || !matchName dotdotName (s.dir i.num 1)) &&
    (Files.firstIndex (fun e => (s.dir i.num e).inode != 0) (len - 2) 2).isNone

def sysRmdir (t : Nat) (name : List UInt8) : Call Int := do
  let c ← cred t
  if c.euid ≠ 0 ∧ c.uid ≠ 0 then return -1
  else
    let found ← dirNamei t name
    match found with
    | none => return -2
    | some (dir, basename) =>
      if basename = [] then
        iput dir
        return -2
      else
        let de ← findEntry dir basename
        match de with
        | none =>
          iput dir
          return -2
        | some e =>
          let write ← permission t dir mayWrite
          if write = 0 then
            iput dir
            return -1
          else
            let d ← inode dir
            let inr ← entryInode dir e
            let k ← iget d.dev inr
            let i ← inode k
            if k = dir then
              iput k
              iput dir
              return -1
            else if i.isDir = false then
              iput k
              iput dir
              return -20
            else
              let empty ← emptyDir k
              if empty = false then
                iput k
                iput dir
                return -39
              else
                putEntry dir e fun de => { de with inode := 0 }
                edit k fun i => { i with nlinks := 0, dirt := true }
                let s ← get
                edit dir fun i => { i with nlinks := (i.nlinks + 255) % 256, mtime := s.now, dirt := true }
                iput dir
                iput k
                return 0

def sysUnlink (t : Nat) (name : List UInt8) : Call Int := do
  let found ← dirNamei t name
  match found with
  | none => return -2
  | some (dir, basename) =>
    if basename = [] then
      iput dir
      return -2
    else
      let write ← permission t dir mayWrite
      if write = 0 then
        iput dir
        return -1
      else
        let de ← findEntry dir basename
        match de with
        | none =>
          iput dir
          return -2
        | some e =>
          let d ← inode dir
          let inr ← entryInode dir e
          let k ← iget d.dev inr
          let i ← inode k
          if i.isReg = false then
            iput k
            iput dir
            return -1
          else
            putEntry dir e fun de => { de with inode := 0 }
            edit k fun i => { i with nlinks := (if i.nlinks = 0 then 1 else i.nlinks) - 1, dirt := true }
            iput k
            iput dir
            return 0

def sysLink (t : Nat) (oldname newname : List UInt8) : Call Int := do
  let old ← namei t oldname
  match old with
  | none => return -2
  | some oldinode =>
    let i ← inode oldinode
    if i.isReg = false then
      iput oldinode
      return -1
    else
      let found ← dirNamei t newname
      match found with
      | none =>
        iput oldinode
        return -13
      | some (dir, basename) =>
        let d ← inode dir
        let i ← inode oldinode
        let write ← permission t dir mayWrite
        if basename = [] then
          iput oldinode
          iput dir
          return -1
        else if d.dev ≠ i.dev then
          iput dir
          iput oldinode
          return -18
        else if write = 0 then
          iput dir
          iput oldinode
          return -13
        else
          let de ← findEntry dir basename
          match de with
          | some _ =>
            iput dir
            iput oldinode
            return -17
          | none =>
            let de ← addEntry dir basename
            match de with
            | none =>
              iput dir
              iput oldinode
              return -28
            | some e =>
              putEntry dir e fun de => { de with inode := i.num }
              iput dir
              edit oldinode fun i => { i with nlinks := (i.nlinks + 1) % 256, dirt := true }
              iput oldinode
              return 0

/-- A call that looks a name up, does something to its inode and gives it back. -/
def onInode (t : Nat) (filename : List UInt8) (error : Int) (f : Nat → Call Int) : Call Int := do
  let found ← namei t filename
  match found with
  | none => return error
  | some k =>
    let r ← f k
    iput k
    return r

def sysStat (t : Nat) (filename : List UInt8) : Call Int := onInode t filename (-2) fun _ => return 0

def sysAccess (t : Nat) (filename : List UInt8) (mode : BitVec 32) : Call Int := do
  let found ← namei t filename
  match found with
  | none => return -13
  | some k =>
    let i ← inode k
    let res := i.view.mode &&& 0o777
    iput k
    -- The owner is read after the inode has been given back.
    let i ← inode k
    let c ← cred t
    let res := if c.euid ≠ 0 ∧ c.uid ≠ 0 then res else if res &&& 0o111 ≠ 0 then 0o777 else 0o666
    let res := if c.euid = i.uid then res >>> 6 else if c.egid = i.gid then res >>> 6 else res
    return if res &&& 7 &&& (mode &&& 7) = mode &&& 7 then 0 else -13

def sysChmod (t : Nat) (filename : List UInt8) (mode : BitVec 32) : Call Int :=
  onInode t filename (-2) fun k => do
    let i ← inode k
    let c ← cred t
    if c.uid ≠ 0 ∧ c.euid ≠ 0 ∧ c.uid ≠ i.uid ∧ c.euid ≠ i.uid then return -13
    else
      let mode := if c.uid ≠ 0 ∧ c.euid ≠ 0 then mode &&& 0o777 ||| (i.view.mode &&& 0o7000) else mode
      edit k fun i => { i with mode := (mode &&& 0o7777 ||| (i.view.mode &&& ~~~0o7777)).truncate 16, dirt := true }
      return 0

def sysChown (t : Nat) (filename : List UInt8) (uid gid : Nat) : Call Int :=
  onInode t filename (-2) fun k => do
    let c ← cred t
    if c.uid ≠ 0 ∧ c.euid ≠ 0 then return -13
    else
      edit k fun i => { i with uid := uid % 65536, gid := gid % 256, dirt := true }
      return 0

/-- With no times given, both are the present. -/
def sysUtime (t : Nat) (filename : List UInt8) (modtime : Option Nat) : Call Int :=
  onInode t filename (-2) fun k => do
    let s ← get
    edit k fun i => { i with mtime := modtime.getD s.now, dirt := true }
    return 0

/-- `iput` of a pointer that may be null. -/
def giveBack : Option Nat → Call Unit
  | none => return ()
  | some k => iput k

def sysChdir (t : Nat) (filename : List UInt8) : Call Int := do
  let found ← namei t filename
  match found with
  | none => return -2
  | some k =>
    let i ← inode k
    if i.isDir = false then
      iput k
      return -20
    else
      let s ← get
      giveBack (s.task t).pwd
      editTask t fun p => { p with pwd := some k }
      return 0

def sysChroot (t : Nat) (filename : List UInt8) : Call Int := do
  let found ← namei t filename
  match found with
  | none => return -2
  | some k =>
    let i ← inode k
    if i.isDir = false then
      iput k
      return -20
    else
      let s ← get
      giveBack (s.task t).root
      editTask t fun p => { p with root := some k }
      return 0

/-- The descriptors and entries, as the calls on them see them. -/
def files (s : Vfs) : Files where
  inode := fun _ => none
  file := s.file
  filp := fun t => (s.task t).filp
  closeOnExec := fun t => (s.task t).closeOnExec
  cred := fun t => (s.task t).cred
  opening := fun _ _ => none

def withFiles (s : Vfs) (f : Files) : Vfs :=
  { s with
    file := f.file
    task := fun t => { s.task t with cred := f.cred t, filp := f.filp t, closeOnExec := f.closeOnExec t } }

/-- A new descriptor `fd` for the inode in slot `k`. -/
def install (t fd j k : Nat) (mode flags : BitVec 16) : Call Unit :=
  modify fun s => s.withFiles ((s.files.setFile j ⟨mode, flags, 1, k, 0⟩).setFilp t fd (some j))

/-- The inode of a successful `sys_open`: a terminal may become the controlling one. -/
def claimTty (t k : Nat) : Call Unit := do
  let i ← inode k
  let c ← cred t
  if i.isChr ∧ i.zone 0 / 256 = 4 ∧ c.leader = true ∧ c.tty < 0 then
    modify fun s => s.withFiles { s.files with cred := Function.update s.files.cred t { c with tty := i.zone 0 % 256 } }
  else return ()

def sysOpen (t : Nat) (filename : List UInt8) (flag mode : BitVec 32) : Call Int := do
  let s ← get
  match Files.firstIndex (fun fd => (s.files.filp t fd).isNone) nrOpen 0 with
  | none => return -22
  | some fd =>
    modify fun s => s.withFiles (s.files.setCloseOnExec t fd false)
    match Files.firstIndex (fun j => (s.file j).count == 0) nrFile 0 with
    | none => return -22
    | some j =>
      let c ← cred t
      let opened ← openNamei t filename flag (mode &&& 0o777 &&& ~~~c.umask)
      match opened with
      | .error e => return e
      | .ok k =>
        let i ← inode k
        if i.isChr ∧ i.zone 0 / 256 = 5 ∧ c.tty < 0 then
          iput k
          return -1
        else
          claimTty t k
          install t fd j k i.mode (flag.truncate 16)
          return fd

/-- The entry of an open descriptor. -/
def openEntry (s : Vfs) (t fd : Nat) : Option Nat := if nrOpen ≤ fd then none else (s.task t).filp fd

/-- `sys_close`: with its last descriptor an open file gives up its inode. -/
def sysClose (t fd : Nat) : Call Int := do
  let s ← get
  match s.files.sysClose t fd with
  | none => failure
  | some (f, r) =>
    modify fun s => s.withFiles f
    match s.openEntry t fd with
    | none => return r
    | some j =>
      if (s.file j).count = 1 then
        iput (s.file j).inode
        return r
      else return r

def sysPipe (t : Nat) : Call Int := do
  let s ← get
  match Files.firstTwo (fun j => (s.file j).count == 0) nrFile, Files.firstTwo (fun fd => (s.files.filp t fd).isNone) nrOpen with
  | some _, some _ =>
    let node ← getPipeInode
    modify fun s => s.withFiles (s.files.sysPipe t node).1
    return if node.isNone then -1 else 0
  | _, _ => return -1

/-- The loops of `do_execve` and `do_exit` over the descriptors below `n`. -/
def closeEach (t : Nat) (p : FsTask → Nat → Bool) : Nat → Call Unit
  | 0 => return ()
  | n + 1 => do
    closeEach t p n
    let s ← get
    if p (s.task t) n then
      let _ ← sysClose t n
      return ()
    else return ()

/-- `do_execve`: the program can be run, the arguments fit (`args`), and the program loads (`loads`), or not. -/
def doExecve (t : Nat) (filename : List UInt8) (args loads : Bool) : Call Int := do
  let found ← namei t filename
  match found with
  | none => return -2
  | some k =>
    let i ← inode k
    let c ← cred t
    let m := i.view.mode
    let m := if c.uid ≠ 0 ∧ c.euid ≠ 0 then (if c.euid = i.uid then m >>> 6 else if c.egid = i.gid then m >>> 3 else m)
      else if m &&& 0o111 ≠ 0 then 1 else m
    if i.isReg = false then
      iput k
      return -13
    else if m &&& 1 = 0 then
      iput k
      return -8
    else
      let bh ← answer
      if bh = 0 then
        iput k
        return -13
      else if args = false then
        iput k
        return -1
      else
        closeEach t (fun p fd => p.closeOnExec fd) nrOpen
        editTask t fun p => { p with closeOnExec := fun _ => false }
        iput k
        return if loads then 0 else -13

def hold : Option Nat → Call Unit
  | none => return ()
  | some k => edit k fun i => { i with count := i.count + 1 }

/-- `copy_process` into the free slot `u` of the task table, if there is memory. -/
def copyProcess (t u : Nat) (memory : Bool) : Call Int := do
  if memory = false then return -11
  else
    let s ← get
    hold (s.task t).pwd
    hold (s.task t).root
    modify fun s => s.withFiles (s.files.forkFiles t u)
    editTask u fun p => { p with live := true, pwd := (s.task t).pwd, root := (s.task t).root }
    return u

def doExit (t : Nat) : Call Int := do
  closeEach t (fun p fd => (p.filp fd).isSome) nrOpen
  let s ← get
  giveBack (s.task t).pwd
  editTask t fun p => { p with pwd := none }
  let s ← get
  giveBack (s.task t).root
  editTask t fun p => { p with root := none, live := false }
  return -1

def sysWrite (t fd : Nat) (count : Nat) : Call Int := do
  let s ← get
  if nrOpen ≤ fd then return -22
  else
    match (s.task t).filp fd with
    | none => return -22
    | some j =>
      let f := s.file j
      let i := s.slot f.inode
      if count = 0 then return 0
      else if i.pipe ∨ i.isReg = false then return -22
      else
        let append := f.flags &&& oAppend.truncate 16 ≠ 0
        let start := if append then i.size else f.pos
        let pos ← fileWrite f.inode start count
        if append then return pos - start
        else
          editFile j fun f => { f with pos := pos }
          return pos - start

/-- `mount_root`, called by process `t`: the root inode is used four times. -/
def mountRoot (t : Nat) : Call Unit := do
  modify fun s => { s with file := fun j => { s.file j with count := 0 } }
  let s ← get
  let k ← iget s.dev 1
  edit k fun i => { i with count := i.count + 3 }
  modify fun s => { s with isup := some k, imount := some k }
  editTask t fun p => { p with pwd := some k, root := some k }

end Vfs

/-- The system calls; with `world`, time goes on and the disk has other answers. -/
inductive VfsEvent
  | sysOpen (t : Nat) (filename : List UInt8) (flag mode : BitVec 32)
  | sysClose (t fd : Nat)
  | sysPipe (t : Nat)
  | sysChdir (t : Nat) (filename : List UInt8)
  | sysChroot (t : Nat) (filename : List UInt8)
  | sysStat (t : Nat) (filename : List UInt8)
  | sysAccess (t : Nat) (filename : List UInt8) (mode : BitVec 32)
  | sysChmod (t : Nat) (filename : List UInt8) (mode : BitVec 32)
  | sysChown (t : Nat) (filename : List UInt8) (uid gid : Nat)
  | sysUtime (t : Nat) (filename : List UInt8) (modtime : Option Nat)
  | sysMkdir (t : Nat) (pathname : List UInt8) (mode : BitVec 32)
  | sysRmdir (t : Nat) (name : List UInt8)
  | sysUnlink (t : Nat) (name : List UInt8)
  | sysLink (t : Nat) (oldname newname : List UInt8)
  | sysWrite (t fd count : Nat)
  | execve (t : Nat) (filename : List UInt8) (args loads : Bool)
  | fork (t u : Nat) (memory : Bool)
  | exit (t : Nat)
  | world (now : Nat) (answers : List Nat)

namespace Vfs

/-- The process that makes a call, and the code of the call; a fork needs a place in the task table besides. -/
def code : VfsEvent → Option (Nat × Call Int)
  | .sysOpen t filename flag mode => some (t, sysOpen t filename flag mode)
  | .sysClose t fd => some (t, sysClose t fd)
  | .sysPipe t => some (t, sysPipe t)
  | .sysChdir t filename => some (t, sysChdir t filename)
  | .sysChroot t filename => some (t, sysChroot t filename)
  | .sysStat t filename => some (t, sysStat t filename)
  | .sysAccess t filename mode => some (t, sysAccess t filename mode)
  | .sysChmod t filename mode => some (t, sysChmod t filename mode)
  | .sysChown t filename uid gid => some (t, sysChown t filename uid gid)
  | .sysUtime t filename modtime => some (t, sysUtime t filename modtime)
  | .sysMkdir t pathname mode => some (t, sysMkdir t pathname mode)
  | .sysRmdir t name => some (t, sysRmdir t name)
  | .sysUnlink t name => some (t, sysUnlink t name)
  | .sysLink t oldname newname => some (t, sysLink t oldname newname)
  | .sysWrite t fd count => some (t, sysWrite t fd count)
  | .execve t filename args loads => some (t, doExecve t filename args loads)
  | .exit t => some (t, doExit t)
  | _ => none

end Vfs

/-- A call of a live process; a fork goes to a free place in the task table. `none` is a panic. -/
def vfsStep (s : Vfs) (e : VfsEvent) : Option Vfs :=
  match e with
  | .world now answers => some { s with now := now, answers := answers }
  | .fork t u memory =>
    if t < nrTasks ∧ (s.task t).live = true ∧ 0 < u ∧ u < nrTasks ∧ (s.task u).live = false then
      (Vfs.copyProcess t u memory s).map Prod.snd
    else none
  | e => (Vfs.code e).bind fun (t, call) => if t < nrTasks ∧ (s.task t).live = true then (call s).map Prod.snd else none

end RheeKernel
