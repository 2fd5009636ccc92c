import RheeKernel.MemoryFrames

namespace RheeKernel

/-- What a system call does to memory on the caller's behalf: a page checked by `verify_area`, or a
byte stored through `%fs` at an offset of the data segment. -/
inductive Access
  | verify (address : Nat)
  | put (addr : Nat) (v : Byte)

/-- The loop of `verify_area`, `n` rounds of it. -/
def verifyPages : Nat → Nat → List Access
  | 0, _ => []
  | n + 1, start => .verify start :: verifyPages n ((start + 4096) % 2 ^ 32)

/-- `size` is an `int`: where adding the offset in the page overflows it, the loop is not entered. -/
def verifyArea (base addr size : Nat) : List Access :=
  let rounds := (BitVec.ofNat 32 (size + addr % 4096)).toInt
  verifyPages ((rounds.toNat + 4095) / 4096) ((addr - addr % 4096 + base) % 2 ^ 32)

/-- Bytes `f 0, .., f (n - 1)` from `addr` on. -/
def putFs (addr n : Nat) (f : Nat → Byte) : List Access :=
  (List.range n).map fun i => .put ((addr + i) % 2 ^ 32) (f i)

def putFsByte (v : Byte) (addr : Nat) : List Access := putFs addr 1 fun _ => v
def putFsWord (w : BitVec 16) (addr : Nat) : List Access := putFs addr 2 fun i => w.extractLsb' (8 * i) 8
def putFsLong (w : Word) (addr : Nat) : List Access := putFs addr 4 fun i => w.extractLsb' (8 * i) 8

/-- A directory entry; `name` is its 14 bytes. -/
structure DirEntry where
  inode : BitVec 16
  name : List Byte

/-- `data` is what the pipe, terminal, device or file has to give, from its position on. -/
def sysRead (base buf : Nat) (count : Word) (data : List Byte) : List Access :=
  if count.toInt < 0 then []
  else if count = 0#32 then []
  else verifyArea base buf count.toNat ++ putFs buf (min count.toNat data.length) fun i => data.getD i 0#8

/-- `fd` is `none` where the call returns -1 before it has two descriptors. -/
def sysPipe (fildes : Nat) : Option (Word × Word) → List Access
  | none => []
  | some fd => putFsLong fd.1 fildes ++ putFsLong fd.2 (fildes + 4)

/-- `code` is the exit code of a zombie child that was found. -/
def sysWaitpid (base statAddr : Nat) (code : Option Word) : List Access :=
  verifyArea base statAddr 4 ++ (match code with
    | none => []
    | some w => putFsLong w statAddr)

def sizeofStat : Nat := 64
def sizeofStat64 : Nat := 96
def sizeofDirent : Nat := 268
def sizeofDirent64 : Nat := 276
def sizeofUtsname : Nat := 390
def sizeofTms : Nat := 16
def sizeofTermios : Nat := 36
def sizeofTermio : Nat := 18

/-- `verify_area` and a structure copied byte by byte, as `cp_stat`, `cp_stat64`, `sys_uname`, `get_termios` and
`get_termio` do. -/
def copyStruct (base addr size : Nat) (tmp : Nat → Byte) : List Access :=
  verifyArea base addr size ++ putFs addr size tmp

/-- `inode` is whether the file was found. -/
def sysStat (base statbuf : Nat) (inode : Bool) (tmp : Nat → Byte) : List Access :=
  if inode then copyStruct base statbuf sizeofStat tmp else []

def sysStat64 (base statbuf : Nat) (inode : Bool) (tmp : Nat → Byte) : List Access :=
  if inode then copyStruct base statbuf sizeofStat64 tmp else []

/-- The name is stored before the entry is known to have one; an entry without a name is passed over. -/
def minixGetdents (dirp dName dReclen : Nat) : List DirEntry → List Access
  | [] => []
  | de :: rest =>
    if de.inode = 0#16 then minixGetdents dirp dName dReclen rest
    else
      let name := (de.name.take 14).takeWhile (· ≠ 0#8)
      let i := name.length
      if i = 0 then minixGetdents dirp dName dReclen rest
      else
        putFs (dirp + dName) i (fun k => name.getD k 0#8) ++ putFsLong (de.inode.setWidth 32) dirp ++
          putFsByte 0#8 (dirp + dName + i) ++ putFsWord (BitVec.ofNat 16 i) (dirp + dReclen)

/-- `file` is whether the descriptor is open, `dir` what is left of the directory, if it is one. -/
def sysGetdents (base dirp : Nat) (file : Bool) (dir : Option (List DirEntry)) : List Access :=
  if file then verifyArea base dirp sizeofDirent ++ (match dir with
    | none => []
    | some entries => minixGetdents dirp 10 8 entries)
  else []

def sysGetdents64 (base dirp : Nat) (file : Bool) (dir : Option (List DirEntry)) : List Access :=
  if file then verifyArea base dirp sizeofDirent64 ++ (match dir with
    | none => []
    | some entries => minixGetdents dirp 19 16 entries)
  else []

def sysUname (base name : Nat) (thisname : Nat → Byte) : List Access :=
  if name = 0 then [] else copyStruct base name sizeofUtsname thisname

def sysTimes (base tbuf : Nat) (utime stime cutime cstime : Word) : List Access :=
  if tbuf = 0 then []
  else verifyArea base tbuf sizeofTms ++ (putFsLong utime tbuf ++ putFsLong stime (tbuf + 4) ++
    putFsLong cutime (tbuf + 8) ++ putFsLong cstime (tbuf + 12))

def sysTime (base tloc : Nat) (i : Word) : List Access :=
  if tloc = 0 then [] else verifyArea base tloc 4 ++ putFsLong i tloc

/-- The requests of `tty_ioctl` that store into the caller's memory, by their numbers. -/
def ttyIoctl (base cmd arg : Nat) (termios termio : Nat → Byte) (pgrp chars : Word) : List Access :=
  if cmd = 0x5401 then copyStruct base arg sizeofTermios termios
  else if cmd = 0x5405 then copyStruct base arg sizeofTermio termio
  else if cmd = 0x540f then verifyArea base arg 4 ++ putFsLong pgrp arg
  else if cmd = 0x5411 then verifyArea base arg 4 ++ putFsLong chars arg
  else []

/-- The system calls that store into the caller's data segment, with what the rest of the kernel
answers them. -/
inductive SystemCall
  | read (buf : Nat) (count : Word) (data : List Byte)
  | pipe (fildes : Nat) (fd : Option (Word × Word))
  | waitpid (statAddr : Nat) (code : Option Word)
  | stat (statbuf : Nat) (inode : Bool) (tmp : Nat → Byte)
  | stat64 (statbuf : Nat) (inode : Bool) (tmp : Nat → Byte)
  | getdents (dirp : Nat) (file : Bool) (dir : Option (List DirEntry))
  | getdents64 (dirp : Nat) (file : Bool) (dir : Option (List DirEntry))
  | uname (name : Nat) (thisname : Nat → Byte)
  | times (tbuf : Nat) (utime stime cutime cstime : Word)
  | time (tloc : Nat) (i : Word)
  | ttyIoctl (cmd arg : Nat) (termios termio : Nat → Byte) (pgrp chars : Word)

def SystemCall.accesses (base : Nat) : SystemCall → List Access
  | .read buf count data => sysRead base buf count data
  | .pipe fildes fd => sysPipe fildes fd
  | .waitpid statAddr code => sysWaitpid base statAddr code
  | .stat statbuf inode tmp => sysStat base statbuf inode tmp
  | .stat64 statbuf inode tmp => sysStat64 base statbuf inode tmp
  | .getdents dirp file dir => sysGetdents base dirp file dir
  | .getdents64 dirp file dir => sysGetdents64 base dirp file dir
  | .uname name thisname => sysUname base name thisname
  | .times tbuf utime stime cutime cstime => sysTimes base tbuf utime stime cutime cstime
  | .time tloc i => sysTime base tloc i
  | .ttyIoctl cmd arg termios termio pgrp chars => RheeKernel.ttyIoctl base cmd arg termios termio pgrp chars

/-- `none` where the source calls `do_exit(SIGSEGV)`. -/
def writeVerify (s : Mm) (address : Nat) : Option Mm :=
  let page := s.mem 0 (dirOf address)
  if present page then
    let entry := s.mem (pageAddr page) (slotOf address)
    if present entry ∧ ¬ writable entry then unWpPage s (pageAddr page) (slotOf address) else some s
  else some s

/-- A store of the kernel: it faults on an absent page, but `head.s` leaves `CR0.WP` clear and the
read-only bit of a present one is not looked at. -/
def kernelPut (s : Mm) (address : Nat) (v : Byte) : Option Mm :=
  (faultIn s address).map fun s =>
    s.setPage (pageAddr (s.entry address)) (writeByte (s.mem (pageAddr (s.entry address))) (address % 4096) v)

/-- Task `t` has the linear addresses from here on. -/
def taskBase (t : Nat) : Nat := t * 0x4000000

/-- Beyond the limit of the segment a store is a fault and the process is gone. -/
def accessStep (t limit : Nat) (s : Mm) : Access → Option Mm
  | .verify address => writeVerify s address
  | .put addr v => if addr < limit then kernelPut s (taskBase t + addr) v else none

/-- Memory, and for each task what is left to do of the system call it is in, with the limit of its
data segment. -/
structure CallSys where
  mm : Mm
  calls : Nat → List Access
  limit : Nat → Nat

inductive CallEvent
  | user (t : Nat) (op : UserOp)
  | enter (t limit : Nat) (call : SystemCall)
  | access (t : Nat)

/-- Tasks do their user steps and the accesses of their system calls in any order. -/
def callStep (s : CallSys) : CallEvent → Option CallSys
  | .user _ op => (cowStep s.mm op).map fun mm => { s with mm := mm }
  | .enter t limit call =>
    some { s with calls := Function.update s.calls t (call.accesses (taskBase t)), limit := Function.update s.limit t limit }
  | .access t =>
    match s.calls t with
    | [] => none
    | a :: rest => (accessStep t (s.limit t) s.mm a).map fun mm =>
      { s with mm := mm, calls := Function.update s.calls t rest }

/-- The user steps of task `t`: on its own addresses, and a fork into the addresses of a task slot that is in no
system call. -/
def UserOp.By (s : CallSys) (t : Nat) : UserOp → Prop
  | .fork src dst _ => src = taskBase t ∧ ∃ u < 64, s.calls u = [] ∧ dst = taskBase u
  | .exit base size => base = taskBase t ∧ size ≤ 0x4000000
  | .touch address => address / 0x4000000 = t
  | .load address => address / 0x4000000 = t
  | .store address _ => address / 0x4000000 = t

def CallEvent.Allowed (s : CallSys) : CallEvent → Prop
  | .user t op => s.calls t = [] ∧ op.Allowed s.mm ∧ op.By s t
  | .enter t limit _ => (0 < t ∧ t < 64) ∧ limit ≤ 0x4000000 ∧ s.calls t = []
  | .access _ => True

def bootCalls (ram : Nat → Nat → Word) : CallSys := ⟨bootMm ram, fun _ => [], fun _ => 0⟩

/-- Page `p` of linear memory is absent, or the process it belongs to may write it. -/
def Mm.PrivatePage (s : Mm) (p : Nat) : Prop :=
  present (s.entry (4096 * p)) = false ∨ writable (s.entry (4096 * p)) = true

/-- Directory slots of task `t`. -/
def TaskSlots (t e : Nat) : Prop := 16 * t ≤ e ∧ e < 16 * t + 16

/-- What other processes than task `t` read is as before. Page 0 is the page directory, which the kernel itself
writes: what a process reads there is left out. -/
def Mm.SameElsewhere (t : Nat) (s s' : Mm) : Prop :=
  ∀ e ∈ userDirs, ¬ TaskSlots t e → ∀ j ∈ slots, (∀ p, s.space e j = some (.kernel p) → p ≠ 0) →
    cellContents s'.mem (s'.space e j) = cellContents s.mem (s.space e j)

/-- A store goes to a page that is not shared. -/
def Access.Private (t limit : Nat) (s : Mm) : Access → Prop
  | .verify _ => True
  | .put addr _ => addr < limit → s.PrivatePage ((taskBase t + addr) / 4096)

/-- Copy-on-write isolation of the system calls under way: the next access of each stores to an unshared page only, and
nobody else's memory changes by it. -/
def CallSys.Isolated (s : CallSys) : Prop :=
  ∀ t a rest, s.calls t = a :: rest → a.Private t (s.limit t) s.mm ∧
    ∀ mm, accessStep t (s.limit t) s.mm a = some mm → Mm.SameElsewhere t s.mm mm

/-- All of a system call with nobody else running. -/
def runAccesses (t limit : Nat) (s : Mm) : List Access → Option Mm
  | [] => some s
  | a :: l => (accessStep t limit s a).bind fun s' => runAccesses t limit s' l

/-- In that run every store goes to an unshared page. -/
def PrivateRun (t limit : Nat) (s : Mm) : List Access → Prop
  | [] => True
  | a :: l => a.Private t limit s ∧ ∀ s', accessStep t limit s a = some s' → PrivateRun t limit s' l

/-- The bytes from offset `addr` on lie on unshared pages of task `t`. -/
def Mm.PrivateBytes (s : Mm) (t limit addr n : Nat) : Prop :=
  ∀ i < n, (addr + i) % 2 ^ 32 < limit → s.PrivatePage ((taskBase t + (addr + i) % 2 ^ 32) / 4096)

/-- Where a system call stores without checking its pages, they must not be shared when it begins. -/
def SystemCall.Checked (t limit : Nat) (s : Mm) : SystemCall → Prop
  | .read buf count data =>
    0 < count.toInt → count.toNat + buf % 4096 < 2 ^ 31 ∨ s.PrivateBytes t limit buf (min count.toNat data.length)
  | .pipe fildes fd => fd.isSome = true → s.PrivateBytes t limit fildes 8
  | _ => True

def CallEvent.Checked (s : CallSys) : CallEvent → Prop
  | .enter t limit call => call.Checked t limit s.mm
  | _ => True

end RheeKernel
