import RheeKernel.HardDisk

namespace RheeKernel

def nrHash : Nat := 307
def nrHd : Nat := 1
def nrBlkDev : Nat := 7

def ushort (n : Nat) : Nat := n % 65536
def uchar (n : Nat) : Nat := n % 256

def hashfn (dev block : Nat) : Nat := (dev ^^^ block) % nrHash

structure HdStruct where
  startSect : Nat
  nrSects : Nat

/-- A request of the disk queue, with the block it was made for. -/
structure IoRequest extends HdRequest where
  dev : Nat
  block : Nat

/-- Whose call of `get_hash_table` or `getblk` it is. -/
inductive Goal
  | hash
  | get
  | read
deriving DecidableEq

inductive LoopAt
  | check
  | wait
  | slot
  | io
deriving DecidableEq

/-- A loop over all buffers in `sync_dev` (of one device) or `sys_sync`. -/
structure Loop where
  dev : Option Nat
  i : Nat
  pos : LoopAt
deriving DecidableEq

/-- Where a task stands in the buffer code. The waits are the places where it can sleep. -/
inductive Pc
  | idle
  | find (g : Goal) (dev block : Nat)
  | hashWait (g : Goal) (dev block i : Nat)
  | scan (g : Goal) (dev block tmp : Nat)
  | scanWait (g : Goal) (dev block tmp : Nat)
  | bufferWait (g : Goal) (dev block : Nat)
  | evict (g : Goal) (dev block tmp : Nat) (l : Loop)
  | reinit (g : Goal) (dev block tmp : Nat)
  | readSlot (i : Nat)
  | readIo (i : Nat)
  | relse (i : Nat)
  | sync (l : Loop)
deriving DecidableEq

/-- A buffer that a call has returned, with the block it stood for; `read` if the call was `bread`. -/
structure Ref where
  bh : Nat
  dev : Nat
  block : Nat
  read : Bool
deriving DecidableEq

structure Task where
  pc : Pc := .idle
  refs : List Ref := []

/-- The buffer cache, the disk with its queue, and the tasks. Each device has its own blocks, of two
sectors each. `stored` is not looked at by the code: the contents last stored for a block. -/
structure Cache where
  bh : Nat → BufferHead
  nrBuffers : Nat
  hashTable : Nat → Option Nat
  freeList : Option Nat
  hd : Nat → HdStruct
  queue : List IoRequest
  port : Sector
  disk : Nat → Nat → Bool → Sector
  stored : Nat → Nat → Bool → Sector
  nrTasks : Nat
  tasks : Nat → Task
  running : Option Nat

def setSector (d : Nat → Nat → Bool → Sector) (dev block : Nat) (second : Bool) (data : Sector) :
    Nat → Nat → Bool → Sector :=
  Function.update d dev (Function.update (d dev) block (Function.update (d dev block) second data))

namespace Cache

def setBh (s : Cache) (i : Nat) (b : BufferHead) : Cache := { s with bh := Function.update s.bh i b }

def setTask (s : Cache) (p : Nat) (t : Task) : Cache := { s with tasks := Function.update s.tasks p t }

def setPc (s : Cache) (p : Nat) (pc : Pc) : Cache := s.setTask p { s.tasks p with pc := pc }

end Cache

/-- A store through a pointer to a head; one through a null pointer touches no head. -/
def Cache.onHead (s : Cache) (a : Option Nat) (f : BufferHead → BufferHead) : Cache :=
  match a with
  | some i => s.setBh i (f (s.bh i))
  | none => s

/-- `none` is the panic over a corrupted list. -/
def removeFromQueues (s : Cache) (i : Nat) : Option Cache :=
  let b := s.bh i
  let k := hashfn b.bDev b.bBlocknr
  let s := s.onHead b.bNext fun h => { h with bPrev := b.bPrev }
  let s := s.onHead b.bPrev fun h => { h with bNext := b.bNext }
  let first := if s.hashTable k = some i then b.bNext else s.hashTable k
  let s := { s with hashTable := Function.update s.hashTable k first }
  if b.bPrevFree = none ∨ b.bNextFree = none then none
  else
    let s := s.onHead b.bPrevFree fun h => { h with bNextFree := b.bNextFree }
    let s := s.onHead b.bNextFree fun h => { h with bPrevFree := b.bPrevFree }
    some { s with freeList := if s.freeList = some i then b.bNextFree else s.freeList }

/-- `none` is the use of a null pointer in the free list. -/
def insertIntoQueues (s : Cache) (i : Nat) : Option Cache :=
  match s.freeList with
  | none => none
  | some f =>
    let last := (s.bh f).bPrevFree
    if last = none then none
    else
      let s := s.onHead (some i) fun h => { h with bNextFree := some f, bPrevFree := last }
      let s := s.onHead last fun h => { h with bNextFree := some i }
      let s := s.onHead (some f) fun h => { h with bPrevFree := some i }
      let s := s.onHead (some i) fun h => { h with bPrev := none, bNext := none }
      let k := hashfn (s.bh i).bDev (s.bh i).bBlocknr
      let first := s.hashTable k
      if (s.bh i).bDev = 0 then some s
      else
        let s := s.onHead (some i) fun h => { h with bNext := first }
        let s := { s with hashTable := Function.update s.hashTable k (some i) }
        some (s.onHead first fun h => { h with bPrev := some i })

def findFrom (s : Cache) (dev block : Nat) : Nat → Option Nat → Option Nat
  | 0, _ => none
  | _ + 1, none => none
  | n + 1, some i =>
    if (s.bh i).bDev = dev ∧ (s.bh i).bBlocknr = block then some i else findFrom s dev block n (s.bh i).bNext

/-- A chain has at most `NR_BUFFERS` nodes. -/
def findBuffer (s : Cache) (dev block : Nat) : Option Nat :=
  findFrom s dev block s.nrBuffers (s.hashTable (hashfn dev block))

inductive LlRw
  | panic
  | ignored
  | started
deriving DecidableEq

/-- What `ll_rw_block` does with a buffer: `rw_hd` returns at once when the block is not on the disk. -/
def llRwBlock (s : Cache) (i : Nat) : LlRw :=
  let major := (s.bh i).bDev / 256
  let dev := (s.bh i).bDev % 256
  if nrBlkDev ≤ major ∨ major ≠ 3 then .panic
  else if 5 * nrHd ≤ dev ∨ (s.hd dev).nrSects < 2 * (s.bh i).bBlocknr + 2 then .ignored
  else .started

def insertAfter (req : IoRequest) (tmp : IoRequest) : List IoRequest → List IoRequest
  | [] => [req]
  | n :: q =>
    if (inOrder tmp.toHdRequest req.toHdRequest || !inOrder tmp.toHdRequest n.toHdRequest) &&
        inOrder req.toHdRequest n.toHdRequest then req :: n :: q
    else n :: insertAfter req n q

def addRequest (req : IoRequest) : List IoRequest → List IoRequest
  | [] => [req]
  | [first] => [first, req]
  | first :: tmp :: q => first :: tmp :: insertAfter req tmp q

namespace Cache

/-- `do_request` for the request that has come to the head: the first half of a write goes to the controller. -/
def issue (s : Cache) : Cache :=
  match s.queue with
  | r :: _ => if r.cmd = .winWrite then { s with port := (s.bh r.bh).dataLo } else s
  | [] => s

def request (s : Cache) (i : Nat) (read : Bool) : IoRequest :=
  let dev := (s.bh i).bDev % 256
  let block := 2 * (s.bh i).bBlocknr + (s.hd dev).startSect
  { fillRequest read (dev / 5) (block % nrSects + 1) (block / nrSects % nrHeads) (block / nrSects / nrHeads) i with
    dev := (s.bh i).bDev
    block := (s.bh i).bBlocknr }

/-- The rest of `rw_abs_hd`, once it has found a slot for the locked buffer. -/
def enqueue (s : Cache) (i : Nat) (read : Bool) : Cache :=
  let t := { s with queue := addRequest (s.request i read) s.queue }
  if s.queue.isEmpty then t.issue else t

def lockBuffer (s : Cache) (i : Nat) : Cache := s.setBh i { s.bh i with bLock := true }

/-- The buffer is returned to the caller of `getblk`, `get_hash_table` or `bread`. -/
def giveRef (s : Cache) (p i : Nat) (read : Bool) : Cache :=
  s.setTask p { pc := .idle, refs := ⟨i, (s.bh i).bDev, (s.bh i).bBlocknr, read⟩ :: (s.tasks p).refs }

/-- `brelse` after its wait. -/
def dropCount (s : Cache) (i : Nat) : Option Cache :=
  if (s.bh i).bCount = 0 then none else some (s.setBh i { s.bh i with bCount := (s.bh i).bCount - 1 })

/-- `getblk` or `get_hash_table` has found its buffer; `bread` goes on to read it. -/
def gotBuffer (s : Cache) (p i : Nat) : Goal → Option Cache
  | .hash => some (s.giveRef p i false)
  | .get => some (s.giveRef p i false)
  | .read =>
    if (s.bh i).bUptodate then some (s.giveRef p i true)
    else match llRwBlock s i with
      | .panic => none
      | .ignored => (s.dropCount i).map fun s => s.setPc p .idle
      | .started => some ((s.lockBuffer i).setPc p (.readSlot i))

/-- A buffer has been chosen for recycling. -/
def take (s : Cache) (p : Nat) (g : Goal) (dev block tmp : Nat) : Option Cache :=
  let s := s.setBh tmp { s.bh tmp with bCount := uchar ((s.bh tmp).bCount + 1) }
  (removeFromQueues s tmp).map fun s =>
    if (s.bh tmp).bDirt then s.setPc p (.evict g dev block tmp ⟨some (s.bh tmp).bDev, 0, .check⟩)
    else s.setPc p (.reinit g dev block tmp)

/-- After the scan. `tmp` is never null, and the sleep on `buffer_wait` is never reached. -/
def scanned (s : Cache) (p : Nat) (g : Goal) (dev block : Nat) : Option Nat → Option Cache
  | none => some (s.setPc p (.bufferWait g dev block))
  | some tmp => s.take p g dev block tmp

/-- `tmp = tmp->b_next_free; while (tmp != free_list)`. -/
def scanNext (s : Cache) (p : Nat) (g : Goal) (dev block tmp : Nat) : Option Cache :=
  match (s.bh tmp).bNextFree with
  | none => none
  | some n => if s.freeList = some n then s.scanned p g dev block (some n) else some (s.setPc p (.scan g dev block n))

/-- The buffer gets its new identity, unless another task has meanwhile loaded the block. -/
def reinit (s : Cache) (p : Nat) (g : Goal) (dev block tmp : Nat) : Option Cache :=
  let s := s.setBh tmp { s.bh tmp with
    bDev := ushort dev, bBlocknr := ushort block, bDirt := false, bUptodate := false }
  match findBuffer s dev block with
  | some _ =>
    let s := s.setBh tmp { s.bh tmp with bDev := 0, bBlocknr := 0, bCount := 0 }
    (insertIntoQueues s tmp).map fun s => s.setPc p (.find g dev block)
  | none => (insertIntoQueues s tmp).bind fun s => s.gotBuffer p tmp g

/-- One step of a loop over the buffers; `inside` is the place of the loop in the code that runs it. -/
def loopStep (s : Cache) (p : Nat) (inside : Loop → Pc) (done : Pc) (l : Loop) : Option Cache :=
  let next := inside { l with i := l.i + 1, pos := .check }
  match l.pos with
  | .check =>
    if s.nrBuffers ≤ l.i then some (s.setPc p done)
    else if l.dev.any fun dev => (s.bh l.i).bDev != dev then some (s.setPc p next)
    else some (s.setPc p (inside { l with pos := .wait }))
  | .wait =>
    if (s.bh l.i).bDirt then
      match llRwBlock s l.i with
      | .panic => none
      | .ignored => some (s.setPc p next)
      | .started => some ((s.lockBuffer l.i).setPc p (inside { l with pos := .slot }))
    else some (s.setPc p next)
  | .slot => some ((s.enqueue l.i false).setPc p (inside { l with pos := .io }))
  | .io => some (s.setPc p next)

def loopBlocked (s : Cache) (l : Loop) : Bool :=
  match l.pos with
  | .check => false
  | .slot => decide (nrRequest ≤ s.queue.length)
  | .wait => (s.bh l.i).bLock
  | .io => (s.bh l.i).bLock

/-- The task sleeps until something changes. -/
def blocked (s : Cache) : Pc → Bool
  | .idle => true
  | .find _ _ _ => false
  | .hashWait _ _ _ i => (s.bh i).bLock
  | .scan _ _ _ _ => false
  | .scanWait _ _ _ tmp => (s.bh tmp).bLock
  | .bufferWait _ _ _ => false
  | .evict _ _ _ _ l => s.loopBlocked l
  | .reinit _ _ _ _ => false
  | .readSlot _ => decide (nrRequest ≤ s.queue.length)
  | .readIo i => (s.bh i).bLock
  | .relse i => (s.bh i).bLock
  | .sync l => s.loopBlocked l

/-- A task goes on to the next place where it may have to wait or where a loop starts over. -/
def advance (s : Cache) (p : Nat) : Option Cache :=
  match (s.tasks p).pc with
  | .idle => none
  | .find g dev block =>
    match findBuffer s dev block with
    | some i =>
      some ((s.setBh i { s.bh i with bCount := uchar ((s.bh i).bCount + 1) }).setPc p (.hashWait g dev block i))
    | none =>
      match g with
      | .hash => some (s.setPc p .idle)
      | _ => s.freeList.map fun tmp => s.setPc p (.scan g dev block tmp)
  | .hashWait g dev block i =>
    if (s.bh i).bDev ≠ dev ∨ (s.bh i).bBlocknr ≠ block then
      (s.dropCount i).map fun s => s.setPc p (.find g dev block)
    else s.gotBuffer p i g
  | .scan g dev block tmp =>
    if (s.bh tmp).bCount = 0 then some (s.setPc p (.scanWait g dev block tmp)) else s.scanNext p g dev block tmp
  | .scanWait g dev block tmp =>
    if (s.bh tmp).bCount = 0 then s.scanned p g dev block (some tmp) else s.scanNext p g dev block tmp
  | .bufferWait g dev block => some (s.setPc p (.find g dev block))
  | .evict g dev block tmp l => s.loopStep p (.evict g dev block tmp) (.reinit g dev block tmp) l
  | .reinit g dev block tmp => s.reinit p g dev block tmp
  | .readSlot i => some ((s.enqueue i true).setPc p (.readIo i))
  | .readIo i =>
    if (s.bh i).bUptodate then some (s.giveRef p i true) else (s.dropCount i).map fun s => s.setPc p .idle
  | .relse i => (s.dropCount i).map fun s => s.setPc p .idle
  | .sync l => s.loopStep p .sync .idle l

/-- The end of a request: its buffer is unlocked and the next one is issued. -/
def endIo (s : Cache) (i : Nat) (b : BufferHead) (q : List IoRequest) : Cache :=
  { s.setBh i { b with bLock := false } with queue := q }.issue

/-- `read_intr` or `write_intr` without an error. -/
def intr (s : Cache) : Option Cache :=
  match s.queue with
  | [] => none
  | r :: q =>
    let b := s.bh r.bh
    let half := { r with nsector := 1 } :: q
    match r.cmd with
    | .winRead =>
      if r.nsector = 2 then
        some { s.setBh r.bh { b with dataLo := s.disk r.dev r.block false } with queue := half }
      else some (s.endIo r.bh { b with dataHi := s.disk r.dev r.block true, bUptodate := true, bDirt := false } q)
    | .winWrite =>
      let s := { s with disk := setSector s.disk r.dev r.block (decide (r.nsector ≠ 2)) s.port }
      if r.nsector = 2 then some { s with port := b.dataHi, queue := half }
      else some (s.endIo r.bh { b with bUptodate := true, bDirt := false } q)
    | .winSpecify => none

/-- `bad_rw_intr` gives up. -/
def intrError (s : Cache) : Option Cache :=
  match s.queue with
  | [] => none
  | r :: q => some (s.endIo r.bh { s.bh r.bh with bUptodate := false } q)

/-- The CPU stays with a task until it has to wait. -/
def settle (s : Cache) (p : Nat) : Cache :=
  { s with running := if s.blocked (s.tasks p).pc then none else some p }

end Cache

inductive CacheOp
  | getHashTable (p dev block : Nat)
  | getblk (p dev block : Nat)
  | bread (p dev block : Nat)
  | brelse (p k : Nat)
  | sysSync (p : Nat)
  | store (p k : Nat) (second : Bool) (data : Sector)
  | run (p : Nat)
  | interrupt
  | ioError

/-- A task that is not in the buffer code calls a function of it. -/
def Cache.call (s : Cache) (p : Nat) (t : Task) : Option Cache :=
  if p < s.nrTasks ∧ s.running = none ∧ (s.tasks p).pc = .idle then some ((s.setTask p t).settle p) else none

def cacheStep (s : Cache) : CacheOp → Option Cache
  | .getHashTable p dev block => s.call p { s.tasks p with pc := .find .hash dev block }
  | .getblk p dev block => s.call p { s.tasks p with pc := .find .get dev block }
  | .bread p dev block => s.call p { s.tasks p with pc := .find .read dev block }
  | .brelse p k =>
    match (s.tasks p).refs[k]? with
    | none => none
    | some r => s.call p { pc := .relse r.bh, refs := (s.tasks p).refs.eraseIdx k }
  | .sysSync p => s.call p { s.tasks p with pc := .sync ⟨none, 0, .check⟩ }
  | .store p k second data =>
    -- the holder of a block changes its data and sets `b_dirt`
    match (s.tasks p).refs[k]? with
    | none => none
    | some r =>
      if r.read then
        let b := { s.bh r.bh with bDirt := true }
        let b := if second then { b with dataHi := data } else { b with dataLo := data }
        let s := { s with stored := setSector s.stored r.dev r.block second data }
        (s.setBh r.bh b).call p (s.tasks p)
      else none
  | .run p =>
    if p < s.nrTasks ∧ (s.running = none ∨ s.running = some p) ∧ s.blocked (s.tasks p).pc = false then
      (s.advance p).map fun s => s.settle p
    else none
  | .interrupt => s.intr
  | .ioError => s.intrError

/-- The heads that `buffer_init` makes, before and after it closes the ring. -/
def initHead (data : Nat → Sector × Sector) (h : Nat) : BufferHead where
  dataLo := (data h).1
  dataHi := (data h).2
  bPrevFree := some (h - 1)
  bNextFree := some (h + 1)

def bufferInit (n : Nat) (tasks : Nat) (hd : Nat → HdStruct) (disk : Nat → Nat → Bool → Sector)
    (data : Nat → Sector × Sector) : Cache :=
  let s : Cache := {
    bh := initHead data
    nrBuffers := n
    hashTable := fun _ => none
    freeList := some 0
    hd := hd
    queue := []
    port := 0
    disk := disk
    stored := disk
    nrTasks := tasks
    tasks := fun _ => {}
    running := none }
  let s := s.setBh 0 { s.bh 0 with bPrevFree := some (n - 1) }
  s.setBh (n - 1) { s.bh (n - 1) with bNextFree := some 0 }

end RheeKernel
