import RheeKernel.Machine
import Mathlib.Data.List.Count
import Mathlib.Logic.Function.Basic

namespace RheeKernel

def nrInode : Nat := 32

/-- A slot of `inode_table`. -/
structure InodeSlot where
  dev : Nat := 0
  num : Nat := 0
  count : Nat := 0
  nlinks : Nat := 0
  lock : Bool := false
  dirt : Bool := false
deriving DecidableEq

/-- A reference: a process, the slot it has counted and the inode it has it for; device 0 for a slot fresh from
`get_empty_inode`. -/
structure InodeRef where
  proc : Nat
  slot : Nat
  dev : Nat
  num : Nat
deriving DecidableEq

/-- What a process takes an empty slot for: a call of `iget`, or one of `new_inode` that has found this number free. -/
structure Want where
  dev : Nat
  num : Nat
  fresh : Bool
deriving DecidableEq

/-- Where a process sleeps: in `wait_on_inode` or in the `bread` of `write_inode` called from `get_empty_inode`, in `wait_on_inode`
of `iget`, in the `bread` of `read_inode`, in `wait_on_inode`, `write_inode` or `truncate` called from `iput`. -/
inductive InodePc
  | idle
  | waitEmpty (w : Want) (k : Nat)
  | writeEmpty (w : Want) (k : Nat)
  | waitMatch (w : Want) (e j : Nat)
  | reading (r : InodeRef)
  | waitPut (r : InodeRef)
  | writePut (r : InodeRef)
  | truncating (r : InodeRef)
deriving DecidableEq

/-- The inode table, the link counts on disk by device and number, what each process does, and the references that have
been counted and not yet been given back. -/
structure InodeSys where
  slot : Nat → InodeSlot
  last : Nat
  disk : Nat → Nat → Nat
  pc : Nat → InodePc
  refs : List InodeRef

namespace InodeSys

def setSlot (s : InodeSys) (k : Nat) (i : InodeSlot) : InodeSys := { s with slot := Function.update s.slot k i }

def setPc (s : InodeSys) (p : Nat) (c : InodePc) : InodeSys := { s with pc := Function.update s.pc p c }

def lockInode (s : InodeSys) (k : Nat) : InodeSys := s.setSlot k { s.slot k with lock := true }

/-- The end of `write_inode`: the inode is stored, clean and unlocked. -/
def wroteInode (s : InodeSys) (k : Nat) : InodeSys :=
  { s with disk := Function.update s.disk (s.slot k).dev (Function.update (s.disk (s.slot k).dev) (s.slot k).num (s.slot k).nlinks) }.setSlot
    k { s.slot k with dirt := false, lock := false }

/-- The end of `read_inode`. -/
def readInode (s : InodeSys) (k : Nat) : InodeSys :=
  s.setSlot k { s.slot k with nlinks := s.disk (s.slot k).dev (s.slot k).num, lock := false }

/-- The scan of `get_empty_inode`, from the slot where the last one stopped. -/
def scanEmpty (s : InodeSys) : Option Nat :=
  ((List.range nrInode).map fun i => (s.last + i) % nrInode).find? fun k => (s.slot k).count == 0

/-- The search of `iget`. -/
def findInode (s : InodeSys) (dev num : Nat) : Option Nat :=
  (List.range nrInode).find? fun k => (s.slot k).dev == dev && (s.slot k).num == num

end InodeSys

/-- How a stretch of `get_empty_inode` without sleep ends: asleep in `wait_on_inode` or in `write_inode`, with a slot in
hand, or with the panic for want of one. -/
inductive EmptyOutcome
  | waits (s : InodeSys) (k : Nat)
  | writes (s : InodeSys) (k : Nat)
  | got (s : InodeSys) (k : Nat)
  | panics

namespace InodeSys

/-- Slot `k` is unlocked: it is written if it is dirty, else handed out. -/
def emptyFound (s : InodeSys) (k : Nat) : EmptyOutcome :=
  if (s.slot k).dirt then .writes (s.lockInode k) k else .got (s.setSlot k { count := 1 }) k

def emptyScan (s : InodeSys) : EmptyOutcome :=
  match s.scanEmpty with
  | none => .panics
  | some k =>
    let s := { s with last := k }
    if (s.slot k).lock then .waits s k else s.emptyFound k

/-- After `wait_on_inode`: a slot that somebody has taken up is written nevertheless, but not handed out. -/
def emptyWaited (s : InodeSys) (k : Nat) : EmptyOutcome :=
  if (s.slot k).dirt ∨ (s.slot k).count = 0 then s.emptyFound k else s.emptyScan

def emptyWrote (s : InodeSys) (k : Nat) : EmptyOutcome :=
  let s := s.wroteInode k
  if (s.slot k).count = 0 then s.emptyFound k else s.emptyScan

/-- A reference is given back. -/
def dropRef (s : InodeSys) (r : InodeRef) : InodeSys :=
  { s.setSlot r.slot { s.slot r.slot with count := (s.slot r.slot).count - 1 } with refs := s.refs.erase r }.setPc r.proc .idle

/-- `iput` from where the slot is unlocked; `none` is a panic. -/
def iputGo (s : InodeSys) (r : InodeRef) : Option InodeSys :=
  let i := s.slot r.slot
  if i.count = 0 then none
  else if i.dev = 0 ∨ i.count > 1 then some (s.dropRef r)
  else if i.nlinks = 0 then some (s.setPc r.proc (.truncating r))
  else if i.dirt then some ((s.lockInode r.slot).setPc r.proc (.writePut r))
  else some (s.dropRef r)

def iput (s : InodeSys) (r : InodeRef) : Option InodeSys :=
  if (s.slot r.slot).lock then some (s.setPc r.proc (.waitPut r)) else s.iputGo r

/-- `iput` after `write_inode`: the count is not looked at again. -/
def iputWrote (s : InodeSys) (r : InodeRef) : InodeSys :=
  let s := s.wroteInode r.slot
  if (s.slot r.slot).nlinks = 0 then s.setPc r.proc (.truncating r) else s.dropRef r

/-- `free_inode` after `truncate`; `none` is a panic. -/
def freeInode (s : InodeSys) (r : InodeRef) : Option InodeSys :=
  if (s.slot r.slot).dev ≠ 0 ∧ ((s.slot r.slot).count > 1 ∨ (s.slot r.slot).nlinks ≠ 0) then none
  else some ({ s.setSlot r.slot {} with refs := s.refs.erase r }.setPc r.proc .idle)

/-- `iget` has found the inode in slot `j`, unlocked; the empty slot goes back. -/
def igetHit (s : InodeSys) (p : Nat) (w : Want) (e j : Nat) : Option InodeSys :=
  { s.setSlot j { s.slot j with count := (s.slot j).count + 1 } with refs := ⟨p, j, w.dev, w.num⟩ :: s.refs }.iput ⟨p, e, 0, 0⟩

/-- `iget` has not found the inode: the empty slot becomes it before its contents are read. -/
def igetMiss (s : InodeSys) (p : Nat) (w : Want) (e : Nat) : InodeSys :=
  { s.setSlot e { s.slot e with dev := w.dev, num := w.num, lock := true } with
    refs := ⟨p, e, w.dev, w.num⟩ :: s.refs.erase ⟨p, e, 0, 0⟩ }.setPc p (.reading ⟨p, e, w.dev, w.num⟩)

/-- The new inode of `new_inode`. -/
def newInode (s : InodeSys) (p : Nat) (w : Want) (e : Nat) : InodeSys :=
  { s.setSlot e { s.slot e with dev := w.dev, num := w.num, nlinks := 1, dirt := true } with
    refs := ⟨p, e, w.dev, w.num⟩ :: s.refs.erase ⟨p, e, 0, 0⟩ }.setPc p .idle

/-- The loop of `iget` over the table, with the empty slot in hand. -/
def igetSearch (s : InodeSys) (p : Nat) (w : Want) (e : Nat) : Option InodeSys :=
  match s.findInode w.dev w.num with
  | none => some (s.igetMiss p w e)
  | some j => if (s.slot j).lock then some (s.setPc p (.waitMatch w e j)) else s.igetHit p w e j

def afterEmpty (p : Nat) (w : Want) : EmptyOutcome → Option InodeSys
  | .waits s k => some (s.setPc p (.waitEmpty w k))
  | .writes s k => some (s.setPc p (.writeEmpty w k))
  | .got s k =>
    let s := { s with refs := ⟨p, k, 0, 0⟩ :: s.refs }
    if w.fresh then some (s.newInode p w k) else s.igetSearch p w k
  | .panics => none

/-- The process goes on from where it sleeps; `none` while it has to sleep on, and for a panic. -/
def resume (s : InodeSys) (p : Nat) : Option InodeSys :=
  match s.pc p with
  | .idle => none
  | .waitEmpty w k => if (s.slot k).lock then none else afterEmpty p w (s.emptyWaited k)
  | .writeEmpty w k => afterEmpty p w (s.emptyWrote k)
  | .waitMatch w e j =>
    if (s.slot j).lock then none
    else if (s.slot j).dev ≠ w.dev ∨ (s.slot j).num ≠ w.num then s.igetSearch p w e
    else s.igetHit p w e j
  | .reading r => some ((s.readInode r.slot).setPc p .idle)
  | .waitPut r => if (s.slot r.slot).lock then none else s.iputGo r
  | .writePut r => some (s.iputWrote r)
  | .truncating r => s.freeInode r

end InodeSys

/-- What can happen between two sleeps: a call of `iget`, `new_inode` or `iput` begins, a process that has a reference changes
the link count (an `unsigned char`) or another field, or a process goes on. -/
inductive InodeEvent
  | iget (p dev num : Nat)
  | newInode (p dev num : Nat)
  | iput (r : InodeRef)
  | unlink (r : InodeRef)
  | link (r : InodeRef)
  | dirty (r : InodeRef)
  | resume (p : Nat)
deriving DecidableEq

namespace InodeSys

/-- A process that is not in one of the calls has the reference, for a named inode. -/
def Holds (s : InodeSys) (r : InodeRef) : Prop := r ∈ s.refs ∧ s.pc r.proc = .idle ∧ r.dev ≠ 0

instance {s : InodeSys} {r : InodeRef} : Decidable (s.Holds r) := inferInstanceAs (Decidable (_ ∧ _))

end InodeSys

/-- `none` is a panic, or an event that is not possible in the state. -/
def inodeStep (s : InodeSys) : InodeEvent → Option InodeSys
  | .iget p dev num => if dev = 0 ∨ s.pc p ≠ .idle then none else InodeSys.afterEmpty p ⟨dev, num, false⟩ s.emptyScan
  | .newInode p dev num => if dev = 0 ∨ s.pc p ≠ .idle then none else InodeSys.afterEmpty p ⟨dev, num, true⟩ s.emptyScan
  | .iput r => if s.Holds r then s.iput r else none
  | .unlink r =>
    if s.Holds r then
      let n := if (s.slot r.slot).nlinks = 0 then 1 else (s.slot r.slot).nlinks
      some (s.setSlot r.slot { s.slot r.slot with nlinks := n - 1, dirt := true })
    else none
  | .link r =>
    if s.Holds r then some (s.setSlot r.slot { s.slot r.slot with nlinks := ((s.slot r.slot).nlinks + 1) % 256, dirt := true })
    else none
  | .dirty r => if s.Holds r then some (s.setSlot r.slot { s.slot r.slot with dirt := true }) else none
  | .resume p => s.resume p

/-- An empty table. -/
def inodeInit (disk : Nat → Nat → Nat) : InodeSys where
  slot := fun _ => {}
  last := 0
  disk := disk
  pc := fun _ => .idle
  refs := []

end RheeKernel
