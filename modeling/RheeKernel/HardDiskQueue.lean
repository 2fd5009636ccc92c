import RheeKernel.Machine
import RheeKernel.Linked
import RheeKernel.HardDisk

namespace RheeKernel

open Linked (Path)

/-- The statement of `add_request` that is executed next, with its variables. -/
inductive AddPc
  | check (req : Nat)
  | sort (req : Nat)
  | load (req : Nat)
  | setFirst (req : Nat)
  | testNext (req tmp : Nat)
  | linkSecond (req tmp : Nat)
  | skip (req tmp : Nat)
  | loopTest (req tmp : Nat)
  | loopOrder (req tmp : Nat)
  | loopNext (req tmp : Nat)
  | linkReq (req tmp : Nat)
  | linkTmp (req tmp : Nat)
  | unsort
  | restart
deriving DecidableEq

structure HdQueue where
  hd : Hd
  pc : Option AddPc

/-- The `request` slot that `rw_abs_hd` takes; `none` is the sleep on `wait_for_request`. -/
def freeSlot (s : Hd) : Option Nat := (List.range nrRequest).find? fun r => (s.request r).hd < 0

/-- `rw_abs_hd` up to its call of `add_request`, once it has found a slot. -/
def rwAbsHd (s : Hd) (read : Bool) (nr sec head cyl b : Nat) : Option (Hd × Nat) :=
  let s := s.setBh b { s.bh b with bLock := true }
  (freeSlot s).map fun r => (s.setRequest r (fillRequest read nr sec head cyl b), r)

def Hd.setNext (s : Hd) (r : Nat) (next : Option Nat) : Hd := s.setRequest r { s.request r with next := next }

/-- One statement of `add_request`. `none` is a panic or the use of a null pointer; `q` is only
looked at by the `do_request` at the end. -/
def addStatement (s : Hd) (q : Irq) : AddPc → Option (Hd × Option AddPc)
  | .check req => if (s.request req).nsector = 2 then some (s, some (.sort req)) else none
  | .sort req => some ({ s with sorting := true }, some (.load req))
  | .load req =>
    match s.thisRequest with
    | none => some (s, some (.setFirst req))
    | some tmp => some (s, some (.testNext req tmp))
  | .setFirst req => some ({ s with thisRequest := some req }, some .unsort)
  | .testNext req tmp =>
    if (s.request tmp).next = none then some (s, some (.linkSecond req tmp)) else some (s, some (.skip req tmp))
  | .linkSecond req tmp => some (s.setNext tmp (some req), some .unsort)
  | .skip req tmp => (s.request tmp).next.map fun tmp => (s, some (.loopTest req tmp))
  | .loopTest req tmp =>
    if (s.request tmp).next = none then some (s, some (.linkReq req tmp)) else some (s, some (.loopOrder req tmp))
  | .loopOrder req tmp => (s.request tmp).next.map fun after =>
    if (inOrder (s.request tmp) (s.request req) || !inOrder (s.request tmp) (s.request after)) &&
        inOrder (s.request req) (s.request after) then (s, some (.linkReq req tmp))
    else (s, some (.loopNext req tmp))
  | .loopNext req tmp => (s.request tmp).next.map fun tmp => (s, some (.loopTest req tmp))
  | .linkReq req tmp => some (s.setNext req (s.request tmp).next, some (.linkTmp req tmp))
  | .linkTmp req tmp => some (s.setNext tmp (some req), some .unsort)
  | .unsort => some ({ s with sorting := false }, some .restart)
  | .restart => if s.doHd = none then (doRequest s q).map fun s => (s, none) else some (s, none)

inductive QueueOp
  | call (read : Bool) (nr sec head cyl b : Nat)
  | statement (q : Irq)
  | interrupt (q : Irq)

/-- Processes do not preempt each other inside `rw_abs_hd`, so that at most one is in `add_request`. -/
def queueStep (m : HdQueue) : QueueOp → Option HdQueue
  | .call read nr sec head cyl b =>
    match m.pc with
    | some _ => none
    | none => (rwAbsHd m.hd read nr sec head cyl b).map fun (s, r) => ⟨s, some (.check r)⟩
  | .statement q =>
    match m.pc with
    | none => none
    | some pc => (addStatement m.hd q pc).map fun (s, pc) => ⟨s, pc⟩
  | .interrupt q => (hdInterrupt m.hd q).map fun s => ⟨s, m.pc⟩

/-- After `hd_init`. -/
def bootHd (disk : Place → Sector) (bh : Nat → BufferHead) : HdQueue where
  hd := {
    request := fun _ => {}
    thisRequest := none
    sorting := false
    doHd := none
    command := none
    port := 0
    disk := disk
    bh := bh }
  pc := none

/-- The handler of this interrupt gets to `do_request`. -/
def reachesDoRequest (s : Hd) (q : Irq) : Bool :=
  match s.doHd, s.thisRequest with
  | some .doRequest, _ => true
  | some .readIntr, some r => q.ok && decide ((s.request r).nsector ≠ 2)
  | some .writeIntr, some r => q.ok && decide ((s.request r).nsector = 1)
  | _, _ => false

/-- The handler of this interrupt gives up the first request. -/
def givesUp (s : Hd) (q : Irq) : Bool :=
  match s.thisRequest with
  | some r => !q.ok && decide (maxErrors ≤ (s.request r).errors)
  | none => false

/-- `add_request` has found that `tmp` is the only request and is about to link the new one to it. -/
def linksToOnly (s : Hd) : Option AddPc → Bool
  | some (.testNext _ tmp) => decide ((s.request tmp).next = none)
  | some (.linkSecond _ _) => true
  | _ => false

/-- While `sorting` is set, no interrupt gets to `do_request`, and none gives up the only request
when the new one is about to be linked to it. -/
def Undisturbed (m : HdQueue) : QueueOp → Prop
  | .interrupt q => m.hd.sorting = true → reachesDoRequest m.hd q = false ∧
      ¬ (givesUp m.hd q = true ∧ linksToOnly m.hd m.pc = true)
  | _ => True

/-- A command for the first request is in the controller, or the reset after which it is issued again. -/
def Hd.Pending (s : Hd) : Prop :=
  ∃ r c, s.thisRequest = some r ∧ s.command = some c ∧
    (c.cmd = (s.request r).cmd ∧ (c.place = (s.request r).place ∨ c.place = (s.request r).place.succ) ∧
        (c.cmd = .winRead ∧ s.doHd = some .readIntr ∨ c.cmd = .winWrite ∧ s.doHd = some .writeIntr) ∨
      c.cmd = .winSpecify ∧ s.doHd = some .doRequest)

/-- Every request that has a slot is on the list, and the list is being worked on. -/
def Hd.NoneLost (s : Hd) : Prop :=
  ∃ l, Path (fun r => (s.request r).next) s.thisRequest l ∧ (∀ r, 0 ≤ (s.request r).hd → r ∈ l) ∧
    (l ≠ [] → s.Pending)

end RheeKernel
