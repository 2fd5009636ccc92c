import Mathlib.Logic.Function.Basic
import RheeKernel.BufferHead

namespace RheeKernel

def maxErrors : Nat := 5
def nrRequest : Nat := 32

inductive WinCmd
  | winRead
  | winWrite
  | winSpecify
deriving DecidableEq, Repr

/-- The routines that `do_hd` can point to. -/
inductive IntrAddr
  | readIntr
  | writeIntr
  | doRequest
deriving DecidableEq, Repr

structure HdRequest where
  hd : Int := -1
  nsector : Int := 0
  sector : Nat := 0
  head : Nat := 0
  cyl : Nat := 0
  cmd : WinCmd := .winRead
  errors : Nat := 0
  bh : Nat := 0
  next : Option Nat := none
deriving DecidableEq

def inOrder (s1 s2 : HdRequest) : Bool :=
  decide (s1.hd < s2.hd ∨ s1.hd = s2.hd) && (decide (s1.cyl < s2.cyl ∨ s1.cyl = s2.cyl) &&
    (decide (s1.head < s2.head ∨ s1.head = s2.head) && decide (s1.sector < s2.sector)))

/-- A place on the disk: the drive that `HD_CURRENT` selects and the sector counted from its start. -/
structure Place where
  unit : Nat
  lba : Nat
deriving DecidableEq

def Place.succ (p : Place) : Place := { p with lba := p.lba + 1 }

/-- The command the controller is working on; one more interrupt is due for it. -/
structure Command where
  cmd : WinCmd
  place : Place
  count : Nat
deriving DecidableEq

/-- The driver's variables, the controller and the disk. `port` is the data register. -/
structure Hd where
  request : Nat → HdRequest
  thisRequest : Option Nat
  sorting : Bool
  doHd : Option IntrAddr
  command : Option Command
  port : Sector
  disk : Place → Sector
  bh : Nat → BufferHead

/-- What the controller shows the driver around one interrupt: whether `win_result` finds no error,
what a failed write has left in its sector, and whether `DRQ_STAT` comes up while `do_request` polls. -/
structure Irq where
  ok : Bool
  left : Sector := 0
  drq : Bool := true
deriving DecidableEq

def nrHeads : Nat := 4
def nrSects : Nat := 20
def nrCyls : Nat := 1024

/-- The byte `hd_out` writes to `HD_CURRENT`. -/
def hdCurrent (drive head : Nat) : Nat := 0xB0 ||| (drive <<< 4) ||| head

def placeOf (drive sect head cyl : Nat) : Place where
  unit := (hdCurrent drive head >>> 4) % 2
  lba := (cyl % 65536 * nrHeads + hdCurrent drive head % 16) * nrSects + sect % 256 - 1

/-- The request `rw_abs_hd` fills in; `read` is `rw==READ`. -/
def fillRequest (read : Bool) (nr sec head cyl bh : Nat) : HdRequest where
  hd := nr
  nsector := 2
  sector := sec
  head := head
  cyl := cyl
  cmd := if read then .winRead else .winWrite
  bh := bh
  errors := 0
  next := none

def HdRequest.place (req : HdRequest) : Place := placeOf req.hd.toNat req.sector req.head req.cyl

namespace Hd

def setRequest (s : Hd) (r : Nat) (req : HdRequest) : Hd :=
  { s with request := Function.update s.request r req }

def setBh (s : Hd) (b : Nat) (bh : BufferHead) : Hd :=
  { s with bh := Function.update s.bh b bh }

end Hd

/-- `none` is a panic. A run that panics because `controller_ready` gave up is a run that ends here. -/
def hdOut (s : Hd) (drive : Int) (nsect : Int) (sect head cyl : Nat) (cmd : WinCmd)
    (intrAddr : IntrAddr) : Option Hd :=
  if drive < 0 ∨ 1 < drive ∨ 15 < head then none
  else some { s with
    doHd := some intrAddr
    command := some ⟨cmd, placeOf drive.toNat sect head cyl, nsect.toNat⟩ }

def resetHd (s : Hd) (nr : Int) : Option Hd :=
  hdOut s nr nrSects nrSects (nrHeads - 1) nrCyls .winSpecify .doRequest

def doRequest (s : Hd) (q : Irq) : Option Hd :=
  if s.sorting then some s
  else match s.thisRequest with
    | none => some { s with doHd := none }
    | some r =>
      let req := s.request r
      match req.cmd with
      | .winWrite =>
        match hdOut s req.hd req.nsector req.sector req.head req.cyl req.cmd .writeIntr with
        | none => none
        | some s =>
          if q.drq then
            some { s with port := if req.nsector % 2 = 1 then (s.bh req.bh).dataHi else (s.bh req.bh).dataLo }
          else resetHd s req.hd
      | .winRead => hdOut s req.hd req.nsector req.sector req.head req.cyl req.cmd .readIntr
      | .winSpecify => none

/-- The common end of the handlers: the buffer is unlocked and the request leaves the list. -/
def endRequest (s : Hd) (r : Nat) (req : HdRequest) (bh : BufferHead) : Hd :=
  { (s.setBh req.bh { bh with bLock := false }).setRequest r { req with hd := -1 } with thisRequest := req.next }

/-- The first half of `bad_rw_intr`: the request is given up, or only charged with the error. -/
def countError (s : Hd) (r : Nat) : Hd :=
  let req := s.request r
  let counted := { req with errors := req.errors + 1 }
  if maxErrors ≤ req.errors then endRequest s r counted { s.bh req.bh with bUptodate := false }
  else s.setRequest r counted

def badRwIntr (s : Hd) : Option Hd :=
  match s.thisRequest with
  | none => none
  | some r => resetHd (countError s r) (s.request r).hd

def readIntr (s : Hd) (q : Irq) : Option Hd :=
  if q.ok = false then badRwIntr s
  else match s.thisRequest with
    | none => none
    | some r =>
      let req := s.request r
      let bh := s.bh req.bh
      if req.nsector = 2 then
        some ((s.setRequest r { req with nsector := req.nsector - 1 }).setBh req.bh { bh with dataLo := s.port })
      else
        doRequest (endRequest s r { req with errors := 0 }
          { bh with dataHi := s.port, bUptodate := true, bDirt := false }) q

def writeIntr (s : Hd) (q : Irq) : Option Hd :=
  if q.ok = false then badRwIntr s
  else match s.thisRequest with
    | none => none
    | some r =>
      let req := { s.request r with nsector := (s.request r).nsector - 1 }
      let bh := s.bh req.bh
      if req.nsector ≠ 0 then some { s.setRequest r req with port := bh.dataHi }
      else doRequest (endRequest s r req { bh with bUptodate := true, bDirt := false }) q

/-- The command goes on to its next sector, unless that was the last one or there was an error. -/
def Command.rest (c : Command) (ok : Bool) : Option Command :=
  if ok = true ∧ 1 < c.count then some { c with place := c.place.succ, count := c.count - 1 } else none

/-- The controller's side of an interrupt: it moves one sector between the disk and the data register. -/
def moveSector (s : Hd) (c : Command) (q : Irq) : Hd :=
  match c.cmd with
  | .winRead => { s with command := c.rest q.ok, port := if q.ok then s.disk c.place else s.port }
  | .winWrite =>
    { s with command := c.rest q.ok, disk := Function.update s.disk c.place (if q.ok then s.port else q.left) }
  | .winSpecify => { s with command := none }

def callHandler (s : Hd) (q : Irq) : IntrAddr → Option Hd
  | .readIntr => readIntr s q
  | .writeIntr => writeIntr s q
  | .doRequest => doRequest s q

/-- One hard disk interrupt. `none` is a panic, or that no command is in progress. -/
def hdInterrupt (s : Hd) (q : Irq) : Option Hd :=
  match s.command, s.doHd with
  | some c, some i => callHandler (moveSector s c q) q i
  | _, _ => none

variable {s s' : Hd} {q : Irq}

theorem resetHd_some {nr : Int} (h : resetHd s nr = some s') :
    ∃ c, c.cmd = .winSpecify ∧ s' = { s with doHd := some .doRequest, command := some c } := by
  unfold resetHd hdOut at h
  split at h
  next => simp at h
  next => exact ⟨_, rfl, (Option.some.inj h).symm⟩

theorem doRequest_frame (h : doRequest s q = some s') :
    ∃ d c x, s' = { s with doHd := d, command := c, port := x } := by
  unfold doRequest hdOut at h
  split at h
  next => exact ⟨s.doHd, s.command, s.port, (Option.some.inj h).symm⟩
  next =>
    split at h
    next => exact ⟨none, s.command, s.port, (Option.some.inj h).symm⟩
    next =>
      dsimp only at h
      split at h
      next =>
        split at h
        next => simp at h
        next hout =>
          split at hout
          next => simp at hout
          next =>
            cases Option.some.inj hout
            split at h
            next => exact ⟨_, _, _, (Option.some.inj h).symm⟩
            next =>
              obtain ⟨c, _, hc⟩ := resetHd_some h
              exact ⟨_, some c, s.port, hc⟩
      next =>
        split at h
        next => simp at h
        next => exact ⟨_, _, s.port, (Option.some.inj h).symm⟩
      next => simp at h

theorem hdInterrupt_some {c : Command} {i : IntrAddr} (hc : s.command = some c) (hd : s.doHd = some i) :
    hdInterrupt s q = callHandler (moveSector s c q) q i := by
  simp only [hdInterrupt, hc, hd]

@[simp] theorem moveSector_request (c : Command) : (moveSector s c q).request = s.request := by
  unfold moveSector
  split <;> rfl

@[simp] theorem moveSector_thisRequest (c : Command) : (moveSector s c q).thisRequest = s.thisRequest := by
  unfold moveSector
  split <;> rfl

@[simp] theorem moveSector_sorting (c : Command) : (moveSector s c q).sorting = s.sorting := by
  unfold moveSector
  split <;> rfl

@[simp] theorem moveSector_doHd (c : Command) : (moveSector s c q).doHd = s.doHd := by
  unfold moveSector
  split <;> rfl

theorem moveSector_command {c : Command} (hc : c.cmd ≠ .winSpecify) :
    (moveSector s c q).command = c.rest q.ok := by
  unfold moveSector
  split
  next => rfl
  next => rfl
  next h => exact absurd h hc

end RheeKernel
