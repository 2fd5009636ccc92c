import RheeKernel.BufferCache
import RheeKernel.ByteMemory
import RheeKernel.HardDiskQueue

namespace RheeKernel

open ByteMemory

/-- The table `hd` after `hd_init`: the whole drive in its first place. -/
def hdInit : Nat → HdStruct := fun i => if i = 0 then ⟨0, nrHeads * nrSects * nrCyls⟩ else ⟨0, 0⟩

/-- A long of the partition table in the first sector, at an offset in the entry `i` of the four. -/
def partitionLong (data : Nat → UInt8) (i offset : Nat) : Nat := getLong data (0x1BE + 16 * (i - 1) + offset)

/-- `sys_setup` with the first sector of the drive; without its mark it panics. -/
def sysSetup (data : Nat → UInt8) (hd : Nat → HdStruct) : Option (Nat → HdStruct) :=
  if data 510 ≠ 0x55 ∨ data 511 ≠ 0xAA then none
  else some fun i => if 1 ≤ i ∧ i < 5 then ⟨partitionLong data i 8, partitionLong data i 12⟩ else hd i

/-- `rw_hd`: the drive, sector, head and cylinder that it calls `rw_abs_hd` with, if it does. -/
def rwHd (hd : Nat → HdStruct) (bDev bBlocknr : Nat) : Option (Nat × Nat × Nat × Nat) :=
  let block := 2 * bBlocknr
  let dev := bDev % 256
  if 5 * nrHd ≤ dev ∨ (hd dev).nrSects < block + 2 then none
  else
    let block := (block + (hd dev).startSect) % 2 ^ 32
    let dev := dev / 5
    let sec := block % nrSects
    let block := block / nrSects
    let head := block % nrHeads
    let cyl := block / nrHeads
    some (dev, sec + 1, head, cyl)

/-- What happens on the disk's side: a call of `rw_hd` for a buffer with this device and block, the call that `sys_setup` makes, other
changes of a buffer, a statement of `add_request`, an interrupt. -/
inductive DiskOp
  | rw (read : Bool) (bDev bBlocknr : Nat) (b : Nat)
  | setup (b : Nat)
  | buffer (b : Nat) (bh : BufferHead)
  | statement (q : Irq)
  | interrupt (q : Irq)

def diskStep (hd : Nat → HdStruct) (m : HdQueue) : DiskOp → Option HdQueue
  | .rw read bDev bBlocknr b =>
    if (m.hd.bh b).bDev = bDev ∧ (m.hd.bh b).bBlocknr = bBlocknr then
      match rwHd hd bDev bBlocknr with
      | none => some m
      | some (nr, sec, head, cyl) => queueStep m (.call read nr sec head cyl b)
    else none
  | .setup b => queueStep m (.call true 0 1 0 0 b)
  | .buffer b bh => some { m with hd := m.hd.setBh b bh }
  | .statement q => queueStep m (.statement q)
  | .interrupt q => queueStep m (.interrupt q)

/-- The sectors of a block. -/
def Covers (hd : Nat → HdStruct) (bDev bBlocknr : Nat) (p : Place) : Prop :=
  ∃ nr sec head cyl, rwHd hd bDev bBlocknr = some (nr, sec, head, cyl) ∧ (p = placeOf nr sec head cyl ∨ p = (placeOf nr sec head cyl).succ)

/-- The sectors that an operation is asked to write. -/
def DiskOp.Writes (hd : Nat → HdStruct) (p : Place) : DiskOp → Prop
  | .rw false bDev bBlocknr _ => Covers hd bDev bBlocknr p
  | _ => False

/-- The requests and the command write nothing but the sectors `W`. -/
structure Hd.Within (s : Hd) (W : Place → Prop) : Prop where
  request : ∀ r, 0 ≤ (s.request r).hd → (s.request r).cmd = .winWrite →
    (s.request r).nsector ≤ 2 ∧ W (s.request r).place ∧ W (s.request r).place.succ
  command : ∀ c, s.command = some c → c.cmd = .winWrite → c.count ≤ 2 ∧ W c.place ∧ (1 < c.count → W c.place.succ)

section Keeping

variable {W : Place → Prop} {s s' : Hd} {m m' : HdQueue} {q : Irq} {r : Nat} {req : HdRequest}

theorem Hd.Within.same (h : s.Within W) (requests : s'.request = s.request) (command : s'.command = s.command) : s'.Within W :=
  ⟨fun r => by rw [requests]; exact h.request r, fun c => by rw [command]; exact h.command c⟩

theorem Hd.Within.setRequest (h : s.Within W)
    (new : 0 ≤ req.hd → req.cmd = .winWrite → req.nsector ≤ 2 ∧ W req.place ∧ W req.place.succ) : (s.setRequest r req).Within W := by
  refine ⟨fun u => ?_, h.command⟩
  by_cases same : u = r
  · rw [same]
    unfold Hd.setRequest
    dsimp only
    rw [Function.update_self]
    exact new
  · unfold Hd.setRequest
    dsimp only
    rw [Function.update_of_ne same]
    exact h.request u

theorem Hd.Within.hdOut {nr nsect : Int} {sect head cyl : Nat} {cmd : WinCmd} {addr : IntrAddr} (h : s.Within W)
    (asks : 0 ≤ nr → cmd = .winWrite → nsect ≤ 2 ∧ W (placeOf nr.toNat sect head cyl) ∧ W (placeOf nr.toNat sect head cyl).succ)
    (hs : RheeKernel.hdOut s nr nsect sect head cyl cmd addr = some s') : s'.Within W ∧ s'.disk = s.disk := by
  unfold RheeKernel.hdOut at hs
  split at hs
  next => cases hs
  next good =>
    cases Option.some.inj hs
    refine ⟨⟨h.request, fun c same writes => ?_⟩, rfl⟩
    cases Option.some.inj same
    obtain ⟨few, first, second⟩ := asks (by omega) writes
    have count : nsect.toNat ≤ 2 := by omega
    exact ⟨count, first, fun _ => second⟩

theorem Hd.Within.resetHd {nr : Int} (h : s.Within W) (hs : RheeKernel.resetHd s nr = some s') : s'.Within W ∧ s'.disk = s.disk :=
  h.hdOut (fun _ no => absurd no (by decide)) hs

theorem Hd.Within.doRequest (h : s.Within W) (hs : RheeKernel.doRequest s q = some s') : s'.Within W ∧ s'.disk = s.disk := by
  unfold RheeKernel.doRequest at hs
  split at hs
  next =>
    cases Option.some.inj hs
    exact ⟨h, rfl⟩
  next =>
    split at hs
    next =>
      cases Option.some.inj hs
      exact ⟨h.same rfl rfl, rfl⟩
    next r _ =>
      dsimp only at hs
      split at hs
      next cmd =>
        split at hs
        next => cases hs
        next t out =>
          obtain ⟨within, disk⟩ := h.hdOut (fun live _ => h.request r live cmd) out
          split at hs
          next =>
            cases Option.some.inj hs
            exact ⟨within.same rfl rfl, disk⟩
          next =>
            obtain ⟨within', disk'⟩ := within.resetHd hs
            exact ⟨within', disk'.trans disk⟩
      next cmd => exact h.hdOut (fun _ writes => absurd (cmd.symm.trans writes) (by decide)) hs
      next => cases hs

theorem Hd.Within.endRequest {bh : BufferHead} (h : s.Within W) : (RheeKernel.endRequest s r req bh).Within W := by
  have gone : ¬ (0 : Int) ≤ -1 := by decide
  have unlocked : (s.setBh req.bh { bh with bLock := false }).Within W := h.same rfl rfl
  exact (unlocked.setRequest fun live _ => absurd live gone).same rfl rfl

theorem Hd.Within.badRwIntr (h : s.Within W) (hs : RheeKernel.badRwIntr s = some s') : s'.Within W ∧ s'.disk = s.disk := by
  unfold RheeKernel.badRwIntr at hs
  split at hs
  next => cases hs
  next r _ =>
    have counted : (countError s r).Within W ∧ (countError s r).disk = s.disk := by
      unfold countError
      dsimp only
      split
      next => exact ⟨h.endRequest, rfl⟩
      next => exact ⟨h.setRequest (h.request r), rfl⟩
    obtain ⟨within, disk⟩ := counted.1.resetHd hs
    exact ⟨within, disk.trans counted.2⟩

theorem Hd.Within.readIntr (h : s.Within W) (hs : RheeKernel.readIntr s q = some s') : s'.Within W ∧ s'.disk = s.disk := by
  unfold RheeKernel.readIntr at hs
  split at hs
  next => exact h.badRwIntr hs
  next =>
    split at hs
    next => cases hs
    next r _ =>
      dsimp only at hs
      split at hs
      next half =>
        cases Option.some.inj hs
        refine ⟨(Hd.Within.setRequest h fun live writes => ?_).same rfl rfl, rfl⟩
        obtain ⟨few, places⟩ := h.request r live writes
        have fewer : (s.request r).nsector - 1 ≤ 2 := by omega
        exact ⟨fewer, places⟩
      next =>
        obtain ⟨within, disk⟩ := h.endRequest.doRequest hs
        exact ⟨within, disk⟩

theorem Hd.Within.writeIntr (h : s.Within W) (hs : RheeKernel.writeIntr s q = some s') : s'.Within W ∧ s'.disk = s.disk := by
  unfold RheeKernel.writeIntr at hs
  split at hs
  next => exact h.badRwIntr hs
  next =>
    split at hs
    next => cases hs
    next r _ =>
      dsimp only at hs
      split at hs
      next =>
        cases Option.some.inj hs
        refine ⟨(Hd.Within.setRequest h fun live writes => ?_).same rfl rfl, rfl⟩
        obtain ⟨few, places⟩ := h.request r live writes
        have fewer : (s.request r).nsector - 1 ≤ 2 := by omega
        exact ⟨fewer, places⟩
      next =>
        obtain ⟨within, disk⟩ := h.endRequest.doRequest hs
        exact ⟨within, disk⟩

/-- The controller goes on to the second sector of a command and to no further one. -/
theorem Command.rest_within {c d : Command} {ok : Bool} (hc : c.count ≤ 2 ∧ W c.place ∧ (1 < c.count → W c.place.succ))
    (rest : c.rest ok = some d) : d.count ≤ 2 ∧ W d.place ∧ (1 < d.count → W d.place.succ) := by
  unfold Command.rest at rest
  split at rest
  next more =>
    cases Option.some.inj rest
    have count : c.count - 1 ≤ 2 := by omega
    have last : ¬ 1 < c.count - 1 := by omega
    exact ⟨count, hc.2.2 more.2, fun again => absurd again last⟩
  next => cases rest

theorem Command.rest_cmd {c d : Command} {ok : Bool} (rest : c.rest ok = some d) : d.cmd = c.cmd := by
  unfold Command.rest at rest
  split at rest
  next =>
    cases Option.some.inj rest
    rfl
  next => cases rest

theorem Hd.Within.moveSector {c : Command} (h : s.Within W) (hc : s.command = some c) :
    (RheeKernel.moveSector s c q).Within W ∧ ∀ p, ¬ W p → (RheeKernel.moveSector s c q).disk p = s.disk p := by
  unfold RheeKernel.moveSector
  split
  next read =>
    refine ⟨⟨h.request, fun d rest writes => ?_⟩, fun p _ => rfl⟩
    exact absurd ((Command.rest_cmd rest).symm.trans writes) (by rw [read]; decide)
  next write =>
    have safe := h.command c hc write
    refine ⟨⟨h.request, fun d rest _ => Command.rest_within safe rest⟩, fun p outside => ?_⟩
    have other : p ≠ c.place := fun same => outside (same ▸ safe.2.1)
    exact Function.update_of_ne other _ _
  next => exact ⟨⟨h.request, fun d none => by cases none⟩, fun p _ => rfl⟩

theorem Hd.Within.hdInterrupt (h : s.Within W) (hs : RheeKernel.hdInterrupt s q = some s') :
    s'.Within W ∧ ∀ p, ¬ W p → s'.disk p = s.disk p := by
  unfold RheeKernel.hdInterrupt at hs
  split at hs
  next c i hc _ =>
    obtain ⟨moved, outside⟩ := h.moveSector (q := q) hc
    have handled : s'.Within W ∧ s'.disk = (RheeKernel.moveSector s c q).disk := by
      cases i with
      | readIntr => exact moved.readIntr hs
      | writeIntr => exact moved.writeIntr hs
      | doRequest => exact moved.doRequest hs
    refine ⟨handled.1, fun p hp => ?_⟩
    rw [handled.2]
    exact outside p hp
  next => cases hs

theorem Hd.Within.setNext {next : Option Nat} (h : s.Within W) : (s.setNext r next).Within W := h.setRequest (h.request r)

theorem Hd.Within.addStatement {pc : AddPc} {pc' : Option AddPc} (h : s.Within W)
    (hs : RheeKernel.addStatement s q pc = some (s', pc')) : s'.Within W ∧ s'.disk = s.disk := by
  cases pc with
  | check req =>
    dsimp only [RheeKernel.addStatement] at hs
    obtain ⟨-, same⟩ := Option.ite_none_right_eq_some.mp hs
    cases Option.some.inj same
    exact ⟨h, rfl⟩
  | sort req =>
    cases Option.some.inj hs
    exact ⟨h.same rfl rfl, rfl⟩
  | load req =>
    dsimp only [RheeKernel.addStatement] at hs
    split at hs <;> cases Option.some.inj hs <;> exact ⟨h, rfl⟩
  | setFirst req =>
    cases Option.some.inj hs
    exact ⟨h.same rfl rfl, rfl⟩
  | testNext req tmp =>
    dsimp only [RheeKernel.addStatement] at hs
    split at hs <;> cases Option.some.inj hs <;> exact ⟨h, rfl⟩
  | linkSecond req tmp =>
    cases Option.some.inj hs
    exact ⟨h.setNext, rfl⟩
  | skip req tmp =>
    obtain ⟨next, -, same⟩ := Option.map_eq_some_iff.mp hs
    cases same
    exact ⟨h, rfl⟩
  | loopTest req tmp =>
    dsimp only [RheeKernel.addStatement] at hs
    split at hs <;> cases Option.some.inj hs <;> exact ⟨h, rfl⟩
  | loopOrder req tmp =>
    obtain ⟨after, -, same⟩ := Option.map_eq_some_iff.mp hs
    split at same <;> cases same <;> exact ⟨h, rfl⟩
  | loopNext req tmp =>
    obtain ⟨next, -, same⟩ := Option.map_eq_some_iff.mp hs
    cases same
    exact ⟨h, rfl⟩
  | linkReq req tmp =>
    cases Option.some.inj hs
    exact ⟨h.setNext, rfl⟩
  | linkTmp req tmp =>
    cases Option.some.inj hs
    exact ⟨h.setNext, rfl⟩
  | unsort =>
    cases Option.some.inj hs
    exact ⟨h.same rfl rfl, rfl⟩
  | restart =>
    dsimp only [RheeKernel.addStatement] at hs
    split at hs
    next =>
      obtain ⟨t, requested, same⟩ := Option.map_eq_some_iff.mp hs
      cases same
      exact h.doRequest requested
    next =>
      cases Option.some.inj hs
      exact ⟨h, rfl⟩

theorem Hd.Within.rwAbsHd {read : Bool} {nr sec head cyl b : Nat} (h : s.Within W)
    (asks : read = false → W (placeOf nr sec head cyl) ∧ W (placeOf nr sec head cyl).succ)
    (hs : RheeKernel.rwAbsHd s read nr sec head cyl b = some (s', r)) : s'.Within W ∧ s'.disk = s.disk := by
  unfold RheeKernel.rwAbsHd at hs
  obtain ⟨u, -, same⟩ := Option.map_eq_some_iff.mp hs
  cases same
  refine ⟨Hd.Within.setRequest (h.same rfl rfl) fun _ writes => ?_, rfl⟩
  cases read with
  | true => exact absurd writes (show WinCmd.winRead ≠ .winWrite by decide)
  | false => exact ⟨le_rfl, asks rfl⟩

end Keeping

/-! ### Addresses -/

section Addresses

variable {hd : Nat → HdStruct} {bDev bBlocknr : Nat}

theorem rwHd_eq_some {t : Nat × Nat × Nat × Nat} : rwHd hd bDev bBlocknr = some t ↔ bDev % 256 < 5 ∧
    2 * bBlocknr + 2 ≤ (hd (bDev % 256)).nrSects ∧
    ∃ x, x = (2 * bBlocknr + (hd (bDev % 256)).startSect) % 2 ^ 32 ∧ t = (0, x % 20 + 1, x / 20 % 4, x / 20 / 4) := by
  unfold rwHd
  dsimp only
  split
  next bad =>
    refine ⟨fun no => (by cases no), fun ⟨few, fits, _⟩ => ?_⟩
    unfold nrHd at bad
    omega
  next good =>
    unfold nrHd at good
    have few : bDev % 256 / 5 = 0 := by omega
    rw [few]
    constructor
    · intro same
      exact ⟨by omega, by omega, _, rfl, (Option.some.inj same).symm⟩
    · rintro ⟨-, -, x, rfl, rfl⟩
      rfl

/-- The drive's registers take sixteen bits of the cylinder, and every request goes to the second drive. -/
theorem placeOf_block (x : Nat) : placeOf 0 (x % 20 + 1) (x / 20 % 4) (x / 20 / 4) = ⟨1, x / 80 % 65536 * 80 + x % 80⟩ := by
  have heads : ∀ head < 4, (hdCurrent 0 head >>> 4) % 2 = 1 ∧ hdCurrent 0 head % 16 = head := by decide
  obtain ⟨unit, head⟩ := heads (x / 20 % 4) (Nat.mod_lt _ (by decide))
  unfold placeOf
  rw [unit, head, Nat.div_div_eq_div_mul]
  unfold nrHeads nrSects
  congr 1
  omega

/-- The part of the drive that a partition lies in can be addressed. -/
def HdStruct.Fits (h : HdStruct) : Prop := h.startSect + h.nrSects ≤ 65536 * (nrHeads * RheeKernel.nrSects)

def HdStruct.Holds (h : HdStruct) (p : Place) : Prop :=
  p.unit = 1 ∧ h.startSect ≤ p.lba ∧ p.lba < h.startSect + h.nrSects

theorem covers_iff_of_fits (fits : (hd (bDev % 256)).Fits) {p : Place} : Covers hd bDev bBlocknr p ↔ bDev % 256 < 5 ∧
    2 * bBlocknr + 2 ≤ (hd (bDev % 256)).nrSects ∧ p.unit = 1 ∧
    ∃ j < 2, p.lba = (hd (bDev % 256)).startSect + 2 * bBlocknr + j := by
  unfold HdStruct.Fits nrHeads nrSects at fits
  have place (room : 2 * bBlocknr + 2 ≤ (hd (bDev % 256)).nrSects) {x : Nat}
      (hx : x = (2 * bBlocknr + (hd (bDev % 256)).startSect) % 2 ^ 32) :
      placeOf 0 (x % 20 + 1) (x / 20 % 4) (x / 20 / 4) = ⟨1, (hd (bDev % 256)).startSect + 2 * bBlocknr⟩ := by
    rw [placeOf_block]
    congr 1
    omega
  constructor
  · rintro ⟨nr, sec, head, cyl, addressed, at_place⟩
    obtain ⟨few, room, x, hx, same⟩ := rwHd_eq_some.mp addressed
    cases same
    rw [place room hx] at at_place
    rcases at_place with rfl | rfl
    · exact ⟨few, room, rfl, 0, by decide, rfl⟩
    · exact ⟨few, room, rfl, 1, by decide, rfl⟩
  · rintro ⟨few, room, unit, j, hj, lba⟩
    refine ⟨_, _, _, _, rwHd_eq_some.mpr ⟨few, room, _, rfl, rfl⟩, ?_⟩
    rw [place room rfl]
    obtain ⟨u, n⟩ := p
    dsimp only at unit lba
    subst unit lba
    unfold Place.succ
    rcases (by omega : j = 0 ∨ j = 1) with rfl | rfl
    · exact Or.inl rfl
    · exact Or.inr rfl

theorem covers_iff_of_entry {start nr : Nat} (few : bDev % 256 < 5) (entry : (hd (bDev % 256)).startSect = start ∧
    (hd (bDev % 256)).nrSects = nr) (fits : start + nr ≤ 65536 * 80) {p : Place} : Covers hd bDev bBlocknr p ↔
    2 * bBlocknr + 2 ≤ nr ∧ p.unit = 1 ∧ ∃ j < 2, p.lba = start + 2 * bBlocknr + j := by
  obtain ⟨rfl, rfl⟩ := entry
  rw [covers_iff_of_fits fits]
  exact and_iff_right few

end Addresses

/-! ### Runs -/

variable {hd : Nat → HdStruct} {W : Place → Prop} {m m' : HdQueue}

theorem Hd.Within.diskStep {o : DiskOp} (h : m.hd.Within W) (asks : ∀ p, o.Writes hd p → W p)
    (hs : RheeKernel.diskStep hd m o = some m') : m'.hd.Within W ∧ ∀ p, ¬ W p → m'.hd.disk p = m.hd.disk p := by
  have called {read : Bool} {nr sec head cyl b : Nat}
      (may : read = false → W (placeOf nr sec head cyl) ∧ W (placeOf nr sec head cyl).succ)
      (hq : queueStep m (.call read nr sec head cyl b) = some m') : m'.hd.Within W ∧ ∀ p, ¬ W p → m'.hd.disk p = m.hd.disk p := by
    unfold queueStep at hq
    dsimp only at hq
    split at hq
    next => cases hq
    next =>
      obtain ⟨⟨t, r⟩, entered, same⟩ := Option.map_eq_some_iff.mp hq
      cases same
      obtain ⟨within, disk⟩ := h.rwAbsHd may entered
      exact ⟨within, fun p _ => congrFun disk p⟩
  cases o with
  | rw read bDev bBlocknr b =>
    unfold RheeKernel.diskStep at hs
    dsimp only at hs
    split at hs
    next =>
      split at hs
      next =>
        cases Option.some.inj hs
        exact ⟨h, fun p _ => rfl⟩
      next nr sec head cyl addressed =>
        refine called (fun writes => ?_) hs
        subst writes
        exact ⟨asks _ ⟨nr, sec, head, cyl, addressed, Or.inl rfl⟩, asks _ ⟨nr, sec, head, cyl, addressed, Or.inr rfl⟩⟩
    next => cases hs
  | setup b => exact called (fun no => by cases no) hs
  | buffer b bh =>
    cases Option.some.inj hs
    exact ⟨h.same rfl rfl, fun p _ => rfl⟩
  | statement q =>
    unfold RheeKernel.diskStep queueStep at hs
    dsimp only at hs
    split at hs
    next => cases hs
    next pc _ =>
      obtain ⟨⟨t, pc'⟩, stepped, same⟩ := Option.map_eq_some_iff.mp hs
      cases same
      obtain ⟨within, disk⟩ := h.addStatement stepped
      exact ⟨within, fun p _ => congrFun disk p⟩
  | interrupt q =>
    unfold RheeKernel.diskStep queueStep at hs
    obtain ⟨t, handled, same⟩ := Option.map_eq_some_iff.mp hs
    cases same
    exact h.hdInterrupt handled

theorem Hd.Within.run {ops : List DiskOp} (h : m.hd.Within W) (asks : ∀ o ∈ ops, ∀ p, o.Writes hd p → W p)
    (run : Machine.exec (RheeKernel.diskStep hd) m ops = some m') : ∀ p, ¬ W p → m'.hd.disk p = m.hd.disk p := by
  induction ops generalizing m with
  | nil =>
    cases Option.some.inj run
    exact fun p _ => rfl
  | cons o ops ih =>
    obtain ⟨t, first, rest⟩ := Option.bind_eq_some_iff.mp run
    obtain ⟨within, kept⟩ := h.diskStep (asks o List.mem_cons_self) first
    intro p outside
    exact (ih within (fun o' later => asks o' (List.mem_cons_of_mem _ later)) rest p outside).trans (kept p outside)

theorem bootHd_within (disk : Place → Sector) (bh : Nat → BufferHead) : (bootHd disk bh).hd.Within W :=
  ⟨fun _ live => absurd (show (0 : Int) ≤ -1 from live) (by decide), fun _ none => nomatch none⟩

/-- A sector that changes belongs to a block that somebody has asked to write, and lies in the partition of that block's device. -/
theorem partitions_isolated (hd : Nat → HdStruct) (disk : Place → Sector) (bh : Nat → BufferHead) (ops : List DiskOp) (m : HdQueue)
    (run : Machine.exec (diskStep hd) (bootHd disk bh) ops = some m) (p : Place) (changed : m.hd.disk p ≠ disk p) :
    ∃ bDev bBlocknr b, DiskOp.rw false bDev bBlocknr b ∈ ops ∧ Covers hd bDev bBlocknr p ∧
      ((hd (bDev % 256)).Fits → (hd (bDev % 256)).Holds p) := by
  by_contra untouched
  refine changed ((bootHd_within disk bh).run (W := fun p => ∃ o ∈ ops, o.Writes hd p) (fun o among p writes => ⟨o, among, writes⟩) run p ?_)
  rintro ⟨o, among, writes⟩
  cases o with
  | rw read bDev bBlocknr b =>
    cases read with
    | true => exact writes
    | false =>
      refine untouched ⟨bDev, bBlocknr, b, among, writes, fun fits => ?_⟩
      obtain ⟨-, room, unit, j, hj, lba⟩ := (covers_iff_of_fits fits).mp writes
      exact ⟨unit, by omega, by omega⟩
  | setup b => exact writes
  | buffer b bh => exact writes
  | statement q => exact writes
  | interrupt q => exact writes

/-- A block written to the boot sector of a drive in one write without errors. -/
theorem partitions_isolated_boot : ∃ bDev bBlocknr b,
    DiskOp.rw false bDev bBlocknr b ∈ [DiskOp.buffer 0 { dataLo := 1, bDirt := true }, .rw false 0 0 0, .statement ⟨true, 0, true⟩,
      .statement ⟨true, 0, true⟩, .statement ⟨true, 0, true⟩, .statement ⟨true, 0, true⟩, .statement ⟨true, 0, true⟩,
      .statement ⟨true, 0, true⟩, .interrupt ⟨true, 0, true⟩] ∧ Covers hdInit bDev bBlocknr ⟨1, 0⟩ ∧
    ((hdInit (bDev % 256)).Fits → (hdInit (bDev % 256)).Holds ⟨1, 0⟩) := by
  obtain ⟨m, run, written⟩ : ∃ m, Machine.exec (diskStep hdInit) (bootHd (fun _ => 0) fun _ => {})
      [.buffer 0 { dataLo := 1, bDirt := true }, .rw false 0 0 0, .statement ⟨true, 0, true⟩, .statement ⟨true, 0, true⟩,
        .statement ⟨true, 0, true⟩, .statement ⟨true, 0, true⟩, .statement ⟨true, 0, true⟩, .statement ⟨true, 0, true⟩,
        .interrupt ⟨true, 0, true⟩] = some m ∧ m.hd.disk ⟨1, 0⟩ = 1 := ⟨_, rfl, rfl⟩
  exact partitions_isolated hdInit _ _ _ m run ⟨1, 0⟩ (by simp [written])

/-- What `rw_hd` makes of a block once `sys_setup` has read the partition table: the whole drive, or a partition that the drive's
registers can address, from its start on. -/
theorem sysSetup_covers (data : Nat → UInt8) (hd : Nat → HdStruct) (setup : sysSetup data hdInit = some hd) (bDev bBlocknr : Nat)
    (p : Place) :
    (bDev % 256 = 0 →
      (Covers hd bDev bBlocknr p ↔ 2 * bBlocknr + 2 ≤ 81920 ∧ p.unit = 1 ∧ ∃ j < 2, p.lba = 2 * bBlocknr + j)) ∧
    (∀ i start nr, 1 ≤ i → i < 5 → bDev % 256 = i → start = getLong data (0x1BE + 16 * (i - 1) + 8) →
      nr = getLong data (0x1BE + 16 * (i - 1) + 12) → start + nr ≤ 65536 * 80 →
      (Covers hd bDev bBlocknr p ↔ 2 * bBlocknr + 2 ≤ nr ∧ p.unit = 1 ∧ ∃ j < 2, p.lba = start + 2 * bBlocknr + j)) ∧
    (5 ≤ bDev % 256 → ¬ Covers hd bDev bBlocknr p) := by
  have table := (Option.some.inj (Option.ite_none_left_eq_some.mp setup).2).symm
  refine ⟨fun minor => ?_, fun i start nr low high minor hstart hnr fits => ?_, fun high => ?_⟩
  · have whole : (hd (bDev % 256)).startSect = 0 ∧ (hd (bDev % 256)).nrSects = 81920 := by
      rw [table, minor]
      exact ⟨rfl, rfl⟩
    have covers : Covers hd bDev bBlocknr p ↔ _ := covers_iff_of_entry (by omega) whole (by decide)
    rwa [Nat.zero_add] at covers
  · refine covers_iff_of_entry (by omega) ?_ fits
    rw [table, minor]
    dsimp only
    rw [if_pos ⟨low, high⟩]
    exact ⟨hstart.symm, hnr.symm⟩
  · rintro ⟨nr, sec, head, cyl, addressed, -⟩
    have few := (rwHd_eq_some.mp addressed).1
    omega

/-- A first sector with one partition, of ten sectors after it. -/
def smallTable : Nat → UInt8 := fun a => if a = 510 then 0x55 else if a = 511 then 0xAA else if a = 0x1C6 then 1 else if a = 0x1CA then 10 else 0

theorem sysSetup_covers_small : ∃ hd, sysSetup smallTable hdInit = some hd ∧ (Covers hd 0x301 2 ⟨1, 6⟩ ∧ ¬ Covers hd 0x301 5 ⟨1, 11⟩) := by
  refine ⟨_, rfl, ?_⟩
  have covers (bBlocknr lba : Nat) := (sysSetup_covers smallTable _ rfl 0x301 bBlocknr ⟨1, lba⟩).2.1 1 1 10 (by decide) (by decide)
    (by decide) (by decide) (by decide) (by decide)
  exact ⟨(covers 2 6).mpr ⟨by decide, rfl, 1, by decide, rfl⟩, fun last => absurd ((covers 5 11).mp last).1 (by decide)⟩

end RheeKernel
