import RheeKernel.ArgRefusals
import RheeKernel.ElfRefusals
import RheeKernel.FileTable

open ByteMemory

namespace RheeKernel

/-- The process that calls `execve`, and what the call may take: its memory as it sees it (pages that are not
present read as zeros), its signal handlers, the descriptors, the references to buffers and inodes, and
the pages taken for `page[]` that are neither given back nor part of the process. -/
structure ExecState where
  mem : Nat → UInt8
  sigFn : Fin 32 → Nat
  files : Files
  bCount : Nat → Nat
  iCount : Nat → Nat
  argPages : Nat

/-- A call of `do_execve` by task `task`: what `namei` finds, whether the first block can be read, the file,
the argument pointers and the pages that `get_free_page` can give for `page[]`. -/
structure ExecCall where
  task : Nat
  inode : Option Nat
  readable : Bool
  elf : Executable
  argv : Nat
  envp : Nat
  free : Nat

/-- The call comes back with an error, starts the program at an entry point with a stack pointer, or does
not come back: in a panic, outside of `page[]`, or outside of the segment. -/
inductive ExecEnd
  | failed (s : ExecState) (err : Int)
  | started (s : ExecState) (entry sp : Nat)
  | stuck

namespace ExecState

variable {s s' : ExecState} {c : ExecCall}

def iget (s : ExecState) (i : Nat) : ExecState := { s with iCount := Function.update s.iCount i (s.iCount i + 1) }
def iput (s : ExecState) (i : Nat) : ExecState := { s with iCount := Function.update s.iCount i (s.iCount i - 1) }
def bread (s : ExecState) (b : Nat) : ExecState := { s with bCount := Function.update s.bCount b (s.bCount b + 1) }
def brelse (s : ExecState) (b : Nat) : ExecState := { s with bCount := Function.update s.bCount b (s.bCount b - 1) }

/-- The bits of `i_mode` that count for the caller, in the last place. -/
def execMode (cred : Cred) (ip : FileInode) : BitVec 32 :=
  if cred.uid ≠ 0 ∧ cred.euid ≠ 0 then
    if cred.euid = ip.uid then ip.mode >>> 6
    else if cred.egid = ip.gid then ip.mode >>> 3
    else ip.mode
  else if ip.mode &&& 0o111 ≠ 0 then 1
  else ip.mode

/-- `sys_close` with the `iput` of the last reference. -/
def close (s : ExecState) (t fd : Nat) : Option ExecState :=
  (s.files.sysClose t fd).map fun (files, _) =>
    match s.files.filp t fd with
    | none => { s with files := files }
    | some j => if (files.file j).count = 0 then { s with files := files }.iput (files.file j).inode else { s with files := files }

/-- The loop that closes the marked descriptors below `n`. -/
def closeMarked (s : ExecState) (t : Nat) : Nat → Option ExecState
  | 0 => some s
  | n + 1 => (s.closeMarked t n).bind fun s => if s.files.closeOnExec t n then s.close t n else some s

def clearHandlers (s : ExecState) : ExecState := { s with sigFn := fun _ => 0 }

/-- The mask is cleared and the page tables are given back. -/
def clearSpace (s : ExecState) (t : Nat) : ExecState :=
  { s with
    files := { s.files with closeOnExec := Function.update s.files.closeOnExec t fun _ => false }
    mem := fun _ => 0 }

/-- The steps behind the point of no return, up to the loading of the program. -/
def reset (s : ExecState) (t : Nat) : Option ExecState :=
  (s.clearHandlers.closeMarked t nrOpen).map fun s => s.clearSpace t

/-- The rest of the page behind the program is cleared. -/
def clearTail (size : Nat) (mem : Nat → UInt8) : Nat → UInt8 := fun x =>
  if size ≤ x ∧ x < (size + 4095) / 4096 * 4096 then 0 else mem x

/-- What is left to do once the program is loaded. -/
def start (s : ExecState) (i b argc envc : Nat) (a : ArgPages) (p : Nat) (mem : Nat → UInt8) (bs : BinSection) : ExecEnd :=
  match createTables (changeLdt a mem) (p + segLimit - argBytes) argc envc with
  | none => .stuck
  | some (mem, sp) =>
    if segLimit < (bs.size + 4095) / 4096 * 4096 then .stuck
    else .started { (s.brelse b).iput i with mem := clearTail bs.size mem, argPages := 0 } bs.entry sp

/-- `do_execve` once the arguments are copied to `page[]`. -/
def runExecve (s : ExecState) (c : ExecCall) (i argc envc : Nat) (a : ArgPages) (p : Nat) : ExecEnd :=
  match s.reset c.task with
  | none => .stuck
  | some s =>
    match c.elf.loadElfBinary (c.elf.ip.zone 0) s.mem with
    | .done (mem, bs) => s.start i (c.elf.ip.zone 0) argc envc a p mem bs
    | .refused mem => .failed { (s.brelse (c.elf.ip.zone 0)).iput i with mem := mem } (-13)
    | _ => .stuck

def doExecve (s : ExecState) (c : ExecCall) : ExecEnd :=
  match c.inode.bind fun i => (s.files.inode i).map fun ip => (i, ip) with
  | none => .failed s (-2)
  | some (i, ip) =>
    let s := s.iget i
    if ¬ ip.isReg then .failed (s.iput i) (-13)
    else if execMode (s.files.cred c.task) ip &&& 1 = 0 then .failed (s.iput i) (-8)
    else if ¬ c.readable then .failed (s.iput i) (-13)
    else
      let s := s.bread (c.elf.ip.zone 0)
      match count s.mem c.argv, count s.mem c.envp with
      | some argc, some envc =>
        match copyArgs s.mem c.argv argc c.envp envc c.free with
        | none => .stuck
        | some (a, p) =>
          -- The pages are given back here, the buffer is not.
          if p = 0 then .failed (s.iput i) (-1)
          else { s with argPages := s.argPages + (c.free - a.free) }.runExecve c i argc envc a p
      | _, _ => .stuck

/-- A call that fails leaves everything as it was. -/
def AllOrNothing (s : ExecState) (c : ExecCall) : Prop := ∀ s' err, s.doExecve c = .failed s' err → s' = s

/-- The call ends before it takes the first block, or else its arguments fit and the program can be loaded. -/
def SafeExec (s : ExecState) (c : ExecCall) : Prop :=
  ∀ i ip, c.inode = some i → s.files.inode i = some ip → ip.isReg = true → execMode (s.files.cred c.task) ip &&& 1 ≠ 0 →
    c.readable = true →
    ArgsFit s.mem c.argv c.envp c.free ∧ c.elf.Complete (ehdrAt (c.elf.vol.byte (c.elf.ip.zone 0)))

theorem iput_iget {i : Nat} : (s.iget i).iput i = s := by
  simp [iget, iput]

theorem close_sigFn {t fd : Nat} (h : s.close t fd = some s') : s'.sigFn = s.sigFn := by
  obtain ⟨⟨files, r⟩, _, h⟩ := Option.map_eq_some_iff.mp h
  dsimp only at h
  split at h
  next => cases h; rfl
  next j _ =>
    split at h
    next => cases h; rfl
    next => cases h; rfl

theorem closeMarked_sigFn {t n : Nat} (h : s.closeMarked t n = some s') : s'.sigFn = s.sigFn := by
  induction n generalizing s' with
  | zero => cases h; rfl
  | succ n ih =>
    obtain ⟨s₁, hs₁, h⟩ := Option.bind_eq_some_iff.mp h
    split at h
    next => exact (close_sigFn h).trans (ih hs₁)
    next => cases h; exact ih hs₁

theorem reset_sigFn {t : Nat} (h : s.reset t = some s') : s'.sigFn = fun _ => 0 := by
  obtain ⟨s₁, hs₁, h⟩ := Option.map_eq_some_iff.mp h
  cases h
  exact closeMarked_sigFn hs₁

/-- Behind the point of no return nothing depends on the old handlers. -/
theorem runExecve_sigFn {i argc envc p : Nat} {a : ArgPages} {f : Fin 32 → Nat} :
    { s with sigFn := f }.runExecve c i argc envc a p = s.runExecve c i argc envc a p := by
  have hreset : { s with sigFn := f }.reset c.task = s.reset c.task := rfl
  unfold runExecve
  rw [hreset]

/-- A failure behind the point of no return is one of the ELF file, and the handlers are gone. -/
theorem runExecve_failed {i argc envc p : Nat} {a : ArgPages} {err : Int}
    (h : s.runExecve c i argc envc a p = .failed s' err) :
    s'.sigFn = (fun _ => 0) ∧ ¬ c.elf.Complete (ehdrAt (c.elf.vol.byte (c.elf.ip.zone 0))) := by
  unfold runExecve at h
  split at h
  next => cases h
  next s₁ hreset =>
    split at h
    next mem bs _ =>
      unfold start at h
      split at h
      next => cases h
      next =>
        split at h
        next => cases h
        next => cases h
    next mem hload =>
      have hcleared := reset_sigFn hreset
      cases h
      exact ⟨hcleared, Executable.not_complete_of_refused hload⟩
    next => cases h

theorem runExecve_complete {i argc envc p : Nat} {a : ArgPages} (h : s.runExecve c i argc envc a p ≠ .stuck)
    (hnot : ∀ s' err, s.runExecve c i argc envc a p ≠ .failed s' err) :
    c.elf.Complete (ehdrAt (c.elf.vol.byte (c.elf.ip.zone 0))) := by
  unfold runExecve at h hnot
  cases hreset : s.reset c.task with
  | none =>
    rw [hreset] at h
    exact absurd rfl h
  | some s₁ =>
    rw [hreset] at h hnot
    dsimp only at h hnot
    cases hload : c.elf.loadElfBinary (c.elf.ip.zone 0) s₁.mem with
    | done r => exact Executable.complete_of_done hload
    | refused mem =>
      rw [hload] at hnot
      exact absurd rfl (hnot _ _)
    | panic => rw [hload] at h; exact absurd rfl h
    | wild => rw [hload] at h; exact absurd rfl h
    | fault => rw [hload] at h; exact absurd rfl h

/-- The call with a file that is found, regular, executable and readable. -/
theorem doExecve_found {i : Nat} {ip : FileInode} (hi : c.inode = some i) (hip : s.files.inode i = some ip)
    (hreg : ip.isReg = true) (hexec : execMode (s.files.cred c.task) ip &&& 1 ≠ 0) (hread : c.readable = true) :
    s.doExecve c =
      match count s.mem c.argv, count s.mem c.envp with
      | some argc, some envc =>
        match copyArgs s.mem c.argv argc c.envp envc c.free with
        | none => .stuck
        | some (a, p) =>
          if p = 0 then .failed (((s.iget i).bread (c.elf.ip.zone 0)).iput i) (-1)
          else { (s.iget i).bread (c.elf.ip.zone 0) with argPages := s.argPages + (c.free - a.free) }.runExecve c i argc envc a p
      | _, _ => .stuck := by
  have hfind : (c.inode.bind fun i => (s.files.inode i).map fun ip => (i, ip)) = some (i, ip) := by
    rw [hi, Option.bind_some, hip, Option.map_some]
  unfold doExecve
  rw [hfind]
  dsimp only
  rw [if_neg (not_not.mpr hreg), if_neg (show ¬ execMode ((s.iget i).files.cred c.task) ip &&& 1 = 0 from hexec),
    if_neg (not_not.mpr hread)]
  rfl

/-- A failure before the first block is taken leaves no trace. -/
theorem doExecve_early {err : Int} (h : s.doExecve c = .failed s' err)
    (hearly : ¬ ∃ i ip, c.inode = some i ∧ s.files.inode i = some ip ∧ ip.isReg = true ∧
      execMode (s.files.cred c.task) ip &&& 1 ≠ 0 ∧ c.readable = true) : s' = s := by
  unfold doExecve at h
  split at h
  next => cases h; rfl
  next i ip hfind =>
    obtain ⟨k, hk, hfind⟩ := Option.bind_eq_some_iff.mp hfind
    obtain ⟨ip', hip, hfind⟩ := Option.map_eq_some_iff.mp hfind
    cases hfind
    dsimp only at h
    split at h
    next => cases h; exact iput_iget
    next hreg =>
      split at h
      next => cases h; exact iput_iget
      next hexec =>
        split at h
        next => cases h; exact iput_iget
        next hread => exact absurd ⟨i, ip, hk, hip, not_not.mp hreg, hexec, not_not.mp hread⟩ hearly

theorem copyArgs_fits {mem : Nat → UInt8} {argv envp argc envc free p : Nat} {a : ArgPages} (hargc : count mem argv = some argc)
    (henvc : count mem envp = some envc) (h : copyArgs mem argv argc envp envc free = some (a, p)) :
    p ≠ 0 ↔ ArgsFit mem argv envp free := by
  rw [← copyArgs_iff hargc henvc]
  constructor
  · intro hp
    exact ⟨a, p, h, hp⟩
  · intro hready
    obtain ⟨a', p', h', hp⟩ := hready
    cases Option.some.inj (h.symm.trans h')
    exact hp

/-- The buffer of the first block is still held when the arguments do not fit. -/
theorem bread_iput_ne {i b : Nat} : ((s.iget i).bread b).iput i ≠ s := by
  intro heq
  have hcount : s.bCount b + 1 = s.bCount b := by
    have := congrArg (fun s => s.bCount b) heq
    simpa [iget, iput, bread] using this
  omega

theorem allOrNothing_of_safe (hsafe : s.SafeExec c) : s.AllOrNothing c := by
  intro s' err h
  by_cases hfound : ∃ i ip, c.inode = some i ∧ s.files.inode i = some ip ∧ ip.isReg = true ∧
      execMode (s.files.cred c.task) ip &&& 1 ≠ 0 ∧ c.readable = true
  · obtain ⟨i, ip, hi, hip, hreg, hexec, hread⟩ := hfound
    obtain ⟨hfit, hcomplete⟩ := hsafe i ip hi hip hreg hexec hread
    rw [doExecve_found hi hip hreg hexec hread] at h
    split at h
    next argc envc hargc henvc =>
      split at h
      next => cases h
      next a p hcopy =>
        rw [if_neg ((copyArgs_fits hargc henvc hcopy).mpr hfit)] at h
        exact absurd hcomplete (runExecve_failed h).2
    next => cases h
  · exact doExecve_early h hfound

/-- A caller with a handler loses it when the program cannot be loaded, and the buffer is lost when the
arguments do not fit. -/
theorem safe_of_allOrNothing (h : s.doExecve c ≠ .stuck) (hall : ∀ f, { s with sigFn := f }.AllOrNothing c) : s.SafeExec c := by
  intro i ip hi hip hreg hexec hread
  rw [doExecve_found hi hip hreg hexec hread] at h
  split at h
  next argc envc hargc henvc =>
    split at h
    next => exact absurd rfl h
    next a p hcopy =>
      have hrun : ∀ f, { s with sigFn := f }.doExecve c =
          if p = 0 then .failed ((({ s with sigFn := f }.iget i).bread (c.elf.ip.zone 0)).iput i) (-1)
          else { (s.iget i).bread (c.elf.ip.zone 0) with argPages := s.argPages + (c.free - a.free) }.runExecve c i argc envc a p := by
        intro f
        rw [@doExecve_found { s with sigFn := f } c i ip hi hip hreg hexec hread]
        dsimp only
        rw [hargc, henvc]
        dsimp only
        rw [hcopy]
        rfl
      by_cases hp : p = 0
      · have hfail := hrun s.sigFn
        rw [if_pos hp] at hfail
        exact absurd (hall s.sigFn _ _ hfail) bread_iput_ne
      · rw [if_neg hp] at h
        refine ⟨(copyArgs_fits hargc henvc hcopy).mp hp, runExecve_complete h fun s' err hfail => ?_⟩
        have hone := hrun fun _ => 1
        rw [if_neg hp, hfail] at hone
        have hsame := congrArg sigFn (hall (fun _ => 1) s' err hone)
        rw [(runExecve_failed hfail).1] at hsame
        have hzero : (0 : Nat) = 1 := congrFun hsame 0
        omega
  next => exact absurd rfl h

end ExecState

namespace ExecEnd

def failure : ExecEnd → Option (ExecState × Int)
  | failed s err => some (s, err)
  | _ => none

def isStarted : ExecEnd → Bool
  | started _ _ _ => true
  | _ => false

theorem failure_eq_some {r : ExecEnd} {s : ExecState} {err : Int} (h : r.failure = some (s, err)) : r = .failed s err := by
  cases r with
  | failed s err => cases Option.some.inj h; rfl
  | started s entry sp => cases h
  | stuck => cases h

end ExecEnd

/-- A process with a handler, no descriptors, and the memory of `sampleMemory`; inode 5 is a program that
all may execute. -/
def sampleExec : ExecState where
  mem := sampleMemory
  sigFn := fun _ => 1
  files :=
    { inode := fun i => if i = 5 then some ⟨0o100755, 0, 0, 1, 1, 0, false, 2048, fun _ => 0⟩ else none
      file := fun _ => ⟨0, 0, 0, 0, 0⟩
      filp := fun _ _ => none
      closeOnExec := fun _ _ => false
      cred := fun _ => ⟨1, 1, 1, 1, 0, false, -1, 0⟩
      opening := fun _ _ => none }
  bCount := fun _ => 0
  iCount := fun _ => 0
  argPages := 0

def sampleCall (elf : Executable) (argv envp free : Nat) : ExecCall where
  task := 1
  inode := some 5
  readable := true
  elf := elf
  argv := argv
  envp := envp
  free := free

/-- The file of `sampleElf` without its two blocks. -/
def emptyElf : Executable := { sampleElf 4 with ip := ⟨fun k => if k = 0 then 30 else 0⟩ }

end RheeKernel
