import Mathlib.Tactic.IntervalCases
import RheeKernel.FileCounts

namespace RheeKernel

/-- What `ret_from_sys_call` sees: the registers and flags that it uses, the kernel stack from `%esp` up, the words of the kernel's data and
of the task's own through `%fs`, and the variables `current` and `task[0]`. -/
structure Cpu where
  eax : BitVec 32
  ebx : BitVec 32
  ecx : BitVec 32
  edx : BitVec 32
  zf : Bool
  cf : Bool
  stack : List (BitVec 32)
  word : BitVec 32 → BitVec 32
  user : BitVec 32 → BitVec 32
  current : BitVec 32
  task : BitVec 32

/-- A piece of assembly code; `failure` is an access beyond the stack. -/
abbrev Asm := StateT Cpu Option

/-- An operand. -/
structure Loc where
  read : Asm (BitVec 32)
  write : BitVec 32 → Asm Unit

namespace SignalReturn

def eax : Loc := ⟨do return (← get).eax, fun v => modify fun s => { s with eax := v }⟩
def ebx : Loc := ⟨do return (← get).ebx, fun v => modify fun s => { s with ebx := v }⟩
def ecx : Loc := ⟨do return (← get).ecx, fun v => modify fun s => { s with ecx := v }⟩
def edx : Loc := ⟨do return (← get).edx, fun v => modify fun s => { s with edx := v }⟩
def current : Loc := ⟨do return (← get).current, fun _ => failure⟩
def task : Loc := ⟨do return (← get).task, fun _ => failure⟩
def imm (v : BitVec 32) : Loc := ⟨return v, fun _ => failure⟩

/-- `disp(%esp)`. -/
def esp (disp : Nat) : Loc where
  read := do
    let s ← get
    match s.stack[disp / 4]? with
    | some v => return v
    | none => failure
  write := fun v => modify fun s => { s with stack := s.stack.set (disp / 4) v }

/-- `disp(base,index,4)`. -/
def table (disp : BitVec 32) (base index : Loc) : Loc where
  read := do
    let b ← base.read
    let i ← index.read
    return (← get).word (b + 4 * i + disp)
  write := fun v => do
    let b ← base.read
    let i ← index.read
    modify fun s => { s with word := Function.update s.word (b + 4 * i + disp) v }

/-- `disp(base)`. -/
def mem (disp : BitVec 32) (base : Loc) : Loc where
  read := do
    let b ← base.read
    return (← get).word (b + disp)
  write := fun v => do
    let b ← base.read
    modify fun s => { s with word := Function.update s.word (b + disp) v }

/-- `%fs:disp(base)`. -/
def fs (disp : BitVec 32) (base : Loc) : Loc where
  read := do
    let b ← base.read
    return (← get).user (b + disp)
  write := fun v => do
    let b ← base.read
    modify fun s => { s with user := Function.update s.user (b + disp) v }

def flags (zf cf : Bool) : Asm Unit := modify fun s => { s with zf := zf, cf := cf }

def equal : Asm Bool := do return (← get).zf

def below : Asm Bool := do return (← get).cf

def movl (src dst : Loc) : Asm Unit := do dst.write (← src.read)

def cmpl (src dst : Loc) : Asm Unit := do
  let a ← src.read
  let b ← dst.read
  flags (b = a) (b < a)

/-- The low halves are compared. -/
def cmpw (src dst : Loc) : Asm Unit := do
  let a ← src.read
  let b ← dst.read
  flags (b.setWidth 16 = a.setWidth 16) (b.setWidth 16 < a.setWidth 16)

def testl (src dst : Loc) : Asm Unit := do
  let a ← src.read
  let b ← dst.read
  flags (b &&& a = 0) false

/-- The number of the lowest bit that is set. -/
def lowest (v : BitVec 32) : Option Nat := Files.firstIndex v.getLsbD 32 0

def bsfl (src dst : Loc) : Asm Unit := do
  let v ← src.read
  let s ← get
  match lowest v with
  | none => flags true s.cf
  | some i =>
    flags false s.cf
    dst.write (BitVec.ofNat 32 i)

def btrl (bit dst : Loc) : Asm Unit := do
  let i ← bit.read
  let v ← dst.read
  let s ← get
  flags s.zf (v.getLsbD (i.toNat % 32))
  dst.write (v &&& ~~~((1 : BitVec 32) <<< (i.toNat % 32)))

def xchgl (a b : Loc) : Asm Unit := do
  let x ← a.read
  let y ← b.read
  a.write y
  b.write x

def subl (src dst : Loc) : Asm Unit := do
  let a ← src.read
  let b ← dst.read
  flags (b - a = 0) (b < a)
  dst.write (b - a)

def incl (dst : Loc) : Asm Unit := do
  let v ← dst.read
  let s ← get
  flags (v + 1 = 0) s.cf
  dst.write (v + 1)

def pushl (src : Loc) : Asm Unit := do
  let v ← src.read
  modify fun s => { s with stack := v :: s.stack }

def popl (dst : Loc) : Asm Unit := do
  let s ← get
  match s.stack with
  | [] => failure
  | v :: stack =>
    set { s with stack := stack }
    dst.write v

/-- `addl $4,%esp`. -/
def drop : Asm Unit := modify fun s => { s with stack := s.stack.tail }

/-- The registers that a C function may use as it likes, as it leaves them. -/
structure Scratch where
  eax : BitVec 32
  ecx : BitVec 32
  edx : BitVec 32
  zf : Bool
  cf : Bool

/-- A call of `verify_area` that comes back. -/
def verifyArea (v : Scratch) : Asm Unit :=
  modify fun s => { s with eax := v.eax, ecx := v.ecx, edx := v.edx, zf := v.zf, cf := v.cf }

/-- Offsets from `%esp` and into `task_struct`. -/
def EAX : Nat := 0x00
def ECX : Nat := 0x08
def EDX : Nat := 0x0C
def EIP : Nat := 0x1C
def CS : Nat := 0x20
def EFLAGS : Nat := 0x24
def OLDESP : Nat := 0x28
def OLDSS : Nat := 0x2C
def sigChld : BitVec 32 := 17
def signal : BitVec 32 := 12
def restorer : BitVec 32 := 16
def sigFn : BitVec 32 := 20

/-- Where the code goes on: at `2:`, at `default_signal`, at `3:`, or in `do_exit`. -/
inductive Jump
  | signals
  | defaultSignal
  | restore
  | exit (code : BitVec 32)
deriving DecidableEq

def retFromSysCall : Asm Jump := do
  movl current eax
  cmpl task eax
  if ← equal then return .restore
  movl (esp CS) ebx
  testl (imm 3) ebx
  if ← equal then return .restore
  cmpw (imm 0x17) (esp OLDSS)
  if ← equal then return .signals else return .restore

/-- The handler is called: from `movl $0,sig_fn(%eax,%ecx,4)` on. -/
def deliver (v : Scratch) : Asm Jump := do
  movl (imm 0) (table sigFn eax ecx)
  incl ecx
  xchgl ebx (esp EIP)
  subl (imm 28) (esp OLDESP)
  movl (esp OLDESP) edx
  pushl eax
  pushl ecx
  pushl (imm 28)
  pushl edx
  verifyArea v
  popl edx
  drop
  popl ecx
  popl eax
  movl (mem restorer eax) eax
  movl eax (fs 0 edx)
  movl ecx (fs 4 edx)
  movl (esp EAX) eax
  movl eax (fs 8 edx)
  movl (esp ECX) eax
  movl eax (fs 12 edx)
  movl (esp EDX) eax
  movl eax (fs 16 edx)
  movl (esp EFLAGS) eax
  movl eax (fs 20 edx)
  movl ebx (fs 24 edx)
  return .restore

/-- The handler of the signal that has been taken. -/
def dispatch (v : Scratch) : Asm Jump := do
  movl (table sigFn eax ecx) ebx
  cmpl (imm 1) ebx
  if ← below then return .defaultSignal
  if ← equal then return .signals
  deliver v

/-- The code at `2:`. -/
def nextSignal (v : Scratch) : Asm Jump := do
  movl (mem signal eax) ebx
  bsfl ebx ecx
  if ← equal then return .restore
  btrl ecx ebx
  movl ebx (mem signal eax)
  dispatch v

def defaultSignal : Asm Jump := do
  incl ecx
  cmpl (imm sigChld) ecx
  if ← equal then return .signals
  pushl ecx
  let code ← (esp 0).read
  return .exit code

/-- From a label on, until the code is at `3:` or in `do_exit`, in at most `n` turns. -/
def follow (v : Scratch) : Nat → Jump → Asm Jump
  | 0, _ => failure
  | n + 1, .signals => do follow v n (← nextSignal v)
  | n + 1, .defaultSignal => do follow v n (← defaultSignal)
  | _ + 1, j => return j

/-- The registers that a system call or the timer interrupt has left on the kernel stack. -/
structure Saved where
  eax : BitVec 32
  ebx : BitVec 32
  ecx : BitVec 32
  edx : BitVec 32
  fs : BitVec 32
  es : BitVec 32
  ds : BitVec 32
  eip : BitVec 32
  cs : BitVec 32
  eflags : BitVec 32
  oldesp : BitVec 32
  oldss : BitVec 32

def Saved.words (f : Saved) : List (BitVec 32) :=
  [f.eax, f.ebx, f.ecx, f.edx, f.fs, f.es, f.ds, f.eip, f.cs, f.eflags, f.oldesp, f.oldss]

variable {s : Cpu} {f : Saved} {rest : List (BitVec 32)} {v : Scratch} {n i : Nat}

/-- The tests before the signals are looked at. -/
theorem retFromSysCall_run (hs : s.stack = f.words ++ rest) (hidle : s.current ≠ s.task) (hcpl : f.cs &&& 3 ≠ 0)
    (hss : f.oldss.setWidth 16 = (0x17 : BitVec 32).setWidth 16) :
    retFromSysCall s = some (.signals, { s with eax := s.current, ebx := f.cs, zf := true, cf := false }) := by
  obtain ⟨a, b, c, d, zf, cf, stack, word, user, cur, t⟩ := s
  subst hs
  change (if decide (cur = t) = true then (return .restore : Asm Jump) else _) (⟨cur, b, c, d, _, _, f.words ++ rest, word, user, cur, t⟩ : Cpu) = _
  rw [if_neg (by simpa using hidle)]
  change (if decide (f.cs &&& 3 = 0) = true then (return .restore : Asm Jump) else _)
    (⟨cur, f.cs, c, d, _, _, f.words ++ rest, word, user, cur, t⟩ : Cpu) = _
  rw [if_neg (by simpa using hcpl)]
  change (if decide (f.oldss.setWidth 16 = (0x17 : BitVec 32).setWidth 16) = true then (return .signals : Asm Jump) else _)
    (⟨cur, f.cs, c, d, _, _, f.words ++ rest, word, user, cur, t⟩ : Cpu) = _
  rw [if_pos (by simpa using hss)]
  have hzf : decide (f.oldss.setWidth 16 = (0x17 : BitVec 32).setWidth 16) = true := decide_eq_true hss
  have hcf : decide (f.oldss.setWidth 16 < (0x17 : BitVec 32).setWidth 16) = false := by
    rw [hss]
    decide
  change some (Jump.signals, (⟨cur, f.cs, c, d, decide (f.oldss.setWidth 16 = (0x17 : BitVec 32).setWidth 16),
    decide (f.oldss.setWidth 16 < (0x17 : BitVec 32).setWidth 16), f.words ++ rest, word, user, cur, t⟩ : Cpu)) = _
  rw [hzf, hcf]

theorem bsfl_none (hnone : lowest s.ebx = none) : bsfl ebx ecx s = some ((), { s with zf := true }) := by
  change (match lowest s.ebx with
    | none => flags true s.cf
    | some i => _ : Asm Unit) s = _
  rw [hnone]
  rfl

theorem bsfl_some (hsome : lowest s.ebx = some i) : bsfl ebx ecx s = some ((), { s with ecx := BitVec.ofNat 32 i, zf := false }) := by
  change (match lowest s.ebx with
    | none => flags true s.cf
    | some i => (do flags false s.cf; ecx.write (BitVec.ofNat 32 i)) : Asm Unit) s = _
  rw [hsome]
  rfl

/-- There are no signals left. -/
theorem nextSignal_none (hnone : lowest (s.word (s.eax + signal)) = none) :
    nextSignal v s = some (.restore, { s with ebx := s.word (s.eax + signal), zf := true }) := by
  change (bsfl ebx ecx { s with ebx := s.word (s.eax + signal) }).bind _ = _
  rw [bsfl_none hnone]
  rfl

/-- The lowest signal is taken from the pending ones. -/
theorem nextSignal_some (hsome : lowest (s.word (s.eax + signal)) = some i) :
    nextSignal v s = dispatch v { s with
      ebx := s.word (s.eax + signal) &&& ~~~((1 : BitVec 32) <<< ((BitVec.ofNat 32 i).toNat % 32)), ecx := BitVec.ofNat 32 i, zf := false,
      cf := (s.word (s.eax + signal)).getLsbD ((BitVec.ofNat 32 i).toNat % 32)
      word := Function.update s.word (s.eax + signal)
        (s.word (s.eax + signal) &&& ~~~((1 : BitVec 32) <<< ((BitVec.ofNat 32 i).toNat % 32))) } := by
  change (bsfl ebx ecx { s with ebx := s.word (s.eax + signal) }).bind _ = _
  rw [bsfl_some hsome]
  rfl

theorem dispatch_run : dispatch v s = (if s.word (s.eax + 4 * s.ecx + sigFn) < 1 then some (.defaultSignal, { s with
      ebx := s.word (s.eax + 4 * s.ecx + sigFn), zf := decide (s.word (s.eax + 4 * s.ecx + sigFn) = 1), cf := true })
    else if s.word (s.eax + 4 * s.ecx + sigFn) = 1 then some (.signals, { s with
      ebx := s.word (s.eax + 4 * s.ecx + sigFn), zf := true, cf := false })
    else deliver v { s with ebx := s.word (s.eax + 4 * s.ecx + sigFn), zf := false, cf := false }) := by
  have htests : dispatch v s = (do if ← below then return .defaultSignal else (do if ← equal then return .signals else deliver v) : Asm Jump) { s with
      ebx := s.word (s.eax + 4 * s.ecx + sigFn), zf := decide (s.word (s.eax + 4 * s.ecx + sigFn) = 1),
      cf := decide (s.word (s.eax + 4 * s.ecx + sigFn) < 1) } := rfl
  have hbelow : ∀ (x y : Asm Jump) (u : Cpu), (do if ← below then x else y : Asm Jump) u = if u.cf = true then x u else y u := by
    intro x y u
    change (if u.cf = true then x else y) u = _
    split <;> rfl
  have hequal : ∀ (x y : Asm Jump) (u : Cpu), (do if ← equal then x else y : Asm Jump) u = if u.zf = true then x u else y u := by
    intro x y u
    change (if u.zf = true then x else y) u = _
    split <;> rfl
  rw [htests, hbelow, hequal]
  dsimp only
  by_cases hlt : s.word (s.eax + 4 * s.ecx + sigFn) < 1
  · rw [if_pos hlt, if_pos (decide_eq_true hlt), decide_eq_true hlt]
    rfl
  · rw [if_neg hlt, if_neg (by simpa using hlt), decide_eq_false hlt]
    by_cases hone : s.word (s.eax + 4 * s.ecx + sigFn) = 1
    · rw [if_pos hone, if_pos (decide_eq_true hone), decide_eq_true hone]
      rfl
    · rw [if_neg hone, if_neg (by simpa using hone), decide_eq_false hone]

/-- The handler is called, with the frame for it on the task's own stack. -/
theorem deliver_run (hs : s.stack = f.words ++ rest) : deliver v s = some (.restore, { s with
    eax := f.eflags
    ebx := f.eip
    ecx := s.ecx + 1
    edx := f.oldesp - 28
    zf := v.zf
    cf := v.cf
    stack := { f with eip := s.ebx, oldesp := f.oldesp - 28 : Saved }.words ++ rest
    word := Function.update s.word (s.eax + 4 * s.ecx + sigFn) 0
    user := Function.update (Function.update (Function.update (Function.update (Function.update (Function.update (Function.update s.user
      (f.oldesp - 28 + 0) (Function.update s.word (s.eax + 4 * s.ecx + sigFn) 0 (s.eax + restorer))) (f.oldesp - 28 + 4) (s.ecx + 1))
      (f.oldesp - 28 + 8) f.eax) (f.oldesp - 28 + 12) f.ecx) (f.oldesp - 28 + 16) f.edx) (f.oldesp - 28 + 20) f.eflags)
      (f.oldesp - 28 + 24) f.eip }) := by
  obtain ⟨a, b, c, d, zf, cf, stack, word, user, cur, t⟩ := s
  subst hs
  rfl

theorem defaultSignal_run : defaultSignal s = (if s.ecx + 1 = sigChld then
      some (.signals, { s with ecx := s.ecx + 1, zf := true, cf := false })
    else some (.exit (s.ecx + 1), { s with ecx := s.ecx + 1, zf := false, cf := decide (s.ecx + 1 < sigChld), stack := (s.ecx + 1) :: s.stack })) := by
  change (if decide (s.ecx + 1 = sigChld) = true then (return .signals : Asm Jump) else _) { s with
    ecx := s.ecx + 1, zf := decide (s.ecx + 1 = sigChld), cf := decide (s.ecx + 1 < sigChld) } = _
  by_cases hchild : s.ecx + 1 = sigChld
  · have hnot : ¬ s.ecx + 1 < sigChld := by rw [hchild]; decide
    rw [if_pos hchild, if_pos (decide_eq_true hchild), decide_eq_true hchild, decide_eq_false hnot]
    rfl
  · rw [if_neg hchild, if_neg (by simpa using hchild), decide_eq_false hchild]
    rfl

end SignalReturn

namespace Cpu

/-- The signals that are pending for the running task, and their handlers. -/
def pending (s : Cpu) : BitVec 32 := s.word (s.current + SignalReturn.signal)

def handler (s : Cpu) (i : Nat) : BitVec 32 := s.word (s.current + 4 * BitVec.ofNat 32 i + SignalReturn.sigFn)

/-- The signal with bit `i` does something: it is not ignored, and it is not SIGCHLD with the default handler. -/
def Acts (s : Cpu) (i : Nat) : Prop := s.handler i ≠ 1 ∧ ¬ (i + 1 = 17 ∧ s.handler i = 0)

/-- The lowest pending signal that does something. -/
structure Chosen (s : Cpu) (i : Nat) : Prop where
  lt : i < 32
  pending : s.pending.getLsbD i = true
  acts : s.Acts i
  lowest : ∀ j < i, s.pending.getLsbD j = true → ¬ s.Acts j

end Cpu

namespace SignalReturn

/-- The word without its bits below `k`. -/
def clearBelow (k : Nat) (w : BitVec 32) : BitVec 32 := w >>> k <<< k

/-- The 28 bytes for the handler. -/
def handlerFrame (s : Cpu) (f : Saved) (i : Nat) : List (BitVec 32) :=
  [s.word (s.current + restorer), BitVec.ofNat 32 (i + 1), f.eax, f.ecx, f.edx, f.eflags, f.eip]

/-- What the return to the task does with its signals, up to the code at `3:` or the call of `do_exit`. -/
inductive Delivered (s : Cpu) (f : Saved) (rest : List (BitVec 32)) : Jump → Cpu → Prop
  | none {s' : Cpu} (idle : ∀ i < 32, s.pending.getLsbD i = true → ¬ s.Acts i) (current : s'.current = s.current) (pending : s'.pending = 0)
    (handlers : ∀ i < 32, s'.handler i = s.handler i) (frame : s'.stack = f.words ++ rest) (user : s'.user = s.user) :
    Delivered s f rest .restore s'
  | exits {s' : Cpu} {i : Nat} (chosen : s.Chosen i) (default : s.handler i = 0) (current : s'.current = s.current)
    (pending : s'.pending = clearBelow (i + 1) s.pending) (handlers : ∀ i < 32, s'.handler i = s.handler i) (user : s'.user = s.user) :
    Delivered s f rest (.exit (BitVec.ofNat 32 (i + 1))) s'
  | handled {s' : Cpu} {i : Nat} (chosen : s.Chosen i) (set : s.handler i ≠ 0) (current : s'.current = s.current)
    (pending : s'.pending = clearBelow (i + 1) s.pending) (handlers : ∀ j < 32, s'.handler j = if j = i then 0 else s.handler j)
    (frame : s'.stack = { f with eip := s.handler i, oldesp := f.oldesp - 28 : Saved }.words ++ rest)
    (user : ∀ k (hk : k < 7), s'.user (f.oldesp - 28 + 4 * BitVec.ofNat 32 k) = (handlerFrame s f i).get ⟨k, hk⟩)
    (others : ∀ a, (∀ k < 7, a ≠ f.oldesp - 28 + 4 * BitVec.ofNat 32 k) → s'.user a = s.user a) :
    Delivered s f rest .restore s'

/-- Before the code at `2:` the signals with bits below `k` have been passed over. -/
structure Scanned (s : Cpu) (k : Nat) (u : Cpu) : Prop where
  eax : u.eax = s.current
  current : u.current = s.current
  stack : u.stack = s.stack
  user : u.user = s.user
  pending : u.word (s.current + signal) = clearBelow k s.pending
  others : ∀ a, a ≠ s.current + signal → u.word a = s.word a
  skipped : ∀ j < k, s.pending.getLsbD j = true → ¬ s.Acts j

variable {s u : Cpu} {f : Saved} {rest : List (BitVec 32)} {v : Scratch} {i j k m n : Nat} {w : BitVec 32}

theorem clearBelow_bit (hj : j < 32) : (clearBelow k w).getLsbD j = (decide (k ≤ j) && w.getLsbD j) := by
  unfold clearBelow
  rw [BitVec.getLsbD_shiftLeft, BitVec.getLsbD_ushiftRight]
  by_cases hk : k ≤ j
  · simp [hk, hj]
  · simp [hk]

theorem lowest_some (h : lowest w = some i) : i < 32 ∧ w.getLsbD i = true ∧ ∀ j < i, w.getLsbD j = false := by
  obtain ⟨_, hlt, hbit⟩ := Files.firstIndex_spec h
  exact ⟨by omega, hbit, fun j hj => Files.firstIndex_before h (Nat.zero_le j) hj⟩

theorem lowest_none (h : lowest w = none) : w = 0 := by
  apply BitVec.eq_of_getLsbD_eq
  intro j hj
  rw [Files.firstIndex_none h (Nat.zero_le j) (by omega)]
  simp

/-- Clearing the lowest bit that is left. -/
theorem clear_lowest (h : lowest (clearBelow k w) = some i) :
    k ≤ i ∧ i < 32 ∧ w.getLsbD i = true ∧ (∀ j, k ≤ j → j < i → w.getLsbD j = false) ∧
      clearBelow k w &&& ~~~((1 : BitVec 32) <<< ((BitVec.ofNat 32 i).toNat % 32)) = clearBelow (i + 1) w := by
  obtain ⟨hlt, hbit, hbefore⟩ := lowest_some h
  rw [clearBelow_bit hlt, Bool.and_eq_true, decide_eq_true_eq] at hbit
  have hclear : ∀ j, k ≤ j → j < i → w.getLsbD j = false := by
    intro j hkj hji
    have hj := hbefore j hji
    rwa [clearBelow_bit (by omega), decide_eq_true hkj, Bool.true_and] at hj
  refine ⟨hbit.1, hlt, hbit.2, hclear, ?_⟩
  have hi : (BitVec.ofNat 32 i).toNat % 32 = i := by
    rw [BitVec.toNat_ofNat]
    omega
  rw [hi]
  apply BitVec.eq_of_getLsbD_eq
  intro j hj
  rw [BitVec.getLsbD_and, BitVec.getLsbD_not, BitVec.getLsbD_shiftLeft, clearBelow_bit hj, clearBelow_bit hj]
  rcases Nat.lt_trichotomy j i with hji | rfl | hij
  · by_cases hkj : k ≤ j
    · rw [hclear j hkj hji]
      simp
    · simp [hkj]
      omega
  · simp [hj]
  · have hone : (1 : BitVec 32).getLsbD (j - i) = false := by
      change (1#32).getLsbD (j - i) = false
      rw [BitVec.getLsbD_one]
      simp
      omega
    rw [hone]
    simp [hj, show k ≤ j by omega, show i + 1 ≤ j by omega]

theorem ofNat_toNat (hi : i < 32) : (BitVec.ofNat 32 i).toNat = i := by
  rw [BitVec.toNat_ofNat]
  omega

/-- The handlers do not lie where the pending signals do. -/
theorem handler_apart (hi : i < 32) : s.current + 4 * BitVec.ofNat 32 i + sigFn ≠ s.current + signal := by
  have hnat := ofNat_toNat hi
  unfold sigFn signal
  bv_omega

theorem handler_inj (hi : i < 32) (hj : j < 32) (hne : j ≠ i) :
    s.current + 4 * BitVec.ofNat 32 j + sigFn ≠ s.current + 4 * BitVec.ofNat 32 i + sigFn := by
  have hi' := ofNat_toNat hi
  have hj' := ofNat_toNat hj
  unfold sigFn
  bv_omega

theorem Scanned.handler (h : Scanned s k u) (hi : i < 32) : u.handler i = s.handler i := by
  unfold Cpu.handler
  rw [h.current]
  exact h.others _ (handler_apart hi)

/-- One more signal is passed over. -/
theorem Scanned.skip (h : Scanned s k u) {u' : Cpu} (hlow : lowest (clearBelow k s.pending) = some i) (hacts : ¬ s.Acts i)
    (heax : u'.eax = u.eax) (hcurrent : u'.current = u.current) (hstack : u'.stack = u.stack) (huser : u'.user = u.user)
    (hword : u'.word = Function.update u.word (s.current + signal) (clearBelow (i + 1) s.pending)) : Scanned s (i + 1) u' := by
  obtain ⟨_, _, _, hclear, _⟩ := clear_lowest hlow
  refine ⟨heax.trans h.eax, hcurrent.trans h.current, hstack.trans h.stack, huser.trans h.user, ?_, fun a ha => ?_, fun j hj hbit => ?_⟩
  · rw [hword, Function.update_self]
  · rw [hword, Function.update_of_ne ha]
    exact h.others a ha
  · by_cases hji : j = i
    · rw [hji]
      exact hacts
    · by_cases hkj : k ≤ j
      · rw [hclear j hkj (by omega)] at hbit
        cases hbit
      · exact h.skipped j (by omega) hbit

/-- The signal that is taken is the first that does something. -/
theorem Scanned.chosen (h : Scanned s k u) (hlow : lowest (clearBelow k s.pending) = some i) (hacts : s.Acts i) : s.Chosen i := by
  obtain ⟨_, hlt, hbit, hclear, _⟩ := clear_lowest hlow
  refine ⟨hlt, hbit, hacts, fun j hj hpending => ?_⟩
  by_cases hkj : k ≤ j
  · rw [hclear j hkj hj] at hpending
    cases hpending
  · exact h.skipped j (by omega) hpending

/-- The state behind `movl %ebx,signal(%eax)`. -/
def taken (s u : Cpu) (i : Nat) : Cpu :=
  { u with
    ebx := clearBelow (i + 1) s.pending
    ecx := BitVec.ofNat 32 i
    zf := false
    cf := (u.word (s.current + signal)).getLsbD ((BitVec.ofNat 32 i).toNat % 32)
    word := Function.update u.word (s.current + signal) (clearBelow (i + 1) s.pending) }

theorem Scanned.take (h : Scanned s k u) (hlow : lowest (clearBelow k s.pending) = some i) :
    nextSignal v u = dispatch v (taken s u i) := by
  obtain ⟨_, _, _, _, hclear⟩ := clear_lowest hlow
  have hsome : lowest (u.word (u.eax + signal)) = some i := by rw [h.eax, h.pending, hlow]
  rw [nextSignal_some hsome]
  unfold taken
  rw [h.eax, h.pending, hclear]

theorem Scanned.taken_handler (h : Scanned s k u) (hi : i < 32) :
    (taken s u i).word ((taken s u i).eax + 4 * (taken s u i).ecx + sigFn) = s.handler i := by
  change Function.update u.word (s.current + signal) _ (u.eax + 4 * BitVec.ofNat 32 i + sigFn) = _
  rw [h.eax, Function.update_of_ne (handler_apart hi)]
  exact h.others _ (handler_apart hi)

/-- With no signal left to look at. -/
theorem Scanned.finish (h : Scanned s k u) (hs : s.stack = f.words ++ rest) (hlow : lowest (clearBelow k s.pending) = none) :
    ∃ s', nextSignal v u = some (.restore, s') ∧ Delivered s f rest .restore s' := by
  have hnone : lowest (u.word (u.eax + signal)) = none := by rw [h.eax, h.pending, hlow]
  have hzero := lowest_none hlow
  refine ⟨_, nextSignal_none hnone, .none (fun i hi hbit => ?_) h.current ?_ (fun i hi => h.handler hi) (h.stack.trans hs) h.user⟩
  · by_cases hik : i < k
    · exact h.skipped i hik hbit
    · have hleft : (clearBelow k s.pending).getLsbD i = false := by rw [hzero]; simp
      rw [clearBelow_bit hi, decide_eq_true (Nat.le_of_not_lt hik), Bool.true_and, hbit] at hleft
      cases hleft
  · change u.word (u.current + signal) = 0
    rw [h.current, h.pending, hzero]

/-- With a handler that is called. -/
theorem Scanned.handled (h : Scanned s k u) (hs : s.stack = f.words ++ rest) (hlow : lowest (clearBelow k s.pending) = some i)
    (hset : s.handler i ≠ 0) (hone : s.handler i ≠ 1) : ∃ s', nextSignal v u = some (.restore, s') ∧ Delivered s f rest .restore s' := by
  obtain ⟨_, hlt, _, _, _⟩ := clear_lowest hlow
  have hacts : s.Acts i := ⟨hone, fun hdefault => hset hdefault.2⟩
  have hnot : ¬ s.handler i < 1 := by
    intro hlt
    apply hset
    bv_omega
  have hhandler := h.taken_handler hlt
  have hstack : (taken s u i).stack = f.words ++ rest := h.stack.trans hs
  rw [h.take hlow, dispatch_run, hhandler, if_neg hnot, if_neg hone]
  refine ⟨_, deliver_run (s := { taken s u i with ebx := s.handler i, zf := false, cf := false }) hstack, ?_⟩
  have hbase : (taken s u i).eax = s.current := h.eax
  have hword : ∀ a, Function.update (taken s u i).word ((taken s u i).eax + 4 * (taken s u i).ecx + sigFn) 0 a =
      if a = s.current + 4 * BitVec.ofNat 32 i + sigFn then 0 else if a = s.current + signal then clearBelow (i + 1) s.pending else s.word a := by
    intro a
    rw [hbase]
    change Function.update (Function.update u.word (s.current + signal) (clearBelow (i + 1) s.pending)) (s.current + 4 * BitVec.ofNat 32 i + sigFn) 0 a = _
    rw [Function.update_apply, Function.update_apply]
    by_cases ha : a = s.current + signal
    · simp only [ha, ↓reduceIte]
    · simp only [ha, ↓reduceIte, h.others a ha]
  refine .handled (h.chosen hlow hacts) hset h.current ?_ (fun j hj => ?_) rfl (fun m hm => ?_) (fun a ha => ?_)
  · change Function.update _ _ _ (u.current + signal) = _
    rw [h.current, hword, if_neg (handler_apart hlt).symm, if_pos rfl]
  · change Function.update _ _ _ (u.current + 4 * BitVec.ofNat 32 j + sigFn) = _
    rw [h.current, hword]
    by_cases hji : j = i
    · rw [hji, if_pos rfl, if_pos rfl]
    · rw [if_neg (handler_inj hlt hj hji), if_neg (handler_apart hj), if_neg hji]
      rfl
  · have hrestorer : Function.update (taken s u i).word ((taken s u i).eax + 4 * (taken s u i).ecx + sigFn) 0 ((taken s u i).eax + restorer) =
        s.word (s.current + restorer) := by
      have hi := ofNat_toNat hlt
      rw [hword, hbase, if_neg (by unfold restorer sigFn; bv_omega), if_neg (by unfold restorer signal; bv_omega)]
    have hnumber : (taken s u i).ecx + 1 = BitVec.ofNat 32 (i + 1) := (BitVec.ofNat_add i 1).symm
    dsimp only
    rw [hrestorer, hnumber]
    interval_cases m <;> simp [handlerFrame]
  · have hzero : a ≠ f.oldesp - 28 + 0 := ha 0 (by decide)
    have hfour : a ≠ f.oldesp - 28 + 4 := ha 1 (by decide)
    have height : a ≠ f.oldesp - 28 + 8 := ha 2 (by decide)
    have htwelve : a ≠ f.oldesp - 28 + 12 := ha 3 (by decide)
    have hsixteen : a ≠ f.oldesp - 28 + 16 := ha 4 (by decide)
    have htwenty : a ≠ f.oldesp - 28 + 20 := ha 5 (by decide)
    have hlast : a ≠ f.oldesp - 28 + 24 := ha 6 (by decide)
    dsimp only
    rw [Function.update_of_ne hlast, Function.update_of_ne htwenty, Function.update_of_ne hsixteen, Function.update_of_ne htwelve,
      Function.update_of_ne height, Function.update_of_ne hfour, Function.update_of_ne hzero]
    exact congrFun h.user a

/-- With the default handler: the task exits, or the signal is SIGCHLD. -/
theorem Scanned.default (h : Scanned s k u) (hlow : lowest (clearBelow k s.pending) = some i) (hzero : s.handler i = 0) :
    ∃ t, nextSignal v u = some (.defaultSignal, t) ∧
      ((¬ s.Acts i ∧ ∃ u', defaultSignal t = some (.signals, u') ∧ Scanned s (i + 1) u') ∨
        ∃ s', defaultSignal t = some (.exit (BitVec.ofNat 32 (i + 1)), s') ∧ Delivered s f rest (.exit (BitVec.ofNat 32 (i + 1))) s') := by
  obtain ⟨_, hlt, _, _, _⟩ := clear_lowest hlow
  have hhandler := h.taken_handler hlt
  have hbelow : s.handler i < 1 := by rw [hzero]; decide
  have hnumber : BitVec.ofNat 32 i + 1 = BitVec.ofNat 32 (i + 1) := (BitVec.ofNat_add i 1).symm
  rw [h.take hlow, dispatch_run, hhandler, if_pos hbelow]
  refine ⟨_, rfl, ?_⟩
  rw [defaultSignal_run]
  change (_ ∧ ∃ u', (if BitVec.ofNat 32 i + 1 = sigChld then _ else _) = _ ∧ _) ∨ ∃ s', (if BitVec.ofNat 32 i + 1 = sigChld then _ else _) = _ ∧ _
  rw [hnumber]
  by_cases hchild : i + 1 = 17
  · have hacts : ¬ s.Acts i := fun hacts => hacts.2 ⟨hchild, hzero⟩
    have hsig : BitVec.ofNat 32 (i + 1) = sigChld := by rw [hchild]; rfl
    simp only [if_pos hsig]
    exact .inl ⟨hacts, _, rfl, h.skip hlow hacts rfl rfl rfl rfl rfl⟩
  · have hsig : BitVec.ofNat 32 (i + 1) ≠ sigChld := by
      unfold sigChld
      have hnat : (BitVec.ofNat 32 (i + 1)).toNat = i + 1 := by
        rw [BitVec.toNat_ofNat]
        omega
      intro heq
      rw [heq] at hnat
      exact hchild hnat.symm
    have hone : s.handler i ≠ 1 := by rw [hzero]; decide
    have hacts : s.Acts i := ⟨hone, fun hdefault => hchild hdefault.1⟩
    have hexit : (taken s u i).ecx + 1 = BitVec.ofNat 32 (i + 1) := hnumber
    simp only [if_neg hsig, hexit]
    refine .inr ⟨_, rfl, .exits (h.chosen hlow hacts) hzero h.current ?_ (fun j hj => ?_) h.user⟩
    · change Function.update u.word (s.current + signal) _ (u.current + signal) = _
      rw [h.current, Function.update_self]
    · change Function.update u.word (s.current + signal) _ (u.current + 4 * BitVec.ofNat 32 j + sigFn) = _
      rw [h.current, Function.update_of_ne (handler_apart hj)]
      exact h.others _ (handler_apart hj)

/-- With an ignored signal. -/
theorem Scanned.ignored (h : Scanned s k u) (hlow : lowest (clearBelow k s.pending) = some i) (hone : s.handler i = 1) :
    ∃ u', nextSignal v u = some (.signals, u') ∧ Scanned s (i + 1) u' := by
  obtain ⟨_, hlt, _, _, _⟩ := clear_lowest hlow
  have hhandler := h.taken_handler hlt
  have hnot : ¬ s.handler i < 1 := by rw [hone]; decide
  have hacts : ¬ s.Acts i := fun hacts => hacts.1 hone
  rw [h.take hlow, dispatch_run, hhandler, if_neg hnot, if_pos hone]
  exact ⟨_, rfl, h.skip hlow hacts rfl rfl rfl rfl rfl⟩

theorem follow_signals : SignalReturn.follow v (n + 1) .signals u = (nextSignal v u).bind fun x => SignalReturn.follow v n x.1 x.2 := rfl

theorem follow_default : SignalReturn.follow v (n + 1) .defaultSignal u = (defaultSignal u).bind fun x => SignalReturn.follow v n x.1 x.2 := rfl

/-- From `2:` on the code comes to an end: with each turn there is one bit less to look at. -/
theorem Scanned.follow (h : Scanned s k u) (hs : s.stack = f.words ++ rest) (hk : m + k = 32) :
    ∃ n j s', SignalReturn.follow v n .signals u = some (j, s') ∧ Delivered s f rest j s' := by
  induction m using Nat.strong_induction_on generalizing k u with
  | _ m ih =>
    cases hlow : lowest (clearBelow k s.pending) with
    | none =>
      obtain ⟨s', hrun, hend⟩ := h.finish (v := v) hs hlow
      exact ⟨2, .restore, s', by rw [follow_signals, hrun]; rfl, hend⟩
    | some i =>
      obtain ⟨hki, hlt, _, _, _⟩ := clear_lowest hlow
      have hnext : ∀ {u'}, Scanned s (i + 1) u' → ∃ n j s', SignalReturn.follow v n .signals u' = some (j, s') ∧ Delivered s f rest j s' :=
        fun h' => ih (32 - (i + 1)) (by omega) h' (by omega)
      by_cases hzero : s.handler i = 0
      · obtain ⟨t, ht, ⟨_, u', hu', h'⟩ | ⟨s', hs', hend⟩⟩ := @Scanned.default s u f rest v i k h hlow hzero
        · obtain ⟨n, j, s', hrun, hend⟩ := hnext h'
          refine ⟨n + 2, j, s', ?_, hend⟩
          rw [follow_signals, ht, Option.bind_some, follow_default, hu', Option.bind_some, hrun]
        · refine ⟨3, _, s', ?_, hend⟩
          rw [follow_signals, ht, Option.bind_some, follow_default, hs', Option.bind_some]
          rfl
      · by_cases hone : s.handler i = 1
        · obtain ⟨u', hu', h'⟩ := h.ignored (v := v) hlow hone
          obtain ⟨n, j, s', hrun, hend⟩ := hnext h'
          refine ⟨n + 1, j, s', ?_, hend⟩
          rw [follow_signals, hu', Option.bind_some, hrun]
        · obtain ⟨s', hrun, hend⟩ := h.handled (v := v) hs hlow hzero hone
          exact ⟨2, .restore, s', by rw [follow_signals, hrun]; rfl, hend⟩

/-- `ret_from_sys_call` and what it jumps to. -/
def signals (v : Scratch) (n : Nat) : Asm Jump := do SignalReturn.follow v n (← retFromSysCall)

/-- A task with SIGHUP, which it ignores, and SIGINT, which it has a handler for. -/
def interrupted : Cpu where
  eax := 0
  ebx := 0
  ecx := 0
  edx := 0
  zf := false
  cf := false
  stack := [4, 0, 0, 0, 0x17, 0x17, 0x17, 0x100, 0x0f, 0x202, 0x3000, 0x17]
  word := fun a => if a = 0x100c then 3 else if a = 0x1010 then 0x500 else if a = 0x1014 then 1 else if a = 0x1018 then 0x400 else 0
  user := fun _ => 0
  current := 0x1000
  task := 0x8000

end SignalReturn

end RheeKernel
