import RheeKernel.Machine
import RheeKernel.Segments

namespace RheeKernel

open RegisterBytes

/-- `_set_tssldt_desc` -/
def setTssLdtDesc (d : Desc) (addr : BitVec 32) (type : BitVec 8) : Desc :=
  let eax := addr
  let d := { d with b0 := 104, b1 := 0 }
  let d := { d with b2 := low eax, b3 := high eax }
  let eax := eax.rotateRight 16
  let d := { d with b4 := low eax }
  let d := { d with b5 := type }
  let d := { d with b6 := 0 }
  { d with b7 := high eax }

def setTssDesc (d : Desc) (addr : BitVec 32) : Desc := setTssLdtDesc d addr 0x89
def setLdtDesc (d : Desc) (addr : BitVec 32) : Desc := setTssLdtDesc d addr 0x82

/-- What a task switch stores in the TSS that it leaves. -/
structure Registers where
  eip : BitVec 32
  eflags : BitVec 32
  eax : BitVec 32
  ecx : BitVec 32
  edx : BitVec 32
  ebx : BitVec 32
  esp : BitVec 32
  ebp : BitVec 32
  esi : BitVec 32
  edi : BitVec 32
  es : BitVec 32
  cs : BitVec 32
  ss : BitVec 32
  ds : BitVec 32
  fs : BitVec 32
  gs : BitVec 32

/-- A `struct tss_struct` up to the state of the coprocessor. -/
structure TssStruct extends Registers where
  backLink : BitVec 32
  esp0 : BitVec 32
  ss0 : BitVec 32
  esp1 : BitVec 32
  ss1 : BitVec 32
  esp2 : BitVec 32
  ss2 : BitVec 32
  cr3 : BitVec 32
  ldt : BitVec 32
  traceBitmap : BitVec 32

namespace TssStruct

/-- The words in the order of their addresses. -/
def words (t : TssStruct) : List (BitVec 32) :=
  [t.backLink, t.esp0, t.ss0, t.esp1, t.ss1, t.esp2, t.ss2, t.cr3, t.eip, t.eflags, t.eax, t.ecx, t.edx, t.ebx, t.esp, t.ebp, t.esi,
    t.edi, t.es, t.cs, t.ss, t.ds, t.fs, t.gs, t.ldt, t.traceBitmap]

/-- What `copy_process` makes of the copy for the task `nr` at `p`. -/
def child (t : TssStruct) (p : BitVec 32) (nr : Nat) (r : ForkFrame) : TssStruct :=
  { t with
    backLink := 0
    esp0 := 4096 + p
    ss0 := 0x10
    eip := r.eip
    eflags := r.eflags
    eax := 0
    ecx := r.ecx
    edx := r.edx
    ebx := r.ebx
    esp := r.esp
    ebp := r.ebp
    esi := r.esi
    edi := r.edi
    es := r.es &&& 0xffff
    cs := r.cs &&& 0xffff
    ss := r.ss &&& 0xffff
    ds := r.ds &&& 0xffff
    fs := r.fs &&& 0xffff
    gs := r.gs &&& 0xffff
    ldt := ldtSelector nr
    traceBitmap := 0x80000000 }

end TssStruct

/-- The two parts of a task structure that the processor reads; `tss` stands behind `ldt`. -/
structure SegTask where
  ldt : Ldt
  tss : TssStruct

/-- Where they are in the structure. -/
def ldtOffset : BitVec 32 := 328
def tssOffset : BitVec 32 := 352

/-- The eight bytes of an entry of the table that starts at `ldt`. -/
def SegTask.entry (t : SegTask) : Nat → Desc
  | 0 => t.ldt.nul
  | 1 => t.ldt.code
  | 2 => t.ldt.data
  | k + 3 => .ofLongs (t.tss.words.getD (2 * k) 0) (t.tss.words.getD (2 * k + 1) 0)

namespace Desc

def setBusy (d : Desc) : Desc := { d with b5 := d.b5 ||| 0x02 }
def clearBusy (d : Desc) : Desc := { d with b5 := d.b5 &&& 0xfd }

/-- A segment that code with the lowest privilege may load: present, of code or data, and with that privilege or conforming. -/
def User (d : Desc) : Prop :=
  d.fields.access.getLsbD 7 = true ∧ d.fields.access.getLsbD 4 = true ∧
    (d.fields.access &&& 0x60 = 0x60 ∨ d.fields.access &&& 0x0c = 0x0c)

def Writable (d : Desc) : Prop := d.fields.access &&& 0x0a = 0x02

/-- The limit in bytes. -/
def byteLimit (d : Desc) : BitVec 32 :=
  if d.fields.granularity.getLsbD 3 then d.fields.limit.setWidth 32 <<< 12 ||| 0xfff else d.fields.limit.setWidth 32

/-- The offsets in the segment; a data segment may lie above its limit. -/
def Spans (d : Desc) (off : BitVec 32) : Prop :=
  if d.fields.access &&& 0x0c = 0x04 then d.byteLimit < off ∧ (d.fields.granularity.getLsbD 2 = true ∨ off ≤ 0xffff) else off ≤ d.byteLimit

instance {d : Desc} : Decidable d.User := inferInstanceAs (Decidable (_ ∧ _ ∧ _))

end Desc

/-- The global table, the tasks with their structures, and the two registers of the processor that name the running task. -/
structure SegSys where
  gdt : Nat → Desc
  task : Nat → Option (BitVec 32)
  taskAt : BitVec 32 → SegTask
  current : BitVec 32
  tr : BitVec 16
  ldtr : BitVec 16

/-- The selector `_TSS(n)`. -/
def tssSelector (n : Nat) : BitVec 16 := BitVec.ofNat 16 (n * 16 + firstTssEntry * 8)

namespace SegSys

/-- The descriptor that a selector names, if it is inside the table. -/
def lookup (s : SegSys) (selector : BitVec 16) : Option Desc :=
  let i := selector.toNat / 8
  if selector.getLsbD 2 then
    let d := s.gdt (s.ldtr.toNat / 8)
    if i * 8 + 7 ≤ d.fields.limit.toNat then some ((s.taskAt (d.fields.base - ldtOffset)).entry i) else none
  else if i * 8 + 7 ≤ 256 * 8 - 1 then some (s.gdt i) else none

/-- A jump to a TSS, which must not be busy: the registers are stored in the one that is left. -/
def taskSwitch (s : SegSys) (selector : BitVec 16) (r : Registers) : Option SegSys :=
  let new := selector.toNat / 8
  let old := s.tr.toNat / 8
  if (s.gdt new).fields.access ≠ 0x89 then none
  else
    let p := (s.gdt old).fields.base - tssOffset
    let taskAt := Function.update s.taskAt p { s.taskAt p with tss := { (s.taskAt p).tss with toRegisters := r } }
    let gdt := Function.update s.gdt old (s.gdt old).clearBusy
    let gdt := Function.update gdt new (gdt new).setBusy
    some { s with gdt := gdt, taskAt := taskAt, tr := selector,
                  ldtr := (taskAt ((gdt new).fields.base - tssOffset)).tss.ldt.setWidth 16 }

/-- `switch_to`; `schedule` finds a task in the slot. -/
def switchTo (s : SegSys) (n : Nat) (r : Registers) : Option SegSys :=
  (s.task n).bind fun p => if p = s.current then some s else { s with current := p }.taskSwitch (tssSelector n) r

/-- `copy_process` in a page `p`; it gives no new state where it panics. -/
def fork (s : SegSys) (nr : Nat) (p edx : BitVec 32) (r : ForkFrame) : Option SegSys :=
  let q := s.taskAt s.current
  let q := { q with tss := q.tss.child p nr r }
  match (s.taskAt s.current).ldt.copyMem q.ldt edx nr with
  | .error _ => none
  | .ok c =>
    let gdt := Function.update s.gdt (nr * 2 + firstTssEntry) (setTssDesc (s.gdt (nr * 2 + firstTssEntry)) (p + tssOffset))
    let gdt := Function.update gdt (nr * 2 + firstLdtEntry) (setLdtDesc (gdt (nr * 2 + firstLdtEntry)) (p + ldtOffset))
    some { s with gdt := gdt, taskAt := Function.update s.taskAt p { q with ldt := c.ldt }, task := Function.update s.task nr (some p) }

/-- `change_ldt` for the running task. -/
def exec (s : SegSys) (edx textSize : BitVec 32) : SegSys :=
  let q := s.taskAt s.current
  { s with taskAt := Function.update s.taskAt s.current { q with ldt := (q.ldt.changeLdt edx textSize fun _ => 0).1 } }

/-- A page that holds no task. -/
def Free (s : SegSys) (p : BitVec 32) : Prop := p ≠ s.current ∧ ∀ n < nrTasks, s.task n ≠ some p

instance {s : SegSys} {p : BitVec 32} : Decidable (s.Free p) := inferInstanceAs (Decidable (_ ∧ _))

end SegSys

inductive SegEvent
  | fork (nr : Nat) (p edx : BitVec 32) (r : ForkFrame)
  | exec (edx textSize : BitVec 32)
  | switch (n : Nat) (r : Registers)
  | release (nr : Nat)
  | exit (nr n : Nat) (r : Registers)
  | page (p : BitVec 32) (t : SegTask)

/-- The running task forks, loads a program, gives way to the task `n`, releases a child, or exits and is released at once; a page that holds no
task is used for something else. -/
def segStep (s : SegSys) : SegEvent → Option SegSys
  | .fork nr p edx r => if (1 ≤ nr ∧ nr < nrTasks) ∧ s.task nr = none ∧ s.Free p then s.fork nr p edx r else none
  | .exec edx textSize => some (s.exec edx textSize)
  | .switch n r => s.switchTo n r
  | .release nr => if nr ≠ 0 ∧ s.task nr ≠ some s.current then some { s with task := Function.update s.task nr none } else none
  | .exit nr n r =>
    if nr ≠ 0 ∧ s.task nr = some s.current then { s with task := Function.update s.task nr none }.switchTo n r else none
  | .page p t => if s.Free p then some { s with taskAt := Function.update s.taskAt p t } else none

/-- The structure of INIT_TASK, which lies at `p`. -/
def initSegTask (p : BitVec 32) : SegTask where
  ldt := initLdt
  tss :=
    { backLink := 0, esp0 := 4096 + p, ss0 := 0x10, esp1 := 0, ss1 := 0, esp2 := 0, ss2 := 0, cr3 := 0, eip := 0, eflags := 0, eax := 0,
      ecx := 0, edx := 0, ebx := 0, esp := 0, ebp := 0, esi := 0, edi := 0, es := 0x17, cs := 0x17, ss := 0x17, ds := 0x17, fs := 0x17,
      gs := 0x17, ldt := ldtSelector 0, traceBitmap := 0x80000000 }

/-- The global table of `head.s`. -/
def headGdt : Nat → Desc
  | 1 => .ofLongs 0x7ff 0xc09a00
  | 2 => .ofLongs 0x7ff 0xc09200
  | _ => .ofLongs 0 0

/-- `sched_init`, with INIT_TASK at `p` and anything in the other pages. -/
def segInit (p : BitVec 32) (pages : BitVec 32 → SegTask) : SegSys where
  gdt := Function.update (Function.update headGdt firstTssEntry (setTssDesc (headGdt firstTssEntry) (p + tssOffset)).setBusy) firstLdtEntry
    (setLdtDesc (headGdt firstLdtEntry) (p + ldtOffset))
  task := fun n => if n = 0 then some p else none
  taskAt := Function.update pages p (initSegTask p)
  current := p
  tr := tssSelector 0
  ldtr := (ldtSelector 0).setWidth 16

section Descriptors

variable {d : Desc} {base addr : BitVec 32} {type : BitVec 8} {n nr : Nat}

theorem fields_setTssLdtDesc : (setTssLdtDesc d addr type).fields = ⟨addr, 104, type, 0⟩ := by
  apply DescFields.ext
  case base =>
    simp only [setTssLdtDesc, Desc.fields, low_rotate, high_rotate]
    exact append_bytes
  case limit =>
    change (0 : BitVec 8).extractLsb' 0 4 ++ (0 : BitVec 8) ++ (104 : BitVec 8) = (104 : BitVec 20)
    decide
  case access => rfl
  case granularity =>
    change (0 : BitVec 8).extractLsb' 4 4 = (0 : BitVec 4)
    decide

theorem fields_setBusy : d.setBusy.fields = { d.fields with access := d.fields.access ||| 0x02 } := rfl

theorem fields_clearBusy : d.clearBusy.fields = { d.fields with access := d.fields.access &&& 0xfd } := rfl

/-- The linear addresses of the task `n`. -/
def InSlice (n : Nat) (a : BitVec 32) : Prop := a.toNat / 0x4000000 = n

/-- The base of the task `n`. -/
def sliceBase (n : Nat) : BitVec 32 := BitVec.ofNat 32 n * 0x4000000

theorem sliceBase_toNat (h : n < nrTasks) : (sliceBase n).toNat = n * 0x4000000 := newBase_toNat h

/-- A segment of pages that begins at the base of its task. -/
structure Desc.Begins (d : Desc) (n : Nat) (access : BitVec 8) : Prop where
  base : d.fields.base = sliceBase n
  access : d.fields.access = access
  granularity : d.fields.granularity = 0xc

theorem byteLimit_toNat (pages : d.fields.granularity = 0xc) : d.byteLimit.toNat = d.fields.limit.toNat * 4096 + 4095 := by
  have limit := d.fields.limit.isLt
  have large : (0xc : BitVec 4).getLsbD 3 = true := by decide
  have apart : d.fields.limit.setWidth 32 <<< 12 &&& 0xfff = 0#32 := by
    apply BitVec.eq_of_getLsbD_eq
    intro i hi
    have mask : ∀ i < 32, (0xfff : BitVec 32).getLsbD i = decide (i < 12) := by decide
    rw [BitVec.getLsbD_and, BitVec.getLsbD_shiftLeft, mask i hi]
    by_cases low : i < 12
    · simp [low]
    · simp [low]
  unfold Desc.byteLimit
  rw [pages, large, if_pos rfl, ← BitVec.add_eq_or_of_and_eq_zero _ _ apart, BitVec.toNat_add, BitVec.toNat_shiftLeft, BitVec.toNat_setWidth,
    Nat.shiftLeft_eq]
  change ((d.fields.limit.toNat % 2 ^ 32 * 2 ^ 12) % 2 ^ 32 + 4095) % 2 ^ 32 = _
  omega

/-- Such a segment stays with its task exactly if it has no more pages than the task may have. -/
theorem spans_slice_iff {access : BitVec 8} (begins : d.Begins n access) (up : access &&& 0x0c ≠ 0x04) (low : n < nrTasks) :
    (∀ off, d.Spans off → InSlice n (d.fields.base + off)) ↔ d.fields.limit.toNat ≤ 0x3fff := by
  have start := sliceBase_toNat low
  have size := byteLimit_toNat begins.granularity
  unfold nrTasks at low
  unfold Desc.Spans InSlice
  rw [begins.access, begins.base]
  simp only [if_neg up]
  constructor
  · intro inside
    by_contra more
    have reached : (0x4000000 : BitVec 32) ≤ d.byteLimit := by
      rw [BitVec.le_def, size]
      change 67108864 ≤ _
      omega
    have place := inside 0x4000000 reached
    rw [BitVec.toNat_add, start] at place
    change (n * 67108864 + 67108864) % 4294967296 / 67108864 = n at place
    omega
  · intro few off below
    rw [BitVec.le_def, size] at below
    rw [BitVec.toNat_add, start]
    omega

/-- What a task finds in the first three entries of its table. -/
structure Ldt.Own (l : Ldt) (n : Nat) : Prop where
  nul : ¬ l.nul.User
  code : l.code.Begins n 0xfa
  data : l.data.Begins n 0xf2
  limit : l.data.fields.limit.toNat ≤ 0x3fff

theorem Ldt.Own.copyMem {cur new : Ldt} {edx : BitVec 32} {c : TableCopy} (own : new.Own n) (hc : cur.copyMem new edx nr = .ok c) :
    c.ldt.Own nr ∧ c.ldt.code.fields.limit = new.code.fields.limit := by
  have tables : c.ldt = { new with code := setBase new.code (sliceBase nr), data := setBase new.data (sliceBase nr) } := by
    unfold Ldt.copyMem at hc
    dsimp only at hc
    split at hc
    next => cases hc
    next =>
      split at hc
      next => cases hc
      next =>
        cases hc
        rfl
  rw [tables]
  refine ⟨⟨own.nul, ⟨?_, ?_, ?_⟩, ⟨?_, ?_, ?_⟩, ?_⟩, ?_⟩
  · rw [fields_setBase]
  · rw [fields_setBase]
    exact own.code.access
  · rw [fields_setBase]
    exact own.code.granularity
  · rw [fields_setBase]
  · rw [fields_setBase]
    exact own.data.access
  · rw [fields_setBase]
    exact own.data.granularity
  · rw [fields_setBase]
    exact own.limit
  · rw [fields_setBase]

/-- The limit that `change_ldt` gives the code, in pages. -/
def textLimit (textSize : BitVec 32) : BitVec 20 := (((textSize + 0x1000 - 1) &&& 0xFFFFF000) - 1).extractLsb' 12 20

theorem fields_changeLdt {cur : Ldt} {edx textSize : BitVec 32} {page : Nat → BitVec 32} :
    (cur.changeLdt edx textSize page).1.code.fields =
        { cur.code.fields with limit := textLimit textSize } ∧
      (cur.changeLdt edx textSize page).1.data.fields = { cur.data.fields with base := cur.code.fields.base, limit := 0x3fff } := by
  have whole : ((0x4000000 : BitVec 32) - 1).extractLsb' 12 20 = 0x3fff := by decide
  simp only [Ldt.changeLdt, setSegmentLimit_eq, fields_setLimit, fields_setBase, getBase_eq, whole, textLimit, and_self]

theorem Ldt.Own.changeLdt {cur : Ldt} {edx textSize : BitVec 32} {page : Nat → BitVec 32} (own : cur.Own n) :
    (cur.changeLdt edx textSize page).1.Own n := by
  obtain ⟨code, data⟩ := @fields_changeLdt cur edx textSize page
  refine ⟨own.nul, ⟨?_, ?_, ?_⟩, ⟨?_, ?_, ?_⟩, ?_⟩
  · rw [code]
    exact own.code.base
  · rw [code]
    exact own.code.access
  · rw [code]
    exact own.code.granularity
  · rw [data]
    exact own.code.base
  · rw [data]
    exact own.data.access
  · rw [data]
    exact own.data.granularity
  · rw [data]
    exact Nat.le_refl _

theorem mask_page (x : BitVec 32) : (x &&& 0xFFFFF000).toNat = x.toNat / 4096 * 4096 := by
  have mask : ∀ i < 32, (0xFFFFF000 : BitVec 32).getLsbD i = decide (12 ≤ i) := by decide
  have shifts : x &&& (0xFFFFF000 : BitVec 32) = x >>> 12 <<< 12 := by
    apply BitVec.eq_of_getLsbD_eq
    intro i hi
    rw [BitVec.getLsbD_and, mask i hi, BitVec.getLsbD_shiftLeft, BitVec.getLsbD_ushiftRight]
    by_cases high : 12 ≤ i
    · have place : 12 + (i - 12) = i := by omega
      simp [high, hi, place]
    · have less : i < 12 := by omega
      simp [less, high]
  have size := x.isLt
  rw [shifts, BitVec.toNat_shiftLeft, BitVec.toNat_ushiftRight, Nat.shiftLeft_eq, Nat.shiftRight_eq_div_pow]
  exact Nat.mod_eq_of_lt (by omega)

/-- It is that of a task for sizes from one byte to 64 MB; for no byte at all it is the whole memory. -/
theorem textLimit_iff (textSize : BitVec 32) : (textLimit textSize).toNat ≤ 0x3fff ↔ 0 < textSize ∧ textSize ≤ 0x4000000 := by
  have size := textSize.isLt
  have rounded : (textSize + 0x1000 - 1).toNat = (textSize.toNat + 4095) % 2 ^ 32 := by bv_omega
  have masked := mask_page (textSize + 0x1000 - 1)
  unfold textLimit
  rw [BitVec.extractLsb'_toNat, BitVec.toNat_sub, masked, rounded, Nat.shiftRight_eq_div_pow, BitVec.lt_def, BitVec.le_def]
  change (2 ^ 32 - 1 + (textSize.toNat + 4095) % 2 ^ 32 / 4096 * 4096) % 2 ^ 32 / 2 ^ 12 % 2 ^ 20 ≤ 16383 ↔ 0 < textSize.toNat ∧ textSize.toNat ≤ 67108864
  omega

end Descriptors

/-- The tables know every task. The task register stands for the slot `m`, whose TSS belongs to the structure at `run`. -/
structure SegSys.Sound (s : SegSys) (m : Nat) (run : BitVec 32) : Prop where
  slot : m < nrTasks
  tr : s.tr = tssSelector m
  busy : (s.gdt (m * 2 + firstTssEntry)).fields = ⟨run + tssOffset, 104, 0x8b, 0⟩
  running : ∀ p, s.task m = some p → p = run
  system : ∀ i, ¬ (s.gdt i).User
  low : ∀ n p, s.task n = some p → n < nrTasks
  one : ∀ n n' p, s.task n = some p → s.task n' = some p → n = n'
  tss : ∀ n p, s.task n = some p → n ≠ m → (s.gdt (n * 2 + firstTssEntry)).fields = ⟨p + tssOffset, 104, 0x89, 0⟩
  ldt : ∀ n p, s.task n = some p → (s.gdt (n * 2 + firstLdtEntry)).fields = ⟨p + ldtOffset, 104, 0x82, 0⟩
  selector : ∀ n p, s.task n = some p → (s.taskAt p).tss.ldt = ldtSelector n
  own : ∀ n p, s.task n = some p → (s.taskAt p).ldt.Own n

/-- The running task has its slot, and the processor its table. -/
structure SegSys.Runs (s : SegSys) (m : Nat) : Prop extends s.Sound m s.current where
  task : s.task m = some s.current
  ldtr : s.ldtr = (ldtSelector m).setWidth 16

section Steps

variable {s s' : SegSys} {m n nr : Nat} {p run edx textSize : BitVec 32} {r : Registers}

theorem system_user {d : Desc} {addr : BitVec 32} {access : BitVec 8} (fields : d.fields = ⟨addr, 104, access, 0⟩)
    (kind : access.getLsbD 4 = false) : ¬ d.User := by
  intro user
  have segment := user.2.1
  rw [fields] at segment
  exact Bool.false_ne_true (kind.symm.trans segment)

theorem selector_index (h : n < nrTasks) : (tssSelector n).toNat / 8 = n * 2 + firstTssEntry ∧
    ((ldtSelector n).setWidth 16).toNat / 8 = n * 2 + firstLdtEntry := by
  unfold nrTasks at h
  unfold tssSelector ldtSelector firstLdtEntry firstTssEntry
  constructor
  · rw [BitVec.toNat_ofNat]
    omega
  · rw [BitVec.toNat_setWidth, BitVec.toNat_ofNat]
    omega

/-- With a slot emptied everything else is as it was. -/
theorem SegSys.Sound.empty (h : s.Sound m run) : SegSys.Sound { s with task := Function.update s.task nr none } m run := by
  have still : ∀ n p, Function.update s.task nr none n = some p → s.task n = some p := by
    intro n p there
    by_cases same : n = nr
    · rw [same, Function.update_self] at there
      cases there
    · rwa [Function.update_of_ne same] at there
  exact ⟨h.slot, h.tr, h.busy, fun p there => h.running p (still m p there), h.system, fun n p there => h.low n p (still n p there),
    fun n n' p there there' => h.one n n' p (still n p there) (still n' p there'), fun n p there => h.tss n p (still n p there),
    fun n p there => h.ldt n p (still n p there), fun n p there => h.selector n p (still n p there),
    fun n p there => h.own n p (still n p there)⟩

/-- A task switch to a task other than the one in the task register goes through and finds its structure. -/
theorem SegSys.Sound.taskSwitch (h : s.Sound m run) (there : s.task n = some p) (other : n ≠ m) :
    ∃ s', s.taskSwitch (tssSelector n) r = some s' ∧ s'.Sound n p ∧ s'.ldtr = (ldtSelector n).setWidth 16 ∧
      s'.task = s.task ∧ s'.current = s.current ∧
      s'.taskAt = Function.update s.taskAt run { s.taskAt run with tss := { (s.taskAt run).tss with toRegisters := r } } := by
  have low := h.low n p there
  have new := (selector_index low).1
  have old : s.tr.toNat / 8 = m * 2 + firstTssEntry := by
    rw [h.tr]
    exact (selector_index h.slot).1
  have place := h.tss n p there other
  have ready : ¬ (s.gdt (n * 2 + firstTssEntry)).fields.access ≠ 0x89 := by
    rw [place]
    exact not_not.mpr rfl
  have left : (s.gdt (m * 2 + firstTssEntry)).fields.base - tssOffset = run := by
    rw [h.busy]
    exact BitVec.add_sub_cancel _ _
  have apart : n * 2 + firstTssEntry ≠ m * 2 + firstTssEntry := by omega
  generalize stored : Function.update s.taskAt run { s.taskAt run with tss := { (s.taskAt run).tss with toRegisters := r } } = taskAt
  have kept : ∀ q, (taskAt q).ldt = (s.taskAt q).ldt ∧ (taskAt q).tss.ldt = (s.taskAt q).tss.ldt := by
    intro q
    rw [← stored]
    by_cases same : q = run
    · rw [same, Function.update_self]
      exact ⟨rfl, rfl⟩
    · rw [Function.update_of_ne same]
      exact ⟨rfl, rfl⟩
  generalize made : Function.update (Function.update s.gdt (m * 2 + firstTssEntry) (s.gdt (m * 2 + firstTssEntry)).clearBusy)
    (n * 2 + firstTssEntry) (s.gdt (n * 2 + firstTssEntry)).setBusy = gdt
  have entries : ∀ i, (i = n * 2 + firstTssEntry ∧ gdt i = (s.gdt (n * 2 + firstTssEntry)).setBusy) ∨
      (i = m * 2 + firstTssEntry ∧ gdt i = (s.gdt (m * 2 + firstTssEntry)).clearBusy) ∨
      (i ≠ n * 2 + firstTssEntry ∧ i ≠ m * 2 + firstTssEntry ∧ gdt i = s.gdt i) := by
    intro i
    rw [← made]
    by_cases isNew : i = n * 2 + firstTssEntry
    · rw [isNew, Function.update_self]
      exact Or.inl ⟨rfl, rfl⟩
    · rw [Function.update_of_ne isNew]
      by_cases isOld : i = m * 2 + firstTssEntry
      · rw [isOld, Function.update_self]
        exact Or.inr (Or.inl ⟨rfl, rfl⟩)
      · rw [Function.update_of_ne isOld]
        exact Or.inr (Or.inr ⟨isNew, isOld, rfl⟩)
  have busy : (s.gdt (n * 2 + firstTssEntry)).setBusy.fields = ⟨p + tssOffset, 104, 0x8b, 0⟩ := by
    have bits : (0x89 : BitVec 8) ||| 0x02 = 0x8b := by decide
    rw [fields_setBusy, place]
    exact congrArg (fun access => DescFields.mk _ _ access _) bits
  have free : (s.gdt (m * 2 + firstTssEntry)).clearBusy.fields = ⟨run + tssOffset, 104, 0x89, 0⟩ := by
    have bits : (0x8b : BitVec 8) &&& 0xfd = 0x89 := by decide
    rw [fields_clearBusy, h.busy]
    exact congrArg (fun access => DescFields.mk _ _ access _) bits
  refine ⟨{ s with gdt := gdt, taskAt := taskAt, tr := tssSelector n, ldtr := (ldtSelector n).setWidth 16 }, ?_, ?_, rfl, rfl, rfl, rfl⟩
  · have entered : (gdt (n * 2 + firstTssEntry)).fields.base - tssOffset = p := by
      rcases entries (n * 2 + firstTssEntry) with ⟨-, new⟩ | ⟨same, -⟩ | ⟨no, -⟩
      · rw [new, busy]
        exact BitVec.add_sub_cancel _ _
      · exact absurd same apart
      · exact absurd rfl no
    have named : (taskAt p).tss.ldt = ldtSelector n := (kept p).2.trans (h.selector n p there)
    unfold SegSys.taskSwitch
    dsimp only
    rw [new, old, if_neg ready, left, Function.update_of_ne apart, stored, made, entered, named]
  · refine ⟨low, rfl, ?_, fun q task => Option.some.inj (task.symm.trans there), ?_, h.low, h.one, ?_, ?_, ?_, ?_⟩
    · rcases entries (n * 2 + firstTssEntry) with ⟨-, new⟩ | ⟨same, -⟩ | ⟨no, -⟩
      · exact (congrArg Desc.fields new).trans busy
      · exact absurd same apart
      · exact absurd rfl no
    · intro i
      change ¬ (gdt i).User
      rcases entries i with ⟨-, new⟩ | ⟨-, old⟩ | ⟨-, -, same⟩
      · rw [new]
        exact system_user busy rfl
      · rw [old]
        exact system_user free rfl
      · rw [same]
        exact h.system i
    · intro u q task away
      rcases entries (u * 2 + firstTssEntry) with ⟨same, -⟩ | ⟨same, old⟩ | ⟨-, isOld, same⟩
      · omega
      · have slot : u = m := by omega
        rw [slot] at task
        rw [h.running q task]
        exact (congrArg Desc.fields old).trans free
      · exact (congrArg Desc.fields same).trans (h.tss u q task (by omega))
    · intro u q task
      rcases entries (u * 2 + firstLdtEntry) with ⟨same, -⟩ | ⟨same, -⟩ | ⟨-, -, same⟩
      · unfold firstLdtEntry at same
        omega
      · unfold firstLdtEntry at same
        omega
      · exact (congrArg Desc.fields same).trans (h.ldt u q task)
    · exact fun u q task => (kept q).2.trans (h.selector u q task)
    · intro u q task
      change (taskAt q).ldt.Own u
      rw [(kept q).1]
      exact h.own u q task

/-- A table in which the two entries of a task have been written. -/
def Enters (gdt gdt' : Nat → Desc) (nr : Nat) (p : BitVec 32) : Prop :=
  ∀ i, (i = nr * 2 + firstLdtEntry ∧ (gdt' i).fields = ⟨p + ldtOffset, 104, 0x82, 0⟩) ∨
    (i = nr * 2 + firstTssEntry ∧ (gdt' i).fields = ⟨p + tssOffset, 104, 0x89, 0⟩) ∨
    (i ≠ nr * 2 + firstLdtEntry ∧ i ≠ nr * 2 + firstTssEntry ∧ gdt' i = gdt i)

theorem enters_fork {gdt : Nat → Desc} {d d' : Desc} : Enters gdt (Function.update (Function.update gdt (nr * 2 + firstTssEntry)
    (setTssDesc d (p + tssOffset))) (nr * 2 + firstLdtEntry) (setLdtDesc d' (p + ldtOffset))) nr p := by
  intro i
  by_cases isLdt : i = nr * 2 + firstLdtEntry
  · rw [isLdt, Function.update_self]
    exact Or.inl ⟨rfl, fields_setTssLdtDesc⟩
  · rw [Function.update_of_ne isLdt]
    by_cases isTss : i = nr * 2 + firstTssEntry
    · rw [isTss, Function.update_self]
      exact Or.inr (Or.inl ⟨rfl, fields_setTssLdtDesc⟩)
    · rw [Function.update_of_ne isTss]
      exact Or.inr (Or.inr ⟨isLdt, isTss, rfl⟩)

/-- A new task in an empty slot, with a structure of its own. -/
theorem SegSys.Sound.enter {gdt : Nat → Desc} {taskAt : BitVec 32 → SegTask} (h : s.Sound m run) (slot : nr < nrTasks) (other : nr ≠ m)
    (fresh : ∀ n q, s.task n = some q → q ≠ p) (entries : Enters s.gdt gdt nr p) (kept : ∀ q, q ≠ p → taskAt q = s.taskAt q)
    (selector : (taskAt p).tss.ldt = ldtSelector nr) (own : (taskAt p).ldt.Own nr) :
    SegSys.Sound { s with gdt := gdt, taskAt := taskAt, task := Function.update s.task nr (some p) } m run := by
  unfold Enters firstLdtEntry at entries
  have tasks : ∀ n q, Function.update s.task nr (some p) n = some q → (n = nr ∧ q = p) ∨ (n ≠ nr ∧ q ≠ p ∧ s.task n = some q) := by
    intro n q task
    by_cases new : n = nr
    · rw [new, Function.update_self] at task
      exact Or.inl ⟨new, (Option.some.inj task).symm⟩
    · rw [Function.update_of_ne new] at task
      exact Or.inr ⟨new, fresh n q task, task⟩
  refine ⟨h.slot, h.tr, ?_, ?_, ?_, ?_, ?_, ?_, ?_, ?_, ?_⟩
  · rcases entries (m * 2 + firstTssEntry) with ⟨same, -⟩ | ⟨same, -⟩ | ⟨-, -, same⟩
    · omega
    · omega
    · exact (congrArg Desc.fields same).trans h.busy
  · intro q task
    rcases tasks m q task with ⟨same, -⟩ | ⟨-, -, before⟩
    · exact absurd same.symm other
    · exact h.running q before
  · intro i
    change ¬ (gdt i).User
    rcases entries i with ⟨-, ldt⟩ | ⟨-, tss⟩ | ⟨-, -, same⟩
    · exact system_user ldt rfl
    · exact system_user tss rfl
    · rw [same]
      exact h.system i
  · intro n q task
    rcases tasks n q task with ⟨same, -⟩ | ⟨-, -, before⟩
    · omega
    · exact h.low n q before
  · intro n n' q task task'
    rcases tasks n q task with ⟨same, new⟩ | ⟨-, older, before⟩
    · rcases tasks n' q task' with ⟨same', -⟩ | ⟨-, older, -⟩
      · omega
      · exact absurd new older
    · rcases tasks n' q task' with ⟨-, new⟩ | ⟨-, -, before'⟩
      · exact absurd new older
      · exact h.one n n' q before before'
  · intro n q task away
    rcases tasks n q task with ⟨same, new⟩ | ⟨differs, -, before⟩
    · rw [same, new]
      rcases entries (nr * 2 + firstTssEntry) with ⟨no, -⟩ | ⟨-, tss⟩ | ⟨-, no, -⟩
      · omega
      · exact tss
      · exact absurd rfl no
    · rcases entries (n * 2 + firstTssEntry) with ⟨no, -⟩ | ⟨no, -⟩ | ⟨-, -, same⟩
      · omega
      · omega
      · exact (congrArg Desc.fields same).trans (h.tss n q before away)
  · intro n q task
    rcases tasks n q task with ⟨same, new⟩ | ⟨differs, -, before⟩
    · rw [same, new]
      rcases entries (nr * 2 + firstLdtEntry) with ⟨-, ldt⟩ | ⟨no, -⟩ | ⟨no, -⟩
      · exact ldt
      · unfold firstLdtEntry at no
        omega
      · exact absurd rfl no
    · rcases entries (n * 2 + firstLdtEntry) with ⟨no, -⟩ | ⟨no, -⟩ | ⟨-, -, same⟩
      · unfold firstLdtEntry at no
        omega
      · unfold firstLdtEntry at no
        omega
      · exact (congrArg Desc.fields same).trans (h.ldt n q before)
  · intro n q task
    change (taskAt q).tss.ldt = _
    rcases tasks n q task with ⟨same, new⟩ | ⟨-, older, before⟩
    · rw [same, new]
      exact selector
    · rw [kept q older]
      exact h.selector n q before
  · intro n q task
    change (taskAt q).ldt.Own n
    rcases tasks n q task with ⟨same, new⟩ | ⟨-, older, before⟩
    · rw [same, new]
      exact own
    · rw [kept q older]
      exact h.own n q before

/-- What a fork does where it does not panic. -/
theorem SegSys.Runs.fork {f : ForkFrame} (h : s.Runs m) (slot : nr < nrTasks) (empty : s.task nr = none) (page : s.Free p)
    (hs : s.fork nr p edx f = some s') :
    s'.Runs m ∧ s'.current = s.current ∧ s'.task = Function.update s.task nr (some p) ∧
      (s'.taskAt p).tss = (s.taskAt s.current).tss.child p nr f ∧
      (s'.taskAt p).ldt.code.fields.limit = (s.taskAt s.current).ldt.code.fields.limit ∧ ∀ q, q ≠ p → s'.taskAt q = s.taskAt q := by
  obtain ⟨notCurrent, notTask⟩ := page
  have other : nr ≠ m := by
    intro same
    rw [same, h.task] at empty
    cases empty
  have fresh : ∀ n q, s.task n = some q → q ≠ p := fun n q task same => notTask n (h.low n q task) (same ▸ task)
  unfold SegSys.fork at hs
  dsimp only at hs
  split at hs
  next => cases hs
  next c copied =>
    obtain ⟨own, limit⟩ := (h.own m s.current h.task).copyMem copied
    cases hs
    have kept : ∀ q, q ≠ p → Function.update s.taskAt p ⟨c.ldt, (s.taskAt s.current).tss.child p nr f⟩ q = s.taskAt q :=
      fun q differs => Function.update_of_ne differs ..
    have new : Function.update s.taskAt p ⟨c.ldt, (s.taskAt s.current).tss.child p nr f⟩ p = ⟨c.ldt, (s.taskAt s.current).tss.child p nr f⟩ :=
      Function.update_self ..
    refine ⟨⟨h.toSound.enter slot other fresh enters_fork kept ?_ ?_, ?_, h.ldtr⟩, rfl, rfl, congrArg SegTask.tss new, ?_, kept⟩
    · rw [new]
      rfl
    · rw [new]
      exact own
    · exact (Function.update_of_ne other.symm ..).trans h.task
    · change (Function.update s.taskAt p _ p).ldt.code.fields.limit = _
      rw [new]
      exact limit

/-- Pages may change as long as the structures of the tasks keep their tables. -/
theorem SegSys.Sound.pages {taskAt : BitVec 32 → SegTask} (h : s.Sound m run)
    (selector : ∀ n q, s.task n = some q → (taskAt q).tss.ldt = (s.taskAt q).tss.ldt)
    (own : ∀ n q, s.task n = some q → (taskAt q).ldt.Own n) : SegSys.Sound { s with taskAt := taskAt } m run :=
  ⟨h.slot, h.tr, h.busy, h.running, h.system, h.low, h.one, h.tss, h.ldt, fun n q task => (selector n q task).trans (h.selector n q task), own⟩

theorem SegSys.Runs.exec (h : s.Runs m) :
    (s.exec edx textSize).Runs m ∧ ((s.exec edx textSize).taskAt s.current).ldt.code.fields.limit = textLimit textSize ∧
      ∀ q, q ≠ s.current → (s.exec edx textSize).taskAt q = s.taskAt q := by
  have changed : (s.exec edx textSize).taskAt s.current =
      { s.taskAt s.current with ldt := ((s.taskAt s.current).ldt.changeLdt edx textSize fun _ => 0).1 } := Function.update_self ..
  have kept : ∀ q, q ≠ s.current → (s.exec edx textSize).taskAt q = s.taskAt q := fun q differs => Function.update_of_ne differs ..
  refine ⟨⟨h.toSound.pages ?_ ?_, h.task, h.ldtr⟩, ?_, kept⟩
  · intro n q task
    by_cases same : q = s.current
    · rw [same]
      exact (congrArg (fun t : SegTask => t.tss.ldt) changed :)
    · exact congrArg (fun t : SegTask => t.tss.ldt) (kept q same)
  · intro n q task
    by_cases same : q = s.current
    · rw [same] at task ⊢
      rw [h.one n m s.current task h.task]
      change ((s.exec edx textSize).taskAt s.current).ldt.Own m
      rw [changed]
      exact @Ldt.Own.changeLdt m _ edx textSize (fun _ => 0) (h.own m s.current h.task)
    · change ((s.exec edx textSize).taskAt q).ldt.Own n
      rw [kept q same]
      exact h.own n q task
  · rw [changed]
    exact congrArg DescFields.limit (@fields_changeLdt _ edx textSize fun _ => 0).1

/-- `switch_to` a task that is there, from the task of the task register. -/
theorem SegSys.Sound.switchTo (h : s.Sound m run) (there : s.task n = some p) (other : n ≠ m) (differs : p ≠ s.current) :
    ∃ s', s.switchTo n r = some s' ∧ s'.Runs n ∧ s'.current = p ∧ s'.task = s.task ∧
      s'.taskAt = Function.update s.taskAt run { s.taskAt run with tss := { (s.taskAt run).tss with toRegisters := r } } := by
  have entered : SegSys.Sound { s with current := p } m run :=
    ⟨h.slot, h.tr, h.busy, h.running, h.system, h.low, h.one, h.tss, h.ldt, h.selector, h.own⟩
  obtain ⟨s', jump, sound, ldtr, task, current, taskAt⟩ := entered.taskSwitch (r := r) there other
  have now : s'.current = p := current
  refine ⟨s', ?_, ⟨now ▸ sound, ?_, ldtr⟩, now, task, taskAt⟩
  · unfold SegSys.switchTo
    rw [there, Option.bind_some, if_neg differs, jump]
  · rw [now, task]
    exact there

theorem switchTo_self (there : s.task n = some s.current) : s.switchTo n r = some s := by
  unfold SegSys.switchTo
  rw [there, Option.bind_some, if_pos rfl]

theorem ldt_stored {t : SegTask} {q : BitVec 32} :
    (Function.update s.taskAt run { s.taskAt run with tss := t.tss } q).ldt = (s.taskAt q).ldt := by
  by_cases same : q = run
  · rw [same, Function.update_self]
  · rw [Function.update_of_ne same]

/-- Every step leaves the tables knowing every task. The code of a task is as long as that of a task before, or as a program that is loaded. -/
theorem segStep_runs {e : SegEvent} (h : s.Runs m) (step : segStep s e = some s') :
    ∃ m', s'.Runs m' ∧ ∀ n q, s'.task n = some q →
      (∃ n' q', s.task n' = some q' ∧ (s'.taskAt q).ldt.code.fields.limit = (s.taskAt q').ldt.code.fields.limit) ∨
        ∃ edx textSize, e = .exec edx textSize ∧ (s'.taskAt q).ldt.code.fields.limit = textLimit textSize := by
  cases e with
  | fork nr p edx f =>
    obtain ⟨⟨slot, empty, page⟩, hs⟩ := Option.ite_none_right_eq_some.mp step
    obtain ⟨runs, -, task, -, limit, kept⟩ := h.fork slot.2 empty page hs
    refine ⟨m, runs, fun n q there => Or.inl ?_⟩
    rw [task] at there
    by_cases new : n = nr
    · rw [new, Function.update_self] at there
      cases there
      exact ⟨m, s.current, h.task, limit⟩
    · rw [Function.update_of_ne new] at there
      have differs : q ≠ p := fun same => page.2 n (h.low n q there) (same ▸ there)
      exact ⟨n, q, there, congrArg (fun t : SegTask => t.ldt.code.fields.limit) (kept q differs)⟩
  | exec edx textSize =>
    cases Option.some.inj step
    obtain ⟨runs, limit, kept⟩ := @SegSys.Runs.exec s m edx textSize h
    refine ⟨m, runs, fun n q there => ?_⟩
    by_cases same : q = s.current
    · rw [same]
      exact Or.inr ⟨edx, textSize, rfl, limit⟩
    · exact Or.inl ⟨n, q, there, congrArg (fun t : SegTask => t.ldt.code.fields.limit) (kept q same)⟩
  | switch n r =>
    have step : s.switchTo n r = some s' := step
    obtain ⟨p, there, -⟩ := Option.bind_eq_some_iff.mp step
    by_cases stays : p = s.current
    · rw [stays] at there
      cases Option.some.inj (step.symm.trans (switchTo_self there))
      exact ⟨m, h, fun n q there => Or.inl ⟨n, q, there, rfl⟩⟩
    · have other : n ≠ m := by
        intro same
        rw [same, h.task] at there
        exact stays (Option.some.inj there).symm
      obtain ⟨t, jump, runs, -, task, taskAt⟩ := h.toSound.switchTo (r := r) there other stays
      cases Option.some.inj (step.symm.trans jump)
      refine ⟨n, runs, fun u q there => Or.inl ⟨u, q, task ▸ there, ?_⟩⟩
      rw [taskAt]
      exact congrArg (fun l : Ldt => l.code.fields.limit) (ldt_stored (t := ⟨(s.taskAt s.current).ldt, _⟩))
  | release nr =>
    obtain ⟨⟨-, other⟩, same⟩ := Option.ite_none_right_eq_some.mp step
    cases Option.some.inj same
    have away : m ≠ nr := fun same => other (same ▸ h.task)
    refine ⟨m, ⟨h.toSound.empty, (Function.update_of_ne away ..).trans h.task, h.ldtr⟩, fun n q there => Or.inl ⟨n, q, ?_, rfl⟩⟩
    by_cases gone : n = nr
    · have there : Function.update s.task nr none n = some q := there
      rw [gone, Function.update_self] at there
      cases there
    · exact (Function.update_of_ne gone ..).symm.trans there
  | exit nr n r =>
    obtain ⟨⟨-, self⟩, left⟩ := Option.ite_none_right_eq_some.mp step
    have slot : nr = m := h.one nr m s.current self h.task
    obtain ⟨p, there, -⟩ := Option.bind_eq_some_iff.mp left
    have there : Function.update s.task nr none n = some p := there
    have other : n ≠ nr := by
      intro same
      rw [same, Function.update_self] at there
      cases there
    have before : s.task n = some p := by rwa [Function.update_of_ne other] at there
    have differs : p ≠ s.current := by
      intro same
      rw [same] at before
      exact other (h.one n nr s.current before self)
    obtain ⟨t, jump, runs, -, task, taskAt⟩ := (@SegSys.Sound.empty s m nr _ h.toSound).switchTo (r := r) there (slot ▸ other) differs
    cases Option.some.inj (left.symm.trans jump)
    refine ⟨n, runs, fun u q live => Or.inl ⟨u, q, ?_, ?_⟩⟩
    · have live : Function.update s.task nr none u = some q := (congrFun task u).symm.trans live
      by_cases gone : u = nr
      · rw [gone, Function.update_self] at live
        cases live
      · rwa [Function.update_of_ne gone] at live
    · rw [taskAt]
      exact congrArg (fun l : Ldt => l.code.fields.limit) (ldt_stored (t := ⟨(s.taskAt s.current).ldt, _⟩))
  | page p t =>
    obtain ⟨page, same⟩ := Option.ite_none_right_eq_some.mp step
    cases Option.some.inj same
    have kept : ∀ n q, s.task n = some q → Function.update s.taskAt p t q = s.taskAt q := by
      intro n q there
      have differs : q ≠ p := fun same => page.2 n (h.low n q there) (same ▸ there)
      exact Function.update_of_ne differs ..
    refine ⟨m, ⟨h.toSound.pages (fun n q there => ?_) (fun n q there => ?_), h.task, h.ldtr⟩, fun n q there => Or.inl ⟨n, q, there, ?_⟩⟩
    · rw [kept n q there]
    · rw [kept n q there]
      exact h.own n q there
    · exact congrArg (fun t : SegTask => t.ldt.code.fields.limit) (kept n q there)

theorem segInit_runs {pages : BitVec 32 → SegTask} : (segInit p pages).Runs 0 := by
  have task : ∀ n q, (segInit p pages).task n = some q → n = 0 ∧ q = p := by
    intro n q there
    obtain ⟨first, same⟩ := Option.ite_none_right_eq_some.mp there
    exact ⟨first, (Option.some.inj same).symm⟩
  have page : (segInit p pages).taskAt p = initSegTask p := Function.update_self ..
  have busy : ((segInit p pages).gdt firstTssEntry).fields = ⟨p + tssOffset, 104, 0x8b, 0⟩ := by
    have bits : (0x89 : BitVec 8) ||| 0x02 = 0x8b := by decide
    have entry : (segInit p pages).gdt firstTssEntry = (setTssDesc (headGdt firstTssEntry) (p + tssOffset)).setBusy := by
      have apart : firstTssEntry ≠ firstLdtEntry := by decide
      unfold segInit
      dsimp only
      rw [Function.update_of_ne apart, Function.update_self]
    rw [entry, fields_setBusy, setTssDesc, fields_setTssLdtDesc]
    exact congrArg (fun access => DescFields.mk _ _ access _) bits
  have ldt : ((segInit p pages).gdt firstLdtEntry).fields = ⟨p + ldtOffset, 104, 0x82, 0⟩ := by
    have entry : (segInit p pages).gdt firstLdtEntry = setLdtDesc (headGdt firstLdtEntry) (p + ldtOffset) := by
      unfold segInit
      dsimp only
      rw [Function.update_self]
    rw [entry, setLdtDesc, fields_setTssLdtDesc]
  have own : initLdt.Own 0 := by
    refine ⟨by decide, ⟨?_, ?_, ?_⟩, ⟨?_, ?_, ?_⟩, ?_⟩ <;> decide
  refine ⟨⟨by decide, rfl, busy, fun q there => (task 0 q there).2, ?_, ?_, ?_, ?_, ?_, ?_, ?_⟩, rfl, rfl⟩
  · intro i
    by_cases isLdt : i = firstLdtEntry
    · rw [isLdt]
      exact system_user ldt rfl
    · by_cases isTss : i = firstTssEntry
      · rw [isTss]
        exact system_user busy rfl
      · have entry : (segInit p pages).gdt i = headGdt i := (Function.update_of_ne isLdt ..).trans (Function.update_of_ne isTss ..)
        rw [entry]
        match i with
        | 0 => decide
        | 1 => decide
        | 2 => decide
        | i + 3 => exact (by decide : ¬ (Desc.ofLongs 0 0).User)
  · intro n q there
    rw [(task n q there).1]
    decide
  · intro n n' q there there'
    rw [(task n q there).1, (task n' q there').1]
  · intro n q there away
    exact absurd (task n q there).1 away
  · intro n q there
    rw [(task n q there).1, (task n q there).2]
    exact ldt
  · intro n q there
    rw [(task n q there).1, (task n q there).2, page]
    rfl
  · intro n q there
    rw [(task n q there).1, (task n q there).2, page]
    exact own

/-- Programs have at least one byte and at most 64 MB. -/
def SegEvent.Fits : SegEvent → Prop
  | .exec _ textSize => 0 < textSize ∧ textSize ≤ 0x4000000
  | _ => True

/-- No task has more code than its addresses. -/
def SegSys.Short (s : SegSys) : Prop := ∀ n q, s.task n = some q → (s.taskAt q).ldt.code.fields.limit.toNat ≤ 0x3fff

theorem segReach_runs {pages : BitVec 32 → SegTask} {ok : SegSys → SegEvent → Prop} (reach : Machine.Reach segStep ok (segInit p pages) s) :
    ∃ m, s.Runs m := by
  induction reach with
  | start => exact ⟨0, segInit_runs⟩
  | next _ _ step ih =>
    obtain ⟨m, runs⟩ := ih
    obtain ⟨m', runs', -⟩ := segStep_runs runs step
    exact ⟨m', runs'⟩

theorem segReach_short {pages : BitVec 32 → SegTask} (reach : Machine.Reach segStep (fun _ e => e.Fits) (segInit p pages) s) : s.Short := by
  induction reach with
  | start =>
    intro n q there
    obtain ⟨-, same⟩ := Option.ite_none_right_eq_some.mp there
    cases Option.some.inj same
    have page : (segInit p pages).taskAt p = initSegTask p := Function.update_self ..
    have few : initLdt.code.fields.limit.toNat ≤ 0x3fff := by decide
    rw [page]
    exact few
  | next before fits step ih =>
    obtain ⟨m, runs⟩ := segReach_runs before
    obtain ⟨-, -, limits⟩ := segStep_runs runs step
    intro n q there
    rcases limits n q there with ⟨n', q', there', same⟩ | ⟨edx, textSize, rfl, same⟩
    · rw [same]
      exact ih n' q' there'
    · rw [same]
      exact (textLimit_iff textSize).mpr fits

/-- A selector of the local table that names the entry `k`, with the lowest privilege. -/
def localSelector (k : Nat) : BitVec 16 := BitVec.ofNat 16 (8 * k + 7)

/-- What the running task finds under a selector. -/
theorem SegSys.Runs.lookup {selector : BitVec 16} (h : s.Runs m) :
    s.lookup selector = if selector.getLsbD 2 then
        (if selector.toNat / 8 ≤ 12 then some ((s.taskAt s.current).entry (selector.toNat / 8)) else none)
      else if selector.toNat / 8 ≤ 255 then some (s.gdt (selector.toNat / 8)) else none := by
  have table : (s.gdt (s.ldtr.toNat / 8)).fields = ⟨s.current + ldtOffset, 104, 0x82, 0⟩ := by
    rw [h.ldtr, (selector_index h.slot).2]
    exact h.ldt m s.current h.task
  have size : (104 : BitVec 20).toNat = 104 := rfl
  unfold SegSys.lookup
  dsimp only
  rw [table]
  dsimp only
  rw [size, BitVec.add_sub_cancel]
  have inside : selector.toNat / 8 * 8 + 7 ≤ 104 ↔ selector.toNat / 8 ≤ 12 := by omega
  have inside' : selector.toNat / 8 * 8 + 7 ≤ 256 * 8 - 1 ↔ selector.toNat / 8 ≤ 255 := by omega
  simp only [inside, inside']

/-- The registers of a program that wants all of the memory. -/
def greedy : ForkFrame where
  ebp := 0
  edi := 0xcff200
  esi := 0xffff
  gs := 0x17
  ebx := 0
  ecx := 0
  edx := 0
  fs := 0x17
  es := 0x17
  ds := 0x17
  eip := 0
  cs := 0x0f
  eflags := 0
  esp := 0
  ss := 0x17

def noRegisters : Registers := ⟨0, 0, 0, 0, 0, 0, 0, 0, 0, 0, 0, 0, 0, 0, 0, 0⟩

/-- INIT_TASK, with copies of it in all pages. -/
def firstSegs : SegSys := segInit 0x20000 fun _ => initSegTask 0

theorem firstSegs_fork : ∃ s, segStep firstSegs (.fork 1 0xff000 0 greedy) = some s := by
  have free : (1 ≤ 1 ∧ 1 < nrTasks) ∧ firstSegs.task 1 = none ∧ firstSegs.Free 0xff000 := by decide
  have table : firstSegs.taskAt firstSegs.current = initSegTask 0x20000 := by
    unfold firstSegs segInit
    dsimp only
    rw [Function.update_self]
  have copied : (initSegTask 0x20000).ldt.copyMem (initSegTask 0x20000).ldt 0 1 = .ok ⟨childLdt, 0, 0x4000000, 0xa0000⟩ := initLdt_copyMem
  have forks : ∃ s, firstSegs.fork 1 0xff000 0 greedy = some s := by
    unfold SegSys.fork
    dsimp only
    rw [table, copied]
    exact ⟨_, rfl⟩
  obtain ⟨s, forks⟩ := forks
  have step : segStep firstSegs (.fork 1 0xff000 0 greedy) =
      if (1 ≤ 1 ∧ 1 < nrTasks) ∧ firstSegs.task 1 = none ∧ firstSegs.Free 0xff000 then firstSegs.fork 1 0xff000 0 greedy else none := rfl
  exact ⟨s, by rw [step, if_pos free, forks]⟩

/-- In every run the running task can load from the global table nothing at all, and from its own table: its data, which stays with the
addresses of its slot; its code, which it cannot write, and which stays with them if all programs have had from one byte to 64 MB; and what the
words of its TSS make, since the table has thirteen entries and `tss` stands behind the first three. -/
theorem segments_of_task {pages : BitVec 32 → SegTask} {ok : SegSys → SegEvent → Prop}
    (reach : Machine.Reach segStep ok (segInit p pages) s) :
    ∃ m, s.task m = some s.current ∧ ∀ (selector : BitVec 16) (d : Desc), s.lookup selector = some d → d.User →
      selector.getLsbD 2 = true ∧
        ((selector.toNat / 8 = 1 ∧ d.fields.base = sliceBase m ∧ ¬ d.Writable ∧
            ((∀ s e, ok s e → e.Fits) → ∀ off, d.Spans off → InSlice m (d.fields.base + off))) ∨
          (selector.toNat / 8 = 2 ∧ d.fields.base = sliceBase m ∧ ∀ off, d.Spans off → InSlice m (d.fields.base + off)) ∨
          ∃ k < 10, selector.toNat / 8 = k + 3 ∧
            d = .ofLongs ((s.taskAt s.current).tss.words.getD (2 * k) 0) ((s.taskAt s.current).tss.words.getD (2 * k + 1) 0)) := by
  obtain ⟨m, runs⟩ := segReach_runs reach
  have own := runs.own m s.current runs.task
  refine ⟨m, runs.task, fun selector d found user => ?_⟩
  rw [runs.lookup] at found
  cases isLocal : selector.getLsbD 2 with
  | false =>
    rw [isLocal, if_neg Bool.false_ne_true] at found
    obtain ⟨-, same⟩ := Option.ite_none_right_eq_some.mp found
    cases Option.some.inj same
    exact absurd user (runs.system _)
  | true =>
    rw [isLocal, if_pos rfl] at found
    obtain ⟨inside, same⟩ := Option.ite_none_right_eq_some.mp found
    cases Option.some.inj same
    refine ⟨rfl, ?_⟩
    generalize selector.toNat / 8 = i at inside user ⊢
    match i with
    | 0 => exact absurd user own.nul
    | 1 =>
      have readOnly : ¬ (s.taskAt s.current).ldt.code.Writable := by
        unfold Desc.Writable
        rw [own.code.access]
        decide
      refine Or.inl ⟨rfl, own.code.base, readOnly, fun fits => ?_⟩
      have short := segReach_short (reach.mono fits)
      exact (spans_slice_iff own.code (by decide) runs.slot).mpr (short m s.current runs.task)
    | 2 => exact Or.inr (Or.inl ⟨rfl, own.data.base, (spans_slice_iff own.data (by decide) runs.slot).mpr own.limit⟩)
    | k + 3 => exact Or.inr (Or.inr ⟨k, by omega, rfl, rfl⟩)

theorem segments_of_task_boot : ∃ m, firstSegs.task m = some 0x20000 ∧
    ∀ d, firstSegs.lookup 0x17 = some d → ∀ off, d.Spans off → InSlice m (d.fields.base + off) := by
  obtain ⟨m, there, loads⟩ := @segments_of_task firstSegs 0x20000 (fun _ => initSegTask 0) (fun _ _ => True) .start
  refine ⟨m, there, fun d found => ?_⟩
  have entry : firstSegs.lookup 0x17 = some initLdt.data := by decide
  cases Option.some.inj (found.symm.trans entry)
  rcases (loads 0x17 _ entry (by decide)).2 with ⟨code, -⟩ | ⟨-, -, inside⟩ | ⟨k, -, other, -⟩
  · exact absurd code (by decide)
  · exact inside
  · have two : (0x17 : BitVec 16).toNat / 8 = 2 := by decide
    omega

/-- Whatever has run before, a program leaves the code of its task inside the addresses of the slot exactly if it has from one byte to 64 MB. -/
theorem exec_confines_iff {pages : BitVec 32 → SegTask} {ok : SegSys → SegEvent → Prop} (edx textSize : BitVec 32)
    (reach : Machine.Reach segStep ok (segInit p pages) s) :
    ∃ m s' d, s.task m = some s.current ∧ segStep s (.exec edx textSize) = some s' ∧ s'.lookup (localSelector 1) = some d ∧ d.User ∧
      ((∀ off, d.Spans off → InSlice m (d.fields.base + off)) ↔ 0 < textSize ∧ textSize ≤ 0x4000000) := by
  obtain ⟨m, runs⟩ := segReach_runs reach
  obtain ⟨runs', limit, -⟩ := @SegSys.Runs.exec s m edx textSize runs
  have own := runs'.own m s.current runs.task
  have user : ((s.exec edx textSize).taskAt s.current).ldt.code.User := by
    unfold Desc.User
    rw [own.code.access]
    decide
  have entry : (s.exec edx textSize).lookup (localSelector 1) = some ((s.exec edx textSize).taskAt s.current).ldt.code := runs'.lookup
  refine ⟨m, s.exec edx textSize, _, runs.task, rfl, entry, user, ?_⟩
  rw [spans_slice_iff own.code (by decide) runs.slot, limit]
  exact textLimit_iff textSize

/-- A program of no bytes. -/
theorem exec_confines_iff_empty : ∃ m s' d, firstSegs.task m = some firstSegs.current ∧ segStep firstSegs (.exec 0 0) = some s' ∧
    s'.lookup (localSelector 1) = some d ∧ ¬ ∀ off, d.Spans off → InSlice m (d.fields.base + off) := by
  obtain ⟨m, s', d, there, loaded, entry, -, confined⟩ :=
    @exec_confines_iff firstSegs 0x20000 (fun _ => initSegTask 0) (fun _ _ => True) 0 0 .start
  exact ⟨m, s', d, there, loaded, entry, fun inside => absurd (confined.mp inside).1 (by decide)⟩

/-- A fork that goes through gives its child, as soon as that runs, an entry of its table that is made of the registers `esi` and `edi` of the
father: every descriptor that a program wants. -/
theorem fork_plants_descriptor {pages : BitVec 32 → SegTask} {ok : SegSys → SegEvent → Prop} {nr : Nat} {q edx : BitVec 32} {f : ForkFrame}
    {r : Registers} (reach : Machine.Reach segStep ok (segInit p pages) s) (forks : segStep s (.fork nr q edx f) = some s') :
    ∃ t, segStep s' (.switch nr r) = some t ∧ t.current = q ∧ t.lookup (localSelector 11) = some (.ofLongs f.esi f.edi) := by
  obtain ⟨m, runs⟩ := segReach_runs reach
  obtain ⟨⟨slot, empty, page⟩, hs⟩ := Option.ite_none_right_eq_some.mp forks
  obtain ⟨runs', current, task, tss, -, -⟩ := runs.fork slot.2 empty page hs
  have there : s'.task nr = some q := by
    rw [task]
    exact Function.update_self ..
  have other : nr ≠ m := by
    intro same
    rw [same, runs.task] at empty
    cases empty
  have differs : q ≠ s'.current := by
    rw [current]
    exact page.1
  obtain ⟨t, jump, runsChild, now, -, taskAt⟩ := runs'.toSound.switchTo (r := r) there other differs
  refine ⟨t, jump, now, ?_⟩
  have entry : t.lookup (localSelector 11) = some ((t.taskAt t.current).entry 11) := runsChild.lookup
  rw [entry, now, taskAt, Function.update_of_ne differs]
  change some (Desc.ofLongs ((s'.taskAt q).tss.words.getD 16 0) ((s'.taskAt q).tss.words.getD 17 0)) = _
  rw [tss]
  rfl

/-- The first child writes where it wants. -/
theorem fork_plants_descriptor_flat :
    ∃ s t d, segStep firstSegs (.fork 1 0xff000 0 greedy) = some s ∧ segStep s (.switch 1 noRegisters) = some t ∧
      t.lookup (localSelector 11) = some d ∧ d.User ∧ d.Writable ∧ d.fields.base = 0 ∧ ∀ off, d.Spans off := by
  obtain ⟨s, forks⟩ := firstSegs_fork
  have reach : Machine.Reach segStep (fun _ _ => True) firstSegs firstSegs := .start
  obtain ⟨t, jump, -, entry⟩ := fork_plants_descriptor (r := noRegisters) reach forks
  have limit : (Desc.ofLongs 0xffff 0xcff200).byteLimit = 0xffffffff := by decide
  have up : ¬ (Desc.ofLongs 0xffff 0xcff200).fields.access &&& 0x0c = 0x04 := by decide
  refine ⟨s, t, .ofLongs 0xffff 0xcff200, forks, jump, entry, by decide, ?_, by decide, fun off => ?_⟩
  · unfold Desc.Writable
    decide
  · unfold Desc.Spans
    rw [if_neg up]
    rw [limit]
    have size := off.isLt
    bv_omega

/-- The tables follow the tasks: in every state a switch to any task goes through, stores the registers of the one that is left in its own
structure alone, and gives the processor the local table of the new one. -/
theorem switch_follows_tasks {pages : BitVec 32 → SegTask} {ok : SegSys → SegEvent → Prop} {n : Nat} {q : BitVec 32} {r : Registers}
    (reach : Machine.Reach segStep ok (segInit p pages) s) (there : s.task n = some q) :
    ∃ t, segStep s (.switch n r) = some t ∧ t.current = q ∧ t.task = s.task ∧
      (∀ k ≤ 12, t.lookup (localSelector k) = some ((t.taskAt q).entry k)) ∧
      (∀ u, u ≠ s.current ∨ q = s.current → t.taskAt u = s.taskAt u) ∧
      (q ≠ s.current → (t.taskAt s.current).tss.toRegisters = r ∧ (t.taskAt s.current).ldt = (s.taskAt s.current).ldt) := by
  obtain ⟨m, runs⟩ := segReach_runs reach
  have named : ∀ k ≤ 12, (localSelector k).getLsbD 2 = true ∧ (localSelector k).toNat / 8 = k := by decide
  have entries : ∀ {t : SegSys} {i : Nat}, t.Runs i → ∀ k ≤ 12, t.lookup (localSelector k) = some ((t.taskAt t.current).entry k) := by
    intro t i runs k small
    rw [runs.lookup, (named k small).1, (named k small).2, if_pos rfl, if_pos small]
  by_cases stays : q = s.current
  · rw [stays] at there ⊢
    exact ⟨s, switchTo_self there, rfl, rfl, entries runs, fun u _ => rfl, fun differs => absurd rfl differs⟩
  · have other : n ≠ m := by
      intro same
      rw [same, runs.task] at there
      exact stays (Option.some.inj there).symm
    obtain ⟨t, jump, runs', now, task, taskAt⟩ := runs.toSound.switchTo (r := r) there other stays
    refine ⟨t, jump, now, task, now ▸ entries runs', fun u away => ?_, fun _ => ?_⟩
    · have apart : u ≠ s.current := away.resolve_right stays
      rw [taskAt, Function.update_of_ne apart]
    · rw [taskAt, Function.update_self]
      exact ⟨rfl, rfl⟩

theorem switch_follows_tasks_child :
    ∃ s t, segStep firstSegs (.fork 1 0xff000 0 greedy) = some s ∧ segStep s (.switch 0 noRegisters) = some t ∧ t.current = 0x20000 := by
  obtain ⟨s, forks⟩ := firstSegs_fork
  have reach : Machine.Reach segStep (fun _ _ => True) firstSegs s := .next .start trivial forks
  have there : s.task 0 = some 0x20000 := by
    have runs : firstSegs.Runs 0 := segInit_runs
    have forks : (if (1 ≤ 1 ∧ 1 < nrTasks) ∧ firstSegs.task 1 = none ∧ firstSegs.Free 0xff000 then firstSegs.fork 1 0xff000 0 greedy
        else none) = some s := forks
    obtain ⟨⟨slot, empty, page⟩, hs⟩ := Option.ite_none_right_eq_some.mp forks
    obtain ⟨-, -, task, -⟩ := runs.fork slot.2 empty page hs
    rw [task]
    rfl
  obtain ⟨t, jump, now, -⟩ := switch_follows_tasks (r := noRegisters) reach there
  exact ⟨s, t, forks, jump, now⟩

end Steps

end RheeKernel
