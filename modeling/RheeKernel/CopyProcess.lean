import RheeKernel.Credentials
import RheeKernel.FileTable
import RheeKernel.ForkUndo

namespace RheeKernel

variable {F : Type}

/-- What `system_call.s` has pushed when `sys_fork` calls `copy_process`. -/
structure ForkFrame where
  ebp : BitVec 32
  edi : BitVec 32
  esi : BitVec 32
  gs : BitVec 32
  ebx : BitVec 32
  ecx : BitVec 32
  edx : BitVec 32
  fs : BitVec 32
  es : BitVec 32
  ds : BitVec 32
  eip : BitVec 32
  cs : BitVec 32
  eflags : BitVec 32
  esp : BitVec 32
  ss : BitVec 32

structure Tss (F : Type) where
  backLink : BitVec 32
  esp0 : BitVec 32
  ss0 : BitVec 32
  eip : BitVec 32
  eflags : BitVec 32
  eax : BitVec 32
  ecx : BitVec 32
  edx : BitVec 32
  ebx : BitVec 32
  esp : BitVec 32
  ebp : BitVec 32
  esi : BitVec 32
  edi : BitVec 32
  es : BitVec 32
  cs : BitVec 32
  ss : BitVec 32
  ds : BitVec 32
  fs : BitVec 32
  gs : BitVec 32
  ldt : BitVec 32
  traceBitmap : BitVec 32
  i387 : F

/-- A descriptor of the local table: its base, and its limit as `get_limit` reads it. -/
structure Segment where
  base : Nat
  limit : Nat

/-- The fields of a task structure that `copy_process` reads or writes; `code` is `ldt[1]`, `data` is `ldt[2]`. -/
structure ForkTask (F : Type) where
  state : Int
  pid : Int
  father : Int
  counter : Int
  priority : Int
  signal : BitVec 32
  alarm : Int
  leader : Int
  utime : Int
  stime : Int
  cutime : Int
  cstime : Int
  startTime : Int
  pwd : Option Nat
  root : Option Nat
  filp : Nat → Option Nat
  code : Segment
  data : Segment
  tss : Tss F

/-- What an entry of the global table describes: the `tss` or the `ldt` of the task structure at an address. -/
inductive GdtEntry
  | tss (p : Nat)
  | ldt (p : Nat)

/-- A task structure is known by its address; its page is kept as a record of its own and not as words of `mm`. -/
structure ForkSys (F : Type) where
  mm : Mm
  task : Nat → Option Nat
  taskAt : Nat → ForkTask F
  current : Nat
  lastTaskUsedMath : Option Nat
  fpu : F
  fCount : Nat → Nat
  iCount : Nat → Nat
  gdt : Nat → Option GdtEntry
  lastPid : Int
  jiffies : Int

inductive ForkPanic
  | separateIAndD
  | badDataLimit
  | mm (e : MmPanic)

def enomem : Int := 12

def firstTssEntry : Nat := 4
def firstLdtEntry : Nat := firstTssEntry + 1

/-- The selector `_LDT(n)`. -/
def ldtSelector (n : Nat) : BitVec 32 := BitVec.ofNat 32 (n * 16 + firstLdtEntry * 8)

namespace ForkSys

def edit (s : ForkSys F) (p : Nat) (g : ForkTask F → ForkTask F) : ForkSys F :=
  { s with taskAt := Function.update s.taskAt p (g (s.taskAt p)) }

/-- `set_base` of `p->ldt[1]` and `p->ldt[2]`. -/
def setBases (s : ForkSys F) (p base : Nat) : ForkSys F :=
  s.edit p fun q => { q with code := { q.code with base := base }, data := { q.data with base := base } }

/-- `copy_mem` from the call of `copy_page_tables` on. -/
def copyTables (s : ForkSys F) (oldDataBase newDataBase dataLimit : Nat) : Except ForkPanic (Int × ForkSys F) :=
  match copyPageTables s.mm oldDataBase newDataBase dataLimit with
  | .error e => .error (.mm e)
  | .ok (true, mm) => .ok (0, { s with mm := mm })
  | .ok (false, mm) =>
    match freePageTables mm newDataBase dataLimit with
    | .error e => .error (.mm e)
    | .ok mm => .ok (-enomem, { s with mm := mm })

def copyMem (s : ForkSys F) (nr p : Nat) : Except ForkPanic (Int × ForkSys F) :=
  if (s.taskAt s.current).data.base ≠ (s.taskAt s.current).code.base then .error .separateIAndD
  else if (s.taskAt s.current).data.limit < (s.taskAt s.current).code.limit then .error .badDataLimit
  else (s.setBases p (taskBase nr)).copyTables (s.taskAt s.current).data.base (taskBase nr) (s.taskAt s.current).data.limit

/-- What `copy_process` makes of the copy of `*current` at `p`. -/
def childTask (s : ForkSys F) (nr p : Nat) (r : ForkFrame) (q : ForkTask F) : ForkTask F :=
  { q with
    state := 0
    pid := s.lastPid
    father := (s.taskAt s.current).pid
    counter := q.priority
    signal := 0
    alarm := 0
    leader := 0
    utime := 0
    stime := 0
    cutime := 0
    cstime := 0
    startTime := s.jiffies
    tss := { q.tss with
      backLink := 0
      esp0 := BitVec.ofNat 32 (4096 + p)
      ss0 := 0x10
      eip := r.eip
      eflags := r.eflags
      eax := 0
      ecx := r.ecx
      edx := r.edx
      ebx := r.ebx
      esp := r.esp
      ebp := r.ebp
      esi := r.esi
      edi := r.edi
      es := r.es &&& 0xffff
      cs := r.cs &&& 0xffff
      ss := r.ss &&& 0xffff
      ds := r.ds &&& 0xffff
      fs := r.fs &&& 0xffff
      gs := r.gs &&& 0xffff
      ldt := ldtSelector nr
      traceBitmap := 0x80000000 } }

/-- `fnsave` leaves the coprocessor as `fninit` does, in the state `init`. -/
def fnsave (init : F) (s : ForkSys F) (p : Nat) : ForkSys F :=
  { s.edit p fun q => { q with tss := { q.tss with i387 := s.fpu } } with fpu := init }

/-- A counter of 16 bits is counted up. -/
def countUp (c : Nat → Nat) (j : Nat) : Nat → Nat := Function.update c j ((c j + 1) % 65536)

def countUpFiles (filp : Nat → Option Nat) (c : Nat → Nat) : Nat → Nat :=
  (List.range nrOpen).foldl (fun c i => (filp i).elim c (countUp c)) c

/-- The part of `copy_process` behind a `copy_mem` that went well. -/
def enroll (s : ForkSys F) (nr p : Nat) : ForkSys F :=
  let cur := s.taskAt s.current
  let iCount := cur.pwd.elim s.iCount (countUp s.iCount)
  { s with
    fCount := countUpFiles (s.taskAt p).filp s.fCount
    iCount := cur.root.elim iCount (countUp iCount)
    gdt := Function.update (Function.update s.gdt (nr * 2 + firstTssEntry) (some (.tss p))) (nr * 2 + firstLdtEntry) (some (.ldt p))
    task := Function.update s.task nr (some p) }

/-- `*p` is filled in, up to the call of `copy_mem`; `init` is the state of the coprocessor after `fninit`. -/
def fillIn (init : F) (s : ForkSys F) (nr p : Nat) (r : ForkFrame) : ForkSys F :=
  let s := { s with taskAt := Function.update s.taskAt p (s.childTask nr p r (s.taskAt s.current)) }
  if s.lastTaskUsedMath = some s.current then s.fnsave init p else s

def copyProcess (init : F) (s : ForkSys F) (nr : Nat) (r : ForkFrame) : Except ForkPanic (Int × ForkSys F) :=
  match getFreePage s.mm with
  | none => .ok (-eagain, s)
  | some (p, mm) =>
    match (fillIn init { s with mm := mm } nr p r).copyMem nr p with
    | .error e => .error e
    | .ok (ret, s) =>
      if ret ≠ 0 then
        match freePage s.mm p with
        | .error e => .error (.mm e)
        | .ok mm => .ok (-eagain, { s with mm := mm })
      else .ok (s.lastPid, s.enroll nr p)

/-- The first task as `INIT_TASK` and `sched_init` leave it; its structure lies in the kernel's data at `initTask`. -/
def bootTask (initTask : Nat) (i387 : F) : ForkTask F where
  state := 0
  pid := 0
  father := -1
  counter := 15
  priority := 15
  signal := 0
  alarm := 0
  leader := 0
  utime := 0
  stime := 0
  cutime := 0
  cstime := 0
  startTime := 0
  pwd := none
  root := none
  filp := fun _ => none
  code := ⟨0, 0xA0000⟩
  data := ⟨0, 0xA0000⟩
  tss :=
    { backLink := 0, esp0 := BitVec.ofNat 32 (4096 + initTask), ss0 := 0x10, eip := 0, eflags := 0, eax := 0, ecx := 0, edx := 0,
      ebx := 0, esp := 0, ebp := 0, esi := 0, edi := 0, es := 0x17, cs := 0x17, ss := 0x17, ds := 0x17, fs := 0x17, gs := 0x17,
      ldt := ldtSelector 0, traceBitmap := 0x80000000, i387 := i387 }

def boot (ram : Nat → Nat → Word) (initTask : Nat) (i387 : F) : ForkSys F where
  mm := bootMm ram
  task := fun t => if t = 0 then some initTask else none
  taskAt := fun _ => bootTask initTask i387
  current := initTask
  lastTaskUsedMath := none
  fpu := i387
  fCount := fun _ => 0
  iCount := fun _ => 0
  gdt := Function.update (Function.update (fun _ => none) firstTssEntry (some (.tss initTask))) firstLdtEntry (some (.ldt initTask))
  lastPid := 0
  jiffies := 0

end ForkSys

/-- The entry behind a linear address, 0 where the directory has no table for it. -/
def Mm.walk (s : Mm) (address : Nat) : Word :=
  if present (s.mem 0 (dirOf address)) = true then s.mem (pageAddr (s.mem 0 (dirOf address))) (slotOf address) else 0#32

/-- The mapping of an address and what is in its page are as before, but for the right to write. -/
def Mm.OnlyFaded (s s' : Mm) (address : Nat) : Prop :=
  (s'.walk address = s.walk address ∨ s'.walk address = protect (s.walk address)) ∧
    (present (s.walk address) = true → s'.mem (pageAddr (s.walk address)) = s.mem (pageAddr (s.walk address)))

namespace Mm

variable {s s' : Mm} {T : Nat → Prop} {holds : Nat → Nat} {address : Nat}

theorem walk_user (h : dirOf address ∈ userDirs) : s.walk address = s.pte (dirOf address) (slotOf address) := by
  unfold walk pte
  by_cases hp : present (s.mem 0 (dirOf address)) = true
  · rw [if_pos hp, if_pos ⟨h, hp⟩]
  · rw [if_neg hp, if_neg fun hc => hp hc.2]

theorem Fades.onlyFaded_user (h : Fades T s s') (hzero : s'.mem 0 = s.mem 0) (hd : dirOf address ∈ userDirs) (hT : ¬ T (dirOf address)) :
    s.OnlyFaded s' address := by
  have hslot : slotOf address ∈ slots := mem_slots.mpr (by unfold slotOf; omega)
  unfold OnlyFaded
  rw [walk_user hd, walk_user hd]
  refine ⟨h.entry _ hd hT _, fun hp => ?_⟩
  by_cases h0 : pageAddr (s.pte (dirOf address) (slotOf address)) = 0
  · rw [h0]
    exact hzero
  · exact h.page _ hd hT _ hslot hp h0

/-- The first 640 kB of the kernel, which the first task has for its data segment. -/
theorem Fades.onlyFaded_kernel (h : Fades T s s') (hi : s.Inv holds) (hzero : s'.mem 0 = s.mem 0) (ha : address < 0xA0000) :
    s.OnlyFaded s' address := by
  have hd : dirOf address = 0 := by unfold dirOf; omega
  have hslot : slotOf address = address / 4096 := by unfold slotOf; omega
  have hwalk : s.walk address = s.mem 0x1000 (address / 4096) := by
    unfold walk
    rw [hd, if_pos hi.kernelDir.1, hi.kernelDir.2, hslot]
  have hwalk' : s'.walk address = s.mem 0x1000 (address / 4096) := by
    unfold walk
    rw [hzero, hd, if_pos hi.kernelDir.1, hi.kernelDir.2, hslot, h.low 0x1000 (by decide) (by decide)]
  obtain ⟨_, haddr⟩ := hi.kernelTable (address / 4096) (by omega)
  refine ⟨.inl (hwalk'.trans hwalk.symm), fun _ => ?_⟩
  rw [hwalk, haddr]
  by_cases h0 : 4096 * (address / 4096) = 0
  · rw [h0]
    exact hzero
  · apply h.low _ h0
    unfold lowMem
    omega

end Mm

namespace ForkSys

variable {s s' : ForkSys F} {holds : Nat → Nat} {nr p : Nat} {ret : Int} {init : F} {r : ForkFrame}

/-- Between two system calls: the pages of task structures are counted as held by the kernel, every task has its window
and the directory entries of a free slot are empty. -/
structure Sound (s : ForkSys F) (holds : Nat → Nat) : Prop where
  inv : s.mm.Inv holds
  pid : 0 ≤ s.lastPid
  current : ∃ t < 64, s.task t = some s.current
  window : ∀ t < 64, ∀ p, s.task t = some p →
    (s.taskAt p).data.base = taskBase t ∧ (s.taskAt p).data.limit ≤ if t = 0 then 0xA0000 else 0x4000000
  page : ∀ t < 64, ∀ p, s.task t = some p → p < lowMem ∨ ∃ k < pagingPages, p = pageAt k ∧ 0 < holds k
  free : ∀ nr, 0 < nr → nr < 64 → s.task nr = none → ∀ e, TaskSlots nr e → s.mm.mem 0 e = 0#32

theorem boot_sound (ram : Nat → Nat → Word) {initTask : Nat} (hi : initTask < lowMem) (i387 : F) :
    (boot ram initTask i387).Sound fun _ => 0 := by
  have hfirst : ∀ {t p}, (boot ram initTask i387).task t = some p → t = 0 ∧ p = initTask := by
    intro t p ht
    simp only [boot] at ht
    split at ht
    next h0 => exact ⟨h0, (Option.some.inj ht).symm⟩
    next => cases ht
  refine ⟨bootMm_inv ram, le_rfl, ⟨0, by decide, rfl⟩, fun t _ p ht => ?_, fun t _ p ht => ?_, fun nr h0 hnr _ e he => ?_⟩
  · obtain ⟨rfl, rfl⟩ := hfirst ht
    exact ⟨by simp [boot, bootTask, taskBase], by simp [boot, bootTask]⟩
  · obtain ⟨_, rfl⟩ := hfirst ht
    exact .inl hi
  · unfold TaskSlots at he
    simp only [boot, bootMm, if_true, if_neg (show e ≠ 0 by omega), if_neg (show e ≠ 1 by omega)]

theorem fillIn_eq : ∃ q x, fillIn init s nr p r = { s with taskAt := Function.update s.taskAt p q, fpu := x } ∧
    q.data = (s.taskAt s.current).data := by
  unfold fillIn
  by_cases hl : s.lastTaskUsedMath = some s.current
  · refine ⟨{ s.childTask nr p r (s.taskAt s.current) with
      tss := { (s.childTask nr p r (s.taskAt s.current)).tss with i387 := s.fpu } }, init, ?_, rfl⟩
    simp [hl, fnsave, edit]
  · exact ⟨s.childTask nr p r (s.taskAt s.current), s.fpu, if_neg hl, rfl⟩

/-- The copy, or what `free_page_tables` makes of the part that there was memory for. -/
theorem copyTables_cases {src dst size : Nat} (hc : s.copyTables src dst size = .ok (ret, s')) :
    ∃ mm, s' = { s with mm := mm } ∧ (ret = 0 ∧ copyPageTables s.mm src dst size = .ok (true, mm) ∨
      ret = -enomem ∧ ∃ u, copyPageTables s.mm src dst size = .ok (false, u) ∧ freePageTables u dst size = .ok mm) := by
  unfold copyTables at hc
  split at hc
  next => cases hc
  next mm hcopy =>
    cases hc
    exact ⟨mm, rfl, .inl ⟨rfl, hcopy⟩⟩
  next u hcopy =>
    split at hc
    next => cases hc
    next mm hfree =>
      cases hc
      exact ⟨mm, rfl, .inr ⟨rfl, u, hcopy, hfree⟩⟩

theorem copyMem_cases (hc : s.copyMem nr p = .ok (ret, s')) :
    ∃ q mm, s' = { s with taskAt := Function.update s.taskAt p q, mm := mm } ∧
      q.data = { (s.taskAt p).data with base := taskBase nr } ∧
      (ret = 0 ∧ copyPageTables s.mm (s.taskAt s.current).data.base (taskBase nr) (s.taskAt s.current).data.limit = .ok (true, mm) ∨
        ret = -enomem ∧ ∃ u, copyPageTables s.mm (s.taskAt s.current).data.base (taskBase nr) (s.taskAt s.current).data.limit =
          .ok (false, u) ∧ freePageTables u (taskBase nr) (s.taskAt s.current).data.limit = .ok mm) := by
  unfold copyMem at hc
  split at hc
  next => cases hc
  split at hc
  next => cases hc
  obtain ⟨mm, rfl, hret⟩ := copyTables_cases hc
  exact ⟨_, mm, rfl, rfl, hret⟩

theorem copyTables_undone {src dst size : Nat} {u v : Mm} (hcopy : copyPageTables s.mm src dst size = .ok (false, u))
    (hback : freePageTables u dst size = .ok v) : s.copyTables src dst size = .ok (-enomem, { s with mm := v }) := by
  unfold copyTables
  rw [hcopy]
  dsimp only
  rw [hback]

theorem copyMem_undone {u v : Mm} (hbase : (s.taskAt s.current).data.base = (s.taskAt s.current).code.base)
    (hlimit : (s.taskAt s.current).code.limit ≤ (s.taskAt s.current).data.limit)
    (hcopy : copyPageTables s.mm (s.taskAt s.current).data.base (taskBase nr) (s.taskAt s.current).data.limit = .ok (false, u))
    (hback : freePageTables u (taskBase nr) (s.taskAt s.current).data.limit = .ok v) :
    s.copyMem nr p = .ok (-enomem, { s.setBases p (taskBase nr) with mm := v }) := by
  unfold copyMem
  rw [if_neg (not_not.mpr hbase), if_neg (by omega)]
  exact copyTables_undone hcopy hback

/-- The new structure lies in a page that no task has. -/
theorem Sound.fresh {k t q : Nat} (h : s.Sound holds) (hz : s.mm.memMap k = 0) (ht : t < 64)
    (hq : s.task t = some q) : q ≠ pageAt k := by
  rintro rfl
  rcases h.page t ht _ hq with hlow | ⟨j, hj, heq, hpos⟩
  · simp only [pageAt] at hlow
    omega
  · have hone := h.inv.tables.alone j hj hpos
    rw [pageAt_inj heq] at hz
    rw [Mm.tables_memMap] at hone
    omega

/-- How `copy_process` fails: without a page for the task structure, or in `copy_mem`. -/
theorem copyProcess_cases (h : s.Sound holds) (hc : copyProcess init s nr r = .ok (ret, s')) :
    (ret = -eagain ∧ s' = s) ∨
    ∃ k < pagingPages, ∃ mm, getFreePage s.mm = some (pageAt k, mm) ∧ s.mm.memMap k = 0 ∧ mm.Inv (Function.update holds k 1) ∧
      ((∃ q x u v w, ret = -eagain ∧
          copyPageTables mm (s.taskAt s.current).data.base (taskBase nr) (s.taskAt s.current).data.limit = .ok (false, u) ∧
          freePageTables u (taskBase nr) (s.taskAt s.current).data.limit = .ok v ∧ freePage v (pageAt k) = .ok w ∧
          s' = { s with mm := w, taskAt := Function.update s.taskAt (pageAt k) q, fpu := x }) ∨
        ∃ q x u, ret = s.lastPid ∧ q.data = { (s.taskAt s.current).data with base := taskBase nr } ∧
          copyPageTables mm (s.taskAt s.current).data.base (taskBase nr) (s.taskAt s.current).data.limit = .ok (true, u) ∧
          s' = ForkSys.enroll { s with mm := u, taskAt := Function.update s.taskAt (pageAt k) q, fpu := x } nr (pageAt k)) := by
  unfold copyProcess at hc
  split at hc
  next =>
    cases hc
    exact .inl ⟨rfl, rfl⟩
  next p mm hg =>
    right
    obtain ⟨k, hk, rfl, hz, hmm, hinv⟩ := h.inv.alloc hg
    obtain ⟨t, ht, hcur⟩ := h.current
    have hne : s.current ≠ pageAt k := h.fresh hz ht hcur
    refine ⟨k, hk, mm, hg, hz, hinv, ?_⟩
    obtain ⟨q, x, hfill, hdata⟩ := @fillIn_eq F { s with mm := mm } nr (pageAt k) init r
    rw [hfill] at hc
    split at hc
    next => cases hc
    next hmem =>
      obtain ⟨q', mm', rfl, hdata', hret⟩ := copyMem_cases hmem
      dsimp only at hc hdata' hret
      rw [Function.update_self] at hdata'
      rw [Function.update_of_ne hne] at hret
      rcases hret with ⟨rfl, hcopy⟩ | ⟨rfl, u, hcopy, hfree⟩
      · rw [if_neg (by simp)] at hc
        cases hc
        refine .inr ⟨q', x, mm', rfl, hdata'.trans (by rw [hdata]), hcopy, ?_⟩
        rw [Function.update_idem]
      · rw [if_pos (by decide)] at hc
        split at hc
        next => cases hc
        next w hw =>
          cases hc
          refine .inl ⟨q', x, u, mm', w, rfl, hcopy, hfree, hw, ?_⟩
          rw [Function.update_idem]

theorem Sound.unheld {k : Nat} (h : s.Sound holds) (hk : k < pagingPages) (hz : s.mm.memMap k = 0) : holds k = 0 := by
  by_contra hne
  have hone := h.inv.tables.alone k hk (Nat.pos_of_ne_zero hne)
  rw [Mm.tables_memMap] at hone
  omega

/-- The window of the parent and its slot. -/
theorem Sound.parent (h : s.Sound holds) (hfree : s.task nr = none) : ∃ t < 64, t ≠ nr ∧ s.task t = some s.current ∧
    (s.taskAt s.current).data.base = taskBase t ∧ (s.taskAt s.current).data.limit ≤ if t = 0 then 0xA0000 else 0x4000000 := by
  obtain ⟨t, ht, hcur⟩ := h.current
  obtain ⟨hbase, hlimit⟩ := h.window t ht _ hcur
  refine ⟨t, ht, ?_, hcur, hbase, hlimit⟩
  rintro rfl
  rw [hfree] at hcur
  cases hcur

/-- Memory after a fork that has failed in `copy_mem`. -/
theorem Sound.undone {k : Nat} {mm u v w : Mm} (h : s.Sound holds) (hnr : 0 < nr ∧ nr < 64) (hfree : s.task nr = none)
    (hk : k < pagingPages) (hg : getFreePage s.mm = some (pageAt k, mm)) (hz : s.mm.memMap k = 0)
    (hinv : mm.Inv (Function.update holds k 1))
    (hcopy : copyPageTables mm (s.taskAt s.current).data.base (taskBase nr) (s.taskAt s.current).data.limit = .ok (false, u))
    (hback : freePageTables u (taskBase nr) (s.taskAt s.current).data.limit = .ok v) (hw : freePage v (pageAt k) = .ok w) :
    w.Inv holds ∧ Mm.Fades (TaskSlots nr) s.mm w ∧ w.mem 0 = s.mm.mem 0 := by
  obtain ⟨t, ht, hne, _, hbase, hlimit⟩ := h.parent hfree
  rw [hbase] at hcopy
  have hstart : mm.mem 0 = s.mm.mem 0 := by
    obtain ⟨j, _, hj, _, rfl⟩ := getFreePage_some hg
    rw [Mm.setPage_mem_ne _ _ (Mm.pageAt_ne_zero j).symm, Mm.setMap_mem]
  have hempty : ∀ e, TaskSlots nr e → mm.mem 0 e = 0#32 := by
    intro e he
    rw [hstart]
    exact h.free nr hnr.1 hnr.2 hfree e he
  obtain ⟨hv, hfades, hzero⟩ := Mm.copy_then_free_fades hinv ht hnr hne hlimit hempty hcopy hback
  obtain ⟨w', hw', hlast⟩ := hv.drop hk (by rw [Function.update_self]; omega)
  rw [hw] at hw'
  cases hw'
  have hmem : w.mem = v.mem := Mm.freePage_mem hw
  rw [Function.update_self, Function.update_idem] at hlast
  have hholds : Function.update holds k (1 - 1) = holds := by
    rw [Function.update_eq_self_iff]
    exact (h.unheld hk hz).symm
  rw [hholds] at hlast
  refine ⟨hlast, ((Mm.alloc_fades h.inv hg).trans hfades).trans (Mm.Fades.of_mem hmem), ?_⟩
  rw [hmem, hzero, hstart]

/-- A fork that has failed leaves no trace but the right to write in entries of its parent. -/
theorem copyProcess_invisible (h : s.Sound holds) (hnr : 0 < nr ∧ nr < 64) (hfree : s.task nr = none)
    (hc : copyProcess init s nr r = .ok (ret, s')) (hneg : ret < 0) :
    (∀ k < pagingPages, s'.mm.memMap k = s.mm.memMap k) ∧ s'.task = s.task ∧ s'.fCount = s.fCount ∧ s'.iCount = s.iCount ∧
      (∀ e, TaskSlots nr e → present (s'.mm.mem 0 e) = false) ∧
      ∀ address, (s.taskAt s.current).data.base ≤ address →
        address < (s.taskAt s.current).data.base + (s.taskAt s.current).data.limit → s.mm.OnlyFaded s'.mm address := by
  have habsent : ∀ e, TaskSlots nr e → s.mm.mem 0 e = 0#32 := h.free nr hnr.1 hnr.2 hfree
  rcases copyProcess_cases h hc with ⟨_, rfl⟩ | ⟨k, hk, mm, hg, hz, hinv, hrest⟩
  · refine ⟨fun k _ => rfl, rfl, rfl, rfl, fun e he => ?_, fun address _ _ => ⟨.inl rfl, fun _ => rfl⟩⟩
    rw [habsent e he]
    exact present_zero
  rcases hrest with ⟨q, x, u, v, w, _, hcopy, hback, hw, rfl⟩ | ⟨_, _, _, hret, _⟩
  · obtain ⟨hlast, hfades, hzero⟩ := h.undone hnr hfree hk hg hz hinv hcopy hback hw
    obtain ⟨t, ht, hne, _, hbase, hlimit⟩ := h.parent hfree
    refine ⟨fun j hj => ?_, rfl, rfl, rfl, fun e he => ?_, fun address hlow hhigh => ?_⟩
    · apply Mm.Inv.same_counts h.inv hlast (fun e => by rw [hzero]) _ hj
      intro e he i
      by_cases hT : TaskSlots nr e
      · have hnone : present (s.mm.mem 0 e) = false := by rw [habsent e hT]; exact present_zero
        rw [Mm.pte_absent hnone, Mm.pte_absent (by rw [hzero]; exact hnone)]
        exact ⟨rfl, rfl⟩
      · exact hfades.same_page he hT
    · dsimp only
      rw [hzero, habsent e he]
      exact present_zero
    · rw [hbase, taskBase_eq] at hlow hhigh
      by_cases ht0 : t = 0
      · rw [if_pos ht0] at hlimit
        exact hfades.onlyFaded_kernel h.inv hzero (by omega)
      · rw [if_neg ht0] at hlimit
        have hdir : 16 * t ≤ dirOf address ∧ dirOf address < 16 * t + 16 := by
          unfold dirOf
          omega
        refine hfades.onlyFaded_user hzero (Mm.mem_userDirs.mpr (by omega)) fun hT => ?_
        unfold TaskSlots at hT
        omega
  · have hpid := h.pid
    omega

/-- The first task with all pages but one held by the kernel. -/
def onePage : ForkSys Unit :=
  { boot (fun _ _ => 0#32) 0x20000 () with mm := { bootMm fun _ _ => 0#32 with memMap := fun k => if k = 0 then 0 else 1 } }

theorem onePage_sound : onePage.Sound fun k => if k = 0 then 0 else 1 := by
  have hb := boot_sound (fun _ _ => 0#32) (show 0x20000 < lowMem by decide) ()
  have hinv : onePage.mm.Inv fun k => if k = 0 then 0 else 1 := by
    apply hb.inv.reserve
    · exact fun k => rfl
    · intro k
      split <;> omega
  refine ⟨hinv, hb.pid, hb.current, hb.window, fun t ht p hp => ?_, hb.free⟩
  rcases hb.page t ht p hp with hlow | ⟨_, _, _, hpos⟩
  · exact .inl hlow
  · cases hpos

def bareFrame : ForkFrame := ⟨0, 0, 0, 0, 0, 0, 0, 0, 0, 0, 0, 0, 0, 0, 0⟩

/-- The page goes to the task structure, and none is left for a table. -/
theorem onePage_fork (r : ForkFrame) : ∃ s', copyProcess () onePage 1 r = .ok (-eagain, s') := by
  have hg : ∃ mm, getFreePage onePage.mm = some (pageAt 0, mm) := by
    cases hg : getFreePage onePage.mm with
    | none => exact absurd rfl (getFreePage_none.mp hg 0 (by decide))
    | some x =>
      obtain ⟨k, _, hpage, hz, _⟩ := getFreePage_some (show getFreePage onePage.mm = some (x.1, x.2) from hg)
      have hk : k = 0 := by
        by_contra hne
        change (if k = 0 then 0 else 1) = 0 at hz
        rw [if_neg hne] at hz
        cases hz
      subst hk
      exact ⟨x.2, by rw [← hpage]⟩
  obtain ⟨mm, hg⟩ := hg
  obtain ⟨k, _, hk, _, hmm⟩ := getFreePage_some hg
  have hk0 : k = 0 := (pageAt_inj hk).symm
  subst hk0
  have hcount : ∀ j, mm.memMap j = 1 := by
    intro j
    rw [hmm, Mm.setPage_memMap, Mm.setMap_memMap]
    by_cases hj : j = 0
    · rw [hj, Function.update_self]
    · rw [Function.update_of_ne hj]
      exact if_neg hj
  have hdir : mm.mem 0 = onePage.mm.mem 0 := by
    rw [hmm, Mm.setPage_mem_ne _ _ (Mm.pageAt_ne_zero 0).symm, Mm.setMap_mem]
  have hnone : getFreePage mm = none := getFreePage_none.mpr fun j _ => by rw [hcount j]; decide
  have hslot : present (mm.mem 0 16) = false := by
    rw [hdir]
    exact present_zero
  have hcopy : copyPageTables mm 0 (taskBase 1) 0xA0000 = .ok (false, mm) := by
    unfold copyPageTables
    rw [if_neg (by decide), show dirCount 0xA0000 = 1 from rfl, show taskBase 1 / 0x400000 = 16 from rfl, copyDirs, if_neg (by simp [hslot]),
      if_pos (by rw [hdir]; decide), hnone]
  have hback : freePageTables mm (taskBase 1) 0xA0000 = .ok mm := by
    unfold freePageTables
    rw [if_neg (by decide), if_neg (by decide), show dirCount 0xA0000 = 1 from rfl, show taskBase 1 / 0x400000 = 16 from rfl, freeDirs,
      if_neg (by simp [hslot]), freeDirs]
  obtain ⟨w, hw⟩ : ∃ w, freePage mm (pageAt 0) = .ok w := ⟨_, freePage_pageAt (by decide) (by rw [hcount 0]; decide)⟩
  obtain ⟨q, x, hfill, _⟩ := @fillIn_eq Unit { onePage with mm := mm } 1 (pageAt 0) () r
  let s₁ : ForkSys Unit := { onePage with mm := mm, taskAt := Function.update onePage.taskAt (pageAt 0) q, fpu := x }
  have hne : (0x20000 : Nat) ≠ pageAt 0 := by decide
  have hcur : s₁.taskAt s₁.current = bootTask 0x20000 () := Function.update_of_ne hne q onePage.taskAt
  have hmem : s₁.copyMem 1 (pageAt 0) = .ok (-enomem, { s₁.setBases (pageAt 0) (taskBase 1) with mm := mm }) := by
    apply copyMem_undone
    · rw [hcur]
      rfl
    · rw [hcur]
      exact le_rfl
    · rw [hcur]
      exact hcopy
    · rw [hcur]
      exact hback
  unfold copyProcess
  rw [hg]
  dsimp only
  rw [hfill, hmem]
  dsimp only
  rw [if_pos (by decide), hw]
  exact ⟨_, rfl⟩

theorem copyProcess_invisible_onePage : ∃ s', copyProcess () onePage 1 bareFrame = .ok (-eagain, s') ∧
    (∀ k < pagingPages, s'.mm.memMap k = onePage.mm.memMap k) ∧ s'.task = onePage.task ∧ s'.fCount = onePage.fCount ∧
      s'.iCount = onePage.iCount ∧ (∀ e, TaskSlots 1 e → present (s'.mm.mem 0 e) = false) ∧
      ∀ address, (onePage.taskAt onePage.current).data.base ≤ address →
        address < (onePage.taskAt onePage.current).data.base + (onePage.taskAt onePage.current).data.limit →
          onePage.mm.OnlyFaded s'.mm address := by
  obtain ⟨s', hs'⟩ := onePage_fork bareFrame
  exact ⟨s', hs', copyProcess_invisible onePage_sound (by decide) rfl hs' (by decide)⟩

/-- Sound states stay sound over a fork, whether or not it goes well. -/
theorem Sound.copyProcess (h : s.Sound holds) (hnr : 0 < nr ∧ nr < 64) (hfree : s.task nr = none)
    (hc : copyProcess init s nr r = .ok (ret, s')) : ∃ holds', s'.Sound holds' := by
  rcases copyProcess_cases h hc with ⟨_, rfl⟩ | ⟨k, hk, mm, hg, hz, hinv, hrest⟩
  · exact ⟨holds, h⟩
  obtain ⟨t₀, ht₀, hcur⟩ := h.current
  have hsame : ∀ (q : ForkTask F) t p, t < 64 → s.task t = some p → Function.update s.taskAt (pageAt k) q p = s.taskAt p := by
    intro q t p ht hp
    exact Function.update_of_ne (h.fresh hz ht hp) _ _
  rcases hrest with ⟨q, x, u, v, w, _, hcopy, hback, hw, rfl⟩ | ⟨q, x, u, _, hdata, hcopy, rfl⟩
  · obtain ⟨hlast, hfades, hzero⟩ := h.undone hnr hfree hk hg hz hinv hcopy hback hw
    refine ⟨holds, hlast, h.pid, h.current, fun t ht p hp => ?_, h.page, fun n h0 hn hnone e he => ?_⟩
    · dsimp only at hp ⊢
      rw [hsame q t p ht hp]
      exact h.window t ht p hp
    · rw [hzero]
      exact h.free n h0 hn hnone e he
  · obtain ⟨t, ht, hne, _, hbase, hlimit⟩ := h.parent hfree
    rw [hbase] at hcopy
    obtain ⟨hu, hfades, _⟩ := Mm.copyPageTables_fades hinv ht hnr hne hlimit hcopy
    have hall := (Mm.alloc_fades h.inv hg).trans hfades
    refine ⟨Function.update holds k 1, hu, h.pid, ?_, fun n hn p hp => ?_, fun n hn p hp => ?_, fun n h0 hn hnone e he => ?_⟩
    · refine ⟨t₀, ht₀, ?_⟩
      have hother : t₀ ≠ nr := by
        rintro rfl
        rw [hfree] at hcur
        cases hcur
      exact (Function.update_of_ne hother _ _).trans hcur
    · by_cases hnn : n = nr
      · subst hnn
        change Function.update s.task n _ n = _ at hp
        rw [Function.update_self] at hp
        cases hp
        change ((Function.update s.taskAt (pageAt k) q) (pageAt k)).data.base = _ ∧ ((Function.update s.taskAt (pageAt k) q) (pageAt k)).data.limit ≤ _
        rw [Function.update_self, hdata, if_neg (by omega)]
        refine ⟨rfl, ?_⟩
        dsimp only
        split at hlimit
        next => omega
        next => exact hlimit
      · change Function.update s.task nr _ n = _ at hp
        rw [Function.update_of_ne hnn] at hp
        change ((Function.update s.taskAt (pageAt k) q) p).data.base = _ ∧ ((Function.update s.taskAt (pageAt k) q) p).data.limit ≤ _
        rw [hsame q n p hn hp]
        exact h.window n hn p hp
    · change Function.update s.task nr _ n = _ at hp
      by_cases hnn : n = nr
      · subst hnn
        rw [Function.update_self] at hp
        cases hp
        exact .inr ⟨k, hk, rfl, by rw [Function.update_self]; omega⟩
      · rw [Function.update_of_ne hnn] at hp
        rcases h.page n hn p hp with hlow | ⟨j, hj, hpj, hpos⟩
        · exact .inl hlow
        · refine .inr ⟨j, hj, hpj, ?_⟩
          have hjk : j ≠ k := by
            rintro rfl
            rw [h.unheld hk hz] at hpos
            omega
          rw [Function.update_of_ne hjk]
          exact hpos
    · change Function.update s.task nr _ n = _ at hnone
      have hnn : n ≠ nr := by
        rintro rfl
        rw [Function.update_self] at hnone
        cases hnone
      rw [Function.update_of_ne hnn] at hnone
      refine (hall.dir e fun hT => ?_).trans (h.free n h0 hn hnone e he)
      unfold TaskSlots at hT he
      omega

end ForkSys

end RheeKernel
