import RheeKernel.PageEntry

namespace RheeKernel

inductive MmPanic
  | freeNonexistent
  | freeFree
  | freeAlignment
  | freeSwapper
  | copyAlignment
  | alreadyExist
  deriving DecidableEq, Repr

/-- The page counters and physical memory, word by word; a page is named by its address. The page
directory is the page at address 0, the kernel's first page table the one at 0x1000. -/
structure Mm where
  memMap : Nat → Nat
  mem : Nat → Nat → Word

namespace Mm

def setMap (s : Mm) (k n : Nat) : Mm := { s with memMap := Function.update s.memMap k n }

def setPage (s : Mm) (page : Nat) (c : Nat → Word) : Mm := { s with mem := Function.update s.mem page c }

def store (s : Mm) (page i : Nat) (w : Word) : Mm :=
  s.setPage page (Function.update (s.mem page) i w)

end Mm

/-- The `repne scasw` of `get_free_page`: from the last counter down to the first zero. -/
def scanMap (m : Nat → Nat) : Nat → Option Nat
  | 0 => none
  | n + 1 => if m n = 0 then some n else scanMap m n

def getFreePage (s : Mm) : Option (Nat × Mm) :=
  match scanMap s.memMap pagingPages with
  | none => none
  | some k => some (lowMem + k * 4096, (s.setMap k 1).setPage (lowMem + k * 4096) fun _ => 0#32)

def freePage (s : Mm) (addr : Nat) : Except MmPanic Mm :=
  if addr < lowMem then .ok s
  else if highMemory < addr then .error .freeNonexistent
  else if s.memMap (mapNr addr) = 0 then .error .freeFree
  else .ok (s.setMap (mapNr addr) (s.memMap (mapNr addr) - 1))

/-- Entries `nr, nr + 1, ..` of one page table, `n` of them. -/
def freeEntries (table : Nat) : Nat → Nat → Mm → Except MmPanic Mm
  | 0, _, s => .ok s
  | n + 1, nr, s =>
    match (if present (s.mem table nr) then freePage s (pageAddr (s.mem table nr)) else .ok s) with
    | .error p => .error p
    | .ok s => freeEntries table n (nr + 1) (s.store table nr 0#32)

def freeDirs : Nat → Nat → Mm → Except MmPanic Mm
  | 0, _, s => .ok s
  | n + 1, dir, s =>
    if present (s.mem 0 dir) then
      match freeEntries (pageAddr (s.mem 0 dir)) 1024 0 s with
      | .error p => .error p
      | .ok s =>
        match freePage s (pageAddr (s.mem 0 dir)) with
        | .error p => .error p
        | .ok s => freeDirs n (dir + 1) (s.store 0 dir 0#32)
    else freeDirs n (dir + 1) s

/-- Page-directory entries that a range of `size` bytes takes, in 32-bit arithmetic. -/
def dirCount (size : Nat) : Nat := (size + 0x3fffff) % 2 ^ 32 / 0x400000

def freePageTables (s : Mm) (base size : Nat) : Except MmPanic Mm :=
  if base % 0x400000 ≠ 0 then .error .freeAlignment
  else if base = 0 then .error .freeSwapper
  else freeDirs (dirCount size) (base / 0x400000) s

/-- One round of the inner loop of `copy_page_tables`. -/
def copyEntry (src dst nr : Nat) (s : Mm) : Mm :=
  let thisPage := s.mem src nr
  if present thisPage then
    let thisPage := protect thisPage
    let s := s.store dst nr thisPage
    if lowMem < thisPage.toNat then
      let s := s.store src nr thisPage
      let k := (thisPage.toNat - lowMem) / 4096
      s.setMap k ((s.memMap k + 1) % 65536)
    else s
  else s

def copyEntries (src dst : Nat) : Nat → Nat → Mm → Mm
  | 0, _, s => s
  | n + 1, nr, s => copyEntries src dst n (nr + 1) (copyEntry src dst nr s)

/-- The boolean is false where the source returns -1. -/
def copyDirs (entries : Nat) : Nat → Nat → Nat → Mm → Except MmPanic (Bool × Mm)
  | 0, _, _, s => .ok (true, s)
  | n + 1, fromDir, toDir, s =>
    if present (s.mem 0 toDir) then .error .alreadyExist
    else if present (s.mem 0 fromDir) then
      match getFreePage s with
      | none => .ok (false, s)
      | some (table, s) =>
        let s := s.store 0 toDir (userEntry table)
        copyDirs entries n (fromDir + 1) (toDir + 1)
          (copyEntries (pageAddr (s.mem 0 fromDir)) table entries 0 s)
    else copyDirs entries n (fromDir + 1) (toDir + 1) s

def copyPageTables (s : Mm) (src dst size : Nat) : Except MmPanic (Bool × Mm) :=
  if src % 0x400000 ≠ 0 ∨ dst % 0x400000 ≠ 0 then .error .copyAlignment
  else copyDirs (if src = 0 then 0xA0 else 1024) (dirCount size) (src / 0x400000) (dst / 0x400000) s

/-- Directory slot and table slot of a linear address. -/
def dirOf (address : Nat) : Nat := address / 0x400000 % 1024
def slotOf (address : Nat) : Nat := address / 4096 % 1024

/-- `none` is the return value 0: no page was left for the page table. -/
def putPage (s : Mm) (page address : Nat) : Option Mm :=
  if present (s.mem 0 (dirOf address)) then
    some (s.store (pageAddr (s.mem 0 (dirOf address))) (slotOf address) (userEntry page))
  else
    match getFreePage s with
    | none => none
    | some (tmp, s) =>
      some ((s.store 0 (dirOf address) (userEntry tmp)).store tmp (slotOf address) (userEntry page))

/-- `none` where the source calls `do_exit(SIGSEGV)`, which does not return. -/
def unWpPage (s : Mm) (table nr : Nat) : Option Mm :=
  let oldPage := pageAddr (s.mem table nr)
  if lowMem ≤ oldPage ∧ s.memMap (mapNr oldPage) = 1 then
    some (s.store table nr (unprotect (s.mem table nr)))
  else
    match getFreePage s with
    | none => none
    | some (newPage, s) =>
      let s := if lowMem ≤ oldPage then s.setMap (mapNr oldPage) ((s.memMap (mapNr oldPage) + 65535) % 65536)
        else s
      let s := s.store table nr (userEntry newPage)
      some (s.setPage newPage (s.mem oldPage))

def doWpPage (s : Mm) (address : Nat) : Option Mm :=
  unWpPage s (pageAddr (s.mem 0 (dirOf address))) (slotOf address)

def doNoPage (s : Mm) (address : Nat) : Option Mm :=
  match getFreePage s with
  | none => none
  | some (tmp, s) => putPage s tmp address

@[simp] theorem Mm.setMap_mem (s : Mm) (k n : Nat) : (s.setMap k n).mem = s.mem := rfl
@[simp] theorem Mm.setMap_memMap (s : Mm) (k n : Nat) :
    (s.setMap k n).memMap = Function.update s.memMap k n := rfl
@[simp] theorem Mm.setPage_memMap (s : Mm) (a : Nat) (c : Nat → Word) :
    (s.setPage a c).memMap = s.memMap := rfl
@[simp] theorem Mm.store_memMap (s : Mm) (a i : Nat) (w : Word) : (s.store a i w).memMap = s.memMap := rfl
@[simp] theorem Mm.setPage_mem_self (s : Mm) (a : Nat) (c : Nat → Word) : (s.setPage a c).mem a = c := by
  simp [Mm.setPage]

theorem Mm.setPage_mem_ne {a b : Nat} (s : Mm) (c : Nat → Word) (h : b ≠ a) :
    (s.setPage a c).mem b = s.mem b := by
  simp [Mm.setPage, h]

@[simp] theorem Mm.store_mem_self (s : Mm) (a i : Nat) (w : Word) :
    (s.store a i w).mem a = Function.update (s.mem a) i w := by
  simp [Mm.store]

theorem Mm.store_mem_ne {a b : Nat} (s : Mm) (i : Nat) (w : Word) (h : b ≠ a) :
    (s.store a i w).mem b = s.mem b := Mm.setPage_mem_ne s _ h

theorem Mm.store_mem (s : Mm) (a i : Nat) (w : Word) :
    (s.store a i w).mem = Function.update s.mem a (Function.update (s.mem a) i w) := rfl

theorem Mm.store_store (s : Mm) (a i : Nat) (v w : Word) : (s.store a i v).store a i w = s.store a i w := by
  simp [Mm.store, Mm.setPage]

theorem scanMap_some {m : Nat → Nat} {n k : Nat} (h : scanMap m n = some k) : k < n ∧ m k = 0 := by
  induction n with
  | zero => simp [scanMap] at h
  | succ n ih =>
    unfold scanMap at h
    split at h
    next hz =>
      cases Option.some.inj h
      exact ⟨by omega, hz⟩
    next =>
      have := ih h
      exact ⟨by omega, this.2⟩

theorem scanMap_none {m : Nat → Nat} {n : Nat} : scanMap m n = none ↔ ∀ k < n, m k ≠ 0 := by
  induction n with
  | zero => simp [scanMap]
  | succ n ih =>
    unfold scanMap
    split
    next hz =>
      simp only [reduceCtorEq, false_iff]
      exact fun h => h n (by omega) hz
    next hz =>
      rw [ih]
      constructor
      · intro h k hk
        by_cases hkn : k = n
        · rw [hkn]
          exact hz
        · exact h k (by omega)
      · exact fun h k hk => h k (by omega)

theorem getFreePage_none {s : Mm} : getFreePage s = none ↔ ∀ k < pagingPages, s.memMap k ≠ 0 := by
  rw [← scanMap_none]
  unfold getFreePage
  split
  next h => simp [h]
  next h => simp [h]

theorem getFreePage_some {s s' : Mm} {page : Nat} (h : getFreePage s = some (page, s')) :
    ∃ k < pagingPages, page = pageAt k ∧ s.memMap k = 0 ∧
      s' = (s.setMap k 1).setPage (pageAt k) fun _ => 0#32 := by
  unfold getFreePage at h
  split at h
  next => simp at h
  next k hk =>
    obtain ⟨hb, hz⟩ := scanMap_some hk
    obtain ⟨rfl, rfl⟩ := Prod.mk.inj (Option.some.inj h)
    refine ⟨k, hb, ?_, hz, ?_⟩
    · simp only [pageAt]
      omega
    · rw [show lowMem + k * 4096 = pageAt k by simp only [pageAt]; omega]

/-- `free_page` of a counted page whose count is positive. -/
theorem freePage_pageAt {s : Mm} {k : Nat} (hk : k < pagingPages) (hm : s.memMap k ≠ 0) :
    freePage s (pageAt k) = .ok (s.setMap k (s.memMap k - 1)) := by
  have h1 : ¬ pageAt k < lowMem := by simp [pageAt]
  have h2 : ¬ highMemory < pageAt k := by
    have := pageAt_lt hk
    omega
  simp only [freePage, if_neg h1, if_neg h2, mapNr_pageAt, if_neg hm]

theorem freePage_low {s : Mm} {addr : Nat} (h : addr < lowMem) : freePage s addr = .ok s := if_pos h

end RheeKernel
