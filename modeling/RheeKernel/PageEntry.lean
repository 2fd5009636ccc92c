import Mathlib.Data.BitVec
import Mathlib.Tactic.IntervalCases

namespace RheeKernel

/-- A page-directory or page-table entry as the processor reads it. -/
abbrev Word := BitVec 32

def lowMem : Nat := 0x200000
def highMemory : Nat := 0x800000
def pagingPages : Nat := (highMemory - lowMem) / 4096

/-- Physical address of the page that `mem_map[k]` counts. -/
def pageAt (k : Nat) : Nat := lowMem + 4096 * k

/-- `MAP_NR(addr)`. -/
def mapNr (addr : Nat) : Nat := (addr - lowMem) / 4096

/-- `1 & entry`. -/
def present (w : Word) : Bool := 1#32 &&& w != 0#32

/-- `2 & entry`. -/
def writable (w : Word) : Bool := 2#32 &&& w != 0#32

/-- `0xfffff000 & entry`. -/
def pageAddr (w : Word) : Nat := (0xfffff000#32 &&& w).toNat

/-- `page | 7`: present, writable, user. -/
def userEntry (page : Nat) : Word := BitVec.ofNat 32 page ||| 7#32

/-- `entry & ~2`. -/
def protect (w : Word) : Word := w &&& ~~~2#32

/-- `entry | 2`. -/
def unprotect (w : Word) : Word := w ||| 2#32

theorem pagingPages_eq : pagingPages = 1536 := rfl

theorem and_one_eq (w : Word) : 1#32 &&& w = if w.getLsbD 0 then 1#32 else 0#32 := by
  apply BitVec.eq_of_getLsbD_eq
  intro i hi
  cases hw : w.getLsbD 0 <;> simp [BitVec.getLsbD_one] <;> grind

theorem and_two_eq (w : Word) : 2#32 &&& w = if w.getLsbD 1 then 2#32 else 0#32 := by
  apply BitVec.eq_of_getLsbD_eq
  intro i hi
  cases hw : w.getLsbD 1 <;> interval_cases i <;> simp_all

theorem present_eq (w : Word) : present w = w.getLsbD 0 := by
  unfold present
  rw [and_one_eq]
  cases w.getLsbD 0 <;> decide

theorem writable_eq (w : Word) : writable w = w.getLsbD 1 := by
  unfold writable
  rw [and_two_eq]
  cases w.getLsbD 1 <;> decide

theorem pageAddr_eq (w : Word) : pageAddr w = w.toNat / 4096 * 4096 := by
  have h : (0xfffff000#32 &&& w) = (w >>> 12) <<< 12 := by
    apply BitVec.eq_of_getLsbD_eq
    intro i hi
    interval_cases i <;> simp
  unfold pageAddr
  rw [h]
  simp only [BitVec.toNat_shiftLeft, BitVec.toNat_ushiftRight, Nat.shiftLeft_eq,
    Nat.shiftRight_eq_div_pow]
  have := w.isLt
  omega

@[simp] theorem present_zero : present 0#32 = false := rfl
@[simp] theorem writable_zero : writable 0#32 = false := rfl
@[simp] theorem present_protect (w : Word) : present (protect w) = present w := by
  simp [present_eq, protect]
@[simp] theorem writable_protect (w : Word) : writable (protect w) = false := by
  simp [writable_eq, protect]
@[simp] theorem present_unprotect (w : Word) : present (unprotect w) = present w := by
  simp [present_eq, unprotect]
@[simp] theorem present_userEntry (page : Nat) : present (userEntry page) = true := by
  simp [present_eq, userEntry]
@[simp] theorem writable_userEntry (page : Nat) : writable (userEntry page) = true := by
  simp [writable_eq, userEntry]

/-- Two entries that agree above the flag bits name the same page. -/
theorem pageAddr_congr {v w : Word} (h : ∀ i, 12 ≤ i → i < 32 → v.getLsbD i = w.getLsbD i) :
    pageAddr v = pageAddr w := by
  unfold pageAddr
  congr 1
  apply BitVec.eq_of_getLsbD_eq
  intro i hi
  by_cases hb : 12 ≤ i
  · simp [h i hb hi]
  · have small : i < 12 := by omega
    interval_cases i <;> simp

@[simp] theorem pageAddr_protect (w : Word) : pageAddr (protect w) = pageAddr w := by
  apply pageAddr_congr
  intro i hi hb
  unfold protect
  interval_cases i <;> simp

@[simp] theorem pageAddr_unprotect (w : Word) : pageAddr (unprotect w) = pageAddr w := by
  apply pageAddr_congr
  intro i hi hb
  unfold unprotect
  interval_cases i <;> simp

theorem pageAddr_userEntry {page : Nat} (aligned : page % 4096 = 0) (bound : page < 2 ^ 32) :
    pageAddr (userEntry page) = page := by
  have same : pageAddr (userEntry page) = pageAddr (BitVec.ofNat 32 page) := by
    apply pageAddr_congr
    intro i hi hb
    unfold userEntry
    interval_cases i <;> simp
  rw [same, pageAddr_eq, BitVec.toNat_ofNat, Nat.mod_eq_of_lt bound]
  omega

theorem pageAt_lt {k : Nat} (hk : k < pagingPages) : pageAt k < highMemory := by
  simp only [pageAt, pagingPages_eq, lowMem, highMemory] at *
  omega

@[simp] theorem pageAddr_userEntry_pageAt {k : Nat} (hk : k < pagingPages) :
    pageAddr (userEntry (pageAt k)) = pageAt k := by
  apply pageAddr_userEntry
  · simp only [pageAt, lowMem]
    omega
  · have := pageAt_lt hk
    simp only [highMemory] at this
    omega

theorem pageAt_inj {j k : Nat} (h : pageAt j = pageAt k) : j = k := by
  simp only [pageAt] at h
  omega

theorem mapNr_pageAt (k : Nat) : mapNr (pageAt k) = k := by
  simp only [mapNr, pageAt]
  omega

/-- A page address inside paged memory is the address of one counted page. -/
theorem exists_pageAt {w : Word} (low : lowMem ≤ pageAddr w) (high : pageAddr w < highMemory) :
    ∃ k < pagingPages, pageAddr w = pageAt k := by
  have h := pageAddr_eq w
  refine ⟨mapNr (pageAddr w), ?_, ?_⟩
  · simp only [mapNr, pagingPages_eq, lowMem, highMemory] at *
    omega
  · simp only [mapNr, pageAt, lowMem, highMemory] at *
    omega

/-- The comparison `this_page > LOW_MEM` of `copy_page_tables` is made with the flag bits still
in the word; for a present entry it decides whether the page itself is at or above `LOW_MEM`. -/
theorem lowMem_lt_entry {w : Word} (hp : present w = true) : lowMem < w.toNat ↔ lowMem ≤ pageAddr w := by
  have odd : w.toNat % 2 = 1 := by
    rw [present_eq, BitVec.getLsbD, Nat.testBit_zero] at hp
    simpa using hp
  rw [pageAddr_eq]
  simp only [lowMem]
  omega

theorem mapNr_entry {w : Word} (low : lowMem ≤ pageAddr w) :
    (w.toNat - lowMem) / 4096 = mapNr (pageAddr w) := by
  rw [pageAddr_eq] at low ⊢
  simp only [mapNr, lowMem] at *
  omega

end RheeKernel
