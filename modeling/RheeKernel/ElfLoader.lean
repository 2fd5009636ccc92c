import RheeKernel.ByteMemory
import RheeKernel.FileBlocks

open ByteMemory

namespace RheeKernel

/-- The device with the bytes of its blocks. Bytes from 1024 on are what follows the buffer of the
block in kernel memory. -/
structure Volume extends Device where
  byte : Nat → Nat → UInt8
  word_byte : ∀ b k, k < 512 → word b k = getHalf (byte b) (2 * k)

/-- An executable, the limit of the segment it is loaded into, and the kernel memory at address 0, which a
null buffer head points at. No limit reaches 2^32, so that an address that would wrap is outside of the
segment. -/
structure Executable where
  vol : Volume
  ip : ZoneInode
  limit : Nat
  low : Nat → UInt8

/-- The fields of the file header that the loader reads. -/
structure Elf32Ehdr where
  ident : Nat → UInt8
  type : Nat
  machine : Nat
  entry : Nat
  shoff : Nat
  ehsize : Nat
  shentsize : Nat
  shnum : Nat

structure Elf32Shdr where
  type : Nat
  addr : Nat
  offset : Nat
  size : Nat
deriving DecidableEq

structure BinSection where
  entry : Nat
  size : Nat
deriving DecidableEq

/-- How a step of the loader ends: with a result, with an error return and the memory it leaves, in a panic,
with a value read outside of a table, or with an address outside of the segment. -/
inductive LoadEnd (α : Type)
  | done (a : α)
  | refused (mem : Nat → UInt8)
  | panic
  | wild
  | fault

namespace LoadEnd

def bind {α β : Type} (r : LoadEnd α) (f : α → LoadEnd β) : LoadEnd β :=
  match r with
  | done a => f a
  | refused mem => refused mem
  | panic => panic
  | wild => wild
  | fault => fault

@[simp]
theorem bind_done {α β : Type} {a : α} {f : α → LoadEnd β} : (done a).bind f = f a := rfl

theorem bind_eq_done {α β : Type} {r : LoadEnd α} {f : α → LoadEnd β} {b : β} (h : r.bind f = .done b) :
    ∃ a, r = .done a ∧ f a = .done b := by
  cases r with
  | done a => exact ⟨a, rfl, h⟩
  | refused mem => cases h
  | panic => cases h
  | wild => cases h
  | fault => cases h

theorem bind_eq_refused {α β : Type} {r : LoadEnd α} {f : α → LoadEnd β} {mem : Nat → UInt8}
    (h : r.bind f = .refused mem) : r = .refused mem ∨ ∃ a, r = .done a ∧ f a = .refused mem := by
  cases r with
  | done a => exact .inr ⟨a, rfl, h⟩
  | refused mem₁ => cases h; exact .inl rfl
  | panic => cases h
  | wild => cases h
  | fault => cases h

def result {α : Type} : LoadEnd α → Option α
  | done a => some a
  | _ => none

theorem result_eq_some {α : Type} {r : LoadEnd α} {a : α} (h : r.result = some a) : r = .done a := by
  cases r with
  | done b => cases Option.some.inj h; rfl
  | refused mem => cases h
  | panic => cases h
  | wild => cases h
  | fault => cases h

end LoadEnd

def ehdrAt (src : Nat → UInt8) : Elf32Ehdr where
  ident := src
  type := getHalf src 16
  machine := getHalf src 18
  entry := getLong src 24
  shoff := getLong src 32
  ehsize := getHalf src 40
  shentsize := getHalf src 46
  shnum := getHalf src 48

def shdrAt (src : Nat → UInt8) (a : Nat) : Elf32Shdr where
  type := getLong src (a + 4)
  addr := getLong src (a + 12)
  offset := getLong src (a + 16)
  size := getLong src (a + 20)

def etExec : Nat := 2
def em386 : Nat := 3
def shtProgbits : Nat := 1
def shtNobits : Nat := 8

def isValidElf (ex : Elf32Ehdr) : Bool :=
  if ex.ident 0 != 0x7f || ex.ident 1 != 0x45 || ex.ident 2 != 0x4c || ex.ident 3 != 0x46 then false
  else if ex.type != etExec || ex.machine != em386 then false
  else true

/-- The file offset of section header `n`. -/
def Elf32Ehdr.headerPos (ex : Elf32Ehdr) (n : Nat) : Nat := (ex.shoff + n * ex.shentsize) % 2 ^ 32

/-- `rep movsl`: `n` words from offset `si` of a buffer to address `di`. -/
def movsl (limit : Nat) (src : Nat → UInt8) : Nat → (Nat → UInt8) → Nat → Nat → Option (Nat → UInt8)
  | 0, mem, _, _ => some mem
  | n + 1, mem, si, di =>
    if limit < di + 4 then none
    else movsl limit src n (patch (block (fun k => src (si + k)) di 4) mem) (si + 4) (di + 4)

def cpBlock (limit : Nat) (src : Nat → UInt8) (si di size : Nat) (mem : Nat → UInt8) : Option (Nat → UInt8) :=
  movsl limit src (size / 4) mem si di

def createBssSection (limit : Nat) : Nat → Nat → (Nat → UInt8) → Option (Nat → UInt8)
  | 0, _, mem => some mem
  | n + 1, dest, mem =>
    if limit < dest + 1 then none
    else createBssSection limit n (dest + 1) (patch (block (fun _ => 0) dest 1) mem)

def orFault (r : Option (Nat → UInt8)) : LoadEnd (Nat → UInt8) :=
  match r with
  | some mem => .done mem
  | none => .fault

namespace Executable

variable {e : Executable}

/-- The buffer of a block of the file, by its number on the device. -/
def fetch (e : Executable) (n : Nat) (mem : Nat → UInt8) : LoadEnd Nat :=
  match readFileBlock e.vol.toDevice e.ip n with
  | .buffer b => .done b
  | .null => .refused mem
  | .panic => .panic
  | .wild => .wild

/-- One block of `copy_section`: `cp` bytes, rounded up to words. -/
def copyBlock (e : Executable) (n off dest cp : Nat) (mem : Nat → UInt8) : LoadEnd (Nat → UInt8) :=
  (e.fetch n mem).bind fun b => orFault (cpBlock e.limit (e.vol.byte b) off dest (cp + 3) mem)

/-- The loop of `copy_section`; it ends after at most `size` rounds. -/
def copyBlocks (e : Executable) : Nat → Nat → Nat → Nat → (Nat → UInt8) → LoadEnd (Nat → UInt8)
  | 0, _, _, _, mem => .done mem
  | rounds + 1, n, dest, size, mem =>
    if size = 0 then .done mem
    else
      let cp := if size < 1024 then size else 1024
      (e.copyBlock n 0 dest cp mem).bind (e.copyBlocks rounds (n + 1) (dest + cp) (size - cp))

def copySection (e : Executable) (offset dest size : Nat) (mem : Nat → UInt8) : LoadEnd (Nat → UInt8) :=
  let off := offset % 1024
  let cp := if size < 1024 - off then size else 1024 - off
  (e.copyBlock (offset / 1024) off dest cp mem).bind
    (e.copyBlocks size (offset / 1024 + 1) (dest + cp) (size - cp))

/-- The part of a round that deals with the section itself. -/
def loadSection (e : Executable) (s : Elf32Shdr) (mem : Nat → UInt8) : LoadEnd (Nat → UInt8) :=
  if s.size = 0 ∨ s.addr = 0 then .done mem
  else if s.type = shtProgbits then e.copySection s.offset s.addr s.size mem
  else if s.type = shtNobits then orFault (createBssSection e.limit s.size s.addr mem)
  else .done mem

/-- The block of the section table that is in memory: its number in the file and its buffer. -/
structure TableBlock where
  lb : Nat
  bht : Option Nat

def seekTable (e : Executable) (pos : Nat) (t : TableBlock) (mem : Nat → UInt8) : LoadEnd TableBlock :=
  if pos / 1024 ≠ t.lb then (e.fetch (pos / 1024) mem).bind fun b => .done ⟨pos / 1024, some b⟩
  else .done t

def tableBytes (e : Executable) (t : TableBlock) : Nat → UInt8 :=
  match t.bht with
  | some b => e.vol.byte b
  | none => e.low

def growSize (size : Nat) (s : Elf32Shdr) : Nat :=
  if s.size = 0 ∨ s.addr = 0 then size
  else if s.type = shtProgbits ∨ s.type = shtNobits then
    if size < (s.addr + s.size) % 2 ^ 32 then (s.addr + s.size) % 2 ^ 32 else size
  else size

/-- The loop of `load_elf_binary` for the sections below `n`, the last one first. -/
def loadSections (e : Executable) (ex : Elf32Ehdr) :
    Nat → TableBlock → Nat → (Nat → UInt8) → LoadEnd ((Nat → UInt8) × Nat)
  | 0, _, size, mem => .done (mem, size)
  | n + 1, t, size, mem =>
    (e.seekTable (ex.headerPos n) t mem).bind fun t =>
      let sect := shdrAt (e.tableBytes t) (ex.headerPos n % 1024)
      (e.loadSection sect mem).bind (loadSections e ex n t (growSize size sect))

/-- `load_elf_binary`, with the buffer of block `b` of the device as `bh`. -/
def loadElfBinary (e : Executable) (b : Nat) (mem : Nat → UInt8) : LoadEnd ((Nat → UInt8) × BinSection) :=
  let ex := ehdrAt (e.vol.byte b)
  if isValidElf ex then
    if ex.shnum ≤ 1 then .refused mem
    else
      (e.loadSections ex ex.shnum ⟨0, none⟩ ((ex.ehsize + ex.shnum * ex.shentsize) % 2 ^ 32) mem).bind
        fun (mem, size) => .done (mem, ⟨ex.entry, size⟩)
  else .refused mem

/-- The step always ends, with the stores of `p`. -/
def Stores (f : (Nat → UInt8) → LoadEnd (Nat → UInt8)) (p : Nat → Option UInt8) : Prop :=
  ∀ mem, f mem = .done (patch p mem)

theorem Stores.nothing : Stores LoadEnd.done fun _ => none := fun _ => rfl

theorem Stores.bind {f g : (Nat → UInt8) → LoadEnd (Nat → UInt8)} {p q : Nat → Option UInt8} (hf : Stores f p)
    (hg : Stores g q) : Stores (fun mem => (f mem).bind g) fun x => (q x).or (p x) := by
  intro mem
  dsimp only
  rw [hf mem, LoadEnd.bind_done, hg, patch_patch]

theorem Stores.unique {f : (Nat → UInt8) → LoadEnd (Nat → UInt8)} {p : Nat → Option UInt8} (hf : Stores f p)
    {mem mem' : Nat → UInt8} (h : f mem = .done mem') : mem' = patch p mem := by
  have := (hf mem).symm.trans h
  cases this
  rfl

end Executable

theorem movsl_eq {limit n si di : Nat} {src mem : Nat → UInt8} :
    movsl limit src n mem si di =
      if n = 0 ∨ di + 4 * n ≤ limit then some (patch (block (fun k => src (si + k)) di (4 * n)) mem) else none := by
  induction n generalizing si di mem with
  | zero =>
    simp [movsl]
  | succ n ih =>
    unfold movsl
    split
    next hout => rw [if_neg (by omega)]
    next hin =>
      rw [ih]
      by_cases hn : n = 0 ∨ di + 4 + 4 * n ≤ limit
      · have hsrc : (fun k => src (si + 4 + k)) = fun k => src (si + (4 + k)) := by
          funext k
          rw [Nat.add_assoc]
        rw [if_pos hn, if_pos (by omega), patch_patch, hsrc, @block_append di (fun k => src (si + k)) 4 (4 * n),
          show 4 + 4 * n = 4 * (n + 1) by omega]
      · rw [if_neg hn, if_neg (by omega)]

theorem createBssSection_eq {limit n dest : Nat} {mem : Nat → UInt8} :
    createBssSection limit n dest mem =
      if n = 0 ∨ dest + n ≤ limit then some (patch (block (fun _ => 0) dest n) mem) else none := by
  induction n generalizing dest mem with
  | zero =>
    simp [createBssSection]
  | succ n ih =>
    unfold createBssSection
    split
    next hout => rw [if_neg (by omega)]
    next hin =>
      rw [ih]
      by_cases hn : n = 0 ∨ dest + 1 + n ≤ limit
      · rw [if_pos hn, if_pos (by omega), patch_patch, @block_append dest (fun _ => 0) 1 n, Nat.add_comm 1 n]
      · rw [if_neg hn, if_neg (by omega)]

namespace Executable

variable {e : Executable}

/-- The zone that holds block `n` of the file. -/
def zone (e : Executable) (n : Nat) : Nat := zoneOf e.vol.toDevice e.ip n

/-- Byte `q` of the file; a hole reads as zeros. -/
def fileByte (e : Executable) (q : Nat) : UInt8 :=
  if e.zone (q / 1024) = 0 then 0 else e.vol.byte (e.zone (q / 1024)) (q % 1024)

theorem fetch_any {n b : Nat} {mem : Nat → UInt8} (h : e.fetch n mem = .done b) (mem' : Nat → UInt8) :
    e.fetch n mem' = .done b := by
  unfold fetch at h ⊢
  split at h
  next => exact h
  next => cases h
  next => cases h
  next => cases h

theorem fetch_done {n b : Nat} {mem : Nat → UInt8} (h : e.fetch n mem = .done b) (hn : AgreesWithBmap e.vol.toDevice e.ip n) :
    b = e.zone n ∧ e.zone n ≠ 0 := by
  obtain ⟨z, hz, hread⟩ := hn
  have hz : z = e.zone n := by
    have hmax : n < maxFileBlocks := by
      by_contra hmax
      have hlow : ¬ (n : Int) < 0 := by omega
      have hhigh : (n : Int) ≥ maxFileBlocks := by omega
      simp [bmap, bmapCore, hlow, hhigh] at hz
    exact (Option.some.inj ((bmap_eq hmax).symm.trans hz)).symm
  unfold fetch at h
  rw [hread] at h
  unfold fetchZone at h
  by_cases h0 : z = 0
  · simp [h0] at h
  · simp only [h0, ↓reduceIte] at h
    cases h
    exact ⟨hz, hz ▸ h0⟩

theorem fileByte_eq {n k : Nat} (hn : e.zone n ≠ 0) (hk : k < 1024) :
    e.fileByte (1024 * n + k) = e.vol.byte (e.zone n) k := by
  have hq : (1024 * n + k) / 1024 = n := by omega
  have hr : (1024 * n + k) % 1024 = k := by omega
  unfold fileByte
  rw [hq, hr, if_neg hn]

/-- A block that is copied once is copied the same way into any memory. -/
theorem copyBlock_stores {n off dest cp : Nat} {mem mem' : Nat → UInt8} (h : e.copyBlock n off dest cp mem = .done mem')
    (hn : AgreesWithBmap e.vol.toDevice e.ip n) :
    e.zone n ≠ 0 ∧
      Stores (e.copyBlock n off dest cp) (block (fun k => e.vol.byte (e.zone n) (off + k)) dest (4 * ((cp + 3) / 4))) := by
  unfold copyBlock at h
  obtain ⟨b, hfetch, h⟩ := LoadEnd.bind_eq_done h
  obtain ⟨hb, hzone⟩ := fetch_done hfetch hn
  subst hb
  refine ⟨hzone, fun mem₂ => ?_⟩
  unfold cpBlock at h
  rw [movsl_eq] at h
  split at h
  next hin =>
    unfold copyBlock cpBlock
    rw [fetch_any hfetch mem₂, LoadEnd.bind_done, movsl_eq, if_pos hin]
    rfl
  next => cases h

end Executable

end RheeKernel
