import RheeKernel.ElfLoader

open ByteMemory

namespace RheeKernel

def Elf32Shdr.Allocated (s : Elf32Shdr) : Prop := s.addr ≠ 0 ∧ s.size ≠ 0

instance {s : Elf32Shdr} : Decidable s.Allocated := inferInstanceAs (Decidable (_ ∧ _))

/-- How many bytes `copy_section` stores: whole words, counted from the start of the last block. -/
def copiedBytes (offset size : Nat) : Nat :=
  if size ≤ 1024 - offset % 1024 then 4 * ((size + 3) / 4)
  else 1024 - offset % 1024 + 4 * ((size - (1024 - offset % 1024) + 3) / 4)

/-- How many bytes the loader stores for a section. -/
def Elf32Shdr.extent (s : Elf32Shdr) : Nat :=
  if s.type = shtProgbits then copiedBytes s.offset s.size else if s.type = shtNobits then s.size else 0

namespace Executable

variable {e : Executable}

def ehdr (e : Executable) : Elf32Ehdr := ehdrAt e.fileByte

/-- Section `i` as the file has it. -/
def sect (e : Executable) (i : Nat) : Elf32Shdr := shdrAt e.fileByte (e.ehdr.headerPos i)

/-- The byte that belongs at position `k` of a section. -/
def sectionByte (e : Executable) (s : Elf32Shdr) (k : Nat) : Option UInt8 :=
  if s.type = shtProgbits then some (e.fileByte (s.offset + k)) else if s.type = shtNobits then some 0 else none

/-- The stores put `size` bytes of the file, from `offset` on, at `dest`; they are `n` bytes in all. -/
structure Lays (e : Executable) (p : Nat → Option UInt8) (offset dest size n : Nat) : Prop where
  bytes : ∀ k, k < size → p (dest + k) = some (e.fileByte (offset + k))
  extent : ∀ x, (p x).isSome = true ↔ dest ≤ x ∧ x < dest + n

theorem Lays.none_before {p : Nat → Option UInt8} {offset dest size n x : Nat} (h : e.Lays p offset dest size n)
    (hx : x < dest) : p x = none := by
  cases hp : p x with
  | none => rfl
  | some c =>
    have := (h.extent x).mp (by rw [hp]; rfl)
    omega

/-- What is left of the words of one block is overwritten by the blocks behind it. -/
theorem Lays.cons {p : Nat → Option UInt8} {n off dest cp size m : Nat} (h : e.Lays p (1024 * (n + 1)) (dest + cp) size m)
    (hzone : e.zone n ≠ 0) (hoff : off + cp ≤ 1024) (hrest : size = 0 ∨ off + cp = 1024) :
    e.Lays (fun x => (p x).or (block (fun k => e.vol.byte (e.zone n) (off + k)) dest (4 * ((cp + 3) / 4)) x))
      (1024 * n + off) dest (cp + size) (max (4 * ((cp + 3) / 4)) (cp + m)) := by
  constructor
  · intro k hk
    by_cases hlow : k < cp
    · have hinside : block (fun k => e.vol.byte (e.zone n) (off + k)) dest (4 * ((cp + 3) / 4)) (dest + k) =
          some (e.vol.byte (e.zone n) (off + k)) := block_inside (by omega)
      rw [h.none_before (by omega), hinside, Nat.add_assoc, fileByte_eq hzone (by omega)]
      rfl
    · have hnext := h.bytes (k - cp) (by omega)
      rw [show dest + cp + (k - cp) = dest + k by omega,
        show 1024 * (n + 1) + (k - cp) = 1024 * n + off + k by omega] at hnext
      rw [hnext]
      rfl
  · intro x
    rw [Option.isSome_or, Bool.or_eq_true, h.extent, block_isSome]
    omega

theorem copyBlocks_stores {rounds n dest size : Nat} {mem mem' : Nat → UInt8}
    (h : e.copyBlocks rounds n dest size mem = .done mem') (hrounds : size ≤ rounds)
    (hread : ∀ j : Nat, n ≤ j → 1024 * j < 1024 * n + size → AgreesWithBmap e.vol.toDevice e.ip j) :
    ∃ p, Stores (e.copyBlocks rounds n dest size) p ∧ e.Lays p (1024 * n) dest size (4 * ((size + 3) / 4)) := by
  have hnothing : e.Lays (fun _ => none) (1024 * n) dest 0 0 :=
    ⟨fun k hk => by omega, fun x => by simp⟩
  induction rounds generalizing n dest size mem with
  | zero =>
    have hsize : size = 0 := by omega
    subst hsize
    exact ⟨_, Stores.nothing, hnothing⟩
  | succ rounds ih =>
    by_cases hsize : size = 0
    · subst hsize
      exact ⟨_, fun mem => rfl, hnothing⟩
    · unfold copyBlocks at h
      rw [if_neg hsize] at h
      dsimp only at h
      generalize hcp : (if size < 1024 then size else 1024) = cp at h
      have hcases : size < 1024 ∧ cp = size ∨ 1024 ≤ size ∧ cp = 1024 := by
        split at hcp
        next hlt => exact .inl ⟨hlt, hcp.symm⟩
        next hge => exact .inr ⟨by omega, hcp.symm⟩
      obtain ⟨mem₁, hcopy, h⟩ := LoadEnd.bind_eq_done h
      obtain ⟨hzone, hstores⟩ := copyBlock_stores hcopy (hread n (by omega) (by omega))
      have hread' : ∀ j : Nat, n + 1 ≤ j → 1024 * j < 1024 * (n + 1) + (size - cp) → AgreesWithBmap e.vol.toDevice e.ip j := by
        intro j hj hlt
        have hlt' : 1024 * j < 1024 * n + size := by omega
        exact hread j (by omega) hlt'
      obtain ⟨p, hrest, hlays⟩ := ih h (by omega) hread' ⟨fun k hk => by omega, fun x => by simp⟩
      have hall := @Lays.cons e p n 0 dest cp (size - cp) _ hlays hzone (by omega) (by omega)
      have hmax : max (4 * ((cp + 3) / 4)) (cp + 4 * ((size - cp + 3) / 4)) = 4 * ((size + 3) / 4) := by omega
      have hsum : cp + (size - cp) = size := by omega
      rw [hsum, hmax] at hall
      refine ⟨_, fun mem => ?_, hall⟩
      unfold copyBlocks
      rw [if_neg hsize]
      dsimp only
      rw [hcp]
      exact (hstores.bind hrest) mem

theorem copySection_stores {offset dest size : Nat} {mem mem' : Nat → UInt8}
    (h : e.copySection offset dest size mem = .done mem') (hsize : size ≠ 0)
    (hread : ∀ j : Nat, offset / 1024 ≤ j → 1024 * j < offset + size → AgreesWithBmap e.vol.toDevice e.ip j) :
    ∃ p, Stores (e.copySection offset dest size) p ∧ e.Lays p offset dest size (copiedBytes offset size) := by
  unfold copySection at h
  dsimp only at h
  generalize hcp : (if size < 1024 - offset % 1024 then size else 1024 - offset % 1024) = cp at h
  have hcases : size < 1024 - offset % 1024 ∧ cp = size ∨ 1024 - offset % 1024 ≤ size ∧ cp = 1024 - offset % 1024 := by
    split at hcp
    next hlt => exact .inl ⟨hlt, hcp.symm⟩
    next hge => exact .inr ⟨by omega, hcp.symm⟩
  obtain ⟨mem₁, hcopy, h⟩ := LoadEnd.bind_eq_done h
  obtain ⟨hzone, hstores⟩ := copyBlock_stores hcopy (hread _ (by omega) (by omega))
  obtain ⟨p, hrest, hlays⟩ := copyBlocks_stores h (by omega) (fun j hj hlt => hread j (by omega) (by omega))
  have hall := @Lays.cons e p (offset / 1024) (offset % 1024) dest cp (size - cp) _ hlays hzone (by omega) (by omega)
  have hmax : max (4 * ((cp + 3) / 4)) (cp + 4 * ((size - cp + 3) / 4)) = copiedBytes offset size := by
    unfold copiedBytes
    split
    next hle => omega
    next hgt => omega
  have hsum : cp + (size - cp) = size := by omega
  have hoffset : 1024 * (offset / 1024) + offset % 1024 = offset := by omega
  rw [hoffset, hsum, hmax] at hall
  refine ⟨_, fun mem => ?_, hall⟩
  unfold copySection
  dsimp only
  rw [hcp]
  exact (hstores.bind hrest) mem

/-- A section that is loaded once is loaded the same way into any memory. -/
theorem loadSection_stores {s : Elf32Shdr} {mem mem' : Nat → UInt8} (h : e.loadSection s mem = .done mem')
    (hread : s.Allocated → s.type = shtProgbits →
      ∀ j : Nat, s.offset / 1024 ≤ j → 1024 * j < s.offset + s.size → AgreesWithBmap e.vol.toDevice e.ip j) :
    ∃ p, Stores (e.loadSection s) p ∧ (s.Allocated → ∀ k, k < s.size → p (s.addr + k) = e.sectionByte s k) ∧
      ∀ x, (p x).isSome = true ↔ s.Allocated ∧ s.addr ≤ x ∧ x < s.addr + s.extent := by
  by_cases halloc : s.Allocated
  · have hskip : ¬ (s.size = 0 ∨ s.addr = 0) := fun hs => hs.elim halloc.2 halloc.1
    unfold loadSection at h ⊢
    rw [if_neg hskip] at h
    simp only [if_neg hskip]
    unfold sectionByte Elf32Shdr.extent
    by_cases hprog : s.type = shtProgbits
    · rw [if_pos hprog] at h
      simp only [if_pos hprog]
      obtain ⟨p, hstores, hlays⟩ := copySection_stores h halloc.2 (hread halloc hprog)
      exact ⟨p, hstores, fun _ => hlays.bytes, fun x => by simp [hlays.extent, halloc]⟩
    · rw [if_neg hprog] at h
      simp only [if_neg hprog]
      by_cases hnobits : s.type = shtNobits
      · rw [if_pos hnobits, createBssSection_eq] at h
        simp only [if_pos hnobits, createBssSection_eq]
        split at h
        next hin =>
          refine ⟨block (fun _ => 0) s.addr s.size, fun mem => ?_, fun _ k hk => block_inside hk, fun x => ?_⟩
          · dsimp only
            rw [if_pos hin]
            rfl
          · rw [block_isSome]
            simp [halloc]
        next => cases h
      · simp only [if_neg hnobits]
        exact ⟨_, Stores.nothing, fun _ k _ => rfl, fun x => by simp⟩
  · have hskip : s.size = 0 ∨ s.addr = 0 := by
      by_contra hs
      exact halloc ⟨fun h => hs (.inr h), fun h => hs (.inl h)⟩
    unfold loadSection
    simp only [if_pos hskip]
    exact ⟨_, Stores.nothing, fun h => absurd h halloc, fun x => by simp [halloc]⟩

/-- Every byte of the section is the one that belongs there. -/
def SectionHolds (e : Executable) (s : Elf32Shdr) (mem : Nat → UInt8) : Prop :=
  s.Allocated → ∀ k, k < s.size → ∀ c, e.sectionByte s k = some c → mem (s.addr + k) = c

/-- The address ranges of the allocated sections do not overlap. -/
def Disjoint (e : Executable) : Prop :=
  ∀ i, i < e.ehdr.shnum → ∀ j, j < e.ehdr.shnum → i ≠ j → (e.sect i).Allocated → (e.sect j).Allocated →
    (e.sect i).addr + (e.sect i).size ≤ (e.sect j).addr ∨ (e.sect j).addr + (e.sect j).size ≤ (e.sect i).addr

/-- The loader reads the file it is given: the first block is no hole, the last entry of the section table
is not in the first block (no buffer would be fetched for it), the fields of no entry go past the end of
their block, and the walk to the blocks of the table and of the sections agrees with `bmap`. -/
structure ReadsFile (e : Executable) : Prop where
  first : e.ip.zone 0 ≠ 0
  table : e.ehdr.headerPos (e.ehdr.shnum - 1) / 1024 ≠ 0
  entry : ∀ i, i < e.ehdr.shnum → e.ehdr.headerPos i % 1024 + 24 ≤ 1024
  tableBlock : ∀ i, i < e.ehdr.shnum → AgreesWithBmap e.vol.toDevice e.ip (e.ehdr.headerPos i / 1024 : Nat)
  sectBlock : ∀ i, i < e.ehdr.shnum → (e.sect i).Allocated → (e.sect i).type = shtProgbits →
    ∀ j : Nat, (e.sect i).offset / 1024 ≤ j → 1024 * j < (e.sect i).offset + (e.sect i).size →
      AgreesWithBmap e.vol.toDevice e.ip j

/-- No section's loading alters a byte of another section, whatever memory holds. -/
def KeepsOthers (e : Executable) : Prop :=
  ∀ i, i < e.ehdr.shnum → ∀ j, j < e.ehdr.shnum → i ≠ j → (e.sect j).Allocated →
    ∀ mem mem', e.loadSection (e.sect i) mem = .done mem' →
      ∀ x, (e.sect j).addr ≤ x → x < (e.sect j).addr + (e.sect j).size → mem' x = mem x

/-- No allocated section starts within the bytes that are stored behind section `i` to fill its last word. -/
def RoomBehind (e : Executable) (i j : Nat) : Prop :=
  (e.sect i).Allocated → (e.sect j).Allocated →
    (e.sect i).addr + (e.sect i).size ≤ (e.sect j).addr → (e.sect i).addr + (e.sect i).extent ≤ (e.sect j).addr

/-- Where a section ends inside of a word, no other section starts before the end of that word. -/
def NoOverrun (e : Executable) : Prop :=
  ∀ i, i < e.ehdr.shnum → ∀ j, j < e.ehdr.shnum → i ≠ j → e.RoomBehind i j

theorem fileByte_first (h : e.ip.zone 0 ≠ 0) {k : Nat} (hk : k < 1024) : e.fileByte k = e.vol.byte (e.ip.zone 0) k := by
  have hzone : e.zone 0 = e.ip.zone 0 := rfl
  have := @fileByte_eq e 0 k (by rw [hzone]; exact h) hk
  rw [← hzone, ← this]
  congr 1
  omega

/-- The header in the first buffer is the header of the file. -/
theorem ehdrAt_first (h : e.ip.zone 0 ≠ 0) :
    (ehdrAt (e.vol.byte (e.ip.zone 0))).shoff = e.ehdr.shoff ∧
      (ehdrAt (e.vol.byte (e.ip.zone 0))).shentsize = e.ehdr.shentsize ∧
      (ehdrAt (e.vol.byte (e.ip.zone 0))).shnum = e.ehdr.shnum := by
  refine ⟨getLong_congr fun x _ hx => ?_, getHalf_congr fun x _ hx => ?_, getHalf_congr fun x _ hx => ?_⟩
  · exact (fileByte_first h (by omega)).symm
  · exact (fileByte_first h (by omega)).symm
  · exact (fileByte_first h (by omega)).symm

/-- An entry of the table that lies within its block is read as the file has it. -/
theorem shdrAt_block {pos : Nat} (hzone : e.zone (pos / 1024) ≠ 0) (hpos : pos % 1024 + 24 ≤ 1024) :
    shdrAt (e.vol.byte (e.zone (pos / 1024))) (pos % 1024) = shdrAt e.fileByte pos := by
  have hlong : ∀ i, i + 4 ≤ 24 →
      getLong (e.vol.byte (e.zone (pos / 1024))) (pos % 1024 + i) = getLong e.fileByte (pos + i) := by
    intro i hi
    refine getLong_shift fun k hk => ?_
    have := @fileByte_eq e (pos / 1024) (pos % 1024 + i + k) hzone (by omega)
    rw [← this]
    congr 1
    omega
  unfold shdrAt
  rw [hlong 4 (by omega), hlong 12 (by omega), hlong 16 (by omega), hlong 20 (by omega)]

/-- The table block in memory, once there is one. -/
def TableBlock.Loaded (e : Executable) (t : TableBlock) : Prop := t.bht = some (e.zone t.lb) ∧ e.zone t.lb ≠ 0

theorem seekTable_loaded {pos : Nat} {t t' : TableBlock} {mem : Nat → UInt8} (h : e.seekTable pos t mem = .done t')
    (ht : t.Loaded e ∨ t.lb = 0 ∧ pos / 1024 ≠ 0) (hread : AgreesWithBmap e.vol.toDevice e.ip (pos / 1024 : Nat)) :
    t'.lb = pos / 1024 ∧ t'.Loaded e := by
  unfold seekTable at h
  split at h
  next hne =>
    obtain ⟨b, hfetch, h⟩ := LoadEnd.bind_eq_done h
    cases h
    obtain ⟨hb, hzone⟩ := fetch_done hfetch hread
    exact ⟨rfl, congrArg some hb, hzone⟩
  next heq =>
    cases h
    have hlb : pos / 1024 = t.lb := not_not.mp heq
    rcases ht with ht | ht
    · exact ⟨hlb.symm, ht⟩
    · exact absurd (hlb.trans ht.1) ht.2

/-- One round of the loop: the table block is there, and section `n` of the file is loaded. -/
theorem loadSections_round {ex : Elf32Ehdr} {n size : Nat} {t : TableBlock} {mem : Nat → UInt8} {r : (Nat → UInt8) × Nat}
    (h : e.loadSections ex (n + 1) t size mem = .done r) (hread : e.ReadsFile) (hn : n < e.ehdr.shnum)
    (hex : ex.headerPos n = e.ehdr.headerPos n)
    (ht : t.Loaded e ∨ t.lb = 0 ∧ n + 1 = e.ehdr.shnum) :
    ∃ t' size' mem', t'.Loaded e ∧ e.loadSection (e.sect n) mem = .done mem' ∧
      e.loadSections ex n t' size' mem' = .done r := by
  unfold loadSections at h
  rw [hex] at h
  obtain ⟨t', hseek, h⟩ := LoadEnd.bind_eq_done h
  have hstart : t.Loaded e ∨ t.lb = 0 ∧ e.ehdr.headerPos n / 1024 ≠ 0 := by
    rcases ht with ht | ⟨hlb, hlast⟩
    · exact .inl ht
    · refine .inr ⟨hlb, ?_⟩
      have := hread.table
      rwa [show e.ehdr.shnum - 1 = n by omega] at this
  obtain ⟨hlb, hloaded⟩ := seekTable_loaded hseek hstart (hread.tableBlock n hn)
  have hzone : e.zone (e.ehdr.headerPos n / 1024) ≠ 0 := hlb ▸ hloaded.2
  have hsect : shdrAt (e.tableBytes t') (e.ehdr.headerPos n % 1024) = e.sect n := by
    unfold tableBytes
    rw [hloaded.1, hlb]
    exact shdrAt_block hzone (hread.entry n hn)
  dsimp only at h
  rw [hsect] at h
  obtain ⟨mem', hload, h⟩ := LoadEnd.bind_eq_done h
  exact ⟨t', _, mem', hloaded, hload, h⟩

theorem sect_stores {i : Nat} (hread : e.ReadsFile) (hi : i < e.ehdr.shnum) {mem mem' : Nat → UInt8}
    (h : e.loadSection (e.sect i) mem = .done mem') :
    ∃ p, Stores (e.loadSection (e.sect i)) p ∧
      ((e.sect i).Allocated → ∀ k, k < (e.sect i).size → p ((e.sect i).addr + k) = e.sectionByte (e.sect i) k) ∧
      ∀ x, (p x).isSome = true ↔ (e.sect i).Allocated ∧ (e.sect i).addr ≤ x ∧ x < (e.sect i).addr + (e.sect i).extent :=
  loadSection_stores h fun halloc hprog => hread.sectBlock i hi halloc hprog

/-- With room behind it, the loading of one section stores nothing into another one. -/
theorem loadSection_keeps {i j : Nat} (hread : e.ReadsFile) (hdisj : e.Disjoint) (hi : i < e.ehdr.shnum)
    (hj : j < e.ehdr.shnum) (hij : i ≠ j) (hroom : e.RoomBehind i j) (halloc : (e.sect j).Allocated)
    {mem mem' : Nat → UInt8} (h : e.loadSection (e.sect i) mem = .done mem') {x : Nat} (hlow : (e.sect j).addr ≤ x)
    (hhigh : x < (e.sect j).addr + (e.sect j).size) : mem' x = mem x := by
  obtain ⟨p, hstores, hbytes, hextent⟩ := sect_stores hread hi h
  rw [hstores.unique h]
  refine patch_none ?_
  cases hp : p x with
  | none => rfl
  | some c =>
    obtain ⟨hself, hl, hu⟩ := (hextent x).mp (by rw [hp]; rfl)
    have hroom := hroom hself halloc
    rcases hdisj i hi j hj hij hself halloc with hbehind | hbefore
    · have := hroom hbehind
      omega
    · omega

theorem loadSections_holds {ex : Elf32Ehdr} (hread : e.ReadsFile) (hdisj : e.Disjoint)
    (hex : ∀ i, ex.headerPos i = e.ehdr.headerPos i)
    (hroom : ∀ i j, i < j → j < e.ehdr.shnum → e.RoomBehind i j) {n size : Nat} {t : TableBlock}
    {mem : Nat → UInt8} {r : (Nat → UInt8) × Nat} (h : e.loadSections ex n t size mem = .done r) (hn : n ≤ e.ehdr.shnum)
    (ht : t.Loaded e ∨ t.lb = 0 ∧ n = e.ehdr.shnum)
    (hdone : ∀ j, n ≤ j → j < e.ehdr.shnum → e.SectionHolds (e.sect j) mem) :
    ∀ j, j < e.ehdr.shnum → e.SectionHolds (e.sect j) r.1 := by
  induction n generalizing t size mem with
  | zero =>
    cases h
    exact fun j => hdone j (Nat.zero_le j)
  | succ n ih =>
    obtain ⟨t', size', mem', ht', hload, h⟩ := loadSections_round h hread hn (hex n) ht
    refine ih h (by omega) (.inl ht') fun j hj hlt => ?_
    intro halloc k hk c hc
    by_cases hjn : j = n
    · -- The section that this round loads.
      subst hjn
      obtain ⟨p, hstores, hbytes, hextent⟩ := sect_stores hread hlt hload
      rw [hstores.unique hload]
      exact patch_some ((hbytes halloc k hk).trans hc)
    · rw [loadSection_keeps hread hdisj (by omega) hlt (by omega) (hroom n j (by omega) hlt) halloc hload (by omega) (by omega)]
      exact hdone j (by omega) hlt halloc k hk c hc

/-- Every section has been loaded from some memory. -/
theorem loadSections_loads {ex : Elf32Ehdr} (hread : e.ReadsFile) (hex : ∀ i, ex.headerPos i = e.ehdr.headerPos i)
    {n size : Nat} {t : TableBlock} {mem : Nat → UInt8} {r : (Nat → UInt8) × Nat}
    (h : e.loadSections ex n t size mem = .done r) (hn : n ≤ e.ehdr.shnum)
    (ht : t.Loaded e ∨ t.lb = 0 ∧ n = e.ehdr.shnum) {i : Nat} (hi : i < n) :
    ∃ m m', e.loadSection (e.sect i) m = .done m' := by
  induction n generalizing t size mem with
  | zero => omega
  | succ n ih =>
    obtain ⟨t', size', mem', ht', hload, h⟩ := loadSections_round h hread hn (hex n) ht
    by_cases hin : i = n
    · exact ⟨mem, mem', hin ▸ hload⟩
    · exact ih h (by omega) (.inl ht') (by omega)

theorem loadElfBinary_sections {mem mem' : Nat → UInt8} {bs : BinSection}
    (h : e.loadElfBinary (e.ip.zone 0) mem = .done (mem', bs)) (hread : e.ReadsFile) :
    ∃ ex size size', (∀ i, ex.headerPos i = e.ehdr.headerPos i) ∧
      e.loadSections ex e.ehdr.shnum ⟨0, none⟩ size mem = .done (mem', size') := by
  obtain ⟨hshoff, hshentsize, hshnum⟩ := ehdrAt_first hread.first
  unfold loadElfBinary at h
  dsimp only at h
  split at h
  next =>
    split at h
    next => cases h
    next =>
      rw [hshnum] at h
      obtain ⟨r, hload, h⟩ := LoadEnd.bind_eq_done h
      cases h
      refine ⟨_, _, _, fun i => ?_, hload⟩
      unfold Elf32Ehdr.headerPos
      rw [hshoff, hshentsize]
  next => cases h

/-- Only sections behind in the table are in danger: the table is loaded from its end. -/
theorem image_holds {mem mem' : Nat → UInt8} {bs : BinSection} (h : e.loadElfBinary (e.ip.zone 0) mem = .done (mem', bs))
    (hdisj : e.Disjoint) (hread : e.ReadsFile) (hroom : ∀ i j, i < j → j < e.ehdr.shnum → e.RoomBehind i j) :
    ∀ j, j < e.ehdr.shnum → e.SectionHolds (e.sect j) mem' := by
  obtain ⟨ex, size, size', hex, hload⟩ := loadElfBinary_sections h hread
  exact loadSections_holds hread hdisj hex hroom hload le_rfl (.inr ⟨rfl, rfl⟩) fun j hj hlt => by omega

/-- A store behind a section shows in a memory that holds another byte there. -/
theorem noOverrun_of_keepsOthers {mem mem' : Nat → UInt8} {bs : BinSection}
    (h : e.loadElfBinary (e.ip.zone 0) mem = .done (mem', bs)) (hread : e.ReadsFile) (hkeep : e.KeepsOthers) :
    e.NoOverrun := by
  intro i hi j hj hij halloc hother hbehind
  by_contra hlt
  obtain ⟨ex, size, size', hex, hload⟩ := loadElfBinary_sections h hread
  obtain ⟨m, m', hi'⟩ := loadSections_loads hread hex hload le_rfl (.inr ⟨rfl, rfl⟩) hi
  obtain ⟨p, hstores, hbytes, hextent⟩ := sect_stores hread hi hi'
  obtain ⟨c, hc⟩ := Option.isSome_iff_exists.mp ((hextent (e.sect j).addr).mpr ⟨halloc, by omega, by omega⟩)
  have hpos := hother.2
  have hsame := hkeep i hi j hj hij hother (fun _ => c + 1) _ (hstores _) (e.sect j).addr le_rfl (by omega)
  rw [patch_some hc] at hsame
  have hone : c + 0 = c + 1 := by rw [← hsame, add_zero]
  exact absurd (add_left_cancel hone) (by decide)

/-- What is asked of a loaded program: each section has its bytes, and none was loaded over another. -/
structure ImageCorrect (e : Executable) (mem : Nat → UInt8) : Prop where
  progbits : ∀ i, i < e.ehdr.shnum → (e.sect i).Allocated → (e.sect i).type = shtProgbits →
    ∀ k, k < (e.sect i).size → mem ((e.sect i).addr + k) = e.fileByte ((e.sect i).offset + k)
  nobits : ∀ i, i < e.ehdr.shnum → (e.sect i).Allocated → (e.sect i).type = shtNobits →
    ∀ k, k < (e.sect i).size → mem ((e.sect i).addr + k) = 0
  keepsOthers : e.KeepsOthers

/-- A program that loads is the one in the file, with no section loaded over another, exactly if no section
starts in the last word of another one. -/
theorem elf_image_correct_iff {mem mem' : Nat → UInt8} {bs : BinSection}
    (h : e.loadElfBinary (e.ip.zone 0) mem = .done (mem', bs)) (hdisj : e.Disjoint) (hread : e.ReadsFile) :
    e.ImageCorrect mem' ↔ e.NoOverrun := by
  constructor
  · intro himage
    exact noOverrun_of_keepsOthers h hread himage.keepsOthers
  · intro hroom
    have hholds := image_holds h hdisj hread fun i j hij hj => hroom i (by omega) j hj (by omega)
    refine ⟨fun i hi halloc htype k hk => ?_, fun i hi halloc htype k hk => ?_, ?_⟩
    · exact hholds i hi halloc k hk _ (if_pos htype)
    · refine hholds i hi halloc k hk _ ?_
      unfold sectionByte
      rw [htype]
      rfl
    · intro i hi j hj hij halloc mem₁ mem₂ hload x hlow hhigh
      exact loadSection_keeps hread hdisj hi hj hij (hroom i hi j hj hij) halloc hload hlow hhigh

end Executable

/-- A file of two blocks, the second one with the section table: one byte at 0x1000, and four bytes at
address 0x1000 + `second`. -/
def sampleElfByte (second : UInt8) (b k : Nat) : UInt8 :=
  if b = 20 then
    ([(0, 0x7f), (1, 0x45), (2, 0x4c), (3, 0x46), (16, 2), (18, 3), (33, 4), (46, 40), (48, 3),
      (100, 65), (104, 1), (105, 2), (106, 3), (107, 4)].lookup k).getD 0
  else if b = 21 then
    ([(44, 1), (53, 16), (56, 100), (60, 1), (84, 1), (92, second), (93, 16), (96, 104), (100, 4)].lookup k).getD 0
  else 0

def sampleElf (second : UInt8) : Executable where
  vol :=
    { firstdatazone := 19
      nzones := 100
      zmapBlocks := 1
      zmap := fun _ => true
      word := fun b k => getHalf (sampleElfByte second b) (2 * k)
      byte := sampleElfByte second
      word_byte := fun _ _ _ => rfl }
  ip := ⟨fun k => if k = 0 then 20 else if k = 1 then 21 else 0⟩
  limit := 0x4000000
  low := fun _ => 0

theorem sampleElf_sections (second : UInt8) (h : second = 1 ∨ second = 4) :
    (sampleElf second).ehdr.shnum = 3 ∧ ¬ ((sampleElf second).sect 0).Allocated ∧
      (sampleElf second).sect 1 = ⟨1, 0x1000, 100, 1⟩ ∧
      (sampleElf second).sect 2 = ⟨1, 0x1000 + second.toNat, 104, 4⟩ := by
  rcases h with rfl | rfl
  · decide +kernel
  · decide +kernel

theorem sampleElf_reads (second : UInt8) (h : second = 1 ∨ second = 4) :
    (sampleElf second).Disjoint ∧ (sampleElf second).ReadsFile := by
  obtain ⟨hnum, hnull, hfirst, hsecond⟩ := sampleElf_sections second h
  have hblock : ∀ n : Nat, n < 2 → AgreesWithBmap (sampleElf second).vol.toDevice (sampleElf second).ip n := by
    intro n hn
    refine (agreesWithBmap_iff (by unfold maxFileBlocks; omega)).mpr ?_
    rcases (by omega : n = 0 ∨ n = 1) with rfl | rfl
    · rfl
    · rfl
  have hpos : ∀ i, i < 3 → (sampleElf second).ehdr.headerPos i = 1024 + 40 * i := by
    rcases h with rfl | rfl
    · decide +kernel
    · decide +kernel
  refine ⟨?_, ⟨by simp [sampleElf], ?_, ?_, ?_, ?_⟩⟩
  · intro i hi j hj hij hai haj
    have hone : second.toNat = 1 ∨ second.toNat = 4 := h.imp (fun h => by rw [h]; rfl) (fun h => by rw [h]; rfl)
    have hi0 : i ≠ 0 := fun h0 => hnull (h0 ▸ hai)
    have hj0 : j ≠ 0 := fun h0 => hnull (h0 ▸ haj)
    rcases (by omega : i = 1 ∧ j = 2 ∨ i = 2 ∧ j = 1) with ⟨rfl, rfl⟩ | ⟨rfl, rfl⟩
    · rw [hfirst, hsecond]
      left
      dsimp only
      omega
    · rw [hfirst, hsecond]
      right
      dsimp only
      omega
  · rw [hnum, hpos 2 (by omega)]
    decide
  · intro i hi
    rw [hpos i (by omega), Nat.add_mod_left, Nat.mod_eq_of_lt (by omega)]
    omega
  · intro i hi
    rw [hpos i (by omega)]
    exact hblock _ (by omega)
  · intro i hi halloc htype j hlow hhigh
    have hi0 : i ≠ 0 := fun h0 => hnull (h0 ▸ halloc)
    refine hblock j ?_
    rcases (by omega : i = 1 ∨ i = 2) with rfl | rfl
    · rw [hfirst] at hhigh
      dsimp only at hhigh
      omega
    · rw [hsecond] at hhigh
      dsimp only at hhigh
      omega

/-- The section at 0x1001 is loaded first, and the word that holds the one byte at 0x1000 goes over it. -/
theorem elf_image_overrun :
    ∃ mem bs, (sampleElf 1).loadElfBinary ((sampleElf 1).ip.zone 0) (fun _ => 0) = .done (mem, bs) ∧
      (sampleElf 1).Disjoint ∧ (sampleElf 1).ReadsFile ∧ (sampleElf 1).sect 2 = ⟨1, 0x1001, 104, 4⟩ ∧
      mem 0x1001 = 0 ∧ (sampleElf 1).fileByte 104 = 1 ∧ ¬ (sampleElf 1).ImageCorrect mem := by
  obtain ⟨hdisj, hread⟩ := sampleElf_reads 1 (.inl rfl)
  obtain ⟨hnum, _, _, hsecond⟩ := sampleElf_sections 1 (.inl rfl)
  have hload : (((sampleElf 1).loadElfBinary ((sampleElf 1).ip.zone 0) fun _ => 0).result.map fun r => r.1 0x1001) =
      some 0 := by decide +kernel
  obtain ⟨⟨mem, bs⟩, hresult, hbyte⟩ := Option.map_eq_some_iff.mp hload
  have hfile : (sampleElf 1).fileByte 104 = 1 := by decide +kernel
  refine ⟨mem, bs, LoadEnd.result_eq_some hresult, hdisj, hread, hsecond, hbyte, hfile, fun himage => ?_⟩
  have hwant := himage.progbits 2 (by omega) (by rw [hsecond]; decide) (by rw [hsecond]; rfl) 0 (by rw [hsecond]; decide)
  rw [hsecond] at hwant
  exact absurd (hbyte.symm.trans (hwant.trans hfile)) (by decide)

/-- With the second section in the next word, the program is loaded as it is. -/
theorem elf_image_correct_sample :
    ∃ mem bs, (sampleElf 4).loadElfBinary ((sampleElf 4).ip.zone 0) (fun _ => 0) = .done (mem, bs) ∧
      (sampleElf 4).ImageCorrect mem := by
  obtain ⟨hdisj, hread⟩ := sampleElf_reads 4 (.inr rfl)
  obtain ⟨hnum, hnull, hfirst, hsecond⟩ := sampleElf_sections 4 (.inr rfl)
  have hload : ((sampleElf 4).loadElfBinary ((sampleElf 4).ip.zone 0) fun _ => 0).result.isSome = true := by decide +kernel
  obtain ⟨⟨mem, bs⟩, hresult⟩ := Option.isSome_iff_exists.mp hload
  refine ⟨mem, bs, LoadEnd.result_eq_some hresult,
    (Executable.elf_image_correct_iff (LoadEnd.result_eq_some hresult) hdisj hread).mpr ?_⟩
  intro i hi j hj hij hai haj hbehind
  have hi0 : i ≠ 0 := fun h0 => hnull (h0 ▸ hai)
  have hj0 : j ≠ 0 := fun h0 => hnull (h0 ▸ haj)
  rcases (by omega : i = 1 ∧ j = 2 ∨ i = 2 ∧ j = 1) with ⟨rfl, rfl⟩ | ⟨rfl, rfl⟩
  · rw [hfirst, hsecond]
    decide
  · rw [hfirst, hsecond] at hbehind
    exact absurd hbehind (by decide)

end RheeKernel
