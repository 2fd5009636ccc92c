import RheeKernel.ElfImage

open ByteMemory

namespace RheeKernel

namespace Executable

variable {e : Executable} {ex : Elf32Ehdr}

/-- The bytes that section header `i` is read from: its block, or kernel memory at 0 as long as no header
read so far lay behind the first block. -/
def headerBytes (e : Executable) (ex : Elf32Ehdr) (i : Nat) : Nat → UInt8 :=
  if ∀ k, k < ex.shnum → i ≤ k → ex.headerPos k / 1024 = 0 then e.low
  else
    match readFileBlock e.vol.toDevice e.ip (ex.headerPos i / 1024 : Nat) with
    | .buffer b => e.vol.byte b
    | _ => e.low

/-- Section header `i` as the loader sees it. -/
def seenSect (e : Executable) (ex : Elf32Ehdr) (i : Nat) : Elf32Shdr :=
  shdrAt (e.headerBytes ex i) (ex.headerPos i % 1024)

def BlockThere (e : Executable) (n : Nat) : Prop := readFileBlock e.vol.toDevice e.ip n ≠ .null

/-- What the loader looks for to load section `i`: the block of its header, and all blocks of the section. -/
structure SectionThere (e : Executable) (ex : Elf32Ehdr) (i : Nat) : Prop where
  table : (∃ k, i ≤ k ∧ k < ex.shnum ∧ ex.headerPos k / 1024 ≠ 0) → e.BlockThere (ex.headerPos i / 1024)
  blocks : (e.seenSect ex i).Allocated → (e.seenSect ex i).type = shtProgbits →
    ∀ j, (e.seenSect ex i).offset / 1024 ≤ j → 1024 * j < (e.seenSect ex i).offset + (e.seenSect ex i).size → e.BlockThere j

/-- An ELF file with a section table, and no hole where the loader goes. -/
structure Complete (e : Executable) (ex : Elf32Ehdr) : Prop where
  elf : isValidElf ex = true
  shnum : 1 < ex.shnum
  sections : ∀ i, i < ex.shnum → e.SectionThere ex i

theorem fetch_blockThere {n b : Nat} {mem : Nat → UInt8} (h : e.fetch n mem = .done b) :
    readFileBlock e.vol.toDevice e.ip n = .buffer b := by
  unfold fetch at h
  split at h
  next hread => cases h; exact hread
  next => cases h
  next => cases h
  next => cases h

theorem fetch_refused {n : Nat} {mem mem' : Nat → UInt8} (h : e.fetch n mem = .refused mem') : ¬ e.BlockThere n := by
  unfold fetch at h
  split at h
  next => cases h
  next hread => exact not_not.mpr hread
  next => cases h
  next => cases h

theorem orFault_ne_refused {r : Option (Nat → UInt8)} {mem : Nat → UInt8} : orFault r ≠ .refused mem := by
  unfold orFault
  split
  next => exact nofun
  next => exact nofun

theorem copyBlock_there {n off dest cp : Nat} {mem mem' : Nat → UInt8} (h : e.copyBlock n off dest cp mem = .done mem') :
    e.BlockThere n := by
  obtain ⟨b, hfetch, _⟩ := LoadEnd.bind_eq_done h
  unfold BlockThere
  rw [fetch_blockThere hfetch]
  exact nofun

theorem copyBlock_refused {n off dest cp : Nat} {mem mem' : Nat → UInt8}
    (h : e.copyBlock n off dest cp mem = .refused mem') : ¬ e.BlockThere n := by
  rcases LoadEnd.bind_eq_refused h with hfetch | ⟨b, hfetch, h⟩
  · exact fetch_refused hfetch
  · exact absurd h orFault_ne_refused

theorem copyBlocks_there {rounds n dest size : Nat} {mem mem' : Nat → UInt8}
    (h : e.copyBlocks rounds n dest size mem = .done mem') (hrounds : size ≤ rounds) {j : Nat} (hlow : n ≤ j)
    (hhigh : 1024 * j < 1024 * n + size) : e.BlockThere j := by
  induction rounds generalizing n dest size mem with
  | zero => omega
  | succ rounds ih =>
    unfold copyBlocks at h
    rw [if_neg (by omega)] at h
    dsimp only at h
    generalize hcp : (if size < 1024 then size else 1024) = cp at h
    obtain ⟨mem₁, hcopy, h⟩ := LoadEnd.bind_eq_done h
    by_cases hj : j = n
    · exact hj ▸ copyBlock_there hcopy
    · have hcp : cp = 1024 := by
        split at hcp
        next => omega
        next => exact hcp.symm
      exact ih h (by omega) (by omega) (by omega)

theorem copyBlocks_refused {rounds n dest size : Nat} {mem mem' : Nat → UInt8}
    (h : e.copyBlocks rounds n dest size mem = .refused mem') :
    ∃ j, n ≤ j ∧ 1024 * j < 1024 * n + size ∧ ¬ e.BlockThere j := by
  induction rounds generalizing n dest size mem with
  | zero => cases h
  | succ rounds ih =>
    unfold copyBlocks at h
    split at h
    next => cases h
    next hsize =>
      dsimp only at h
      generalize hcp : (if size < 1024 then size else 1024) = cp at h
      rcases LoadEnd.bind_eq_refused h with hcopy | ⟨mem₁, hcopy, h⟩
      · exact ⟨n, le_rfl, by omega, copyBlock_refused hcopy⟩
      · obtain ⟨j, hlow, hhigh, hj⟩ := ih h
        have hcp : size - cp = 0 ∨ cp = 1024 := by
          split at hcp
          next => omega
          next => exact .inr hcp.symm
        exact ⟨j, by omega, by omega, hj⟩

theorem loadSection_there {s : Elf32Shdr} {mem mem' : Nat → UInt8} (h : e.loadSection s mem = .done mem')
    (halloc : s.Allocated) (hprog : s.type = shtProgbits) {j : Nat} (hlow : s.offset / 1024 ≤ j)
    (hhigh : 1024 * j < s.offset + s.size) : e.BlockThere j := by
  have hskip : ¬ (s.size = 0 ∨ s.addr = 0) := fun hs => hs.elim halloc.2 halloc.1
  unfold loadSection copySection at h
  rw [if_neg hskip, if_pos hprog] at h
  dsimp only at h
  generalize hcp : (if s.size < 1024 - s.offset % 1024 then s.size else 1024 - s.offset % 1024) = cp at h
  obtain ⟨mem₁, hcopy, h⟩ := LoadEnd.bind_eq_done h
  by_cases hj : j = s.offset / 1024
  · exact hj ▸ copyBlock_there hcopy
  · have hcp : cp = 1024 - s.offset % 1024 := by
      split at hcp
      next => omega
      next => exact hcp.symm
    exact copyBlocks_there h (by omega) (by omega) (by omega)

theorem loadSection_refused {s : Elf32Shdr} {mem mem' : Nat → UInt8} (h : e.loadSection s mem = .refused mem') :
    s.Allocated ∧ s.type = shtProgbits ∧
      ∃ j, s.offset / 1024 ≤ j ∧ 1024 * j < s.offset + s.size ∧ ¬ e.BlockThere j := by
  unfold loadSection at h
  split at h
  next => cases h
  next hskip =>
    split at h
    next hprog =>
      refine ⟨⟨fun h => hskip (.inr h), fun h => hskip (.inl h)⟩, hprog, ?_⟩
      have hsize : s.size ≠ 0 := fun h => hskip (.inl h)
      unfold copySection at h
      dsimp only at h
      generalize hcp : (if s.size < 1024 - s.offset % 1024 then s.size else 1024 - s.offset % 1024) = cp at h
      rcases LoadEnd.bind_eq_refused h with hcopy | ⟨mem₁, hcopy, h⟩
      · exact ⟨s.offset / 1024, le_rfl, by omega, copyBlock_refused hcopy⟩
      · obtain ⟨j, hlow, hhigh, hj⟩ := copyBlocks_refused h
        have hcp : s.size - cp = 0 ∨ cp = 1024 - s.offset % 1024 := by
          split at hcp
          next => omega
          next => exact .inr hcp.symm
        exact ⟨j, by omega, by omega, hj⟩
    next =>
      split at h
      next => exact absurd h orFault_ne_refused
      next => cases h

/-- The table block in memory after the headers from `n` on have been read. -/
def TableBlock.After (e : Executable) (ex : Elf32Ehdr) (n : Nat) (t : TableBlock) : Prop :=
  (t.bht = none ∧ t.lb = 0 ∧ ∀ k, k < ex.shnum → n ≤ k → ex.headerPos k / 1024 = 0) ∨
    ∃ b, t.bht = some b ∧ readFileBlock e.vol.toDevice e.ip t.lb = .buffer b ∧
      ∃ k, n ≤ k ∧ k < ex.shnum ∧ ex.headerPos k / 1024 ≠ 0

theorem seekTable_after {n : Nat} {t t' : TableBlock} {mem : Nat → UInt8} (h : e.seekTable (ex.headerPos n) t mem = .done t')
    (hn : n < ex.shnum) (ht : t.After e ex (n + 1)) : t'.After e ex n ∧ t'.lb = ex.headerPos n / 1024 := by
  unfold seekTable at h
  split at h
  next hne =>
    obtain ⟨b, hfetch, h⟩ := LoadEnd.bind_eq_done h
    cases h
    refine ⟨.inr ⟨b, rfl, fetch_blockThere hfetch, ?_⟩, rfl⟩
    rcases ht with ⟨_, hlb, _⟩ | ⟨_, _, _, k, hk, hlt, hpos⟩
    · exact ⟨n, le_rfl, hn, hlb ▸ hne⟩
    · exact ⟨k, by omega, hlt, hpos⟩
  next heq =>
    cases h
    have heq : ex.headerPos n / 1024 = t.lb := not_not.mp heq
    refine ⟨?_, heq.symm⟩
    rcases ht with ⟨hbht, hlb, hall⟩ | ⟨b, hbht, hread, k, hk, hlt, hpos⟩
    · refine .inl ⟨hbht, hlb, fun k hlt hk => ?_⟩
      by_cases hkn : k = n
      · rw [hkn, heq, hlb]
      · exact hall k hlt (by omega)
    · exact .inr ⟨b, hbht, hread, k, by omega, hlt, hpos⟩

theorem seekTable_refused {n : Nat} {t : TableBlock} {mem mem' : Nat → UInt8}
    (h : e.seekTable (ex.headerPos n) t mem = .refused mem') (hn : n < ex.shnum) (ht : t.After e ex (n + 1)) :
    ¬ e.SectionThere ex n := by
  unfold seekTable at h
  split at h
  next hne =>
    rcases LoadEnd.bind_eq_refused h with hfetch | ⟨b, _, h⟩
    · intro hthere
      refine fetch_refused hfetch (hthere.table ?_)
      rcases ht with ⟨_, hlb, _⟩ | ⟨_, _, _, k, hk, hlt, hpos⟩
      · exact ⟨n, le_rfl, hn, hlb ▸ hne⟩
      · exact ⟨k, by omega, hlt, hpos⟩
    · cases h
  next => cases h

theorem tableBytes_after {n : Nat} {t : TableBlock} (ht : t.After e ex n) (hlb : t.lb = ex.headerPos n / 1024) :
    e.tableBytes t = e.headerBytes ex n := by
  unfold tableBytes headerBytes
  rcases ht with ⟨hbht, _, hall⟩ | ⟨b, hbht, hread, k, hk, hlt, hpos⟩
  · rw [hbht, if_pos hall]
  · rw [hbht, if_neg fun hall => hpos (hall k hlt hk), ← hlb, hread]

theorem sectionThere_of_done {n : Nat} {t : TableBlock} {mem mem' : Nat → UInt8} (ht : t.After e ex n)
    (hlb : t.lb = ex.headerPos n / 1024) (h : e.loadSection (e.seenSect ex n) mem = .done mem') : e.SectionThere ex n := by
  refine ⟨fun hbehind => ?_, fun halloc hprog j => loadSection_there h halloc hprog⟩
  rcases ht with ⟨_, _, hall⟩ | ⟨b, _, hread, _⟩
  · obtain ⟨k, hk, hlt, hpos⟩ := hbehind
    exact absurd (hall k hlt hk) hpos
  · unfold BlockThere
    rw [← hlb, hread]
    exact nofun

/-- The loop ends well only if everything it looks for is there, and refuses only if something is not. -/
theorem loadSections_there {n size : Nat} {t : TableBlock} {mem : Nat → UInt8} (hn : n ≤ ex.shnum) (ht : t.After e ex n) :
    (∀ r, e.loadSections ex n t size mem = .done r → ∀ i, i < n → e.SectionThere ex i) ∧
      ∀ mem', e.loadSections ex n t size mem = .refused mem' → ∃ i, i < n ∧ ¬ e.SectionThere ex i := by
  induction n generalizing t size mem with
  | zero => exact ⟨fun r _ i hi => by omega, fun mem' h => by cases h⟩
  | succ n ih =>
    unfold loadSections
    constructor
    · intro r h i hi
      obtain ⟨t', hseek, h⟩ := LoadEnd.bind_eq_done h
      obtain ⟨ht', hlb⟩ := seekTable_after hseek hn ht
      dsimp only at h
      rw [tableBytes_after ht' hlb] at h
      obtain ⟨mem₁, hload, h⟩ := LoadEnd.bind_eq_done h
      by_cases hin : i = n
      · exact hin ▸ sectionThere_of_done ht' hlb hload
      · exact (ih (by omega) ht').1 r h i (by omega)
    · intro mem' h
      rcases LoadEnd.bind_eq_refused h with hseek | ⟨t', hseek, h⟩
      · exact ⟨n, by omega, seekTable_refused hseek hn ht⟩
      · obtain ⟨ht', hlb⟩ := seekTable_after hseek hn ht
        dsimp only at h
        rw [tableBytes_after ht' hlb] at h
        rcases LoadEnd.bind_eq_refused h with hload | ⟨mem₁, hload, h⟩
        · obtain ⟨halloc, hprog, j, hlow, hhigh, hj⟩ := loadSection_refused hload
          exact ⟨n, by omega, fun hthere => hj (hthere.blocks halloc hprog j hlow hhigh)⟩
        · obtain ⟨i, hi, hmiss⟩ := (ih (by omega) ht').2 mem' h
          exact ⟨i, by omega, hmiss⟩

theorem complete_of_done {b : Nat} {mem : Nat → UInt8} {r : (Nat → UInt8) × BinSection}
    (h : e.loadElfBinary b mem = .done r) : e.Complete (ehdrAt (e.vol.byte b)) := by
  unfold loadElfBinary at h
  dsimp only at h
  split at h
  next helf =>
    split at h
    next => cases h
    next hnum =>
      obtain ⟨r, hload, _⟩ := LoadEnd.bind_eq_done h
      exact ⟨helf, by omega, (loadSections_there le_rfl (.inl ⟨rfl, rfl, fun k hlt hk => by omega⟩)).1 r hload⟩
  next => cases h

theorem not_complete_of_refused {b : Nat} {mem mem' : Nat → UInt8} (h : e.loadElfBinary b mem = .refused mem') :
    ¬ e.Complete (ehdrAt (e.vol.byte b)) := by
  intro hcomplete
  unfold loadElfBinary at h
  dsimp only at h
  rw [if_pos hcomplete.elf, if_neg (by have := hcomplete.shnum; omega)] at h
  rcases LoadEnd.bind_eq_refused h with hload | ⟨r, _, h⟩
  · obtain ⟨i, hi, hmiss⟩ := (loadSections_there le_rfl (.inl ⟨rfl, rfl, fun k hlt hk => by omega⟩)).2 mem' hload
    exact hmiss (hcomplete.sections i hi)
  · cases h

end Executable

end RheeKernel
