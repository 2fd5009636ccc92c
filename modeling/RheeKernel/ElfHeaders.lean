import RheeKernel.ElfRefusals

open ByteMemory

namespace RheeKernel

/-- A section header as it is copied: the number of the section, the buffer it is copied from, and its bytes. The source is `null` for
a read through the null pointer, and `wild` for a block whose number was looked up outside of a table. -/
structure HeaderRead where
  index : Nat
  source : Fetch
  bytes : Nat → UInt8

/-- A step of the loader with the headers it has read, and what comes after it. -/
def LoadEnd.seen {α β : Type} (r : LoadEnd α) (x : List HeaderRead) (f : α → LoadEnd β × List HeaderRead) :
    LoadEnd β × List HeaderRead :=
  match r with
  | done a => ((f a).1, x ++ (f a).2)
  | refused mem => (refused mem, x)
  | panic => (panic, x)
  | wild => (wild, x)
  | fault => (fault, x)

theorem LoadEnd.seen_fst {α β : Type} {r : LoadEnd α} {x : List HeaderRead} {f : α → LoadEnd β × List HeaderRead} :
    (r.seen x f).1 = r.bind fun a => (f a).1 := by
  cases r with
  | done a => rfl
  | refused mem => rfl
  | panic => rfl
  | wild => rfl
  | fault => rfl

namespace Executable

def TableBlock.source (t : TableBlock) : Fetch :=
  match t.bht with
  | some b => .buffer b
  | none => .null

/-- A header block with a wild number is read like any other; the loader's model ends there. -/
def wildRead (n : Nat) : LoadEnd TableBlock → List HeaderRead
  | .wild => [⟨n, .wild, fun _ => 0⟩]
  | _ => []

def headerRead (e : Executable) (ex : Elf32Ehdr) (n : Nat) (t : TableBlock) : HeaderRead :=
  ⟨n, t.source, fun i => e.tableBytes t (ex.headerPos n % 1024 + i)⟩

/-- The loop of `load_elf_binary`, with the headers that it reads. -/
def loadSectionsSeen (e : Executable) (ex : Elf32Ehdr) :
    Nat → TableBlock → Nat → (Nat → UInt8) → LoadEnd ((Nat → UInt8) × Nat) × List HeaderRead
  | 0, _, size, mem => (.done (mem, size), [])
  | n + 1, t, size, mem =>
    (e.seekTable (ex.headerPos n) t mem).seen (wildRead n (e.seekTable (ex.headerPos n) t mem)) fun t =>
      (e.loadSection (shdrAt (e.tableBytes t) (ex.headerPos n % 1024)) mem).seen [e.headerRead ex n t]
        (loadSectionsSeen e ex n t (growSize size (shdrAt (e.tableBytes t) (ex.headerPos n % 1024))))

/-- The headers that `load_elf_binary` reads, with the buffer of block `b` of the device as `bh`. -/
def headersRead (e : Executable) (b : Nat) (mem : Nat → UInt8) : List HeaderRead :=
  let ex := ehdrAt (e.vol.byte b)
  if isValidElf ex then
    if ex.shnum ≤ 1 then []
    else (e.loadSectionsSeen ex ex.shnum ⟨0, none⟩ ((ex.ehsize + ex.shnum * ex.shentsize) % 2 ^ 32) mem).2
  else []

/-- The same file and the same blocks, with other bytes behind the buffers and at address 0. -/
structure SameBlocks (e e' : Executable) : Prop where
  ip : e'.ip = e.ip
  limit : e'.limit = e.limit
  device : e'.vol.toDevice = e.vol.toDevice
  byte : ∀ b k, k < 1024 → e'.vol.byte b k = e.vol.byte b k

/-- Whatever stands behind the buffers and at address 0, each header that the loader reads has the 40 bytes of its place in the file,
and none is read through a null pointer. -/
def DecodesHeaders (e : Executable) : Prop :=
  ∀ e', SameBlocks e e' → ∀ mem, ∀ r ∈ e'.headersRead (e'.ip.zone 0) mem,
    r.source ≠ .null ∧ r.source ≠ .wild ∧ ∀ i < 40, r.bytes i = e.fileByte (e.ehdr.shoff + r.index * e.ehdr.shentsize + i)

/-- Header `k` is well placed: it or a later one is not in the first block, so that the loader has fetched a block; the walk to its block
does not leave its tables; and the block that is found has the header as the file has it, within its 1024 bytes. -/
structure HeaderPlaced (e : Executable) (k : Nat) : Prop where
  window : ∃ j, k ≤ j ∧ j < e.ehdr.shnum ∧ e.ehdr.headerPos j / 1024 ≠ 0
  walk : readFileBlock e.vol.toDevice e.ip (e.ehdr.headerPos k / 1024 : Nat) ≠ .wild
  inside : ∀ b, readFileBlock e.vol.toDevice e.ip (e.ehdr.headerPos k / 1024 : Nat) = .buffer b →
    e.ehdr.headerPos k % 1024 + 40 ≤ 1024 ∧
      ∀ i < 40, e.vol.byte b (e.ehdr.headerPos k % 1024 + i) = e.fileByte (e.ehdr.headerPos k + i)

/-- The loader goes on behind section `j`: the block of its header is found, and the section can be loaded. -/
structure Passes (e : Executable) (j : Nat) : Prop where
  header : ∃ b, readFileBlock e.vol.toDevice e.ip (e.ehdr.headerPos j / 1024 : Nat) = .buffer b
  loadable : ∃ mem mem', e.loadSection (e.sect j) mem = .done mem'

/-- Every header that the loader comes to is well placed. -/
def TablePlaced (e : Executable) : Prop :=
  ∀ k < e.ehdr.shnum, (∀ j, k < j → j < e.ehdr.shnum → e.Passes j) → e.HeaderPlaced k

variable {e e' : Executable} {ex : Elf32Ehdr} {n k size : Nat} {t : TableBlock} {mem mem' : Nat → UInt8}

theorem loadSectionsSeen_fst : (e.loadSectionsSeen ex n t size mem).1 = e.loadSections ex n t size mem := by
  induction n generalizing t size mem with
  | zero => rfl
  | succ n ih =>
    unfold loadSectionsSeen loadSections
    rw [LoadEnd.seen_fst]
    congr 1
    funext t'
    dsimp only
    rw [LoadEnd.seen_fst]
    congr 1
    funext mem'
    exact ih

theorem SameBlocks.refl (e : Executable) : SameBlocks e e := ⟨rfl, rfl, rfl, fun _ _ _ => rfl⟩

theorem SameBlocks.symm (h : SameBlocks e e') : SameBlocks e' e :=
  ⟨h.ip.symm, h.limit.symm, h.device.symm, fun b k hk => (h.byte b k hk).symm⟩

theorem SameBlocks.fileByte (h : SameBlocks e e') : e'.fileByte = e.fileByte := by
  funext q
  unfold Executable.fileByte zone
  rw [h.device, h.ip, h.byte _ _ (Nat.mod_lt _ (by omega))]

theorem SameBlocks.ehdr (h : SameBlocks e e') : e'.ehdr = e.ehdr := congrArg ehdrAt h.fileByte

theorem SameBlocks.sect (h : SameBlocks e e') : e'.sect k = e.sect k := by
  unfold Executable.sect
  rw [h.fileByte, h.ehdr]

theorem SameBlocks.copyBlock {off dest cp : Nat} (h : SameBlocks e e') (hcopy : e.copyBlock n off dest cp mem = .done mem')
    (m : Nat → UInt8) : ∃ m', e'.copyBlock n off dest cp m = .done m' := by
  obtain ⟨b, hfetch, hcopy⟩ := LoadEnd.bind_eq_done hcopy
  have hfetch' : e'.fetch n m = .done b := by
    unfold fetch
    rw [h.device, h.ip, fetch_blockThere hfetch]
  unfold Executable.copyBlock
  rw [hfetch', LoadEnd.bind_done]
  unfold cpBlock at hcopy ⊢
  rw [movsl_eq] at hcopy ⊢
  rw [h.limit]
  split at hcopy
  next hin =>
    rw [if_pos hin]
    exact ⟨_, rfl⟩
  next => cases hcopy

theorem SameBlocks.copyBlocks {rounds dest : Nat} (h : SameBlocks e e') (hcopy : e.copyBlocks rounds n dest size mem = .done mem')
    (m : Nat → UInt8) : ∃ m', e'.copyBlocks rounds n dest size m = .done m' := by
  induction rounds generalizing n dest size mem m with
  | zero => exact ⟨m, rfl⟩
  | succ rounds ih =>
    unfold Executable.copyBlocks at hcopy ⊢
    split at hcopy
    next hzero =>
      rw [if_pos hzero]
      exact ⟨m, rfl⟩
    next hzero =>
      rw [if_neg hzero]
      dsimp only at hcopy ⊢
      obtain ⟨mem₁, hfirst, hrest⟩ := LoadEnd.bind_eq_done hcopy
      obtain ⟨m₁, hfirst'⟩ := h.copyBlock hfirst m
      rw [hfirst', LoadEnd.bind_done]
      exact ih hrest m₁

/-- Whether a section can be loaded depends neither on memory nor on what is behind the buffers. -/
theorem SameBlocks.loadSection {s : Elf32Shdr} (h : SameBlocks e e') (hload : e.loadSection s mem = .done mem') (m : Nat → UInt8) :
    ∃ m', e'.loadSection s m = .done m' := by
  unfold Executable.loadSection at hload ⊢
  split at hload
  next hskip =>
    rw [if_pos hskip]
    exact ⟨m, rfl⟩
  next hskip =>
    rw [if_neg hskip]
    split at hload
    next hprog =>
      rw [if_pos hprog]
      unfold copySection at hload ⊢
      dsimp only at hload ⊢
      obtain ⟨mem₁, hfirst, hrest⟩ := LoadEnd.bind_eq_done hload
      obtain ⟨m₁, hfirst'⟩ := h.copyBlock hfirst m
      rw [hfirst', LoadEnd.bind_done]
      exact h.copyBlocks hrest m₁
    next hprog =>
      rw [if_neg hprog]
      split at hload
      next hnobits =>
        rw [createBssSection_eq] at hload
        rw [if_pos hnobits, createBssSection_eq, h.limit]
        split at hload
        next hin =>
          rw [if_pos hin]
          exact ⟨_, rfl⟩
        next => cases hload
      next hnobits =>
        rw [if_neg hnobits]
        exact ⟨m, rfl⟩

theorem Passes.loads (h : e.Passes k) (m : Nat → UInt8) : ∃ m', e.loadSection (e.sect k) m = .done m' := by
  obtain ⟨mem, mem', hload⟩ := h.loadable
  exact (SameBlocks.refl e).loadSection hload m

theorem SameBlocks.passes (h : SameBlocks e e') (hp : e.Passes k) : e'.Passes k := by
  obtain ⟨b, hb⟩ := hp.header
  refine ⟨⟨b, ?_⟩, fun _ => 0, ?_⟩
  · rw [h.device, h.ip, h.ehdr]
    exact hb
  · obtain ⟨mem, mem', hload⟩ := hp.loadable
    rw [h.sect]
    exact h.loadSection hload _

theorem SameBlocks.headerPlaced (h : SameBlocks e e') (hp : e.HeaderPlaced k) : e'.HeaderPlaced k := by
  refine ⟨?_, ?_, fun b hb => ?_⟩
  · rw [h.ehdr]
    exact hp.window
  · rw [h.device, h.ip, h.ehdr]
    exact hp.walk
  · rw [h.device, h.ip, h.ehdr] at hb
    rw [h.ehdr, h.fileByte]
    obtain ⟨hin, hbytes⟩ := hp.inside b hb
    exact ⟨hin, fun i hi => (h.byte b _ (by omega)).trans (hbytes i hi)⟩

theorem SameBlocks.tablePlaced (h : SameBlocks e e') (hp : e.TablePlaced) : e'.TablePlaced := by
  intro k hk hpass
  rw [h.ehdr] at hk
  apply h.headerPlaced
  apply hp k hk
  intro j hj hlt
  apply h.symm.passes
  apply hpass j hj
  rw [h.ehdr]
  exact hlt

theorem seekTable_found {pos b : Nat} (h : readFileBlock e.vol.toDevice e.ip (pos / 1024 : Nat) = .buffer b) :
    ∃ t', e.seekTable pos t mem = .done t' := by
  unfold seekTable
  split
  next =>
    unfold fetch
    rw [h]
    exact ⟨_, rfl⟩
  next => exact ⟨t, rfl⟩

theorem seekTable_wild {pos : Nat} (h : e.seekTable pos t mem = .wild) :
    readFileBlock e.vol.toDevice e.ip (pos / 1024 : Nat) = .wild := by
  unfold seekTable at h
  split at h
  next =>
    unfold fetch at h
    cases hread : readFileBlock e.vol.toDevice e.ip (pos / 1024 : Nat) with
    | buffer b =>
      rw [hread] at h
      cases h
    | null =>
      rw [hread] at h
      cases h
    | panic =>
      rw [hread] at h
      cases h
    | wild => rfl
  next => cases h

/-- The read of a header, once a block has been fetched. -/
theorem headerRead_after (ht : t.After e ex n) (hlb : t.lb = ex.headerPos n / 1024)
    (hwindow : ∃ j, n ≤ j ∧ j < ex.shnum ∧ ex.headerPos j / 1024 ≠ 0) :
    ∃ b, readFileBlock e.vol.toDevice e.ip (ex.headerPos n / 1024 : Nat) = .buffer b ∧ t.source = .buffer b ∧ e.tableBytes t = e.vol.byte b := by
  rcases ht with ⟨_, _, hall⟩ | ⟨b, hbht, hread, _⟩
  · obtain ⟨j, hj, hlt, hpos⟩ := hwindow
    exact absurd (hall j hlt hj) hpos
  · refine ⟨b, hlb ▸ hread, ?_, ?_⟩
    · unfold TableBlock.source
      rw [hbht]
    · unfold tableBytes
      rw [hbht]

/-- A header that is well placed is read as the file has it. -/
theorem HeaderPlaced.seen (h : e.HeaderPlaced n) (hex : ∀ i, ex.headerPos i = e.ehdr.headerPos i) (hnum : ex.shnum = e.ehdr.shnum)
    (ht : t.After e ex n) (hlb : t.lb = ex.headerPos n / 1024) :
    (∃ b, readFileBlock e.vol.toDevice e.ip (e.ehdr.headerPos n / 1024 : Nat) = .buffer b ∧ t.source = .buffer b) ∧
      (∀ i < 40, e.tableBytes t (ex.headerPos n % 1024 + i) = e.fileByte (e.ehdr.headerPos n + i)) ∧
      shdrAt (e.tableBytes t) (ex.headerPos n % 1024) = e.sect n := by
  have hwindow : ∃ j, n ≤ j ∧ j < ex.shnum ∧ ex.headerPos j / 1024 ≠ 0 := by
    obtain ⟨j, hj, hlt, hpos⟩ := h.window
    exact ⟨j, hj, hnum ▸ hlt, hex j ▸ hpos⟩
  obtain ⟨b, hread, hsource, hbytes⟩ := headerRead_after ht hlb hwindow
  rw [hex n] at hread ⊢
  obtain ⟨_, hsame⟩ := h.inside b hread
  rw [hbytes]
  refine ⟨⟨b, hread, hsource⟩, hsame, ?_⟩
  have hlong : ∀ i, i + 4 ≤ 40 → getLong (e.vol.byte b) (e.ehdr.headerPos n % 1024 + i) = getLong e.fileByte (e.ehdr.headerPos n + i) := by
    intro i hi
    apply getLong_shift
    intro m hm
    have := hsame (i + m) (by omega)
    rwa [← Nat.add_assoc, ← Nat.add_assoc] at this
  unfold Executable.sect shdrAt
  rw [hlong 4 (by omega), hlong 12 (by omega), hlong 16 (by omega), hlong 20 (by omega)]

theorem mem_seen {α β : Type} {r : LoadEnd α} {x : List HeaderRead} {f : α → LoadEnd β × List HeaderRead} {h : HeaderRead}
    (hmem : h ∈ (r.seen x f).2) : h ∈ x ∨ ∃ a, r = .done a ∧ h ∈ (f a).2 := by
  cases r with
  | done a =>
    rcases List.mem_append.mp hmem with hx | hf
    · exact .inl hx
    · exact .inr ⟨a, rfl, hf⟩
  | refused mem => exact .inl hmem
  | panic => exact .inl hmem
  | wild => exact .inl hmem
  | fault => exact .inl hmem

theorem mem_wildRead {r : LoadEnd TableBlock} {h : HeaderRead} (hmem : h ∈ wildRead n r) : r = .wild := by
  cases r with
  | wild => rfl
  | done a => cases hmem
  | refused mem => cases hmem
  | panic => cases hmem
  | fault => cases hmem

/-- What the loader reads while every header it comes to is well placed. -/
theorem loadSectionsSeen_decodes (hplaced : e.TablePlaced) (hex : ∀ i, ex.headerPos i = e.ehdr.headerPos i)
    (hnum : ex.shnum = e.ehdr.shnum) (hn : n ≤ ex.shnum) (ht : t.After e ex n)
    (hpass : ∀ j, n ≤ j → j < e.ehdr.shnum → e.Passes j) :
    ∀ r ∈ (e.loadSectionsSeen ex n t size mem).2, r.index < n ∧ r.source ≠ .null ∧ r.source ≠ .wild ∧
      ∀ i < 40, r.bytes i = e.fileByte (e.ehdr.headerPos r.index + i) := by
  induction n generalizing t size mem with
  | zero =>
    intro r hr
    cases hr
  | succ n ih =>
    intro r hr
    have hhere := hplaced n (by omega) fun j hj => hpass j (by omega)
    rcases mem_seen hr with hwild | ⟨t', hseek, hr⟩
    · have hread := seekTable_wild (mem_wildRead hwild)
      rw [hex n] at hread
      exact absurd hread hhere.walk
    · obtain ⟨ht', hlb⟩ := seekTable_after hseek (by omega) ht
      obtain ⟨⟨b, hread, hsource⟩, hbytes, hsect⟩ := hhere.seen hex hnum ht' hlb
      rcases mem_seen hr with hone | ⟨mem', hload, hr⟩
      · rw [List.mem_singleton.mp hone]
        refine ⟨Nat.lt_succ_self n, ?_, ?_, hbytes⟩
        · change t'.source ≠ .null
          rw [hsource]
          exact nofun
        · change t'.source ≠ .wild
          rw [hsource]
          exact nofun
      · rw [hsect] at hload
        have hpass' : ∀ j, n ≤ j → j < e.ehdr.shnum → e.Passes j := by
          intro j hj hlt
          by_cases hjn : j = n
          · rw [hjn]
            exact ⟨⟨b, hread⟩, _, _, hload⟩
          · exact hpass j (by omega) hlt
        obtain ⟨hlt, hrest⟩ := ih (by omega) ht' hpass' r hr
        exact ⟨by omega, hrest⟩

/-- The loader comes to header `k` if the ones behind it are well placed and their sections can be loaded. -/
theorem loadSectionsSeen_reaches (hex : ∀ i, ex.headerPos i = e.ehdr.headerPos i) (hnum : ex.shnum = e.ehdr.shnum)
    (hn : n ≤ ex.shnum) (ht : t.After e ex n) (hk : k < n) (hpass : ∀ j, k < j → j < n → e.Passes j)
    (hplaced : ∀ j, k < j → j < n → e.HeaderPlaced j) :
    ∃ t' size' mem', t'.After e ex (k + 1) ∧
      ∀ r ∈ (e.loadSectionsSeen ex (k + 1) t' size' mem').2, r ∈ (e.loadSectionsSeen ex n t size mem).2 := by
  induction n generalizing t size mem with
  | zero => omega
  | succ n ih =>
    by_cases hkn : k = n
    · subst hkn
      exact ⟨t, size, mem, ht, fun r hr => hr⟩
    · have hhere := hplaced n (by omega) (by omega)
      have hgo := hpass n (by omega) (by omega)
      obtain ⟨b, hb⟩ := hgo.header
      rw [← hex n] at hb
      obtain ⟨t', hseek⟩ := @seekTable_found e t mem _ _ hb
      obtain ⟨ht', hlb⟩ := seekTable_after hseek (by omega) ht
      obtain ⟨_, _, hsect⟩ := hhere.seen hex hnum ht' hlb
      obtain ⟨mem₁, hload⟩ := hgo.loads mem
      obtain ⟨t₂, size₂, mem₂, ht₂, hsub⟩ := @ih (growSize size (e.sect n)) t' mem₁ (by omega) ht' (by omega)
        (fun j hj hlt => hpass j hj (by omega)) fun j hj hlt => hplaced j hj (by omega)
      refine ⟨t₂, size₂, mem₂, ht₂, fun r hr => ?_⟩
      have hrest := hsub r hr
      unfold loadSectionsSeen
      rw [hseek]
      unfold LoadEnd.seen
      dsimp only
      rw [hsect, hload]
      exact List.mem_append_right _ (List.mem_append_right _ hrest)

theorem isValidElf_congr {a b : Elf32Ehdr} (h : ∀ k < 4, a.ident k = b.ident k) (htype : a.type = b.type)
    (hmachine : a.machine = b.machine) : isValidElf a = isValidElf b := by
  unfold isValidElf
  simp only [h 0 (by omega), h 1 (by omega), h 2 (by omega), h 3 (by omega), htype, hmachine]

/-- The header of an ELF file is in its first block, so that the loader gets it. -/
theorem headersRead_eq (hvalid : isValidElf e.ehdr = true) (hnum : 1 < e.ehdr.shnum) :
    ∃ ex size, (∀ i, ex.headerPos i = e.ehdr.headerPos i) ∧ ex.shnum = e.ehdr.shnum ∧
      ∀ mem, e.headersRead (e.ip.zone 0) mem = (e.loadSectionsSeen ex e.ehdr.shnum ⟨0, none⟩ size mem).2 := by
  have hfirst : e.ip.zone 0 ≠ 0 := by
    intro hzero
    have hhole : e.fileByte 0 = 0 := if_pos hzero
    have hident : e.ehdr.ident 0 = 0 := hhole
    unfold isValidElf at hvalid
    rw [hident] at hvalid
    cases hvalid
  obtain ⟨hshoff, hshentsize, hshnum⟩ := ehdrAt_first hfirst
  have hsame : ∀ k < 1024, e.vol.byte (e.ip.zone 0) k = e.fileByte k := fun k hk => (fileByte_first hfirst hk).symm
  have hvalid' : isValidElf (ehdrAt (e.vol.byte (e.ip.zone 0))) = isValidElf e.ehdr := by
    have htype : getHalf (e.vol.byte (e.ip.zone 0)) 16 = getHalf e.fileByte 16 := getHalf_congr fun x _ hx => hsame x (by omega)
    have hmachine : getHalf (e.vol.byte (e.ip.zone 0)) 18 = getHalf e.fileByte 18 := getHalf_congr fun x _ hx => hsame x (by omega)
    exact isValidElf_congr (fun k hk => hsame k (by omega)) htype hmachine
  refine ⟨ehdrAt (e.vol.byte (e.ip.zone 0)), ((ehdrAt (e.vol.byte (e.ip.zone 0))).ehsize +
    e.ehdr.shnum * (ehdrAt (e.vol.byte (e.ip.zone 0))).shentsize) % 2 ^ 32, fun i => ?_, hshnum, fun mem => ?_⟩
  · unfold Elf32Ehdr.headerPos
    rw [hshoff, hshentsize]
  · unfold headersRead
    dsimp only
    rw [hvalid', if_pos hvalid, if_neg (by omega), hshnum]

/-- No position in the table wraps. -/
theorem headerPos_eq (hinside : e.ehdr.shoff + e.ehdr.shnum * e.ehdr.shentsize ≤ 1024 * maxFileBlocks) (hk : k < e.ehdr.shnum) :
    e.ehdr.headerPos k = e.ehdr.shoff + k * e.ehdr.shentsize := by
  have hle : k * e.ehdr.shentsize ≤ e.ehdr.shnum * e.ehdr.shentsize := Nat.mul_le_mul_right _ (by omega)
  have hmax : maxFileBlocks = 262663 := rfl
  unfold Elf32Ehdr.headerPos
  exact Nat.mod_eq_of_lt (by omega)

theorem TablePlaced.decodes (h : e.TablePlaced) (hvalid : isValidElf e.ehdr = true) (hnum : 1 < e.ehdr.shnum)
    (hinside : e.ehdr.shoff + e.ehdr.shnum * e.ehdr.shentsize ≤ 1024 * maxFileBlocks) : e.DecodesHeaders := by
  intro e' hsame mem r hr
  have hehdr := hsame.ehdr
  obtain ⟨ex, size, hex, hexnum, hreads⟩ := @headersRead_eq e' (hehdr ▸ hvalid) (hehdr ▸ hnum)
  rw [hreads] at hr
  obtain ⟨hlt, hnull, hwild, hbytes⟩ := loadSectionsSeen_decodes (hsame.tablePlaced h) hex hexnum (by omega)
    (.inl ⟨rfl, rfl, fun k hlt hk => by omega⟩) (fun j hj hlt => by omega) r hr
  rw [hehdr] at hlt
  refine ⟨hnull, hwild, fun i hi => ?_⟩
  rw [hbytes i hi, hsame.fileByte, hehdr, headerPos_eq hinside hlt]

/-- A run that comes to header `k`: up to there the table block is as the headers behind have left it. -/
theorem headersRead_reaches (hvalid : isValidElf e.ehdr = true) (hnum : 1 < e.ehdr.shnum) (hk : k < e.ehdr.shnum)
    (hpass : ∀ j, k < j → j < e.ehdr.shnum → e.Passes j) (hplaced : ∀ j, k < j → j < e.ehdr.shnum → e.HeaderPlaced j)
    (mem : Nat → UInt8) :
    ∃ ex t size' mem', (∀ i, ex.headerPos i = e.ehdr.headerPos i) ∧ ex.shnum = e.ehdr.shnum ∧ t.After e ex (k + 1) ∧
      ∀ r ∈ (e.loadSectionsSeen ex (k + 1) t size' mem').2, r ∈ e.headersRead (e.ip.zone 0) mem := by
  obtain ⟨ex, size, hex, hexnum, hreads⟩ := headersRead_eq hvalid hnum
  obtain ⟨t, size', mem', ht, hsub⟩ := @loadSectionsSeen_reaches e ex e.ehdr.shnum k size ⟨0, none⟩ mem hex hexnum (by omega)
    (.inl ⟨rfl, rfl, fun k hlt hk => by omega⟩) hk hpass hplaced
  refine ⟨ex, t, size', mem', hex, hexnum, ht, fun r hr => ?_⟩
  rw [hreads]
  exact hsub r hr

theorem loadSectionsSeen_reads {t' : TableBlock} (h : e.seekTable (ex.headerPos n) t mem = .done t') :
    e.headerRead ex n t' ∈ (e.loadSectionsSeen ex (n + 1) t size mem).2 := by
  unfold loadSectionsSeen
  rw [h]
  unfold LoadEnd.seen
  dsimp only
  apply List.mem_append_right
  cases e.loadSection (shdrAt (e.tableBytes t') (ex.headerPos n % 1024)) mem with
  | done a => exact List.mem_append_left _ (List.mem_singleton_self _)
  | refused mem => exact List.mem_singleton_self _
  | panic => exact List.mem_singleton_self _
  | wild => exact List.mem_singleton_self _
  | fault => exact List.mem_singleton_self _

/-- The header that the run comes to is read from the block that is found for it. -/
theorem headersRead_mem {b : Nat} (hvalid : isValidElf e.ehdr = true) (hnum : 1 < e.ehdr.shnum) (hk : k < e.ehdr.shnum)
    (hpass : ∀ j, k < j → j < e.ehdr.shnum → e.Passes j) (hplaced : ∀ j, k < j → j < e.ehdr.shnum → e.HeaderPlaced j)
    (hwindow : ∃ j, k ≤ j ∧ j < e.ehdr.shnum ∧ e.ehdr.headerPos j / 1024 ≠ 0)
    (hb : readFileBlock e.vol.toDevice e.ip (e.ehdr.headerPos k / 1024 : Nat) = .buffer b) (mem : Nat → UInt8) :
    ∃ r ∈ e.headersRead (e.ip.zone 0) mem, r.index = k ∧ ∀ i, r.bytes i = e.vol.byte b (e.ehdr.headerPos k % 1024 + i) := by
  obtain ⟨ex, t, size', mem', hex, hexnum, ht, hsub⟩ := headersRead_reaches hvalid hnum hk hpass hplaced mem
  rw [← hex k] at hb
  obtain ⟨t', hseek⟩ := @seekTable_found e t mem' _ _ hb
  obtain ⟨ht', hlb⟩ := seekTable_after hseek (hexnum ▸ hk) ht
  have hwindow' : ∃ j, k ≤ j ∧ j < ex.shnum ∧ ex.headerPos j / 1024 ≠ 0 := by
    obtain ⟨j, hj, hlt, hpos⟩ := hwindow
    exact ⟨j, hj, hexnum ▸ hlt, hex j ▸ hpos⟩
  obtain ⟨b', hread, _, hbytes⟩ := headerRead_after ht' hlb hwindow'
  rw [hb] at hread
  cases hread
  refine ⟨_, hsub _ (loadSectionsSeen_reads hseek), rfl, fun i => ?_⟩
  change e.tableBytes t' (ex.headerPos k % 1024 + i) = _
  rw [hbytes, hex k]

/-- The same executable with the byte `c` everywhere behind the buffers. -/
def behind (e : Executable) (c : UInt8) : Executable where
  vol :=
    { e.vol with
      byte := fun b k => if k < 1024 then e.vol.byte b k else c
      word_byte := by
        intro b k hk
        rw [e.vol.word_byte b k hk]
        apply getHalf_congr
        intro x _ hx
        rw [if_pos (by omega)] }
  ip := e.ip
  limit := e.limit
  low := e.low

theorem sameBlocks_behind {c : UInt8} : SameBlocks e (e.behind c) :=
  ⟨rfl, rfl, rfl, fun _ _ hk => if_pos hk⟩

theorem DecodesHeaders.placed (h : e.DecodesHeaders) (hvalid : isValidElf e.ehdr = true) (hnum : 1 < e.ehdr.shnum)
    (hinside : e.ehdr.shoff + e.ehdr.shnum * e.ehdr.shentsize ≤ 1024 * maxFileBlocks) : e.TablePlaced := by
  intro k hk hpass
  -- The headers behind are well placed first.
  induction hd : e.ehdr.shnum - k using Nat.strongRecOn generalizing k with
  | ind d ih =>
    have hplaced : ∀ j, k < j → j < e.ehdr.shnum → e.HeaderPlaced j := fun j hj hlt =>
      ih (e.ehdr.shnum - j) (by omega) j hlt (fun i hi => hpass i (by omega)) rfl
    obtain ⟨ex, t, size', mem', hex, hexnum, ht, hsub⟩ := headersRead_reaches hvalid hnum hk hpass hplaced fun _ => 0
    have hwindow : ∃ j, k ≤ j ∧ j < e.ehdr.shnum ∧ e.ehdr.headerPos j / 1024 ≠ 0 := by
      by_contra hnone
      push Not at hnone
      have hzero : ex.headerPos k / 1024 = 0 := hex k ▸ hnone k (Nat.le_refl k) hk
      rcases ht with ⟨hbht, hlb, _⟩ | ⟨_, _, _, j, hj, hlt, hpos⟩
      · have hseek : e.seekTable (ex.headerPos k) t mem' = .done t := by
          unfold seekTable
          rw [if_neg (by omega)]
        obtain ⟨hnull, _⟩ := h e (.refl e) (fun _ => 0) _ (hsub _ (loadSectionsSeen_reads hseek))
        apply hnull
        change t.source = .null
        unfold TableBlock.source
        rw [hbht]
      · exact hpos (hex j ▸ hnone j (by omega) (hexnum ▸ hlt))
    refine ⟨hwindow, fun hwild => ?_, fun b hb => ?_⟩
    · rw [← hex k] at hwild
      have hseek : e.seekTable (ex.headerPos k) t mem' = .wild := by
        unfold seekTable
        rw [if_pos]
        · unfold fetch
          rw [hwild]
          rfl
        · intro hlb
          rcases ht with ⟨_, hzero, _⟩ | ⟨b, _, hread, _⟩
          · rw [hlb, hzero, readFileBlock_direct (by omega)] at hwild
            cases hwild
          · rw [hlb, hread] at hwild
            cases hwild
      have hread : (⟨k, .wild, fun _ => 0⟩ : HeaderRead) ∈ (e.loadSectionsSeen ex (k + 1) t size' mem').2 := by
        unfold loadSectionsSeen
        rw [hseek]
        exact List.mem_singleton_self _
      obtain ⟨_, hnot, _⟩ := h e (.refl e) (fun _ => 0) _ (hsub _ hread)
      exact hnot rfl
    · obtain ⟨r, hr, hindex, hbytes⟩ := headersRead_mem hvalid hnum hk hpass hplaced hwindow hb fun _ => 0
      obtain ⟨_, _, hown⟩ := h e (.refl e) (fun _ => 0) r hr
      refine ⟨?_, fun i hi => ?_⟩
      · -- A header that goes past its block gets what is behind the buffer.
        by_contra hover
        generalize hi : 1024 - e.ehdr.headerPos k % 1024 = i at *
        have hsame := @sameBlocks_behind e (e.fileByte (e.ehdr.headerPos k + i) + 1)
        have hehdr := hsame.ehdr
        obtain ⟨r', hr', hindex', hbytes'⟩ := @headersRead_mem (e.behind (e.fileByte (e.ehdr.headerPos k + i) + 1)) k b
          (hehdr ▸ hvalid) (hehdr ▸ hnum) (hehdr ▸ hk) (fun j hj hlt => hsame.passes (hpass j hj (hehdr ▸ hlt)))
          (fun j hj hlt => hsame.headerPlaced (hplaced j hj (hehdr ▸ hlt))) (hehdr ▸ hwindow) (by rw [hehdr]; exact hb) fun _ => 0
        obtain ⟨_, _, hown'⟩ := h _ hsame (fun _ => 0) r' hr'
        have hfile := hown' i (by omega)
        rw [hbytes', hindex', hehdr, ← headerPos_eq hinside hk] at hfile
        have hbehind : (e.behind (e.fileByte (e.ehdr.headerPos k + i) + 1)).vol.byte b (e.ehdr.headerPos k % 1024 + i) =
            e.fileByte (e.ehdr.headerPos k + i) + 1 := if_neg (by omega)
        rw [hbehind] at hfile
        have hone : e.fileByte (e.ehdr.headerPos k + i) + 1 = e.fileByte (e.ehdr.headerPos k + i) + 0 := by rw [hfile, add_zero]
        exact absurd (add_left_cancel hone) (by decide)
      · rw [← hbytes i, hown i hi, hindex, headerPos_eq hinside hk]

/-- The loader decodes all headers from their own bytes just when each one that it comes to is well placed. -/
theorem decodes_headers_iff (hvalid : isValidElf e.ehdr = true) (hnum : 1 < e.ehdr.shnum)
    (hinside : e.ehdr.shoff + e.ehdr.shnum * e.ehdr.shentsize ≤ 1024 * maxFileBlocks) : e.DecodesHeaders ↔ e.TablePlaced := by
  constructor
  · intro h
    exact h.placed hvalid hnum hinside
  · intro h
    exact h.decodes hvalid hnum hinside

end Executable

theorem sampleElf_placed : (sampleElf 4).TablePlaced := by
  have hnum : (sampleElf 4).ehdr.shnum = 3 := (sampleElf_sections 4 (.inr rfl)).1
  have hpos : ∀ i, i < 3 → (sampleElf 4).ehdr.headerPos i = 1024 + 40 * i := by decide +kernel
  intro k hk _
  rw [hnum] at hk
  have hblock : (1024 + 40 * k) / 1024 = 1 := by omega
  have hread : readFileBlock (sampleElf 4).vol.toDevice (sampleElf 4).ip (1 : Nat) = .buffer 21 := rfl
  refine ⟨⟨k, Nat.le_refl k, by omega, ?_⟩, ?_, ?_⟩
  · rw [hpos k hk, hblock]
    exact Nat.one_ne_zero
  · rw [hpos k hk, hblock, hread]
    exact nofun
  · intro b hb
    rw [hpos k hk, hblock, hread] at hb
    cases hb
    rw [hpos k hk]
    refine ⟨by omega, fun i hi => ?_⟩
    have hfile := @Executable.fileByte_eq (sampleElf 4) 1 (40 * k + i) (by decide +kernel) (by omega)
    rw [show 1024 * 1 + (40 * k + i) = 1024 + 40 * k + i by omega] at hfile
    rw [hfile, show (1024 + 40 * k) % 1024 + i = 40 * k + i by omega]
    rfl

theorem decodes_headers_iff_sample : (sampleElf 4).DecodesHeaders :=
  (Executable.decodes_headers_iff (by decide +kernel) (by decide +kernel) (by decide +kernel)).mpr sampleElf_placed

/-- The sample with its section table at 52, right behind the file header. -/
def tinyElfByte (b k : Nat) : UInt8 := if b = 20 ∧ k = 32 then 52 else if b = 20 ∧ k = 33 then 0 else sampleElfByte 4 b k

def tinyElf : Executable where
  vol :=
    { firstdatazone := 19
      nzones := 100
      zmapBlocks := 1
      zmap := fun _ => true
      word := fun b k => getHalf (tinyElfByte b) (2 * k)
      byte := tinyElfByte
      word_byte := fun _ _ _ => rfl }
  ip := (sampleElf 4).ip
  limit := 0x4000000
  low := fun _ => 0

/-- The table of the file lies in its first block, and the loader takes the headers from address 0. -/
theorem decodes_headers_fails : isValidElf tinyElf.ehdr = true ∧ 1 < tinyElf.ehdr.shnum ∧
    tinyElf.ehdr.shoff + tinyElf.ehdr.shnum * tinyElf.ehdr.shentsize ≤ 1024 ∧ ¬ tinyElf.DecodesHeaders := by
  have hvalid : isValidElf tinyElf.ehdr = true := by decide +kernel
  have hnum : tinyElf.ehdr.shnum = 3 := by decide +kernel
  have hinside : tinyElf.ehdr.shoff + tinyElf.ehdr.shnum * tinyElf.ehdr.shentsize ≤ 1024 := by decide +kernel
  have hpos : tinyElf.ehdr.headerPos 2 = 132 := by decide +kernel
  have hmax : maxFileBlocks = 262663 := rfl
  refine ⟨hvalid, by omega, hinside, fun h => ?_⟩
  have hplaced := h.placed hvalid (by omega) (by omega) 2 (by omega) fun j hj hlt => by omega
  obtain ⟨j, hj, hlt, hblock⟩ := hplaced.window
  have hj : j = 2 := by omega
  rw [hj, hpos] at hblock
  exact hblock rfl

end RheeKernel
