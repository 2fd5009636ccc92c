import RheeKernel.FileRuns
import RheeKernel.FileTable
import RheeKernel.ZoneNeeds

namespace RheeKernel

def wordBlockSize : BitVec 32 := 1024

/-- `file_write` with `off_t` positions. A panic gives `none`, and so does a negative offset into a block, whose bytes lie in
front of the buffer. -/
def writeWordLoop (i : Nat) : Nat → FileSys → BitVec 32 → List UInt8 → Nat → Option (FileSys × BitVec 32 × Nat)
  | 0, s, pos, _, n => some (s, pos, n)
  | fuel + 1, s, pos, data, n =>
    if data = [] then some (s, pos, n)
    else (createBlock s.zones.dev (s.zones.inode i) (pos.sdiv wordBlockSize).toInt).bind fun (d, ip, block) =>
      if block = 0 then some ({ s with zones := ⟨d, Function.update s.zones.inode i ip⟩ }, pos, n)
      else
        let c := pos.srem wordBlockSize
        if c.slt 0 then none
        else
          let k := min (blockSize - c.toNat) data.length
          let pos := pos + BitVec.ofNat 32 k
          -- `i_size` is unsigned, and so is the comparison.
          writeWordLoop i fuel
            { zones := ⟨d.putBytes block c.toNat (data.take k), Function.update s.zones.inode i ip⟩
              size := if s.size i < pos.toNat then Function.update s.size i pos.toNat else s.size }
            pos (data.drop k) (n + k)

/-- `file_read` with `off_t` positions. -/
def readWordLoop (s : FileSys) (i : Nat) : Nat → BitVec 32 → Nat → Option (BitVec 32 × List UInt8)
  | 0, pos, _ => some (pos, [])
  | fuel + 1, pos, left =>
    if left = 0 then some (pos, [])
    else (bmap s.zones.dev (s.zones.inode i) (pos.sdiv wordBlockSize).toInt).bind fun block =>
      let nr := pos.srem wordBlockSize
      if nr.slt 0 then none
      else
        let chars := min (blockSize - nr.toNat) left
        let bytes := (List.range chars).map fun k => if block = 0 then 0 else s.zones.dev.byteAt block (nr.toNat + k)
        (readWordLoop s i fuel (pos + BitVec.ofNat 32 chars) (left - chars)).map fun (pos, rest) => (pos, bytes ++ rest)

/-- An entry of `file_table` for a regular file. -/
structure SeekFile where
  inode : Nat
  flags : BitVec 16
  pos : BitVec 32

/-- The regular files of a device, the entries of `file_table` and the descriptors of each task that refer to them. -/
structure Seeks where
  fs : FileSys
  major : Nat
  file : Nat → SeekFile
  filp : Nat → Nat → Option Nat

/-- What a call gives back: its value and the bytes put into the caller's buffer. -/
structure Answer where
  ret : Int
  bytes : List UInt8

namespace Seeks

def iSize (t : Seeks) (f : SeekFile) : BitVec 32 := BitVec.ofNat 32 (t.fs.size f.inode)

def setPos (t : Seeks) (j : Nat) (pos : BitVec 32) : Seeks :=
  { t with file := Function.update t.file j { t.file j with pos := pos } }

end Seeks

def isBlockdev (major : Nat) : Bool := major == 2 || major == 3

def SeekFile.append (f : SeekFile) : Bool := f.flags &&& oAppend.truncate 16 != 0

/-- The descriptor's entry; `sys_lseek` and the other two differ in the error for a bad one. -/
def Seeks.entry (t : Seeks) (task fd : Nat) : Option Nat := if nrOpen ≤ fd then none else t.filp task fd

def sysLseek (t : Seeks) (task fd : Nat) (offset origin : BitVec 32) : Seeks × Int :=
  match t.entry task fd with
  | none => (t, -9)
  | some j =>
    let f := t.file j
    if ¬ isBlockdev t.major then (t, -9)
    else if origin = 0 then
      if offset.slt 0 then (t, -22) else (t.setPos j offset, offset.toInt)
    else if origin = 1 then
      if (f.pos + offset).slt 0 then (t, -22) else (t.setPos j (f.pos + offset), (f.pos + offset).toInt)
    else if origin = 2 then
      let tmp := t.iSize f + offset
      if tmp.slt 0 then (t, -22) else (t.setPos j tmp, tmp.toInt)
    else (t, -22)

def sysReadFile (t : Seeks) (task fd : Nat) (count : BitVec 32) : Option (Seeks × Answer) :=
  if count.slt 0 then some (t, ⟨-22, []⟩)
  else
    match t.entry task fd with
    | none => some (t, ⟨-22, []⟩)
    | some j =>
      let f := t.file j
      if count = 0 then some (t, ⟨0, []⟩)
      else
        let count := if (t.iSize f).ult (count + f.pos) then t.iSize f - f.pos else count
        if count.sle 0 then some (t, ⟨0, []⟩)
        else (readWordLoop t.fs f.inode count.toNat f.pos count.toNat).map fun (pos, bytes) =>
          (t.setPos j pos, ⟨if bytes.length = 0 then -99 else bytes.length, bytes⟩)

def sysWriteFile (t : Seeks) (task fd : Nat) (buf : Nat → UInt8) (count : BitVec 32) : Option (Seeks × Answer) :=
  if count.slt 0 then some (t, ⟨-22, []⟩)
  else
    match t.entry task fd with
    | none => some (t, ⟨-22, []⟩)
    | some j =>
      let f := t.file j
      if count = 0 then some (t, ⟨0, []⟩)
      else
        (writeWordLoop f.inode count.toNat t.fs (if f.append then t.iSize f else f.pos) ((List.range count.toNat).map buf) 0).map
          fun (s, pos, n) =>
            let t := { t with fs := s }
            (if f.append then t else t.setPos j pos, ⟨if n = 0 then -1 else n, []⟩)

inductive SeekCall
  | lseek (task fd : Nat) (offset origin : BitVec 32)
  | read (task fd : Nat) (count : BitVec 32)
  | write (task fd : Nat) (buf : Nat → UInt8) (count : BitVec 32)

/-- `none` is a panic. -/
def seekCall (t : Seeks) : SeekCall → Option (Seeks × Answer)
  | .lseek task fd offset origin => some ((sysLseek t task fd offset origin).1, ⟨(sysLseek t task fd offset origin).2, []⟩)
  | .read task fd count => sysReadFile t task fd count
  | .write task fd buf count => sysWriteFile t task fd buf count

def seekStep (t : Seeks) (c : SeekCall) : Option Seeks := (seekCall t c).map Prod.fst

/-- The zones are sound, no file is longer than its inode can name, and no position is negative. -/
structure Seeks.Sane (t : Seeks) : Prop where
  sound : t.fs.zones.Sound
  fits : ∀ i, t.fs.size i ≤ FileSys.maxSize
  pos : ∀ j, (t.file j).pos.toNat < 2 ^ 31

/-- Where a write through entry `j` begins. -/
def Seeks.start (t : Seeks) (j : Nat) : Nat := t.fs.start (t.file j).inode (t.file j).append (t.file j).pos.toNat

/-- The call is a write of `count` bytes through entry `j`. -/
def Seeks.Writes (t : Seeks) (c : SeekCall) (j count : Nat) : Prop :=
  match c with
  | .write task fd _ n => t.entry task fd = some j ∧ 0 < n.toInt ∧ n.toNat = count
  | _ => False

/-- A write that would go past the last block that an inode can name finds too few zones for the blocks up to there. -/
def Seeks.Bounded (t : Seeks) (c : SeekCall) : Prop :=
  ∀ j count, t.Writes c j count → FileSys.maxSize < t.start j + count →
    t.fs.zones.dev.freeZones <
      t.fs.zones.needs (t.file j).inode (t.start j / blockSize) (maxFileBlocks - t.start j / blockSize)

/-- The call returns; if it writes beyond the maximum size it returns an error or less than the count. -/
def Seeks.Survives (t : Seeks) (c : SeekCall) : Prop :=
  ∃ t' r, seekCall t c = some (t', r) ∧
    ∀ j count, t.Writes c j count → FileSys.maxSize < t.start j + count → r.ret < count

variable {s s' : FileSys} {t t' : Seeks} {c : SeekCall} {i j n fuel left task fd : Nat} {pos count : BitVec 32} {data : List UInt8}
  {buf : Nat → UInt8} {r : Answer}

theorem sdiv_block (h : pos.toNat < 2 ^ 31) : (pos.sdiv wordBlockSize).toInt = (pos.toNat / blockSize : Nat) := by
  have hmsb : pos.msb = false := by
    rw [BitVec.msb_eq_decide, decide_eq_false_iff_not]
    omega
  have hw : wordBlockSize.msb = false := by decide
  rw [BitVec.sdiv_eq, hmsb, hw]
  dsimp only
  have hto : (pos.udiv wordBlockSize).toNat = pos.toNat / 1024 := rfl
  rw [BitVec.toInt_eq_toNat_of_lt (by rw [hto]; omega), hto]
  rfl

theorem srem_block (h : pos.toNat < 2 ^ 31) :
    (pos.srem wordBlockSize).toNat = pos.toNat % blockSize ∧ (pos.srem wordBlockSize).slt 0 = false := by
  have hmsb : pos.msb = false := by
    rw [BitVec.msb_eq_decide, decide_eq_false_iff_not]
    omega
  have hw : wordBlockSize.msb = false := by decide
  have hto : (pos.srem wordBlockSize).toNat = pos.toNat % 1024 := by
    rw [BitVec.srem_eq, hmsb, hw]
    rfl
  refine ⟨hto, ?_⟩
  generalize pos.srem wordBlockSize = c at hto
  simp only [BitVec.slt, decide_eq_false_iff_not]
  rw [BitVec.toInt_eq_toNat_of_lt (by omega)]
  simp

/-- Within the blocks of a file the end of a chunk is a position again. -/
theorem add_chunk (hn : pos.toNat / blockSize < maxFileBlocks) :
    (pos + BitVec.ofNat 32 (min (blockSize - pos.toNat % blockSize) n)).toNat = pos.toNat + min (blockSize - pos.toNat % blockSize) n ∧
      pos.toNat + min (blockSize - pos.toNat % blockSize) n < 2 ^ 31 := by
  rw [BitVec.toNat_add, BitVec.toNat_ofNat]
  unfold maxFileBlocks blockSize at *
  omega

/-- There is no block past the last one that an inode can name. -/
theorem bmapCore_past {d : Device} {ip : ZoneInode} {create : Bool} (hn : ¬ n < maxFileBlocks) : bmapCore d ip (n : Nat) create = none := by
  unfold bmapCore
  rw [if_neg (by omega), if_pos (by omega)]

/-- Positions below the maximum size stay what they are in 32 bits, so that the loop is the one over natural numbers. -/
theorem writeWordLoop_eq (h : pos.toNat < 2 ^ 31) :
    writeWordLoop i fuel s pos data n =
      (fileWriteLoop i fuel s pos.toNat data n).map fun (s, p, n) => (s, BitVec.ofNat 32 p, n) := by
  induction fuel generalizing s pos data n with
  | zero => simp [writeWordLoop, fileWriteLoop]
  | succ fuel ih =>
    unfold writeWordLoop fileWriteLoop
    by_cases hdata : data = []
    · rw [if_pos hdata, if_pos hdata]
      simp
    · rw [if_neg hdata, if_neg hdata, sdiv_block h]
      by_cases hn : pos.toNat / blockSize < maxFileBlocks
      · cases hcreate : createBlock s.zones.dev (s.zones.inode i) (pos.toNat / blockSize : Nat) with
        | none => rfl
        | some x =>
          obtain ⟨d, ip, block⟩ := x
          dsimp only [Option.bind_some]
          by_cases hblock : block = 0
          · rw [if_pos hblock, if_pos hblock]
            simp
          · obtain ⟨hmod, hneg⟩ := srem_block h
            obtain ⟨hsum, hlt⟩ := add_chunk (n := data.length) hn
            rw [if_neg hblock, if_neg hblock, hneg, if_neg Bool.false_ne_true, hmod, ih (hsum ▸ hlt), hsum]
      · rw [createBlock, bmapCore_past hn]
        rfl

theorem readWordLoop_eq (h : pos.toNat < 2 ^ 31) :
    readWordLoop s i fuel pos left = (fileReadLoop s i fuel pos.toNat left).map fun (p, bytes) => (BitVec.ofNat 32 p, bytes) := by
  induction fuel generalizing pos left with
  | zero => simp [readWordLoop, fileReadLoop]
  | succ fuel ih =>
    unfold readWordLoop fileReadLoop
    by_cases hleft : left = 0
    · rw [if_pos hleft, if_pos hleft]
      simp
    · rw [if_neg hleft, if_neg hleft, sdiv_block h]
      by_cases hn : pos.toNat / blockSize < maxFileBlocks
      · cases hmap : bmap s.zones.dev (s.zones.inode i) (pos.toNat / blockSize : Nat) with
        | none => rfl
        | some block =>
          obtain ⟨hmod, hneg⟩ := srem_block h
          dsimp only [Option.bind_some]
          obtain ⟨hsum, hlt⟩ := add_chunk (n := left) hn
          rw [hneg, if_neg Bool.false_ne_true, hmod, ih (hsum ▸ hlt), hsum, Option.map_map, Option.map_map]
          rfl
      · rw [bmap, bmapCore_past hn]
        rfl

theorem maxSize_word : FileSys.maxSize < 2 ^ 31 := by decide

theorem slt_zero : pos.slt 0 = true ↔ pos.toInt < 0 := decide_eq_true_iff

theorem toNat_of_not_slt (h : ¬ pos.slt 0 = true) : pos.toNat < 2 ^ 31 := by
  rw [slt_zero, BitVec.toInt_eq_toNat_cond] at h
  split at h <;> omega

theorem toInt_pos (h : 0 < count.toInt) : count.toNat < 2 ^ 31 ∧ 0 < count.toNat := by
  rw [BitVec.toInt_eq_toNat_cond] at h
  split at h <;> omega

namespace Seeks

theorem Sane.iSize (h : t.Sane) (j : Nat) : (t.iSize (t.file j)).toNat = t.fs.size (t.file j).inode := by
  have hfits := h.fits (t.file j).inode
  have hmax := maxSize_word
  rw [Seeks.iSize, BitVec.toNat_ofNat]
  omega

theorem Sane.start (h : t.Sane) (j : Nat) :
    (if (t.file j).append then t.iSize (t.file j) else (t.file j).pos).toNat = t.start j ∧ t.start j < 2 ^ 31 := by
  have hsize := h.iSize j
  have hfits := h.fits (t.file j).inode
  have hpos := h.pos j
  have hmax := maxSize_word
  unfold Seeks.start FileSys.start
  split
  next => exact ⟨hsize, by omega⟩
  next => exact ⟨rfl, hpos⟩

theorem Sane.setPos (h : t.Sane) (hpos : pos.toNat < 2 ^ 31) : (t.setPos j pos).Sane := by
  refine ⟨h.sound, h.fits, fun k => ?_⟩
  change (Function.update t.file j _ k).pos.toNat < _
  by_cases hk : k = j
  · rw [hk, Function.update_self]
    exact hpos
  · rw [Function.update_of_ne hk]
    exact h.pos k

theorem Sane.lseek {offset origin : BitVec 32} (h : t.Sane) : (sysLseek t task fd offset origin).1.Sane := by
  unfold sysLseek
  split
  next => exact h
  next j _ =>
    dsimp only
    split
    next => exact h
    next =>
      split
      next =>
        split
        next => exact h
        next hneg => exact h.setPos (toNat_of_not_slt hneg)
      next =>
        split
        next =>
          split
          next => exact h
          next hneg => exact h.setPos (toNat_of_not_slt hneg)
        next =>
          split
          next =>
            split
            next => exact h
            next hneg => exact h.setPos (toNat_of_not_slt hneg)
          next => exact h

/-- The clamp of `sys_read` keeps the loop inside the file. -/
theorem Sane.read (h : t.Sane) : ∃ t' r, sysReadFile t task fd count = some (t', r) ∧ t'.Sane := by
  unfold sysReadFile
  split
  next => exact ⟨_, _, rfl, h⟩
  next hcount =>
    have hlt := toNat_of_not_slt hcount
    split
    next => exact ⟨_, _, rfl, h⟩
    next j _ =>
      dsimp only
      split
      next => exact ⟨_, _, rfl, h⟩
      next =>
        generalize hclamp : (if (t.iSize (t.file j)).ult (count + (t.file j).pos) then t.iSize (t.file j) - (t.file j).pos
          else count) = left
        split
        next => exact ⟨_, _, rfl, h⟩
        next hleft =>
          have hsize := h.iSize j
          have hfits := h.fits (t.file j).inode
          have hpos := h.pos j
          have hmax := maxSize_word
          have hin : (t.file j).pos.toNat + left.toNat ≤ t.fs.size (t.file j).inode := by
            simp only [BitVec.sle, decide_eq_true_eq, not_le] at hleft
            obtain ⟨hlow, _⟩ := toInt_pos hleft
            rw [← hsize]
            by_cases hult : (t.iSize (t.file j)).ult (count + (t.file j).pos) = true
            · rw [if_pos hult] at hclamp
              bv_omega
            · rw [if_neg hult] at hclamp
              simp only [BitVec.ult, decide_eq_true_eq] at hult
              bv_omega
          have hfit : (t.file j).pos.toNat + left.toNat ≤ FileSys.maxSize := hin.trans hfits
          rw [readWordLoop_eq hpos, FileSys.fileReadLoop_spec hfit le_rfl, Option.map_some, Option.map_some]
          refine ⟨_, _, rfl, h.setPos ?_⟩
          rw [BitVec.toNat_ofNat]
          omega

/-- A write that gets as far as `file_write`. -/
theorem Sane.write_eq (h : t.Sane) (hj : t.entry task fd = some j) (hcount : 0 < count.toInt) :
    sysWriteFile t task fd buf count =
      (fileWriteLoop (t.file j).inode count.toNat t.fs (t.start j) ((List.range count.toNat).map buf) 0).map
        fun (s, pos, n) =>
          (if (t.file j).append then { t with fs := s } else ({ t with fs := s } : Seeks).setPos j (BitVec.ofNat 32 pos),
            ⟨if n = 0 then -1 else n, []⟩) := by
  obtain ⟨hstart, hlt⟩ := h.start j
  have hneg : ¬ count.slt 0 = true := by
    rw [slt_zero]
    omega
  have hne : count ≠ 0 := by
    rintro rfl
    simp at hcount
  unfold sysWriteFile
  rw [if_neg hneg, hj]
  dsimp only
  rw [if_neg hne, writeWordLoop_eq (by rw [hstart]; exact hlt), hstart, Option.map_map]
  rfl

theorem Sane.write_none (h : t.Sane) (hj : t.entry task fd = some j) (hcount : 0 < count.toInt)
    (hover : FileSys.maxSize < t.start j + count.toNat) :
    sysWriteFile t task fd buf count = none ↔
      t.fs.zones.needs (t.file j).inode (t.start j / blockSize) (maxFileBlocks - t.start j / blockSize) ≤
        t.fs.zones.dev.freeZones := by
  obtain ⟨_, hpos⟩ := toInt_pos hcount
  rw [h.write_eq hj hcount, Option.map_eq_none_iff]
  refine FileSys.fileWriteLoop_none h.sound (by simp) ?_ (by simpa using hover)
  refine List.ne_nil_of_length_pos ?_
  simpa using hpos

/-- What a write stores lies below the maximum size. -/
theorem Sane.write (h : t.Sane) (hj : t.entry task fd = some j) (hcount : 0 < count.toInt)
    (hw : sysWriteFile t task fd buf count = some (t', r)) :
    t'.Sane ∧ (FileSys.maxSize < t.start j + count.toNat → r.ret < count.toNat) := by
  obtain ⟨_, hpos⟩ := toInt_pos hcount
  obtain ⟨_, hlt⟩ := h.start j
  have hmax := maxSize_word
  rw [h.write_eq hj hcount] at hw
  obtain ⟨⟨s, pos', n'⟩, hloop, heq⟩ := Option.map_eq_some_iff.mp hw
  cases heq
  obtain ⟨k, hk, hn, hpos', hstored, _⟩ := (FileSys.fileWriteLoop_spec h.sound (by simp)).2 _ _ _ hloop
  rw [Nat.zero_add] at hn
  have hbound : k = 0 ∨ t.start j + k ≤ FileSys.maxSize := by
    rcases Nat.eq_zero_or_pos k with hzero | hkpos
    · exact .inl hzero
    · have hlen : (((List.range count.toNat).map buf).take k).length = k := by
        rw [List.length_take]
        omega
      have hfits := hstored.fits (List.ne_nil_of_length_pos (by omega))
      rw [hlen] at hfits
      exact .inr hfits
  have hsane : ({ t with fs := s } : Seeks).Sane := by
    refine ⟨hstored.sound, fun i => ?_, h.pos⟩
    dsimp only
    rw [hstored.size]
    split
    next hi =>
      have := hstored.fits hi.2
      have := h.fits (t.file j).inode
      omega
    next => exact h.fits i
  refine ⟨?_, fun hover => ?_⟩
  · split
    next => exact hsane
    next =>
      refine hsane.setPos ?_
      rw [BitVec.toNat_ofNat]
      omega
  · dsimp only
    split <;> omega

/-- A write that stores nothing and does not look at the file. -/
theorem write_idle (h : ∀ j, t.entry task fd = some j → ¬ 0 < count.toInt) :
    ∃ r, sysWriteFile t task fd buf count = some (t, r) := by
  unfold sysWriteFile
  split
  next => exact ⟨_, rfl⟩
  next hneg =>
    rw [slt_zero] at hneg
    split
    next => exact ⟨_, rfl⟩
    next j hj =>
      have hzero : count = 0 := BitVec.eq_of_toInt_eq (show count.toInt = 0 by have := h j hj; omega)
      dsimp only
      rw [if_pos hzero]
      exact ⟨_, rfl⟩

theorem Sane.step (h : t.Sane) (hs : seekStep t c = some t') : t'.Sane := by
  obtain ⟨⟨t₁, r⟩, hcall, rfl⟩ := Option.map_eq_some_iff.mp hs
  cases c with
  | lseek task fd offset origin =>
    cases Option.some.inj hcall
    exact h.lseek
  | read task fd count =>
    obtain ⟨t₂, r₂, hread, hsane⟩ := @Sane.read t task fd count h
    cases Option.some.inj (hread.symm.trans hcall)
    exact hsane
  | write task fd buf count =>
    by_cases hw : ∃ j, t.entry task fd = some j ∧ 0 < count.toInt
    · obtain ⟨j, hj, hpos⟩ := hw
      exact (h.write hj hpos hcall).1
    · obtain ⟨r', hidle⟩ := @write_idle t task fd count buf fun j hj hpos => hw ⟨j, hj, hpos⟩
      cases Option.some.inj (hidle.symm.trans hcall)
      exact h

end Seeks

/-- In every state that seeks, reads and writes lead to, a call returns, and a write beyond the maximum file size with an error
or a short count, exactly if it is no write that finds the zones for all blocks up to the limit. -/
theorem positions_survive_iff {t₀ : Seeks} (h₀ : t₀.Sane) (hreach : Machine.Reach seekStep (fun _ _ => True) t₀ t) :
    t.Survives c ↔ t.Bounded c := by
  have h : t.Sane := hreach.invariant h₀ fun _ _ _ ht _ hstep => ht.step hstep
  constructor
  · intro ⟨t', r, hcall, _⟩ j count hw hover
    cases c with
    | lseek task fd offset origin => exact hw.elim
    | read task fd count => exact hw.elim
    | write task fd buf count =>
      obtain ⟨hj, hpos, rfl⟩ := hw
      by_contra hle
      have hnone : sysWriteFile t task fd buf count = none :=
        (h.write_none hj hpos hover).mpr (Nat.le_of_not_lt hle)
      exact Option.some_ne_none _ (hcall.symm.trans hnone)
  · intro hb
    cases c with
    | lseek task fd offset origin => exact ⟨_, _, rfl, fun _ _ hw => hw.elim⟩
    | read task fd count =>
      obtain ⟨t', r, hread, _⟩ := @Seeks.Sane.read t task fd count h
      exact ⟨t', r, hread, fun _ _ hw => hw.elim⟩
    | write task fd buf count =>
      by_cases hw : ∃ j, t.entry task fd = some j ∧ 0 < count.toInt
      · obtain ⟨j, hj, hpos⟩ := hw
        have hsome : sysWriteFile t task fd buf count ≠ none := by
          by_cases hover : FileSys.maxSize < t.start j + count.toNat
          · rw [Ne, h.write_none hj hpos hover]
            have := hb j count.toNat ⟨hj, hpos, rfl⟩ hover
            omega
          · rw [h.write_eq hj hpos, Ne, Option.map_eq_none_iff]
            refine Option.isSome_iff_ne_none.mp ((FileSys.fileWriteLoop_spec h.sound (by simp)).1 ?_)
            rw [List.length_map, List.length_range]
            omega
        obtain ⟨⟨t', r⟩, hcall⟩ := Option.ne_none_iff_exists'.mp hsome
        refine ⟨t', r, hcall, fun j' n hw' hover => ?_⟩
        obtain ⟨hj', _, rfl⟩ := hw'
        cases Option.some.inj (hj.symm.trans hj')
        exact (h.write hj hpos hcall).2 hover
      · obtain ⟨r, hidle⟩ := @Seeks.write_idle t task fd count buf fun j hj hpos => hw ⟨j, hj, hpos⟩
        exact ⟨t, r, hidle, fun j _ hw' => absurd ⟨j, hw'.1, hw'.2.1⟩ hw⟩

/-- Descriptor 0 of task 0 is the file of the device with one zone. -/
def oneZoneSeeks : Seeks where
  fs := oneZoneRun.fs
  major := 3
  file := fun _ => ⟨1, 0, 0⟩
  filp := fun _ fd => if fd = 0 then some 0 else none

theorem oneZoneSeeks_sane : oneZoneSeeks.Sane := by
  refine ⟨oneZoneRun_faithful.sound, oneZoneRun_faithful.fits, fun _ => ?_⟩
  change (0 : BitVec 32).toNat < 2 ^ 31
  decide

/-- A seek to the last position and a write of one byte. -/
theorem positions_panic : ¬ ∀ (t₀ t : Seeks) (c : SeekCall), t₀.Sane → Machine.Reach seekStep (fun _ _ => True) t₀ t → t.Survives c := by
  intro hall
  have hreach : Machine.Reach seekStep (fun _ _ => True) oneZoneSeeks (sysLseek oneZoneSeeks 0 0 0x7fffffff 0).1 :=
    .next (e := .lseek 0 0 0x7fffffff 0) .start trivial rfl
  obtain ⟨t', r, hcall, _⟩ := hall _ _ (.write 0 0 (fun _ => 7) 1) oneZoneSeeks_sane hreach
  have hnone : (seekCall (sysLseek oneZoneSeeks 0 0 0x7fffffff 0).1 (.write 0 0 (fun _ => 7) 1)).isNone = true := by
    decide +kernel
  rw [hcall] at hnone
  cases hnone

/-- The first block of the file is there. -/
theorem positions_survive_first : oneZoneSeeks.Survives (.write 0 0 (fun _ => 7) 1) := by
  refine (positions_survive_iff oneZoneSeeks_sane .start).mpr fun j count hw hover => ?_
  obtain ⟨hj, _, rfl⟩ := hw
  cases Option.some.inj (show some 0 = some j from hj)
  exact absurd hover (by decide +kernel)

end RheeKernel
