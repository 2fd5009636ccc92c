import RheeKernel.ByteMemory
import RheeKernel.SyncDurable

open ByteMemory

namespace RheeKernel

/-- Where `buffer_init` puts the blocks: from `BUFFER_END` down, without the hole from 640K to 1M. -/
def bufferAddr (i : Nat) : Nat := if i < 1024 then 0x200000 - 1024 * (i + 1) else 0xA0000 - 1024 * (i - 1024 + 1)

/-- So many blocks lie below `BUFFER_END`, down to address 0. -/
def maxBuffers : Nat := 1664

/-- The buffers, and the memory outside of their blocks. -/
structure RawSys where
  cache : SyncSys
  mem : Nat → UInt8

namespace RawSys

/-- The buffer whose block has the address. -/
def holder (s : RawSys) (a : Nat) : Option Nat :=
  (List.range s.cache.nrBuffers).find? fun i => decide (bufferAddr i ≤ a ∧ a < bufferAddr i + 1024)

def load (s : RawSys) (a : Nat) : UInt8 :=
  match s.holder a with
  | some i => (s.cache.bh i).bData (a - bufferAddr i)
  | none => s.mem a

def setData (s : RawSys) (i : Nat) (data : Nat → UInt8) : RawSys :=
  { s with cache := s.cache.setBh i { s.cache.bh i with bData := data } }

def store (s : RawSys) (a : Nat) (c : UInt8) : RawSys :=
  match s.holder a with
  | some i => s.setData i (Function.update (s.cache.bh i).bData (a - bufferAddr i) c)
  | none => { s with mem := Function.update s.mem a c }

/-- `put_fs_byte(*(p++),buf++)`, `chars` times. -/
def copyOut (s : RawSys) : Nat → Nat → Nat → (Nat → UInt8) → Nat → UInt8
  | 0, _, _, user => user
  | chars + 1, p, buf, user => s.copyOut chars (p + 1) (buf + 1) (Function.update user buf (s.load p))

/-- `*(p++) = get_fs_byte(buf++)`, `chars` times. -/
def copyIn (user : Nat → UInt8) : Nat → Nat → Nat → RawSys → RawSys
  | 0, _, _, s => s
  | chars + 1, p, buf, s => copyIn user chars (p + 1) (buf + 1) (s.store p (user buf))

variable {s : RawSys} {i o n p buf : Nat} {user : Nat → UInt8}

theorem bufferAddr_apart {i j : Nat} (hi : i < maxBuffers) (hj : j < maxBuffers) (hij : i ≠ j) :
    bufferAddr i + 1024 ≤ bufferAddr j ∨ bufferAddr j + 1024 ≤ bufferAddr i := by
  unfold maxBuffers at hi hj
  unfold bufferAddr
  split
  next =>
    split
    next => omega
    next => omega
  next =>
    split
    next => omega
    next => omega

theorem holder_at (hn : s.cache.nrBuffers ≤ maxBuffers) (hi : i < s.cache.nrBuffers) (ho : o < 1024) :
    s.holder (bufferAddr i + o) = some i := by
  unfold holder
  cases hfind : (List.range s.cache.nrBuffers).find? fun j =>
      decide (bufferAddr j ≤ bufferAddr i + o ∧ bufferAddr i + o < bufferAddr j + 1024) with
  | none =>
    have hnot := List.find?_eq_none.mp hfind i (List.mem_range.mpr hi)
    rw [decide_eq_true_eq] at hnot
    omega
  | some j =>
    have hj := List.mem_range.mp (List.mem_of_find?_eq_some hfind)
    have hin := List.find?_some hfind
    rw [decide_eq_true_eq] at hin
    by_cases hji : j = i
    · rw [hji]
    · have hapart := bufferAddr_apart (i := j) (j := i) (by omega) (by omega) hji
      omega

theorem setData_bh {d : Nat → UInt8} {j : Nat} :
    (s.setData i d).cache.bh j = if j = i then { s.cache.bh i with bData := d } else s.cache.bh j :=
  Function.update_apply _ _ _ _

theorem setData_setData {d e : Nat → UInt8} : (s.setData i d).setData i e = s.setData i e := by
  simp only [setData, SyncSys.setBh, Function.update_idem, Function.update_self]

theorem load_at (hn : s.cache.nrBuffers ≤ maxBuffers) (hi : i < s.cache.nrBuffers) (ho : o < 1024) :
    s.load (bufferAddr i + o) = (s.cache.bh i).bData o := by
  unfold load
  rw [holder_at hn hi ho]
  dsimp only
  rw [Nat.add_sub_cancel_left]

theorem store_at {c : UInt8} (hn : s.cache.nrBuffers ≤ maxBuffers) (hi : i < s.cache.nrBuffers) (ho : o < 1024) :
    s.store (bufferAddr i + o) c = s.setData i (Function.update (s.cache.bh i).bData o c) := by
  unfold store
  rw [holder_at hn hi ho]
  dsimp only
  rw [Nat.add_sub_cancel_left]

theorem copyOut_eq (hn : s.cache.nrBuffers ≤ maxBuffers) (hi : i < s.cache.nrBuffers) (ho : o + n ≤ 1024) :
    s.copyOut n (bufferAddr i + o) buf user = patch (block (fun k => (s.cache.bh i).bData (o + k)) buf n) user := by
  induction n generalizing o buf user with
  | zero =>
    rw [patch_block_zero]
    rfl
  | succ n ih =>
    unfold copyOut
    have hsrc : (fun k => (s.cache.bh i).bData (o + 1 + k)) = fun k => (s.cache.bh i).bData (o + (k + 1)) := by
      funext k
      rw [Nat.add_assoc, Nat.add_comm 1 k]
    rw [load_at hn hi (by omega), Nat.add_assoc, ih (by omega), hsrc]
    exact @patch_block_succ user buf (fun k => (s.cache.bh i).bData (o + k)) n

theorem copyIn_eq (hn : s.cache.nrBuffers ≤ maxBuffers) (hi : i < s.cache.nrBuffers) (ho : o + n ≤ 1024) :
    copyIn user n (bufferAddr i + o) buf s =
      s.setData i (patch (block (fun k => user (buf + k)) o n) (s.cache.bh i).bData) := by
  induction n generalizing o buf s with
  | zero =>
    rw [patch_block_zero]
    unfold copyIn setData SyncSys.setBh
    rw [Function.update_eq_self]
  | succ n ih =>
    unfold copyIn
    have hdata : ((s.setData i (Function.update (s.cache.bh i).bData o (user buf))).cache.bh i).bData =
        Function.update (s.cache.bh i).bData o (user buf) := by
      rw [setData_bh, if_pos rfl]
    have hsrc : (fun k => user (buf + 1 + k)) = fun k => user (buf + (k + 1)) := by
      funext k
      rw [Nat.add_assoc, Nat.add_comm 1 k]
    have hrest := @ih (s.setData i (Function.update (s.cache.bh i).bData o (user buf))) (o + 1) (buf + 1) hn hi (by omega)
    rw [store_at hn hi (by omega), Nat.add_assoc, hrest, setData_setData, hdata, hsrc]
    congr 1
    exact @patch_block_succ (s.cache.bh i).bData o (fun k => user (buf + k)) n

end RawSys

namespace Raw

/-- The call is made with two `int`, and the fields `b_dev` and `b_blocknr` are shorts: no buffer is found for a number from 65536
on, and the one that is taken for it gets what is left of the number. -/
def getblk (s : SyncSys) (dev block : Nat) : Option (SyncSys × Nat) :=
  match s.findBuffer dev block with
  | some i => some (s.setBh i { s.bh i with bCount := uchar ((s.bh i).bCount + 1) }, i)
  | none =>
    match s.scanFree with
    | none => none
    | some tmp => s.reuse tmp (ushort dev) (ushort block)

def bread (s : SyncSys) (dev block : Nat) : Option (SyncSys × Option Nat) :=
  (getblk s dev block).bind fun (s, i) => s.readIn i

end Raw

namespace SyncSys

/-- A buffer has been read from the disk, and the fields are shorts. -/
structure Tagged (s : SyncSys) : Prop where
  served : ∀ i, (s.bh i).bDev ≠ 0 → (s.bh i).bUptodate = true → s.OnDisk (s.bh i).bDev (s.bh i).bBlocknr
  short : ∀ i, (s.bh i).bBlocknr < 65536

/-- The cache between two calls: no count is about to overflow. -/
structure Steady (s : SyncSys) : Prop extends Coherent s, Listed s, Tagged s where
  counts : ∀ i, (s.bh i).bCount < 255
  room : s.nrBuffers ≤ maxBuffers

/-- The buffers keep their blocks, and only a block on the disk is read or written. -/
structure Serves (s s' : SyncSys) : Prop where
  hd : s'.hd = s.hd
  nrBuffers : s'.nrBuffers = s.nrBuffers
  dev : ∀ i, (s'.bh i).bDev = (s.bh i).bDev
  blocknr : ∀ i, (s'.bh i).bBlocknr = (s.bh i).bBlocknr
  uptodate : ∀ i, (s'.bh i).bUptodate = true → (s.bh i).bUptodate = true ∨ s.OnDisk (s.bh i).bDev (s.bh i).bBlocknr

variable {s s' t : SyncSys} {i j n dev block tmp : Nat} {read : Bool} {p : SyncBuffer → Bool} {v : Nat → UInt8} {r : Option Nat}

theorem Serves.refl (s : SyncSys) : Serves s s := ⟨rfl, rfl, fun _ => rfl, fun _ => rfl, fun _ hi => .inl hi⟩

theorem Serves.trans (h : Serves s t) (h' : Serves t s') : Serves s s' := by
  refine ⟨h'.hd.trans h.hd, h'.nrBuffers.trans h.nrBuffers, fun i => (h'.dev i).trans (h.dev i),
    fun i => (h'.blocknr i).trans (h.blocknr i), fun i hi => ?_⟩
  rcases h'.uptodate i hi with hup | hon
  · exact h.uptodate i hup
  · rw [OnDisk.congr h.hd, h.dev, h.blocknr] at hon
    exact .inr hon

theorem Recounted.serves (h : Recounted s s') : Serves s s' :=
  ⟨h.hd, h.nrBuffers, h.dev, h.blocknr, fun i hi => .inl ((h.uptodate i).symm.trans hi)⟩

theorem Tagged.serves (h : s.Tagged) (hs : Serves s s') : s'.Tagged := by
  refine ⟨fun i hdev hup => ?_, fun i => ?_⟩
  · rw [OnDisk.congr hs.hd, hs.dev, hs.blocknr]
    rw [hs.dev] at hdev
    rcases hs.uptodate i hup with hup | hon
    · exact h.served i hdev hup
    · exact hon
  · rw [hs.blocknr]
    exact h.short i

theorem llRwBlock_serves (h : s.llRwBlock read i = some s') : Serves s s' := by
  unfold llRwBlock at h
  split at h
  next => cases h
  next =>
    split at h
    next hon =>
      cases h
      have hbh : ∀ j, ((s.transfer read i).bh j).bDev = (s.bh j).bDev ∧ ((s.transfer read i).bh j).bBlocknr = (s.bh j).bBlocknr ∧
          (((s.transfer read i).bh j).bUptodate = true → (s.bh j).bUptodate = true ∨ j = i) := by
        intro j
        by_cases hj : j = i
        · subst hj
          cases read with
          | true => simp [transfer, setBh]
          | false => simp [transfer, setBh]
        · cases read with
          | true => simp [transfer, setBh, hj]
          | false => simp [transfer, setBh, hj]
      refine ⟨?_, ?_, fun j => (hbh j).1, fun j => (hbh j).2.1, fun j hj => ?_⟩
      · cases read with
        | true => rfl
        | false => rfl
      · cases read with
        | true => rfl
        | false => rfl
      · rcases (hbh j).2.2 hj with hup | rfl
        · exact .inl hup
        · exact .inr hon
    next =>
      cases h
      exact .refl s

theorem writeDirty_serves (h : writeDirty p n s = some s') : Serves s s' := by
  induction n generalizing s' with
  | zero =>
    cases h
    exact .refl s
  | succ n ih =>
    obtain ⟨t, ht, hlast⟩ := Option.bind_eq_some_iff.mp h
    have hfirst := ih ht
    split at hlast
    next => exact hfirst.trans (llRwBlock_serves hlast)
    next =>
      cases hlast
      exact hfirst

theorem Tagged.renamed {l : List Nat} (h : s.Tagged) (hblock : block < 65536) : (s.renamed i dev block l).Tagged := by
  refine ⟨fun j hdev hup => ?_, fun j => ?_⟩
  · rw [renamed_bh] at hdev hup ⊢
    split at hup
    next => cases hup
    next hji =>
      rw [if_neg hji] at hdev ⊢
      exact h.served j hdev hup
  · rw [renamed_bh]
    split
    next => exact hblock
    next => exact h.short j

/-- Whatever block the buffer is taken for, it stands for the block with that number. -/
theorem Tagged.reuse (h : s.Tagged) (hblock : block < 65536) (hr : s.reuse tmp dev block = some (s', i)) :
    s'.Tagged ∧ s'.hd = s.hd ∧ (s'.bh i).bDev = dev ∧ (s'.bh i).bBlocknr = block := by
  have hc := recounted s tmp (uchar ((s.bh tmp).bCount + 1)) (s.freeList.erase tmp)
  obtain ⟨t, ht, heq⟩ := Option.map_eq_some_iff.mp hr
  change (if ((s.recount tmp (uchar ((s.bh tmp).bCount + 1)) (s.freeList.erase tmp)).bh tmp).bDirt then
    (s.recount tmp (uchar ((s.bh tmp).bCount + 1)) (s.freeList.erase tmp)).syncDev
      ((s.recount tmp (uchar ((s.bh tmp).bCount + 1)) (s.freeList.erase tmp)).bh tmp).bDev
    else some (s.recount tmp (uchar ((s.bh tmp).bCount + 1)) (s.freeList.erase tmp))) = some t at ht
  generalize s.recount tmp (uchar ((s.bh tmp).bCount + 1)) (s.freeList.erase tmp) = u at hc ht
  have hserves : Serves u t := by
    split at ht
    next => exact writeDirty_serves ht
    next =>
      cases ht
      exact .refl _
  cases heq
  refine ⟨(h.serves (hc.serves.trans hserves)).renamed hblock, hserves.hd.trans hc.hd, ?_, ?_⟩
  · rw [renamed_bh, if_pos rfl]
  · rw [renamed_bh, if_pos rfl]

/-- What `bread` leaves, with a buffer or without. -/
theorem readIn_serves (hr : s.readIn i = some (s', r)) :
    Serves s s' ∧ (r = some i ∧ (s'.bh i).bUptodate = true ∨ r = none ∧ ¬ s.OnDisk (s.bh i).bDev (s.bh i).bBlocknr) := by
  unfold SyncSys.readIn at hr
  split at hr
  next hup =>
    cases hr
    exact ⟨.refl s, .inl ⟨rfl, hup⟩⟩
  next hup =>
    obtain ⟨t, ht, hr⟩ := Option.bind_eq_some_iff.mp hr
    have hserves := llRwBlock_serves ht
    split at hr
    next hup' =>
      cases hr
      exact ⟨hserves, .inl ⟨rfl, hup'⟩⟩
    next hup' =>
      obtain ⟨u, hu, heq⟩ := Option.map_eq_some_iff.mp hr
      cases heq
      have hrel : Serves t s' := by
        unfold brelse at hu
        split at hu
        next => cases hu
        next =>
          cases hu
          exact (recounted t i ((t.bh i).bCount - 1) t.freeList).serves
      refine ⟨hserves.trans hrel, .inr ⟨rfl, fun hon => ?_⟩⟩
      unfold llRwBlock at ht
      rw [if_neg (not_not_intro hon.1), if_pos hon] at ht
      cases ht
      simp [transfer, setBh] at hup'

theorem Tagged.getblk (h : s.Tagged) (hd : dev < 65536) (hget : Raw.getblk s dev block = some (s', i)) :
    s'.Tagged ∧ s'.hd = s.hd ∧ (s'.bh i).bDev = dev ∧ (s'.bh i).bBlocknr = ushort block := by
  unfold Raw.getblk at hget
  split at hget
  next j hfind =>
    cases hget
    have hc := recounted s i (uchar ((s.bh i).bCount + 1)) s.freeList
    obtain ⟨_, hjd, hjb⟩ := findBuffer_some hfind
    have hlt := h.short i
    rw [hjb] at hlt
    refine ⟨h.serves hc.serves, rfl, (hc.dev i).trans hjd, ?_⟩
    rw [ushort, Nat.mod_eq_of_lt hlt]
    exact (hc.blocknr i).trans hjb
  next =>
    split at hget
    next => cases hget
    next tmp _ =>
      obtain ⟨ht, hhd, htd, htb⟩ := h.reuse (Nat.mod_lt _ (by omega)) hget
      refine ⟨ht, hhd, ?_, htb⟩
      rw [htd, ushort, Nat.mod_eq_of_lt hd]

/-- The buffer that `bread` returns stands for what is left of the block number, and only a block on the disk gets one. -/
theorem Tagged.bread (h : s.Tagged) (hdev : dev ≠ 0) (hd : dev < 65536) (hr : Raw.bread s dev block = some (s', r)) :
    s'.Tagged ∧ s'.hd = s.hd ∧ (∀ i, r = some i → (s'.bh i).bBlocknr = ushort block ∧ s.OnDisk dev (ushort block)) ∧
      (r = none → ¬ s.OnDisk dev (ushort block)) := by
  obtain ⟨⟨t, i⟩, hget, hread⟩ := Option.bind_eq_some_iff.mp hr
  obtain ⟨htag, hhd, htd, htb⟩ := h.getblk hd hget
  obtain ⟨hserves, hend⟩ := readIn_serves hread
  have htag' := htag.serves hserves
  refine ⟨htag', hserves.hd.trans hhd, fun j hj => ?_, fun hnone => ?_⟩
  · rcases hend with ⟨hi, hup⟩ | ⟨hi, _⟩
    · rw [hi] at hj
      cases hj
      have hon := htag'.served i (by rw [hserves.dev, htd]; exact hdev) hup
      rw [hserves.dev, hserves.blocknr, htd, htb, OnDisk.congr (hserves.hd.trans hhd)] at hon
      exact ⟨(hserves.blocknr i).trans htb, hon⟩
    · rw [hi] at hj
      cases hj
  · rcases hend with ⟨hi, _⟩ | ⟨_, hoff⟩
    · rw [hi] at hnone
      cases hnone
    · rw [htd, htb, OnDisk.congr hhd] at hoff
      exact hoff

/-- The block gets a buffer, unless it is on the disk under another number. -/
theorem Steady.getblk (h : s.Steady) (hd : dev < 65536) (hb : s.OnDisk dev (ushort block) → block < 65536) :
    ∃ s' i, Raw.getblk s dev block = some (s', i) ∧ s'.Coherent ∧ s'.Listed ∧ Keeps s s' ∧ s'.Of i dev (ushort block) ∧
      ∀ j, (s'.bh j).bCount = if j = i then (s.bh i).bCount + 1 else (s.bh j).bCount := by
  have hcount : ∀ i, uchar ((s.bh i).bCount + 1) = (s.bh i).bCount + 1 := by
    intro i
    have := h.counts i
    rw [uchar, Nat.mod_eq_of_lt (by omega)]
  unfold Raw.getblk
  cases hfind : s.findBuffer dev block with
  | some i =>
    have hof := findBuffer_some hfind
    have hlt := h.short i
    rw [hof.2.2] at hlt
    obtain ⟨s', hs', hrest⟩ := h.toCoherent.found h.toListed hof
    rw [hcount] at hrest
    refine ⟨s', i, hs', ?_⟩
    rw [ushort, Nat.mod_eq_of_lt hlt]
    exact hrest
  | none =>
    obtain ⟨tmp, hscan, hlt⟩ := h.toListed.scanFree
    rw [hscan]
    dsimp only
    rw [show ushort dev = dev from Nat.mod_eq_of_lt hd]
    have hno : s.OnDisk dev (ushort block) → ∀ j, ¬ s.Of j dev (ushort block) := by
      intro hon j
      rw [ushort, Nat.mod_eq_of_lt (hb hon)]
      exact findBuffer_none hfind
    obtain ⟨s', hs', hrest⟩ := h.toCoherent.reuse h.toListed hlt hno
    rw [hcount] at hrest
    exact ⟨s', tmp, hs', hrest⟩

/-- A block that is on the disk is delivered. -/
theorem Steady.bread (h : s.Steady) (hon : s.OnDisk dev block) (hb : block < 65536) (hv : s.Contents dev block v) :
    ∃ s' i, Raw.bread s dev block = some (s', some i) ∧ s'.Coherent ∧ s'.Listed ∧ Keeps s s' ∧ s'.Of i dev block ∧
      (s'.bh i).bUptodate = true ∧ (s'.bh i).bData = v ∧ s'.Tagged ∧
      ∀ j, (s'.bh j).bCount = if j = i then (s.bh i).bCount + 1 else (s.bh j).bCount := by
  have hd : dev < 65536 := by
    have := hon.1
    omega
  have hsame : ushort block = block := Nat.mod_eq_of_lt hb
  obtain ⟨t, i, hget, ht, hlist, hkeeps, hof, hcount⟩ := @Steady.getblk s dev block h hd fun _ => hb
  rw [hsame] at hof
  obtain ⟨u, hread, hu, hlist', hkeeps', hof', hup, hdata, hcount'⟩ := ht.readIn hlist hof ((OnDisk.congr hkeeps.hd).mpr hon)
    (hkeeps.contents dev block v hon hv)
  have hbread : Raw.bread s dev block = some (u, some i) := by
    unfold Raw.bread
    rw [hget, Option.bind_some]
    exact hread
  have htag := (h.toTagged.bread hon.dev_ne hd hbread).1
  exact ⟨u, i, hbread, hu, hlist', hkeeps.trans hkeeps', hof', hup, hdata, htag, fun j => (hcount' j).trans (hcount j)⟩

/-- For a block past the end of the disk `rw_hd` returns at once, and nothing changes. -/
theorem Steady.bread_absent (h : s.Steady) (hdev : dev / 256 = 3) (hoff : ¬ s.OnDisk dev (ushort block)) :
    ∃ s', Raw.bread s dev block = some (s', none) ∧ s'.Steady ∧ Keeps s s' := by
  have hd : dev < 65536 := by omega
  obtain ⟨t, i, hget, ht, hlist, hkeeps, ⟨hi, hid, hib⟩, hcount⟩ := @Steady.getblk s dev block h hd fun hon => absurd hon hoff
  have htag := (h.toTagged.getblk hd hget).1
  have hoff' : ¬ t.OnDisk (t.bh i).bDev (t.bh i).bBlocknr := by
    rw [hid, hib, OnDisk.congr hkeeps.hd]
    exact hoff
  have hup : ¬ (t.bh i).bUptodate = true := by
    intro hup
    exact hoff' (htag.served i (by omega) hup)
  have hone : (t.bh i).bCount = (s.bh i).bCount + 1 := by rw [hcount, if_pos rfl]
  have hr := recounted t i ((t.bh i).bCount - 1) t.freeList
  refine ⟨t.recount i ((t.bh i).bCount - 1) t.freeList, ?_, ⟨hr.coherent ht, ⟨?_, ?_, ?_⟩, htag.serves hr.serves, fun j => ?_, ?_⟩,
    hkeeps.trans hr.keeps⟩
  · unfold Raw.bread
    rw [hget, Option.bind_some]
    dsimp only
    unfold SyncSys.readIn llRwBlock
    rw [if_neg hup, if_neg (by rw [hid]; omega), if_neg hoff', Option.bind_some, if_neg hup]
    unfold brelse
    rw [if_neg (by omega)]
    rfl
  · exact hlist.pos
  · exact hlist.mem
  · exact hlist.distinct
  · rw [recount_bh]
    have := h.counts j
    split
    next hj =>
      dsimp only
      rw [hone, Nat.add_sub_cancel, ← hj]
      exact this
    next hj =>
      rw [hcount, if_neg hj]
      exact this
  · rw [hr.nrBuffers, hkeeps.nrBuffers]
    exact h.room

end SyncSys

end RheeKernel
