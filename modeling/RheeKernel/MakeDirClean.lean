import RheeKernel.MakeDir
import Mathlib.Tactic.IntervalCases

namespace RheeKernel

namespace DirFs

/-- A device on which `sys_mkdir` may be called: no zone has two owners, free inodes have no zones, and `dir_namei` has found
a directory that is in use and has links. -/
structure Ready (s : DirFs) (c : MkdirCall) : Prop where
  sound : s.files.zones.Sound
  dev : s.dev ≠ 0
  reserved : s.imap 0 = true
  free : ∀ i, s.imap i = false → ∀ k, (s.files.zones.inode i).zone k = 0
  dir : ∀ i, c.dir = some i →
    0 < (s.info i).count ∧ (s.info i).nlinks ≠ 0 ∧ s.imap i = true ∧ 1 ≤ i ∧ i ≤ s.ninodes ∧ s.inMap i = true

/-- Nothing is left of a call: the inode bitmap and the bits of all zones are as before, and so are the bytes, the sizes and the
link counts of all inodes that were in use. -/
structure Restored (s s' : DirFs) : Prop where
  imap : s'.imap = s.imap
  zones : ∀ z < s.files.zones.dev.nzones, s'.files.zones.dev.Marked z ↔ s.files.zones.dev.Marked z
  byte : ∀ i, s.imap i = true → ∀ o, s'.files.byte i o = s.files.byte i o
  size : ∀ i, s.imap i = true → s'.files.size i = s.files.size i
  links : ∀ i, s.imap i = true → (s'.info i).nlinks = (s.info i).nlinks

/-- A call comes back, and if it has failed, nothing is left of it. -/
def Clean (s : DirFs) (r : Option (Int × DirFs)) : Prop := ∃ ret s', r = some (ret, s') ∧ (ret < 0 → s.Restored s')

/-- The call gets as far as the search for the name, in directory `dir`. -/
def Searches (s : DirFs) (c : MkdirCall) (dir : Nat) : Prop :=
  (c.cred.euid = 0 ∨ c.cred.uid = 0) ∧ c.dir = some dir ∧ c.name ≠ [] ∧ permission c.cred (s.view dir) mayWrite ≠ 0

/-- There is a free inode number. -/
def HasNumber (s : DirFs) : Prop := ∃ i ≤ s.ninodes, s.inMap i = true ∧ s.imap i = false

/-- All entries of the directory up to a block that is not there are in use, and that block cannot be had once a zone has been
taken for the new directory. -/
def NoPlace (s : DirFs) (dir : Nat) : Prop :=
  ∃ q, (∀ j < dirEntriesPerBlock * q, s.files.Used dir j) ∧ s.files.zones.zoneNr dir (blockPos q) = 0 ∧
    (q = 0 ∨ maxFileBlocks ≤ q ∨ s.files.zones.dev.freeZones ≤ s.files.zones.missing dir q)

/-- The call does not come upon a full directory with an inode and a block in its hands. -/
def StaysClear (s : DirFs) (c : MkdirCall) : Prop :=
  ∀ dir, s.Searches c dir → (∃ f, s.files.find dir c.name = .ok f) ∧
    (s.files.find dir c.name = .ok none → c.slot = true ∧
      ¬ (s.HasNumber ∧ 0 < s.files.zones.dev.freeZones ∧ c.readable = true ∧ s.NoPlace dir))

variable {s s' t : DirFs} {c : MkdirCall} {d d' : Device} {ip : ZoneInode} {i j k m n z dir : Nat} {ret : Int} {f : InodeInfo → InodeInfo}

theorem setInfo_self : (s.setInfo i f).info i = f (s.info i) := Function.update_self ..

theorem setInfo_other (h : j ≠ i) : (s.setInfo i f).info j = s.info j := Function.update_of_ne h ..

/-- An inode with links, or with another user, only loses a reference. -/
theorem iput_kept (hcount : 0 < (s.info i).count) (h : 1 < (s.info i).count ∨ (s.info i).nlinks ≠ 0) :
    s.iput i = some (s.setInfo i fun ip => { ip with count := ip.count - 1 }) := by
  unfold iput
  rw [if_neg (by omega)]
  by_cases hmore : s.dev = 0 ∨ 1 < (s.info i).count
  · rw [if_pos hmore]
  · rw [if_neg hmore, if_neg (by omega)]

/-- The last reference to an inode without links goes, and the inode holds nothing that `truncate` frees. -/
theorem iput_freed (hdev : s.dev ≠ 0) (hcount : (s.info i).count = 1) (hlinks : (s.info i).nlinks = 0)
    (hmode : (s.info i).mode = 0) (hpos : 1 ≤ i) (hmax : i ≤ s.ninodes) (hin : s.inMap i = true) (hset : s.imap i = true) :
    s.iput i = some ((s.setMap i false).reset i {}) := by
  have hkind : (s.view i).isReg = false ∧ (s.view i).isDir = false := by
    unfold FileInode.isReg FileInode.isDir view
    dsimp only
    rw [hmode]
    decide
  unfold iput
  rw [if_neg (by omega), if_neg (by omega), if_pos hlinks]
  unfold truncate
  rw [if_pos hkind, Option.bind_some]
  unfold freeInode
  rw [if_neg hdev, if_neg (by omega), if_neg (by omega), hin, hset, if_neg (by simp)]

/-- The inode that `new_inode` has set up. -/
def started (s : DirFs) (i : Nat) : DirFs := (s.setMap i true).reset i { nlinks := 1, count := 1 }

/-- The first clear bit of the inode bitmap, if it is there, is the number of the new inode. -/
theorem newInode_cases (h0 : s.imap 0 = true) : (¬ s.HasNumber ∧ s.newInode true = some (s, none)) ∨
    (s.HasNumber ∧ ∃ i, 1 ≤ i ∧ i ≤ s.ninodes ∧ s.inMap i = true ∧ s.imap i = false ∧
      s.newInode true = some (s.started i, some i)) := by
  unfold newInode HasNumber
  rw [if_neg (by simp)]
  cases hscan : s.imapScan with
  | none =>
    refine .inl ⟨fun ⟨i, _, hin, hclear⟩ => ?_, rfl⟩
    have hin' : i / 8192 < min 8 s.imapBlocks := of_decide_eq_true hin
    have hset := zmapScan_none (m := i) hscan (Nat.zero_le _) (by unfold zmapBits zmapSlots; omega) (by unfold zmapBits; dsimp only; omega)
    dsimp only at hset
    rw [hclear] at hset
    cases hset
  | some r =>
    obtain ⟨a, j⟩ := r
    obtain ⟨⟨_, ha, hab, hj⟩, hclear, hbefore⟩ := zmapScan_some hscan
    dsimp only at hclear hbefore hab
    rw [Nat.mul_comm zmapBits a, Nat.add_comm] at hclear
    rw [Nat.mul_comm zmapBits a, Nat.add_comm] at hbefore
    unfold zmapBits zmapSlots at *
    dsimp only
    by_cases hmax : s.ninodes < j + a * 8192
    · rw [if_pos hmax]
      refine .inl ⟨fun ⟨i, hi, _, hfree⟩ => ?_, rfl⟩
      rw [hbefore i (by omega) (by omega)] at hfree
      cases hfree
    · rw [if_neg hmax]
      have hin : s.inMap (j + a * 8192) = true := by
        refine decide_eq_true ?_
        omega
      refine .inr ⟨⟨_, by omega, hin, hclear⟩, _, ?_, by omega, hin, hclear, rfl⟩
      by_contra hzero
      rw [show j + a * 8192 = 0 by omega, h0] at hclear
      cases hclear

/-- The bytes of an inode depend on its zones and on the blocks. -/
theorem byte_congr (t t' : ZoneFs) (hword : t'.dev.word = t.dev.word) (hinode : t'.inode j = t.inode j) (o : Nat) :
    t'.byte j o = t.byte j o := by
  have hentry : ∀ b k, tableEntry t'.dev b k = tableEntry t.dev b k := by
    intro b k
    unfold tableEntry
    rw [hword]
  have hnr : ∀ p, t'.zoneNr j p = t.zoneNr j p := by
    intro p
    unfold ZoneFs.zoneNr zoneAt
    rw [hinode]
    cases p with
    | zone k => rfl
    | ind k => exact hentry _ _
    | dind k => exact hentry _ _
    | leaf k l =>
      dsimp only
      rw [hentry, hentry]
  unfold ZoneFs.byte Device.byteAt
  rw [hnr, hword]

theorem Restored.refl : s.Restored s := ⟨rfl, fun _ _ => Iff.rfl, fun _ _ _ => rfl, fun _ _ => rfl, fun _ _ => rfl⟩

/-- A reference to an inode is no part of what is restored. -/
theorem Restored.release (h : s.Restored t) : s.Restored (t.setInfo i fun ip => { ip with count := ip.count - 1 }) := by
  refine ⟨h.imap, h.zones, h.byte, h.size, fun j hj => ?_⟩
  by_cases hji : j = i
  · rw [hji, setInfo_self, ← hji]
    exact h.links j hj
  · rw [setInfo_other hji]
    exact h.links j hj

theorem leave_clean (h : s.Ready c) (hdir : c.dir = some dir) : s.Clean (s.leave dir ret) := by
  obtain ⟨hcount, hlinks, _⟩ := h.dir dir hdir
  unfold leave
  rw [iput_kept hcount (.inr hlinks)]
  exact ⟨ret, _, rfl, fun _ => Restored.refl.release⟩

/-- Inode `i` has been taken, has got no mode yet and is all that has changed. -/
structure Taken (s u : DirFs) (i : Nat) : Prop where
  dev : u.dev = s.dev
  ninodes : u.ninodes = s.ninodes
  blocks : u.imapBlocks = s.imapBlocks
  imap : u.imap = Function.update s.imap i true
  self : u.info i = { nlinks := 1, count := 1 }
  info : ∀ j, j ≠ i → (u.info j).nlinks = (s.info j).nlinks ∧ (u.info j).count ≤ (s.info j).count
  size : ∀ j, j ≠ i → u.files.size j = s.files.size j
  byte : ∀ j, j ≠ i → ∀ o, u.files.byte j o = s.files.byte j o
  zones : ∀ z < s.files.zones.dev.nzones, u.files.zones.dev.Marked z ↔ s.files.zones.dev.Marked z

/-- The inode is given back by `iput`, which has nothing to truncate. -/
theorem Taken.giveUp (h : s.Taken t i) (hdev : s.dev ≠ 0) (hpos : 1 ≤ i) (hmax : i ≤ s.ninodes) (hin : s.inMap i = true)
    (hclear : s.imap i = false) : ∃ u, t.giveUp i (((t.info i).nlinks + 255) % 256) = some u ∧ s.Restored u := by
  unfold DirFs.giveUp
  rw [h.self]
  have hself : (t.setLinks i ((1 + 255) % 256)).info i = { nlinks := 0, count := 1 } := by
    refine setInfo_self.trans ?_
    rw [h.self]
  have hin' : (t.setLinks i ((1 + 255) % 256)).inMap i = true := by
    unfold inMap setLinks setInfo
    dsimp only
    rw [h.blocks]
    exact hin
  have hset : (t.setLinks i ((1 + 255) % 256)).imap i = true := by
    change t.imap i = true
    rw [h.imap, Function.update_self]
  have hiput := @iput_freed (t.setLinks i ((1 + 255) % 256)) i (by rw [← h.dev] at hdev; exact hdev) (by rw [hself]) (by rw [hself])
    (by rw [hself]) hpos (by rw [← h.ninodes] at hmax; exact hmax) hin' hset
  refine ⟨_, hiput, ?_, h.zones, fun j hj o => ?_, fun j hj => ?_, fun j hj => ?_⟩
  · change Function.update t.imap i false = s.imap
    rw [h.imap, Function.update_idem, ← hclear, Function.update_eq_self]
  all_goals
    have hji : j ≠ i := by
      intro hji
      rw [hji, hclear] at hj
      cases hj
  · refine Eq.trans ?_ (h.byte j hji o)
    refine byte_congr _ _ ?_ ?_ o
    · rfl
    · exact Function.update_of_ne hji _ _
  · refine Eq.trans ?_ (h.size j hji)
    exact Function.update_of_ne hji _ _
  · refine Eq.trans ?_ (h.info j hji).1
    refine congrArg InodeInfo.nlinks ((Function.update_of_ne hji _ _).trans ?_)
    exact Function.update_of_ne hji _ _

theorem started_zones (hfree : ∀ k, (s.files.zones.inode i).zone k = 0) : (s.started i).files.zones = s.files.zones := by
  have hzero : (⟨fun _ => 0⟩ : ZoneInode) = s.files.zones.inode i := congrArg ZoneInode.mk (funext fun k => (hfree k).symm)
  change (⟨s.files.zones.dev, Function.update s.files.zones.inode i ⟨fun _ => 0⟩⟩ : ZoneFs) = s.files.zones
  rw [hzero, Function.update_eq_self]

/-- `new_block` for `i_zone[0]` is `create_block` of block 0. -/
theorem createBlock_first (hzero : ip.zone 0 = 0) :
    createBlock d ip (0 : Nat) = (newBlock d []).map fun (d', z) => (d', ⟨Function.update ip.zone 0 z⟩, z) := by
  rw [createBlock_eq (by decide)]
  change fillInode d ip true 0 = _
  unfold fillInode
  rw [hzero, fillZone_zero]

theorem newBlock_filled (h : s.files.zones.Sound) (hfree : ∀ k, (s.files.zones.inode i).zone k = 0)
    (hnew : newBlock s.files.zones.dev [] = some (d, z)) :
    PathFilled s.files.zones ⟨d, Function.update s.files.zones.inode i ⟨Function.update (s.files.zones.inode i).zone 0 z⟩⟩ i
      (zonePath 0) (blockPos 0) z ∧ (z ≠ 0 → d.freeZones + 1 = s.files.zones.dev.freeZones) := by
  have hcreate := @createBlock_first s.files.zones.dev (s.files.zones.inode i) (hfree 0)
  rw [hnew, Option.map_some] at hcreate
  dsimp only at hcreate
  obtain ⟨d', ip', r, hcreate', hspec⟩ := @ZoneFs.Sound.createBlock s.files.zones i 0 h (by decide)
  rw [hcreate] at hcreate'
  cases hcreate'
  refine ⟨hspec, fun hz => ?_⟩
  have hneeds := (h.createBlock_needs (k := 0) (by decide) hcreate hz).1
  have hmissing : s.files.zones.missing i 0 = 1 := by
    have hnr : s.files.zones.zoneNr i (.zone 0) = 0 := hfree 0
    unfold ZoneFs.missing zonePath
    rw [if_pos (by decide), missingOf_cons, if_pos hnr]
    rfl
  rw [hmissing] at hneeds
  exact hneeds

/-- The inode has been taken and the directory let go, and a device is there that shows the other inodes as before. -/
theorem taken_begun (hne : dir ≠ i) (hword : ∀ j, j ≠ i → ∀ o, ZoneFs.byte ⟨d', s.files.zones.inode⟩ j o = s.files.byte j o)
    (hmarked : ∀ z < s.files.zones.dev.nzones, d'.Marked z ↔ s.files.zones.dev.Marked z) :
    s.Taken ((((s.started i).firstBlock i d z).setInfo dir fun ip => { ip with count := ip.count - 1 }).setDevice d') i := by
  refine ⟨rfl, rfl, rfl, rfl, ?_, fun j hj => ?_, fun j hj => ?_, fun j hj o => ?_, hmarked⟩
  · exact (Function.update_of_ne (Ne.symm hne) _ _).trans (Function.update_self ..)
  · have hinfo : ((s.started i).firstBlock i d z).info j = s.info j := Function.update_of_ne hj _ _
    by_cases hjd : j = dir
    · have hself : (((s.started i).firstBlock i d z).setInfo dir fun ip => { ip with count := ip.count - 1 }).info j =
          { s.info j with count := (s.info j).count - 1 } := by
        rw [hjd, setInfo_self, ← hjd, hinfo]
      change ((((s.started i).firstBlock i d z).setInfo dir fun ip => { ip with count := ip.count - 1 }).info j).nlinks = _ ∧
        ((((s.started i).firstBlock i d z).setInfo dir fun ip => { ip with count := ip.count - 1 }).info j).count ≤ _
      rw [hself]
      exact ⟨rfl, Nat.sub_le _ _⟩
    · have hother := (setInfo_other (f := fun ip => { ip with count := ip.count - 1 }) hjd).trans hinfo
      exact ⟨congrArg InodeInfo.nlinks hother, Nat.le_of_eq (congrArg InodeInfo.count hother)⟩
  · exact (Function.update_of_ne hj _ _).trans (Function.update_of_ne hj _ _)
  · refine Eq.trans ?_ (hword j hj o)
    refine byte_congr _ _ ?_ ?_ o
    · rfl
    · exact (Function.update_of_ne hj _ _).trans (Function.update_of_ne hj _ _)

/-- The block of the new directory goes back to the bitmap as it came from it. -/
theorem freeBlock_new (hf : 0 < d.firstdatazone) (hz : d.firstdatazone ≤ z ∧ z < d.nzones) (hbits : z + 1 - d.firstdatazone < d.bits)
    (hclear : d.zmap (z + 1 - d.firstdatazone) = false) :
    ∃ d', freeBlock ((d.setBit (z + 1 - d.firstdatazone)).clearBlock z) [] z = some d' ∧
      d'.word = (d.clearBlock z).word ∧ ∀ y, d'.Marked y ↔ d.Marked y := by
  refine ⟨{ d.clearBlock z with zmap := d.zmap }, ?_, rfl, fun y => Iff.rfl⟩
  have hset : Function.update (Function.update d.zmap (z + 1 - d.firstdatazone) true) (z + 1 - d.firstdatazone) false = d.zmap := by
    rw [Function.update_idem, ← hclear, Function.update_eq_self]
  unfold freeBlock Device.setBit Device.clearBlock
  dsimp only
  rw [if_neg (by omega), if_neg (by simp), show z - (d.firstdatazone - 1) = z + 1 - d.firstdatazone by omega,
    if_pos ⟨hbits, Function.update_self ..⟩, hset]

/-- A block that has been freed cannot be freed again. -/
theorem freeBlock_twice (h : freeBlock d [] z = some d') : freeBlock d' [] z = none := by
  unfold freeBlock at h
  split at h
  next => cases h
  next hrange =>
    rw [if_neg (by simp)] at h
    dsimp only at h
    split at h
    next =>
      cases Option.some.inj h
      unfold freeBlock
      dsimp only
      rw [if_neg hrange, if_neg (by simp), if_neg]
      intro ⟨_, hset⟩
      rw [Function.update_self] at hset
      cases hset
    next => cases h

theorem truncateFile_none {f : FileSys} (hne : (f.zones.inode i).zone 0 ≠ 0)
    (hfree : freeBlock f.zones.dev [] ((f.zones.inode i).zone 0) = none) : truncateFile f i = none := by
  unfold truncateFile truncateZones
  rw [show List.range 7 = 0 :: [1, 2, 3, 4, 5, 6] from rfl, List.foldlM_cons, if_neg hne, hfree]
  rfl

/-- The mode of a new directory. -/
theorem dirMode_isDir {a b : BitVec 32} : BitVec.setWidth 32 ((ifdir ||| (a &&& 0o777 &&& b)).truncate 16) &&& ifmt = ifdir := by
  refine BitVec.eq_of_getLsbD_eq fun i hi => ?_
  simp only [BitVec.getLsbD_and, BitVec.getLsbD_or, BitVec.getLsbD_setWidth, BitVec.truncate_eq_setWidth]
  unfold ifdir ifmt
  interval_cases i <;> simp

/-- `iput` of a directory without links whose block has been freed already: the panic in `free_block`. -/
theorem giveUp_again {a b : BitVec 32} (hdev : s.dev ≠ 0) (hcount : (s.info i).count = 1)
    (hmode : (s.info i).mode = (ifdir ||| (a &&& 0o777 &&& b)).truncate 16) (hne : (s.files.zones.inode i).zone 0 ≠ 0)
    (hfree : freeBlock s.files.zones.dev [] ((s.files.zones.inode i).zone 0) = none) : s.giveUp i 0 = none := by
  have hself : (s.setLinks i 0).info i = { s.info i with nlinks := 0 } := setInfo_self
  have hcount' : ((s.setLinks i 0).info i).count = 1 := (congrArg InodeInfo.count hself).trans hcount
  have hlinks : ((s.setLinks i 0).info i).nlinks = 0 := congrArg InodeInfo.nlinks hself
  have hkind : ((s.setLinks i 0).view i).isDir = true := by
    unfold FileInode.isDir view
    dsimp only
    rw [congrArg InodeInfo.mode hself]
    dsimp only
    rw [hmode, dirMode_isDir]
    rfl
  have hlast : ¬ ((s.setLinks i 0).dev = 0 ∨ 1 < ((s.setLinks i 0).info i).count) := not_or.mpr ⟨hdev, by omega⟩
  unfold giveUp iput
  rw [if_neg (by omega), if_neg hlast, if_pos hlinks]
  unfold truncate
  have hnone : truncateFile (s.setLinks i 0).files i = none := truncateFile_none hne hfree
  rw [hkind, if_neg (by simp), hnone]
  rfl

/-- `f'` is `f` after stores to blocks of inode `i`. -/
structure Beside (f f' : FileSys) (i : Nat) : Prop where
  sound : f'.zones.Sound
  nr : ∀ j p, f'.zones.zoneNr j p = f.zones.zoneNr j p
  byte : ∀ j, j ≠ i → ∀ o, f'.byte j o = f.byte j o
  size : f'.size = f.size
  free : f'.zones.dev.freeZones = f.zones.dev.freeZones

theorem Beside.putBytes {f f' : FileSys} {q b o : Nat} {vs : List UInt8} (h : Beside f f' i) (hb : f.zones.zoneNr i (blockPos q) = b)
    (hne : b ≠ 0) : Beside f (f'.putBytes b o vs) i := by
  have hb' : f'.zones.zoneNr i (blockPos q) = b := (h.nr i _).trans hb
  obtain ⟨hsound, hnr⟩ := @FileSys.putBytes_sound f' i b q vs o h.sound hb' hne
  refine ⟨hsound, fun j p => (hnr j p).trans (h.nr j p), fun j hj l => ?_, h.size, ?_⟩
  · refine Eq.trans ?_ (h.byte j hj l)
    subst hb'
    exact (h.sound.store_byte hne).trans (if_neg fun hc => hj hc.1)
  · subst hb'
    exact (h.sound.store_needs (m := 0) (k := 0) (i := i) blockPos_isData hne).2.trans h.free

theorem fillDir_beside {mode : BitVec 32} (hsound : s.files.zones.Sound) (hz : s.files.zones.zoneNr i (blockPos 0) = z) (hne : z ≠ 0) :
    Beside s.files (s.fillDir i dir z mode).files i := by
  have hstart : Beside s.files s.files i := ⟨hsound, fun _ _ => rfl, fun _ _ _ => rfl, rfl, rfl⟩
  exact (((hstart.putBytes hz hne).putBytes hz hne).putBytes hz hne).putBytes hz hne

/-- The directory is full for the new entry exactly if it had no place before. -/
theorem full_iff_noPlace {f : FileSys} (hbyte : ∀ o, f.byte dir o = s.files.byte dir o) (hsize : f.size dir = s.files.size dir)
    (hnr : ∀ p, f.zones.zoneNr dir p = s.files.zones.zoneNr dir p) (hfree : f.zones.dev.freeZones + 1 = s.files.zones.dev.freeZones) :
    f.Full dir ↔ s.NoPlace dir := by
  have hused : ∀ j, f.Used dir j ↔ s.files.Used dir j := by
    intro j
    unfold FileSys.Used
    rw [hsize, FileSys.entry_congr fun c _ => hbyte _]
  have hmissing : ∀ q, f.zones.missing dir q = s.files.zones.missing dir q := by
    intro q
    unfold ZoneFs.missing missingOf
    simp only [hnr]
  have hfew : ∀ n, f.zones.dev.freeZones < n ↔ s.files.zones.dev.freeZones ≤ n := by
    intro n
    omega
  unfold FileSys.Full NoPlace
  simp only [hused, hnr, hmissing, hfew]

/-- `iput` of an inode in use comes back, whatever its link count is. -/
theorem iput_some (hsound : s.files.zones.Sound) (hcount : 0 < (s.info i).count) (hpos : 1 ≤ i) (hmax : i ≤ s.ninodes)
    (hin : s.inMap i = true) (hset : s.imap i = true) : ∃ u, s.iput i = some u ∧ ∀ j, j ≠ i → u.info j = s.info j := by
  by_cases hkept : 1 < (s.info i).count ∨ (s.info i).nlinks ≠ 0
  · exact ⟨_, iput_kept hcount hkept, fun j hj => setInfo_other hj⟩
  · rw [not_or, not_not] at hkept
    obtain ⟨hone, hlinks⟩ := hkept
    unfold iput
    rw [if_neg (by omega)]
    by_cases hdev : s.dev = 0 ∨ 1 < (s.info i).count
    · rw [if_pos hdev]
      exact ⟨_, rfl, fun j hj => setInfo_other hj⟩
    · rw [if_neg hdev, if_pos hlinks]
      rw [not_or] at hdev
      obtain ⟨files, htrunc⟩ : ∃ files, s.truncate i = some (s.setFiles files) := by
        unfold truncate
        split
        next => exact ⟨s.files, rfl⟩
        next =>
          obtain ⟨f, hf, _⟩ := @FileSys.truncate_spec s.files i hsound
          rw [hf]
          exact ⟨f, rfl⟩
      have hfree : (s.setFiles files).freeInode i = some (((s.setFiles files).setMap i false).reset i {}) := by
        have hlast : ¬ (1 < ((s.setFiles files).info i).count ∨ ((s.setFiles files).info i).nlinks ≠ 0) :=
          not_or.mpr ⟨hdev.2, not_not.mpr hlinks⟩
        have hrange : ¬ (i < 1 ∨ (s.setFiles files).ninodes < i) := not_or.mpr ⟨Nat.not_lt.mpr hpos, Nat.not_lt.mpr hmax⟩
        have hbit : ¬ ((s.setFiles files).inMap i = false ∨ (s.setFiles files).imap i = false) := by
          rw [show (s.setFiles files).inMap i = s.inMap i from rfl, show (s.setFiles files).imap i = s.imap i from rfl, hin, hset]
          simp
        have hdev' : (s.setFiles files).dev ≠ 0 := hdev.1
        unfold freeInode
        rw [if_neg hdev', if_neg hlast, if_neg hrange, if_neg hbit]
      rw [htrunc, Option.bind_some, hfree]
      exact ⟨_, rfl, fun j hj => Function.update_of_ne hj _ _⟩

/-- `add_entry` and what follows it: the call comes back unless the directory is full. -/
theorem enterDir_spec {a b : BitVec 32} {name : List UInt8} (hsound : s.files.zones.Sound) (hdev : s.dev ≠ 0) (hne : dir ≠ i)
    (hname : name ≠ []) (hdir : 0 < (s.info dir).count ∧ (s.info dir).nlinks ≠ 0)
    (huse : 1 ≤ dir ∧ dir ≤ s.ninodes ∧ s.inMap dir = true ∧ s.imap dir = true) (hcount : (s.info i).count = 1)
    (hlinks : (s.info i).nlinks = 2) (hmode : (s.info i).mode = (ifdir ||| (a &&& 0o777 &&& b)).truncate 16)
    (hz : (s.files.zones.inode i).zone 0 = z) (hz0 : z ≠ 0) :
    (s.files.Full dir → s.enterDir dir i z name = none) ∧ (¬ s.files.Full dir → ∃ u, s.enterDir dir i z name = some (0, u)) := by
  have htake : name.take nameLen ≠ [] := by
    unfold nameLen
    rw [Ne, List.take_eq_nil_iff]
    exact not_or.mpr ⟨by decide, hname⟩
  unfold enterDir
  rcases FileSys.addEntry_spec (i := dir) hsound htake with ⟨hfull, hnone | ⟨f, hnone, hkeep⟩⟩ | ⟨hroom, f, b, de, k, hsome, hadded⟩
  · rw [hnone]
    exact ⟨fun _ => rfl, fun hno => absurd hfull hno⟩
  · rw [hnone, Option.bind_some]
    refine ⟨fun _ => ?_, fun hno => absurd hfull hno⟩
    dsimp only
    have hiput : (s.setFiles f).iput dir = some ((s.setFiles f).setInfo dir fun ip => { ip with count := ip.count - 1 }) :=
      iput_kept hdir.1 (.inr hdir.2)
    rw [hiput, Option.bind_some]
    unfold freeZone
    -- The explicit `free_block` has cleared the bit that `truncate` is about to clear.
    have hzone : (f.zones.inode i).zone 0 = z := by
      have hold : s.files.zones.zoneNr i (.zone 0) = z := hz
      have hsame := hkeep i (.zone 0) (by rw [hold]; exact hz0)
      exact hsame.trans hold
    change Option.bind (Option.map _ (freeBlock f.zones.dev [] z)) _ = none
    cases hfree : freeBlock f.zones.dev [] z with
    | none => rfl
    | some d' =>
      rw [Option.map_some, Option.bind_some, giveUp_again (a := a) (b := b)]
      · rfl
      · exact hdev
      · exact (congrArg InodeInfo.count (Function.update_of_ne (Ne.symm hne) _ _)).trans hcount
      · exact (congrArg InodeInfo.mode (Function.update_of_ne (Ne.symm hne) _ _)).trans hmode
      · change (f.zones.inode i).zone 0 ≠ 0
        rw [hzone]
        exact hz0
      · change freeBlock d' [] ((f.zones.inode i).zone 0) = none
        rw [hzone]
        exact freeBlock_twice hfree
  · rw [hsome, Option.bind_some]
    refine ⟨fun hfull => absurd hfull hroom, fun _ => ?_⟩
    dsimp only
    obtain ⟨hb, hne0⟩ := hadded.block
    have hsound' : (f.setInode b de i).zones.Sound := (FileSys.putBytes_sound hadded.sound hb hne0).1
    obtain ⟨hdpos, hdmax, hdin, hdset⟩ := huse
    have hself : (((s.setFiles (f.setInode b de i)).setLinks dir (((s.info dir).nlinks + 1) % 256)).info dir).count = (s.info dir).count := by
      unfold setLinks
      rw [setInfo_self]
      rfl
    obtain ⟨u, hu, hinfo⟩ := @iput_some ((s.setFiles (f.setInode b de i)).setLinks dir (((s.info dir).nlinks + 1) % 256)) dir hsound'
      (by rw [hself]; exact hdir.1) hdpos hdmax hdin hdset
    have hi : u.info i = s.info i := (hinfo i (Ne.symm hne)).trans (Function.update_of_ne (Ne.symm hne) _ _)
    refine ⟨u.setInfo i fun ip => { ip with count := ip.count - 1 }, ?_⟩
    refine (congrArg (fun o => Option.bind o fun s => (s.iput i).map fun s => ((0 : Int), s)) hu).trans ?_
    rw [Option.bind_some, iput_kept (by rw [hi]; omega) (.inr (by rw [hi]; omega))]
    rfl

/-- What follows `new_inode`: a panic if the directory has no place for the entry, and otherwise nothing that is left of a failure. -/
theorem makeDir_spec (h : s.Ready c) (hdir : c.dir = some dir) (hname : c.name ≠ []) (hpos : 1 ≤ i) (hmax : i ≤ s.ninodes)
    (hin : s.inMap i = true) (hclear : s.imap i = false) :
    (0 < s.files.zones.dev.freeZones ∧ c.readable = true ∧ s.NoPlace dir → makeDir c (s.started i) dir i = none) ∧
    (¬ (0 < s.files.zones.dev.freeZones ∧ c.readable = true ∧ s.NoPlace dir) → s.Clean (makeDir c (s.started i) dir i)) := by
  obtain ⟨hcount, hlinks, hdset, hdpos, hdmax, hdin⟩ := h.dir dir hdir
  have hne : dir ≠ i := by
    intro hdi
    rw [hdi, hclear] at hdset
    cases hdset
  have hfree := h.free i hclear
  have hzones := @started_zones s i hfree
  have hinfo : ∀ d z, ((s.started i).firstBlock i d z).info dir = s.info dir := fun _ _ => Function.update_of_ne hne _ _
  have hiput : ∀ d z, ((s.started i).firstBlock i d z).iput dir =
      some (((s.started i).firstBlock i d z).setInfo dir fun ip => { ip with count := ip.count - 1 }) := fun d z =>
    iput_kept (by rw [hinfo]; exact hcount) (.inr (by rw [hinfo]; exact hlinks))
  unfold makeDir
  rw [hzones]
  rcases Nat.eq_zero_or_pos s.files.zones.dev.freeZones with hfull | hroom
  · obtain ⟨d, hnew, hex⟩ := @newBlock_full _ [] h.sound.reserved h.sound.first hfull
    refine ⟨fun hc => by omega, fun _ => ?_⟩
    rw [hnew, Option.bind_some]
    dsimp only
    rw [if_pos rfl, hiput, Option.bind_some]
    have hbyte : ∀ j, j ≠ i → ∀ o, ZoneFs.byte ⟨d, s.files.zones.inode⟩ j o = s.files.byte j o :=
      fun j _ o => byte_congr s.files.zones ⟨d, s.files.zones.inode⟩ (exhausted_fields hex).1 rfl o
    obtain ⟨u, hu, hrest⟩ := (@taken_begun s d d i 0 dir hne hbyte fun z hz => exhausted_marked h.sound.reserved hex hz).giveUp
      h.dev hpos hmax hin hclear
    exact ⟨-28, u, congrArg (Option.map fun s => ((-28 : Int), s)) hu, fun _ => hrest⟩
  · obtain ⟨z, hnew, hz, hbits, hbit⟩ := @newBlock_room _ [] h.sound.reserved h.sound.first
      (fun _ hz => absurd hz List.not_mem_nil) hroom
    have hf := h.sound.first
    have hz0 : z ≠ 0 := by omega
    obtain ⟨hfilled, hcounted⟩ := newBlock_filled h.sound hfree hnew
    generalize hd : (s.files.zones.dev.setBit (z + 1 - s.files.zones.dev.firstdatazone)).clearBlock z = d at hnew hfilled hcounted
    rw [hnew, Option.bind_some]
    dsimp only
    rw [if_neg hz0]
    by_cases hread : c.readable = false
    · rw [if_pos hread, hiput, Option.bind_some]
      refine ⟨fun hc => ?_, fun _ => ?_⟩
      · rw [hread] at hc
        cases hc.2.1
      · obtain ⟨d', hfreed, hword, hmarked⟩ := freeBlock_new hf hz hbits hbit
        rw [hd] at hfreed
        have hbyte : ∀ j, j ≠ i → ∀ o, ZoneFs.byte ⟨d', s.files.zones.inode⟩ j o = s.files.byte j o := by
          intro j hj o
          refine Eq.trans ?_ (hfilled.grows.byte (j := j) (o := o))
          refine byte_congr _ _ ?_ (Function.update_of_ne hj _ _).symm o
          rw [hword, ← hd]
          rfl
        obtain ⟨u, hu, hrest⟩ := (@taken_begun s d d' i z dir hne hbyte fun y _ => hmarked y).giveUp h.dev hpos hmax hin hclear
        refine ⟨-99, u, ?_, fun _ => hrest⟩
        unfold freeZone
        change Option.bind (Option.map _ (freeBlock d [] z)) _ = _
        rw [hfreed]
        exact congrArg (Option.map fun s => ((-99 : Int), s)) hu
    · rw [if_neg hread]
      have hfiles : ((s.started i).firstBlock i d z).files.zones =
          ⟨d, Function.update s.files.zones.inode i ⟨Function.update (s.files.zones.inode i).zone 0 z⟩⟩ := by
        unfold firstBlock setFiles FileSys.setSize FileSys.setZones
        dsimp only
        rw [hzones]
      have hbeside := @fillDir_beside ((s.started i).firstBlock i d z) i z dir (c.mode &&& 0o777 &&& ~~~c.cred.umask)
        (by rw [hfiles]; exact hfilled.sound) (by rw [hfiles]; exact hfilled.last) hz0
      generalize ht : ((s.started i).firstBlock i d z).fillDir i dir z (c.mode &&& 0o777 &&& ~~~c.cred.umask) = t at hbeside ⊢
      have htdir : t.info dir = s.info dir := by
        rw [← ht]
        exact (setInfo_other hne).trans (hinfo d z)
      have hti : (t.info i).count = 1 ∧ (t.info i).nlinks = 2 ∧
          (t.info i).mode = (ifdir ||| (c.mode &&& 0o777 &&& ~~~c.cred.umask)).truncate 16 := by
        have hself : ((s.started i).firstBlock i d z).info i = { nlinks := 1, count := 1 } := Function.update_self ..
        rw [← ht]
        unfold fillDir
        rw [setInfo_self]
        exact ⟨congrArg InodeInfo.count hself, rfl, rfl⟩
      have htmap : t.imap dir = true := by
        rw [← ht]
        exact (Function.update_of_ne hne _ _).trans hdset
      obtain ⟨htdev, htmax, htin⟩ : t.dev = s.dev ∧ t.ninodes = s.ninodes ∧ t.inMap dir = s.inMap dir := by
        rw [← ht]
        exact ⟨rfl, rfl, rfl⟩
      have htz : (t.files.zones.inode i).zone 0 = z := by
        have hnr : t.files.zones.zoneNr i (blockPos 0) = z := by
          rw [hbeside.nr, hfiles]
          exact hfilled.last
        exact hnr
      obtain ⟨hstuck, hgoes⟩ := @enterDir_spec t i z dir _ _ c.name hbeside.sound (by rw [htdev]; exact h.dev) hne hname
        (by rw [htdir]; exact ⟨hcount, hlinks⟩) ⟨hdpos, by rw [htmax]; exact hdmax, by rw [htin]; exact hdin, htmap⟩
        hti.1 hti.2.1 hti.2.2 htz hz0
      -- The parent directory has been left alone up to here.
      have hfull : t.files.Full dir ↔ s.NoPlace dir := by
        refine full_iff_noPlace (fun o => ?_) ?_ (fun p => ?_) ?_
        · rw [hbeside.byte dir hne o]
          change ZoneFs.byte ((s.started i).firstBlock i d z).files.zones dir o = _
          rw [hfiles]
          exact hfilled.grows.byte
        · rw [hbeside.size]
          exact (Function.update_of_ne hne _ _).trans (Function.update_of_ne hne _ _)
        · rw [hbeside.nr, hfiles]
          by_contra hdiff
          exact hne (hfilled.grows.only dir p hdiff).1
        · rw [hbeside.free, hfiles]
          exact hcounted hz0
      have hread' : c.readable = true := by simpa using hread
      refine ⟨fun hc => hstuck (hfull.mpr hc.2.2), fun hno => ?_⟩
      obtain ⟨u, hu⟩ := hgoes fun hf => hno ⟨hroom, hread', hfull.mp hf⟩
      exact ⟨0, u, hu, fun hneg => absurd hneg (by decide)⟩

/-- A call that does not get as far as the search fails without a trace. -/
theorem clean_iff_of_early (hno : ∀ dir, ¬ s.Searches c dir) (hclean : s.Clean (sysMkdir c s)) :
    s.Clean (sysMkdir c s) ↔ s.StaysClear c := ⟨fun _ dir hs => absurd hs (hno dir), fun _ => hclean⟩

/-- The root directory has one block; its entries are `.`, `..` and 62 names of inode 2. Zone 6 and inode 3 are free. -/
def packedFs : DirFs where
  dev := 1
  files :=
    { zones :=
        { dev :=
            { firstdatazone := 5, nzones := 7, zmapBlocks := 1, zmap := oneZoneFs.dev.zmap,
              word := fun b k =>
                if b ≠ 5 then 0
                else if k % 8 = 0 then (if k < 16 then 1 else 2)
                else if k % 8 = 1 then (if k < 8 then 46 else if k < 16 then 46 + 256 * 46 else 64 + k / 8)
                else 0 }
          inode := oneZoneFs.inode }
      size := fun i => if i = 1 then 1024 else 0 }
  ninodes := 3
  imapBlocks := 1
  imap := fun i => i < 3
  info := fun i =>
    if i = 1 then { mode := 0o40755, nlinks := 2, count := 2 } else if i = 2 then { mode := 0o100644, nlinks := 62 } else {}

def packedCall (readable : Bool) : MkdirCall where
  cred := { uid := 0, euid := 0, gid := 0, egid := 0, umask := 0o22, leader := true, tty := 0, pgrp := 1 }
  mode := 0o777
  dir := some 1
  name := [110, 101, 119]
  slot := true
  readable := readable

theorem packed_ready (readable : Bool) : packedFs.Ready (packedCall readable) := by
  have hexact : packedFs.files.zones.Exact := sole_exact rfl rfl (by decide) rfl rfl
  refine ⟨(ZoneFs.exact_iff.mp hexact).1, by decide, by decide, fun i hi k => ?_, fun i hi => ?_⟩
  · have hhigh : ¬ i < 3 := of_decide_eq_false hi
    exact if_neg (by omega)
  · cases hi
    decide

theorem packed_find (readable : Bool) : packedFs.files.find 1 (packedCall readable).name = .ok none := by
  change packedFs.files.find 1 [110, 101, 119] = .ok none
  decide +kernel

end DirFs

end RheeKernel
