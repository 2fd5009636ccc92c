import RheeKernel.DirScan
import RheeKernel.ZoneNeeds

namespace RheeKernel

/-- Entry `de` of block `b`. -/
def Device.dirent (d : Device) (b de : Nat) : NameEntry where
  inode := (d.byteAt b (direntSize * de)).toNat + 256 * (d.byteAt b (direntSize * de + 1)).toNat
  name := fun k => d.byteAt b (direntSize * de + 2 + k)

namespace FileSys

/-- Entry `k` of directory `i`. -/
def entry (s : FileSys) (i k : Nat) : NameEntry where
  inode := (s.byte i (direntSize * k)).toNat + 256 * (s.byte i (direntSize * k + 1)).toNat
  name := fun l => s.byte i (direntSize * k + 2 + l)

/-- What `bmap` and `bread` deliver for block `q` of directory `i`; every block can be read. -/
def dirBlock (s : FileSys) (i q : Nat) : BlockRead :=
  match bmap s.zones.dev (s.zones.inode i) q with
  | none => .unmapped
  | some b => if b = 0 then .unmapped else .entries (s.zones.dev.dirent b)

/-- `find_entry`: the number of the entry and the entry. -/
def find (s : FileSys) (i : Nat) (name : List UInt8) : Except ScanFault (Option (Nat × NameEntry)) :=
  (DirScan.findEntry (s.dirBlock i) (s.size i) name).map fun r => r.1.map fun e => (e.2, s.entry i e.2)

def setZones (s : FileSys) (d : Device) (i : Nat) (ip : ZoneInode) : FileSys :=
  { s with zones := ⟨d, Function.update s.zones.inode i ip⟩ }

def setSize (s : FileSys) (i n : Nat) : FileSys := { s with size := Function.update s.size i n }

/-- Bytes from `o` on are stored into the buffer of block `b`. -/
def putBytes (s : FileSys) (b o : Nat) (vs : List UInt8) : FileSys := { s with zones := ⟨s.zones.dev.putBytes b o vs, s.zones.inode⟩ }

/-- `de->inode = n`. -/
def setInode (s : FileSys) (b de n : Nat) : FileSys := s.putBytes b (direntSize * de) [UInt8.ofNat n, UInt8.ofNat (n / 256)]

/-- `de->name`, padded with zeros. -/
def setName (s : FileSys) (b de : Nat) (name : List UInt8) : FileSys :=
  s.putBytes b (direntSize * de + 2) (List.ofFn (padName name))

/-- An entry behind `i_size` is made part of the directory. -/
def extend (s : FileSys) (i k b de : Nat) : FileSys :=
  if s.size i ≤ k * direntSize then (s.setInode b de 0).setSize i ((k + 1) * direntSize) else s

/-- The loop of `add_entry` at entry `k`, which is entry `de` of the buffer of block `b`. It ends with the place of the new
entry; `none` is a panic. -/
def addLoop (i : Nat) (name : List UInt8) : Nat → Nat → FileSys → Nat → Nat → Option (FileSys × Option (Nat × Nat))
  | 0, _, _, _, _ => none
  | n + 1, k, s, b, de =>
    (if dirEntriesPerBlock ≤ de then
        (createBlock s.zones.dev (s.zones.inode i) (k / dirEntriesPerBlock : Nat)).map fun (d, ip, b) => (s.setZones d i ip, b, 0)
      else some (s, b, de)).bind fun (s, b, de) =>
      if b = 0 then some (s, none)
      else
        let s := s.extend i k b de
        if (s.zones.dev.dirent b de).inode = 0 then some (s.setName b de name, some (b, de))
        else addLoop i name n (k + 1) s b (de + 1)

/-- `add_entry`, which leaves the inode number of the new entry at zero. -/
def addEntry (s : FileSys) (i : Nat) (name : List UInt8) : Option (FileSys × Option (Nat × Nat)) :=
  if name.take nameLen = [] then some (s, none)
  else if (s.zones.inode i).zone 0 = 0 then some (s, none)
  else addLoop i name (s.size i / direntSize + 2) 0 s ((s.zones.inode i).zone 0) 0

/-- Entry `k` of directory `i` is one that `add_entry` goes past. -/
def Used (s : FileSys) (i k : Nat) : Prop := direntSize * k < s.size i ∧ (s.entry i k).inode ≠ 0

/-- All entries of directory `i` up to a block that is not there are in use, and that block cannot be had. -/
def Full (s : FileSys) (i : Nat) : Prop :=
  ∃ q, (∀ j < dirEntriesPerBlock * q, s.Used i j) ∧ s.zones.zoneNr i (blockPos q) = 0 ∧
    (q = 0 ∨ maxFileBlocks ≤ q ∨ s.zones.dev.freeZones < s.zones.missing i q)

/-- The name has been put in the first entry that was not in use, entry `k`. -/
structure Added (s s' : FileSys) (i : Nat) (name : List UInt8) (b de k : Nat) : Prop where
  sound : s'.zones.Sound
  used : ∀ j < k, s.Used i j
  free : ¬ s.Used i k
  block : s'.zones.zoneNr i (blockPos (k / dirEntriesPerBlock)) = b ∧ b ≠ 0
  place : de = k % dirEntriesPerBlock
  keep : ∀ j q, s.zones.zoneNr j q ≠ 0 → s'.zones.zoneNr j q = s.zones.zoneNr j q
  entry : ∀ j l, s'.entry j l = if j = i ∧ l = k then ⟨0, padName name⟩ else s.entry j l
  size : ∀ j, s'.size j = if j = i ∧ s.size i ≤ k * direntSize then (k + 1) * direntSize else s.size j

end FileSys

variable {s s' : FileSys} {d : Device} {ip : ZoneInode} {i j k l m n b de q r : Nat} {name : List UInt8} {p : ZonePos} {ps : List ZonePos}

/-- A path whose places are all there is passed without a change. -/
theorem fillPath_present (h : ∀ q ∈ p :: ps, zoneAt d ip q ≠ 0) :
    fillPath (p :: ps) d ip = some (d, ip, zoneAt d ip ((p :: ps).getLast (by simp))) := by
  induction ps generalizing p with
  | nil => exact fillAt_present (h p List.mem_cons_self)
  | cons q qs ih =>
    have hp := h p List.mem_cons_self
    rw [fillPath_go (fillAt_present hp) hp, ih fun r hr => h r (List.mem_cons_of_mem _ hr)]
    rfl

/-- `create_block` of a block that is there. -/
theorem ZoneFs.createBlock_present {t : ZoneFs} (hn : n < maxFileBlocks) (hne : t.zoneNr i (blockPos n) ≠ 0) :
    createBlock t.dev (t.inode i) n = some (t.dev, t.inode i, t.zoneNr i (blockPos n)) := by
  obtain ⟨p, ps, hpath, hps, _⟩ := zonePath_isPath hn
  have hlast := @zonePath_last n (by rw [hpath]; simp)
  simp only [hpath] at hlast
  rw [createBlock_eq hn, hpath]
  have hall := hps.present (s := t) (i := i) (by rw [hlast]; exact hne)
  rw [fillPath_present hall, hlast]
  rfl

/-- Blocks past the last one that an inode can name are not there. -/
theorem ZoneFs.zoneNr_past {t : ZoneFs} (hn : maxFileBlocks ≤ n) : t.zoneNr i (blockPos n) = 0 := by
  unfold maxFileBlocks at hn
  have hpos : blockPos n = .leaf ((n - 519) / 512) ((n - 519) % 512) := by
    unfold blockPos
    rw [if_neg (by omega), if_neg (by omega)]
  have hhigh : tableEntry t.dev ((t.inode i).zone 8) ((n - 519) / 512) = 0 := if_neg (by omega)
  rw [hpos]
  change tableEntry t.dev (tableEntry t.dev ((t.inode i).zone 8) ((n - 519) / 512)) ((n - 519) % 512) = 0
  rw [hhigh, tableEntry_zero]

theorem createBlock_past (hn : maxFileBlocks ≤ n) : createBlock d ip n = none := by
  unfold createBlock bmapCore
  rw [if_neg (by omega), if_pos (by omega)]

namespace FileSys

theorem entry_congr (h : ∀ c < 16, s'.byte i (16 * k + c) = s.byte i (16 * k + c)) : s'.entry i k = s.entry i k := by
  unfold entry direntSize
  have h0 := h 0 (by omega)
  have h1 := h 1 (by omega)
  rw [Nat.add_zero] at h0
  rw [h0, h1]
  congr 1
  funext c
  rw [Nat.add_assoc]
  exact h (2 + c) (by omega)

theorem byte_eq (hne : s.zones.zoneNr i (blockPos (k / 64)) ≠ 0) {c : Nat} (hc : c < 16) :
    s.byte i (16 * k + c) = s.zones.dev.byteAt (s.zones.zoneNr i (blockPos (k / 64))) (16 * (k % 64) + c) := by
  have hdiv : (16 * k + c) / 1024 = k / 64 := by omega
  have hmod : (16 * k + c) % 1024 = 16 * (k % 64) + c := by omega
  have hat := ZoneFs.byte_at (s := s.zones) (i := i) (o := 16 * k + c) (by rw [hdiv]; exact hne)
  rw [hdiv, hmod] at hat
  exact hat

/-- Entry `k` lies in block `k / 64`. -/
theorem entry_eq (hne : s.zones.zoneNr i (blockPos (k / 64)) ≠ 0) :
    s.entry i k = s.zones.dev.dirent (s.zones.zoneNr i (blockPos (k / 64))) (k % 64) := by
  unfold entry Device.dirent direntSize
  have h0 := byte_eq hne (c := 0) (by omega)
  rw [Nat.add_zero, Nat.add_zero] at h0
  rw [h0, byte_eq hne (c := 1) (by omega)]
  congr 1
  funext c
  rw [Nat.add_assoc, byte_eq hne (c := 2 + c) (by omega), Nat.add_assoc]

theorem entry_hole (hzero : s.zones.zoneNr i (blockPos (k / 64)) = 0) : (s.entry i k).inode = 0 := by
  have hbyte : ∀ c < 16, s.byte i (16 * k + c) = 0 := by
    intro c hc
    refine ZoneFs.byte_hole ?_
    rw [show (16 * k + c) / 1024 = k / 64 by omega]
    exact hzero
  unfold entry direntSize
  have h0 := hbyte 0 (by omega)
  rw [Nat.add_zero] at h0
  dsimp only
  rw [h0, hbyte 1 (by omega)]
  rfl

theorem Used.mapped (h : s.Used i k) : s.zones.zoneNr i (blockPos (k / 64)) ≠ 0 := fun hzero => h.2 (entry_hole hzero)

/-- Whether the directory is full shows at the first entry that is not in use. -/
theorem full_iff (hused : ∀ j < k, s.Used i j) (hfree : ¬ s.Used i k) : s.Full i ↔ s.zones.zoneNr i (blockPos (k / 64)) = 0 ∧
    (k / 64 = 0 ∨ maxFileBlocks ≤ k / 64 ∨ s.zones.dev.freeZones < s.zones.missing i (k / 64)) := by
  unfold Full dirEntriesPerBlock
  constructor
  · intro ⟨q, hall, hzero, hnone⟩
    have hle : 64 * q ≤ k := by
      by_contra hgt
      exact hfree (hall k (by omega))
    have hq : q = k / 64 := by
      by_contra hne
      have hmapped := (hused (64 * q) (by omega)).mapped
      rw [Nat.mul_div_cancel_left q (by decide)] at hmapped
      exact hmapped hzero
    rw [← hq]
    exact ⟨hzero, hnone⟩
  · intro ⟨hzero, hnone⟩
    exact ⟨k / 64, fun j hj => hused j (by omega), hzero, hnone⟩

/-- Bytes that are stored into entry `k` of a directory change no other entry. -/
theorem putBytes_byte {vs : List UInt8} {c o : Nat} (h : s.zones.Sound) (hb : s.zones.zoneNr i (blockPos (k / 64)) = b) (hne : b ≠ 0)
    (hc : c < 16) (ho : o + vs.length ≤ 16) :
    (s.putBytes b (16 * (k % 64) + o) vs).byte j (16 * l + c) =
      if j = i ∧ l = k ∧ o ≤ c then (vs[c - o]?).getD (s.byte j (16 * l + c)) else s.byte j (16 * l + c) := by
  subst hb
  refine (@ZoneFs.Sound.store_byte _ i j (16 * (k % 64) + o) (k / 64) (16 * l + c) vs h hne).trans ?_
  by_cases hin : j = i ∧ l = k ∧ o ≤ c
  · obtain ⟨hj, hl, hoc⟩ := hin
    rw [if_pos ⟨hj, by omega, by omega⟩, if_pos ⟨hj, hl, hoc⟩, hl,
      show (16 * k + c) % 1024 - (16 * (k % 64) + o) = c - o by omega]
    rfl
  · rw [if_neg hin]
    by_cases hat : j = i ∧ (16 * l + c) / 1024 = k / 64 ∧ 16 * (k % 64) + o ≤ (16 * l + c) % 1024
    · rw [if_pos hat, List.getElem?_eq_none (by omega), Option.getD_none]
      rfl
    · rw [if_neg hat]
      rfl

theorem putBytes_entry_other {vs : List UInt8} {o : Nat} (h : s.zones.Sound) (hb : s.zones.zoneNr i (blockPos (k / 64)) = b) (hne : b ≠ 0)
    (ho : o + vs.length ≤ 16) (hat : ¬ (j = i ∧ l = k)) : (s.putBytes b (16 * (k % 64) + o) vs).entry j l = s.entry j l := by
  refine entry_congr fun c hc => ?_
  rw [putBytes_byte h hb hne hc ho, if_neg fun hin => hat ⟨hin.1, hin.2.1⟩]

/-- A store to a block of a directory moves no zone. -/
theorem putBytes_sound {vs : List UInt8} {o : Nat} (h : s.zones.Sound) (hb : s.zones.zoneNr i (blockPos q) = b) (hne : b ≠ 0) :
    (s.putBytes b o vs).zones.Sound ∧ ∀ j p, (s.putBytes b o vs).zones.zoneNr j p = s.zones.zoneNr j p := by
  subst hb
  have hsame := @Device.putBytes_same s.zones.dev (s.zones.zoneNr i (blockPos q)) o vs
  exact ⟨h.store blockPos_isData hne hsame, h.store_nr blockPos_isData hne hsame⟩

theorem setInode_entry (h : s.zones.Sound) (hb : s.zones.zoneNr i (blockPos (k / 64)) = b) (hne : b ≠ 0) (hn : n < 65536) :
    (s.setInode b (k % 64) n).entry j l = if j = i ∧ l = k then { s.entry i k with inode := n } else s.entry j l := by
  have hbyte := fun c hc => @putBytes_byte s i j k l b [UInt8.ofNat n, UInt8.ofNat (n / 256)] c 0 h hb hne hc (by simp)
  by_cases hat : j = i ∧ l = k
  · obtain ⟨hj, hl⟩ := hat
    subst hj hl
    rw [if_pos ⟨rfl, rfl⟩]
    have h0 := hbyte 0 (by omega)
    have h1 := hbyte 1 (by omega)
    rw [if_pos ⟨rfl, rfl, by omega⟩] at h0 h1
    unfold entry setInode direntSize
    rw [NameEntry.mk.injEq]
    refine ⟨?_, funext fun c => ?_⟩
    · have hlow : ((s.putBytes b (16 * (l % 64)) [UInt8.ofNat n, UInt8.ofNat (n / 256)]).byte j (16 * l)).toNat = n % 256 := by
        refine (congrArg UInt8.toNat h0).trans ?_
        exact UInt8.toNat_ofNat' ..
      have hhigh : ((s.putBytes b (16 * (l % 64)) [UInt8.ofNat n, UInt8.ofNat (n / 256)]).byte j (16 * l + 1)).toNat =
          n / 256 % 256 := by
        refine (congrArg UInt8.toNat h1).trans ?_
        exact UInt8.toNat_ofNat' ..
      rw [hlow, hhigh]
      omega
    · have h2 := hbyte (2 + c) (by omega)
      rw [if_pos ⟨rfl, rfl, Nat.zero_le _⟩, List.getElem?_eq_none (by simp), Option.getD_none, ← Nat.add_assoc] at h2
      exact h2
  · rw [if_neg hat]
    exact putBytes_entry_other (o := 0) h hb hne (by simp) hat

theorem setName_entry (h : s.zones.Sound) (hb : s.zones.zoneNr i (blockPos (k / 64)) = b) (hne : b ≠ 0) :
    (s.setName b (k % 64) name).entry j l = if j = i ∧ l = k then { s.entry i k with name := padName name } else s.entry j l := by
  have hlen : (List.ofFn (padName name)).length = 14 := List.length_ofFn
  have hbyte := fun c hc => @putBytes_byte s i j k l b (List.ofFn (padName name)) c 2 h hb hne hc (by omega)
  by_cases hat : j = i ∧ l = k
  · obtain ⟨hj, hl⟩ := hat
    subst hj hl
    rw [if_pos ⟨rfl, rfl⟩]
    have h0 := hbyte 0 (by omega)
    have h1 := hbyte 1 (by omega)
    rw [if_neg (by omega)] at h0 h1
    unfold entry setName direntSize
    rw [NameEntry.mk.injEq]
    refine ⟨?_, funext fun c => ?_⟩
    · exact congrArg₂ (fun x y : UInt8 => x.toNat + 256 * y.toNat) h0 h1
    · have h2 := hbyte (2 + c) (by omega)
      rw [if_pos ⟨rfl, rfl, by omega⟩, Nat.add_sub_cancel_left, List.getElem?_ofFn, dif_pos c.isLt, Option.getD_some,
        ← Nat.add_assoc] at h2
      exact h2
  · rw [if_neg hat]
    exact putBytes_entry_other h hb hne (by omega) hat

theorem extend_used (h : s.Used i k) : s.extend i k b de = s := by
  have hlt := h.1
  unfold direntSize at hlt
  unfold extend direntSize
  rw [if_neg (by omega)]

/-- The round of `add_entry` at an entry that is not in use, in a state that may have one block more. -/
theorem added_here {t : FileSys} (h : t.zones.Sound) (hb : t.zones.zoneNr i (blockPos (k / 64)) = b) (hne : b ≠ 0)
    (hkeep : ∀ j q, s.zones.zoneNr j q ≠ 0 → t.zones.zoneNr j q = s.zones.zoneNr j q) (hbyte : ∀ j o, t.byte j o = s.byte j o)
    (hsize : t.size = s.size) (hused : ∀ j < k, s.Used i j) (hfree : ¬ s.Used i k) :
    ((t.extend i k b (k % 64)).zones.dev.dirent b (k % 64)).inode = 0 ∧
      s.Added ((t.extend i k b (k % 64)).setName b (k % 64) name) i name b (k % 64) k := by
  have hentry : ∀ j l, t.entry j l = s.entry j l := fun j l => entry_congr fun c _ => hbyte j _
  obtain ⟨hsound', hnr, hat, hother, hsize'⟩ : (t.extend i k b (k % 64)).zones.Sound ∧
      (∀ j p, (t.extend i k b (k % 64)).zones.zoneNr j p = t.zones.zoneNr j p) ∧
      ((t.extend i k b (k % 64)).entry i k).inode = 0 ∧
      (∀ j l, ¬ (j = i ∧ l = k) → (t.extend i k b (k % 64)).entry j l = s.entry j l) ∧
      ∀ j, (t.extend i k b (k % 64)).size j = if j = i ∧ s.size i ≤ k * direntSize then (k + 1) * direntSize else s.size j := by
    unfold extend
    rw [hsize]
    by_cases hbehind : s.size i ≤ k * direntSize
    · rw [if_pos hbehind]
      have hset := fun j l => @setInode_entry t i j k l 0 b h hb hne (by decide)
      obtain ⟨hsound, hnr⟩ := @putBytes_sound t i b (k / 64) [UInt8.ofNat 0, UInt8.ofNat (0 / 256)] (direntSize * (k % 64)) h hb hne
      refine ⟨hsound, hnr, ?_, fun j l hno => ?_, fun j => ?_⟩
      · have hself := hset i k
        rw [if_pos ⟨rfl, rfl⟩] at hself
        exact congrArg NameEntry.inode hself
      · have hsame := hset j l
        rw [if_neg hno] at hsame
        exact hsame.trans (hentry j l)
      · change Function.update t.size i ((k + 1) * direntSize) j = _
        by_cases hj : j = i
        · rw [hj, Function.update_self, if_pos ⟨rfl, hbehind⟩]
        · rw [Function.update_of_ne hj, if_neg fun hc => hj hc.1, hsize]
    · rw [if_neg hbehind]
      refine ⟨h, fun _ _ => rfl, ?_, fun j l _ => hentry j l, fun j => ?_⟩
      · rw [hentry]
        by_contra hlive
        refine hfree ⟨?_, hlive⟩
        unfold direntSize at hbehind ⊢
        omega
      · rw [hsize, if_neg fun hc => hbehind hc.2]
  have hb' : (t.extend i k b (k % 64)).zones.zoneNr i (blockPos (k / 64)) = b := (hnr i _).trans hb
  refine ⟨?_, ?_⟩
  · rw [entry_eq (by rw [hb']; exact hne), hb'] at hat
    exact hat
  · have hname := fun j l => @setName_entry (t.extend i k b (k % 64)) i j k l b name hsound' hb' hne
    obtain ⟨hsound, hnr'⟩ := @putBytes_sound (t.extend i k b (k % 64)) i b (k / 64) (List.ofFn (padName name))
      (direntSize * (k % 64) + 2) hsound' hb' hne
    refine ⟨hsound, hused, hfree, ⟨(hnr' i _).trans hb', hne⟩, rfl, fun j q hq => ?_, fun j l => ?_, hsize'⟩
    · exact (hnr' j q).trans ((hnr j q).trans (hkeep j q hq))
    · rw [hname]
      by_cases hin : j = i ∧ l = k
      · rw [if_pos hin, if_pos hin, NameEntry.mk.injEq]
        exact ⟨hat, rfl⟩
      · rw [if_neg hin, if_neg hin]
        exact hother j l hin

/-- What `add_entry` comes to: it has no place for the name, or puts it in the first one. -/
def Settles (s : FileSys) (i : Nat) (name : List UInt8) (r : Option (FileSys × Option (Nat × Nat))) : Prop :=
  (s.Full i ∧ (r = none ∨ ∃ s', r = some (s', none) ∧ ∀ j q, s.zones.zoneNr j q ≠ 0 → s'.zones.zoneNr j q = s.zones.zoneNr j q)) ∨
    (¬ s.Full i ∧ ∃ s' b de k, r = some (s', some (b, de)) ∧ s.Added s' i name b de k)

theorem addLoop_spec (h : s.zones.Sound) (hn : s.size i / 16 + 2 ≤ k + n) (hused : ∀ j < k, s.Used i j) (hk : k = 64 * q + de)
    (hde : de ≤ 64) (hb : s.zones.zoneNr i (blockPos q) = b) (hne : b ≠ 0) : s.Settles i name (addLoop i name n k s b de) := by
  induction n generalizing k q b de with
  | zero =>
    have hlast := (hused (k - 1) (by omega)).1
    unfold direntSize at hlast
    omega
  | succ n ih =>
    unfold addLoop dirEntriesPerBlock
    -- The part of the round after the test for the end of the block.
    have hround : ∀ b, s.zones.zoneNr i (blockPos (k / 64)) = b → b ≠ 0 →
        s.Settles i name (if b = 0 then some (s, none)
          else if ((s.extend i k b (k % 64)).zones.dev.dirent b (k % 64)).inode = 0 then
            some ((s.extend i k b (k % 64)).setName b (k % 64) name, some (b, k % 64))
          else addLoop i name n (k + 1) (s.extend i k b (k % 64)) b (k % 64 + 1)) := by
      intro b hb hne
      rw [if_neg hne]
      by_cases hlive : s.Used i k
      · have hinode := hlive.2
        rw [entry_eq (by rw [hb]; exact hne), hb] at hinode
        rw [extend_used hlive, if_neg hinode]
        refine ih (q := k / 64) (by omega) (fun j hj => ?_) (by omega) (by omega) hb hne
        by_cases hjk : j = k
        · rw [hjk]
          exact hlive
        · exact hused j (by omega)
      · obtain ⟨hzero, hadded⟩ := @added_here s i k b name s h hb hne (fun _ _ _ => rfl) (fun _ _ => rfl) rfl hused hlive
        rw [if_pos hzero]
        refine .inr ⟨fun hfull => ?_, _, _, _, _, rfl, hadded⟩
        have hhole := ((full_iff hused hlive).mp hfull).1
        exact hne (hb.symm.trans hhole)
    by_cases hend : 64 ≤ de
    · rw [if_pos hend]
      have hnext : k / 64 = q + 1 := by omega
      by_cases hmax : maxFileBlocks ≤ k / 64
      · rw [createBlock_past hmax]
        have hlive : ¬ s.Used i k := fun hlive => hlive.mapped (ZoneFs.zoneNr_past hmax)
        exact .inl ⟨(full_iff hused hlive).mpr ⟨ZoneFs.zoneNr_past hmax, .inr (.inl hmax)⟩, .inl rfl⟩
      · by_cases hzone : s.zones.zoneNr i (blockPos (k / 64)) = 0
        · have hlive : ¬ s.Used i k := fun hlive => hlive.mapped hzone
          obtain ⟨d, ip, r, hcreate, hspec⟩ := @ZoneFs.Sound.createBlock s.zones i (k / 64) h (by omega)
          rw [hcreate]
          change s.Settles i name (if r = 0 then some (s.setZones d i ip, none) else _)
          by_cases hr : r = 0
          · rw [if_pos hr]
            refine .inl ⟨(full_iff hused hlive).mpr ⟨hzone, .inr (.inr ?_)⟩, .inr ⟨_, rfl, hspec.grows.keep⟩⟩
            by_contra hroom
            exact (hspec.room (Nat.not_lt.mp hroom)).1 hr
          · rw [if_neg hr]
            obtain ⟨hzero, hadded⟩ := @added_here s i k r name (s.setZones d i ip) hspec.sound hspec.last hr hspec.grows.keep
              (fun _ _ => hspec.grows.byte) rfl hused hlive
            rw [show k % 64 = 0 by omega] at hzero hadded
            rw [if_pos hzero]
            refine .inr ⟨fun hfull => ?_, _, _, _, _, rfl, hadded⟩
            rcases ((full_iff hused hlive).mp hfull).2 with hfirst | hpast | hfew
            · omega
            · exact hmax hpast
            · exact hr (hspec.full hfew).1
        · rw [ZoneFs.createBlock_present (by omega) hzone]
          have hsame : s.setZones s.zones.dev i (s.zones.inode i) = s := by
            unfold setZones
            rw [Function.update_eq_self]
          have hhere := hround _ rfl hzone
          rw [show k % 64 = 0 by omega] at hhere
          dsimp only [Option.map_some, Option.bind_some]
          rw [hsame]
          exact hhere
    · rw [if_neg hend]
      have hhere := hround b (by rw [show k / 64 = q by omega]; exact hb) hne
      rw [show k % 64 = de by omega] at hhere
      exact hhere

/-- `add_entry` comes to an end, and puts the name in the first entry that is not in use unless the directory is full. -/
theorem addEntry_spec (h : s.zones.Sound) (hname : name.take nameLen ≠ []) : s.Settles i name (s.addEntry i name) := by
  unfold addEntry
  rw [if_neg hname]
  have hfirst : s.zones.zoneNr i (blockPos 0) = (s.zones.inode i).zone 0 := rfl
  by_cases hzero : (s.zones.inode i).zone 0 = 0
  · rw [if_pos hzero]
    exact .inl ⟨⟨0, fun j hj => absurd hj (Nat.not_lt_zero j), hfirst.trans hzero, .inl rfl⟩, .inr ⟨s, rfl, fun _ _ _ => rfl⟩⟩
  · rw [if_neg hzero]
    exact addLoop_spec (q := 0) h (by unfold direntSize; omega) (fun j hj => absurd hj (Nat.not_lt_zero j)) rfl (by decide) hfirst hzero

end FileSys

end RheeKernel
