import RheeKernel.DirTable
import RheeKernel.DirScanRefs
import RheeKernel.DirEntries

namespace RheeKernel

namespace DirScan

variable {block : Nat → BlockRead} {f : Nat → NameEntry} {name : List UInt8} {c : Cursor} {s : Buffers} {entries size i m n : Nat}

/-- In a directory without holes the loop of `find_entry` finds the first entry that matches. -/
theorem findLoop_dense (hmax : ∀ q, 64 * q < entries → q < maxFileBlocks) (hf : ∀ k < entries, Entry block (fun k de => de = f k) k)
    (hi : i ≤ entries) (hn : entries < i + n) (hat : At block i c s m) :
    ∃ r s', findLoop block name entries n i c s = .ok (r, s') ∧
      r.map Prod.snd = Files.firstIndex (fun k => matchName name (f k)) (entries - i) i := by
  induction n generalizing i c s m with
  | zero => omega
  | succ n ih =>
    unfold findLoop
    by_cases hlt : i < entries
    · rw [if_pos hlt]
      obtain ⟨d, hd⟩ : ∃ d, entries - i = d + 1 := ⟨entries - i - 1, by omega⟩
      rcases turn_cases hat with ⟨c', s', m', hturn, hat', hde⟩ | ⟨q, _, hiq, hbad⟩
      · rw [hturn, hd]
        have hhere : c'.data c'.de = f i := (hat'.entry_iff hde).mp (hf i hlt)
        change ∃ r t, (if matchName name (c'.data c'.de) then _ else _) = _ ∧ _
        unfold Files.firstIndex
        rw [hhere]
        by_cases hmatch : matchName name (f i) = true
        · rw [if_pos hmatch, if_pos hmatch]
          exact ⟨_, _, rfl, rfl⟩
        · rw [if_neg hmatch, if_neg hmatch, show d = entries - (i + 1) by omega]
          exact ih (by omega) (by omega) (hat'.next hde)
      · obtain ⟨e, he, _⟩ := hf i hlt
        rw [hiq, Nat.mul_div_cancel_left q (by decide)] at he
        rcases hbad with ⟨hpast, _⟩ | ⟨_, hblock, _⟩ | ⟨_, hblock, _⟩
        · have := hmax q (by omega)
          omega
        · rw [he] at hblock
          cases hblock
        · rw [he] at hblock
          cases hblock
    · rw [if_neg hlt, show entries - i = 0 by omega]
      exact ⟨_, _, rfl, rfl⟩

theorem findEntry_dense (hmax : ∀ q, 64 * q < size / 16 → q < maxFileBlocks)
    (hf : ∀ k < size / 16, Entry block (fun k de => de = f k) k) :
    ∃ r s', findEntry block size name = .ok (r, s') ∧ r.map Prod.snd = RheeKernel.findEntry f (size / 16) name := by
  unfold findEntry RheeKernel.findEntry direntSize
  dsimp only
  by_cases hname : name.take nameLen = []
  · rw [if_pos hname, if_pos hname]
    exact ⟨_, _, rfl, rfl⟩
  · rw [if_neg hname, if_neg hname]
    by_cases h0 : ∃ e, block 0 = .entries e
    · obtain ⟨e, he⟩ := h0
      unfold first
      rw [he]
      exact findLoop_dense hmax hf (Nat.zero_le _) (by omega) (at_first he (Nat.zero_le _))
    · rw [no_first fun e he => h0 ⟨e, he⟩]
      by_cases hempty : size / 16 = 0
      · rw [hempty]
        exact ⟨_, _, rfl, rfl⟩
      · obtain ⟨e, he, _⟩ := hf 0 (by omega)
        exact absurd ⟨e, he⟩ h0

end DirScan

namespace FileSys

/-- The blocks of directory `i` are all there. -/
def Mapped (s : FileSys) (i : Nat) : Prop := ∀ q, blockSize * q < s.size i → s.zones.zoneNr i (blockPos q) ≠ 0

/-- Directory `i` as a table of entries. -/
def table (s : FileSys) (i : Nat) : DirTable := ⟨s.entry i, s.size i / direntSize⟩

variable {s s' t : FileSys} {name : List UInt8} {i k m n q b de : Nat}

theorem dirBlock_mapped (hne : s.zones.zoneNr i (blockPos q) ≠ 0) :
    q < maxFileBlocks ∧ s.dirBlock i q = .entries (s.zones.dev.dirent (s.zones.zoneNr i (blockPos q))) := by
  have hq : q < maxFileBlocks := by
    by_contra hpast
    exact hne (ZoneFs.zoneNr_past (Nat.not_lt.mp hpast))
  refine ⟨hq, ?_⟩
  have hmap : bmap s.zones.dev (s.zones.inode i) q = some (s.zones.zoneNr i (blockPos q)) := (bmap_eq hq).trans (congrArg some (zoneOf_eq hq))
  unfold dirBlock
  rw [hmap]
  exact if_neg hne

/-- `find_entry` looks a name up in the table. -/
theorem find_table (hdir : s.Mapped i) : s.find i name = .ok ((s.table i).find name) := by
  have hmapped : ∀ q, 64 * q < s.size i / 16 → s.zones.zoneNr i (blockPos q) ≠ 0 := by
    intro q hq
    refine hdir q ?_
    unfold blockSize
    omega
  have hentry : ∀ k < s.size i / 16, DirScan.Entry (s.dirBlock i) (fun k e => e = s.entry i k) k := by
    intro k hk
    have hne := hmapped (k / 64) (by omega)
    exact ⟨_, (dirBlock_mapped hne).2, (entry_eq hne).symm⟩
  obtain ⟨r, t, hfind, hr⟩ := @DirScan.findEntry_dense (s.dirBlock i) (s.entry i) name (s.size i)
    (fun q hq => (dirBlock_mapped (hmapped q hq)).1) hentry
  unfold find
  rw [hfind]
  change Except.ok (r.map fun e => (e.2, s.entry i e.2)) = _
  unfold DirTable.find table direntSize
  rw [← hr, Option.map_map]
  rfl

/-- `t` is what `add_entry` has left, with an inode number stored in the new entry. -/
structure Stores (s s' t : FileSys) (i : Nat) (name : List UInt8) (k n : Nat) : Prop where
  sound : t.zones.Sound
  nr : ∀ j q, t.zones.zoneNr j q = s'.zones.zoneNr j q
  entry : ∀ l, t.entry i l = if l = k then ⟨n, padName name⟩ else s.entry i l
  size : t.size = s'.size

theorem Added.stores (h : s.Added s' i name b de k) : Stores s s' s' i name k 0 := by
  refine ⟨h.sound, fun _ _ => rfl, fun l => ?_, rfl⟩
  rw [h.entry]
  by_cases hl : l = k
  · rw [if_pos ⟨rfl, hl⟩, if_pos hl]
  · rw [if_neg fun hc => hl hc.2, if_neg hl]

/-- The caller of `add_entry` stores an inode number. -/
theorem Stores.setInode (h : s.Added s' i name b de k) (ht : Stores s s' t i name k m) (hn : n < 65536) :
    Stores s s' (t.setInode b de n) i name k n := by
  obtain ⟨hb, hne⟩ := h.block
  have hb' : t.zones.zoneNr i (blockPos (k / 64)) = b := (ht.nr i _).trans hb
  obtain ⟨hsound, hnr⟩ := @putBytes_sound t i b (k / 64) [UInt8.ofNat n, UInt8.ofNat (n / 256)] (direntSize * de) ht.sound hb' hne
  refine ⟨hsound, fun j q => (hnr j q).trans (ht.nr j q), fun l => ?_, ht.size⟩
  rw [h.place]
  refine (setInode_entry ht.sound hb' hne hn).trans ?_
  by_cases hl : l = k
  · rw [if_pos ⟨rfl, hl⟩, if_pos hl, ht.entry, if_pos rfl]
  · rw [if_neg fun hc => hl hc.2, if_neg hl, ht.entry, if_neg hl]

/-- The directory ends with an entry, or has a free one before its end. -/
def EndsWhole (s : FileSys) (i : Nat) : Prop :=
  direntSize ∣ s.size i ∨ ∃ j < s.size i / direntSize, (s.entry i j).inode = 0

theorem Stores.mapped (h : s.Added s' i name b de k) (ht : Stores s s' t i name k n) (hdir : s.Mapped i) : t.Mapped i := by
  obtain ⟨hb, hne⟩ := h.block
  intro q hq
  rw [ht.size, h.size] at hq
  rw [ht.nr]
  unfold dirEntriesPerBlock at hb
  unfold direntSize blockSize at hq
  have hold : s.zones.zoneNr i (blockPos q) ≠ 0 → s'.zones.zoneNr i (blockPos q) ≠ 0 := by
    intro hold
    rw [h.keep i _ hold]
    exact hold
  by_cases hbehind : i = i ∧ s.size i ≤ k * 16
  · rw [if_pos hbehind] at hq
    by_cases hat : q = k / 64
    · rw [hat, hb]
      exact hne
    · have hused := (h.used (64 * q) (by omega)).mapped
      rw [Nat.mul_div_cancel_left q (by decide)] at hused
      exact hold hused
  · rw [if_neg hbehind] at hq
    exact hold (hdir q hq)

theorem Stores.put (h : s.Added s' i name b de k) (ht : Stores s s' t i name k n) (hwhole : s.EndsWhole i) :
    (s.table i).Put (t.table i) k ⟨n, padName name⟩ := by
  have hfirst : k < s.size i / 16 ∨ (16 ∣ s.size i ∧ k = s.size i / 16) := by
    by_contra hno
    rw [not_or] at hno
    have hlow : ∀ j < s.size i / 16, (s.entry i j).inode ≠ 0 := fun j hj => (h.used j (by omega)).2
    rcases hwhole with hdvd | ⟨j, hj, hfree⟩
    · unfold direntSize at hdvd
      have hlast := (h.used (s.size i / 16) (by omega)).1
      unfold direntSize at hlast
      omega
    · exact hlow j hj hfree
  have hsize := h.size i
  have hentries : t.size i / 16 = max (s.size i / 16) (k + 1) := by
    rw [ht.size, hsize]
    unfold direntSize
    rcases hfirst with hlt | ⟨hdvd, heq⟩
    · rw [if_neg (by omega)]
      omega
    · rw [if_pos ⟨rfl, by omega⟩]
      omega
  refine ⟨?_, ?_, fun l => ht.entry l, hentries⟩
  · change k ≤ s.size i / 16
    omega
  · change (s.entry i k).inode = 0 ∨ k = s.size i / 16
    rcases hfirst with hlt | ⟨_, heq⟩
    · left
      by_contra hlive
      refine h.free ⟨?_, hlive⟩
      unfold direntSize
      omega
    · exact .inr heq

theorem addEntry_added (h : s.zones.Sound) (hadd : s.addEntry i name = some (s', some (b, de))) :
    name.take nameLen ≠ [] ∧ ∃ k, s.Added s' i name b de k := by
  have hname : name.take nameLen ≠ [] := by
    intro hnil
    unfold addEntry at hadd
    rw [if_pos hnil] at hadd
    cases hadd
  refine ⟨hname, ?_⟩
  rcases addEntry_spec (i := i) h hname with ⟨_, hnone | ⟨t, hnone, _⟩⟩ | ⟨_, t, b', de', k, hsome, hadded⟩
  · rw [hadd] at hnone
    cases hnone
  · rw [hadd] at hnone
    cases hnone
  · rw [hadd] at hsome
    cases hsome
    exact ⟨k, hadded⟩

/-- A directory is a map from the first 14 bytes of names to inode numbers: `add_entry` and a store of the number add a name to it,
and clearing the number takes the name away. -/
theorem add_entry_map (h : s.zones.Sound) (hdir : s.Mapped i) (hwhole : s.EndsWhole i) (hz : ∀ c ∈ name, c ≠ 0)
    (habsent : s.find i name = .ok none) (hpos : n ≠ 0) (hn : n < 65536) (hadd : s.addEntry i name = some (s', some (b, de))) :
    (∀ name', name'.take nameLen = name.take nameLen → ∃ k, (s'.setInode b de n).find i name' = .ok (some (k, ⟨n, padName name⟩))) ∧
    (∀ name', (∀ c ∈ name', c ≠ 0) → name'.take nameLen ≠ name.take nameLen → (s'.setInode b de n).find i name' = s.find i name') ∧
    ∀ name', ((s'.setInode b de n).setInode b de 0).find i name' = s.find i name' := by
  obtain ⟨hname, k, hadded⟩ := addEntry_added h hadd
  have hset : Stores s s' (s'.setInode b de n) i name k n := hadded.stores.setInode hadded hn
  have hclear : Stores s s' ((s'.setInode b de n).setInode b de 0) i name k 0 := hset.setInode hadded (by decide)
  have hput := hset.put hadded hwhole
  rw [find_table hdir] at habsent
  refine ⟨fun name' hsame => ⟨k, ?_⟩, fun name' hz' hdiff => ?_, fun name' => ?_⟩
  · rw [find_table (hset.mapped hadded hdir)]
    have habsent' : (s.table i).find name' = none := by
      rw [DirTable.find_take, hsame, ← DirTable.find_take]
      exact Except.ok.inj habsent
    refine congrArg Except.ok (hput.find_new (by rw [hsame]; exact hname) habsent' ?_)
    rw [hsame]
    exact DirSys.matchName_pad hpos rfl
  · rw [find_table (hset.mapped hadded hdir), find_table hdir]
    refine congrArg Except.ok (hput.find_other (Bool.eq_false_iff.mpr fun hmatch => hdiff ?_))
    exact (matchName_pad_iff hpos hz hz').mp hmatch
  · rw [find_table (hclear.mapped hadded hdir), find_table hdir]
    exact congrArg Except.ok ((hclear.put hadded hwhole).find_other (matchName_free rfl))

/-- The root directory of a device with one data zone, with the entries `.` and `..`. -/
def twoDots (size : Nat) : FileSys :=
  ((((⟨oneZoneFs, fun _ => size⟩ : FileSys).setInode 5 0 1).setName 5 0 dotName).setInode 5 1 1).setName 5 1 dotdotName

theorem twoDots_sound (size : Nat) : (twoDots size).zones.Sound ∧ (twoDots size).zones.zoneNr 1 (blockPos 0) = 5 := by
  have hstep : ∀ (s : FileSys) (o : Nat) (vs : List UInt8), s.zones.Sound ∧ s.zones.zoneNr 1 (blockPos 0) = 5 →
      (s.putBytes 5 o vs).zones.Sound ∧ (s.putBytes 5 o vs).zones.zoneNr 1 (blockPos 0) = 5 := by
    intro s o vs ⟨h, hb⟩
    obtain ⟨hsound, hnr⟩ := @putBytes_sound s 1 5 0 vs o h hb (by decide)
    exact ⟨hsound, (hnr 1 _).trans hb⟩
  exact hstep _ _ _ (hstep _ _ _ (hstep _ _ _ (hstep _ _ _ ⟨(ZoneFs.exact_iff.mp oneZoneFs_exact).1, rfl⟩)))

theorem twoDots_mapped {size : Nat} (h : size ≤ 1024) : (twoDots size).Mapped 1 := by
  intro q hq
  have hq0 : q = 0 := by
    change blockSize * q < size at hq
    unfold blockSize at hq
    omega
  rw [hq0, (twoDots_sound size).2]
  decide


theorem twoDots_add {size : Nat} (h : size = 32 ∨ size = 40) :
    (twoDots size).find 1 [97] = .ok none ∧ ∃ s', (twoDots size).addEntry 1 [97] = some (s', some (5, 2)) := by
  obtain ⟨hfind, hadd⟩ : (twoDots size).find 1 [97] = .ok none ∧ ((twoDots size).addEntry 1 [97]).map Prod.snd = some (some (5, 2)) := by
    rcases h with rfl | rfl
    · decide +kernel
    · decide +kernel
  obtain ⟨r, hr, hplace⟩ := Option.map_eq_some_iff.mp hadd
  exact ⟨hfind, r.1, by rw [hr, ← hplace]⟩

/-- With an `i_size` that is no multiple of the size of an entry the new entry is not found. -/
theorem add_entry_no_map : ¬ ∀ (s s' : FileSys) i n name b de, s.zones.Sound → s.Mapped i → (∀ c ∈ name, c ≠ 0) →
    s.find i name = .ok none → n ≠ 0 → n < 65536 → s.addEntry i name = some (s', some (b, de)) →
      ∃ k e, (s'.setInode b de n).find i name = .ok (some (k, e)) ∧ e.inode = n := by
  intro hall
  obtain ⟨habsent, s', hadd⟩ := @twoDots_add 40 (.inr rfl)
  obtain ⟨k, e, hfind, _⟩ := hall _ _ _ 7 _ _ _ (twoDots_sound 40).1 (twoDots_mapped (by decide))
    (List.forall_mem_singleton.mpr (by decide)) habsent (by decide) (by decide) hadd
  have hlost : ((twoDots 40).addEntry 1 [97]).map (fun r => (r.1.setInode 5 2 7).find 1 [97]) = some (.ok none) := by decide +kernel
  rw [hadd, Option.map_some, hfind] at hlost
  cases hlost

theorem add_entry_map_small : ∃ s', (twoDots 32).addEntry 1 [97] = some (s', some (5, 2)) ∧
    (∃ k, (s'.setInode 5 2 7).find 1 [97] = .ok (some (k, ⟨7, padName [97]⟩))) ∧
    (s'.setInode 5 2 7).find 1 dotName = (twoDots 32).find 1 dotName ∧
    ((s'.setInode 5 2 7).setInode 5 2 0).find 1 [97] = .ok none := by
  obtain ⟨habsent, s', hadd⟩ := @twoDots_add 32 (.inl rfl)
  obtain ⟨hnew, hother, hclear⟩ := @add_entry_map (twoDots 32) s' [97] 1 7 5 2 (twoDots_sound 32).1 (twoDots_mapped (by decide))
    (.inl (by decide)) (List.forall_mem_singleton.mpr (by decide)) habsent (by decide) (by decide) hadd
  exact ⟨s', hadd, hnew [97] rfl, hother dotName (List.forall_mem_singleton.mpr (by decide)) (by decide), (hclear [97]).trans habsent⟩

end FileSys

end RheeKernel
