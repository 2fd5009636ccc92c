import RheeKernel.SyncCache

namespace RheeKernel

namespace SyncSys

variable {s s' t : SyncSys} {i j k n o dev block : Nat} {v w : Nat → UInt8}

/-- Reading a buffer that has not been read. -/
theorem Coherent.fill (h : s.Coherent) (hi : s.Of i dev block) (hon : s.OnDisk dev block) (hup : (s.bh i).bUptodate = false) :
    ∃ s', s.llRwBlock true i = some s' ∧ s'.Coherent ∧ Keeps s s' ∧ s'.freeList = s.freeList ∧ s'.Of i dev block ∧
      (s'.bh i).bUptodate = true ∧ ∀ j, (s'.bh j).bCount = (s.bh j).bCount := by
  obtain ⟨hlt, rfl, rfl⟩ := hi
  have hbh : ∀ j, (s.transfer true i).bh j = if j = i then { s.bh i with
      bData := s.disk (s.bh i).bDev (s.bh i).bBlocknr, bUptodate := true, bDirt := false } else s.bh j :=
    fun j => Function.update_apply _ _ _ _
  have hof : ∀ j d b, (s.transfer true i).Of j d b ↔ s.Of j d b := by
    intro j d b
    unfold Of
    rw [hbh]
    split
    next hj => rw [hj]; exact Iff.rfl
    next => exact Iff.rfl
  have hne : ∀ j, ((s.transfer true i).bh j).bDirt = true → j ≠ i := by
    intro j hd hj
    rw [hbh, if_pos hj] at hd
    cases hd
  have hclean : (s.bh i).bDirt = false := by
    refine Bool.eq_false_iff.mpr fun hd => ?_
    rw [h.read i hlt hd] at hup
    cases hup
  refine ⟨s.transfer true i, ?_, ⟨fun j k d b hd hj hk => h.unique j k d b hd ((hof j d b).mp hj) ((hof k d b).mp hk), ?_, ?_, ?_⟩,
    ⟨rfl, rfl, rfl, rfl, ?_⟩, rfl, (hof i _ _).mpr ⟨hlt, rfl, rfl⟩, ?_, fun j => ?_⟩
  · unfold llRwBlock
    rw [if_neg (not_not_intro hon.1), if_pos hon]
  · intro j hj hd
    have hji := hne j hd
    rw [hbh, if_neg hji] at hd ⊢
    exact h.read j hj hd
  · intro j hj hd
    have hji := hne j hd
    rw [hbh, if_neg hji] at hd ⊢
    exact h.onDisk j hj hd
  · intro j hj hdev hju hd
    rw [hbh] at hdev hju hd ⊢
    split
    next => rfl
    next hji =>
      rw [if_neg hji] at hdev hju hd
      exact h.clean j hj hdev hju hd
  · intro d b v hon' hv
    rcases hv with ⟨j, hj, hju, rfl⟩ | ⟨hno, rfl⟩
    · have hji : j ≠ i := by
        intro hji
        rw [hji, hup] at hju
        cases hju
      refine .inl ⟨j, (hof j d b).mpr hj, ?_, ?_⟩
      · rw [hbh, if_neg hji]
        exact hju
      · rw [hbh, if_neg hji]
    · by_cases hi : s.Of i d b
      · refine .inl ⟨i, (hof i d b).mpr hi, ?_, ?_⟩
        · rw [hbh, if_pos rfl]
        · rw [hbh, if_pos rfl]
          obtain ⟨_, rfl, rfl⟩ := hi
          rfl
      · refine .inr ⟨fun j hj => ?_, rfl⟩
        have hj := (hof j d b).mp hj
        rw [hbh, if_neg]
        · exact hno j hj
        · intro hji
          rw [hji] at hj
          exact hi hj
  · rw [hbh, if_pos rfl]
  · rw [hbh]
    split
    next hj => rw [hj]
    next => rfl

/-- What `bread` does with the buffer that `getblk` has returned. -/
def readIn (s : SyncSys) (i : Nat) : Option (SyncSys × Option Nat) :=
  if (s.bh i).bUptodate then some (s, some i)
  else (s.llRwBlock true i).bind fun s =>
    if (s.bh i).bUptodate then some (s, some i) else (s.brelse i).map fun s => (s, none)

theorem Coherent.readIn (h : s.Coherent) (hl : s.Listed) (hi : s.Of i dev block) (hon : s.OnDisk dev block)
    (hv : s.Contents dev block v) :
    ∃ s', s.readIn i = some (s', some i) ∧ s'.Coherent ∧ s'.Listed ∧ Keeps s s' ∧ s'.Of i dev block ∧
      (s'.bh i).bUptodate = true ∧ (s'.bh i).bData = v ∧ ∀ j, (s'.bh j).bCount = (s.bh j).bCount := by
  have hdata : ∀ {u : SyncSys}, u.Coherent → Keeps s u → u.Of i dev block → (u.bh i).bUptodate = true → (u.bh i).bData = v := by
    intro u hu hk hi hup
    exact hu.contents_unique ((OnDisk.congr hk.hd).mpr hon) (.inl ⟨i, hi, hup, rfl⟩) (hk.contents dev block v hon hv)
  unfold SyncSys.readIn
  by_cases hup : (s.bh i).bUptodate = true
  · have hk := (Written.refl s).toKeeps
    rw [if_pos hup]
    exact ⟨s, rfl, h, hl, hk, hi, hup, hdata h hk hi hup, fun _ => rfl⟩
  · rw [if_neg hup]
    obtain ⟨u, hread, hu, hk, hfree, hof, hup', hcount⟩ := h.fill hi hon (Bool.eq_false_iff.mpr hup)
    rw [hread, Option.bind_some, if_pos hup']
    refine ⟨u, rfl, hu, ⟨?_, ?_, ?_⟩, hk, hof, hup', hdata hu hk hof hup', hcount⟩
    · rw [hk.nrBuffers]
      exact hl.pos
    · rw [hk.nrBuffers, hfree]
      exact hl.mem
    · rw [hfree]
      exact hl.distinct

/-- `bread` delivers what the block holds. -/
theorem Coherent.bread (h : s.Coherent) (hl : s.Listed) (hon : s.OnDisk dev block) (hv : s.Contents dev block v) :
    ∃ s' i, s.bread dev block = some (s', some i) ∧ s'.Coherent ∧ s'.Listed ∧ Keeps s s' ∧ s'.Of i dev block ∧
      (s'.bh i).bUptodate = true ∧ (s'.bh i).bData = v ∧
      ∀ j, (s'.bh j).bCount = if j = i then uchar ((s.bh i).bCount + 1) else (s.bh j).bCount := by
  obtain ⟨t, i, hget, ht, hlist, hkeeps, hof, hcount⟩ := @Coherent.getblk s dev block h hl
  obtain ⟨u, hread, hu, hlist', hkeeps', hof', hup, hdata, hcount'⟩ := ht.readIn hlist hof ((OnDisk.congr hkeeps.hd).mpr hon)
    (hkeeps.contents dev block v hon hv)
  refine ⟨u, i, ?_, hu, hlist', hkeeps.trans hkeeps', hof', hup, hdata, fun j => (hcount' j).trans (hcount j)⟩
  unfold SyncSys.bread
  rw [hget, Option.bind_some]
  exact hread

/-- A store to the buffer of a block: this block holds the new bytes, the others what they held. -/
theorem Coherent.store (h : s.Coherent) (hi : s.Of i dev block) (hon : s.OnDisk dev block) (hup : (s.bh i).bUptodate = true)
    (hbh : ∀ j, s'.bh j = if j = i then { s.bh i with bData := w, bDirt := true, bCount := n } else s.bh j)
    (hn : s'.nrBuffers = s.nrBuffers) (hhd : s'.hd = s.hd) (hdisk : s'.disk = s.disk) :
    s'.Coherent ∧ s'.Contents dev block w ∧
      ∀ d b v, s.OnDisk d b → ¬ (d = dev ∧ b = block) → s.Contents d b v → s'.Contents d b v := by
  obtain ⟨hlt, hd, hb⟩ := hi
  have hof : ∀ j d b, s'.Of j d b ↔ s.Of j d b := by
    intro j d b
    unfold Of
    rw [hn, hbh]
    split
    next hj => rw [hj]
    next => exact Iff.rfl
  refine ⟨⟨fun j k d b hne hj hk => h.unique j k d b ((OnDisk.congr hhd).mp hne) ((hof j d b).mp hj) ((hof k d b).mp hk), fun j hj hdj => ?_,
    fun j hj hdj => ?_, fun j hj hdev hju hdj => ?_⟩, .inl ⟨i, (hof i dev block).mpr ⟨hlt, hd, hb⟩, ?_, ?_⟩, fun d b v _ hne hv => ?_⟩
  · rw [hbh] at hdj ⊢
    split
    next => exact hup
    next hji =>
      rw [if_neg hji] at hdj
      exact h.read j (hn ▸ hj) hdj
  · rw [OnDisk.congr hhd]
    rw [hbh] at hdj ⊢
    split
    next =>
      dsimp only
      rw [hd, hb]
      exact hon
    next hji =>
      rw [if_neg hji] at hdj
      exact h.onDisk j (hn ▸ hj) hdj
  · rw [hbh] at hdev hju hdj ⊢
    rw [hdisk]
    split at hdj
    next => cases hdj
    next hji =>
      rw [if_neg hji] at hdev hju ⊢
      exact h.clean j (hn ▸ hj) hdev hju hdj
  · rw [hbh, if_pos rfl]
    exact hup
  · rw [hbh, if_pos rfl]
  · have hji : ∀ j, s.Of j d b → j ≠ i := by
      rintro j ⟨_, hjd, hjb⟩ hji
      rw [hji] at hjd hjb
      exact hne ⟨hjd.symm.trans hd, hjb.symm.trans hb⟩
    rcases hv with ⟨j, hj, hju, rfl⟩ | ⟨hno, rfl⟩
    · refine .inl ⟨j, (hof j d b).mpr hj, ?_, ?_⟩
      · rw [hbh, if_neg (hji j hj)]
        exact hju
      · rw [hbh, if_neg (hji j hj)]
    · refine .inr ⟨fun j hj => ?_, by rw [hdisk]⟩
      have hj := (hof j d b).mp hj
      rw [hbh, if_neg (hji j hj)]
      exact hno j hj

open Classical in
/-- `write_inode` puts the inode into its block, wherever the buffers come from. -/
theorem Coherent.writeInode (h : s.Coherent) (hl : s.Listed) (hcounts : ∀ i, (s.bh i).bCount < 255)
    (hhome : s.Home k (s.inode k).iDev block) (hon : s.OnDisk (s.inode k).iDev block) :
    ∃ s', s.writeInode k = some s' ∧ s'.Coherent ∧ s'.Listed ∧ s'.nrBuffers = s.nrBuffers ∧ s'.super = s.super ∧ s'.hd = s.hd ∧
      s'.inode = Function.update s.inode k { s.inode k with iDirt := false } ∧ (∀ i, (s'.bh i).bCount = (s.bh i).bCount) ∧
      ∀ d b v, s.OnDisk d b → s.Contents d b v →
        s'.Contents d b fun o => if s.Covers k d b o then (s.inode k).dInode (o % 32) else v o := by
  obtain ⟨sb, hsb, _, hnum, rfl⟩ := hhome
  obtain ⟨v, hv⟩ := @contents_exists s (s.inode k).iDev (inodeBlock sb (s.inode k).iNum)
  obtain ⟨t, b, hread, hsound, hlist, hkeeps, hof, hup, hdata, hcount⟩ := h.bread hl hon hv
  have hb : (t.bh b).bCount = (s.bh b).bCount + 1 := by
    have := hcounts b
    rw [hcount, if_pos rfl, uchar]
    omega
  unfold SyncSys.writeInode
  rw [hsb]
  dsimp only
  rw [if_neg (by omega), hread, Option.bind_some]
  dsimp only
  generalize hput : putInode (t.bh b).bData (((s.inode k).iNum - 1) % inodesPerBlock) (s.inode k).dInode = w
  generalize hu : t.putBack k b = u
  have hub : ∀ j, u.bh j = if j = b then { t.bh b with bData := w, bDirt := true } else t.bh j := by
    intro j
    rw [← hu, ← hput, ← hkeeps.inode]
    exact Function.update_apply _ _ _ _
  have hrel : u.brelse b = some (u.setBh b { u.bh b with bCount := (u.bh b).bCount - 1 }) := by
    unfold SyncSys.brelse
    rw [if_neg]
    rw [hub, if_pos rfl]
    dsimp only
    omega
  rw [hrel]
  refine ⟨_, rfl, ?_⟩
  have hbh : ∀ j, (u.setBh b { u.bh b with bCount := (u.bh b).bCount - 1 }).bh j =
      if j = b then { t.bh b with bData := w, bDirt := true, bCount := (s.bh b).bCount } else t.bh j := by
    intro j
    change Function.update u.bh b _ j = _
    rw [Function.update_apply, hub b, if_pos rfl, hub j]
    split
    next =>
      dsimp only
      rw [hb, Nat.add_sub_cancel]
    next => rfl
  have hun : u.nrBuffers = t.nrBuffers := by rw [← hu]; rfl
  have hufree : u.freeList = t.freeList := by rw [← hu]; rfl
  have husuper : u.super = t.super := by rw [← hu]; rfl
  have huhd : u.hd = t.hd := by rw [← hu]; rfl
  have hudisk : u.disk = t.disk := by rw [← hu]; rfl
  have huinode : u.inode = Function.update t.inode k { t.inode k with iDirt := false } := by rw [← hu]; rfl
  obtain ⟨hsound', hnew, hrest⟩ := hsound.store hof ((OnDisk.congr hkeeps.hd).mpr hon) hup hbh hun huhd hudisk
  refine ⟨hsound', ⟨?_, fun i => ?_, ?_⟩, hun.trans hkeeps.nrBuffers, husuper.trans hkeeps.super, huhd.trans hkeeps.hd, ?_, fun i => ?_,
    fun d c v' hon' hv' => ?_⟩
  · exact hun ▸ hlist.pos
  · change i ∈ u.freeList ↔ i < u.nrBuffers
    rw [hun, hufree]
    exact hlist.mem i
  · exact hufree ▸ hlist.distinct
  · change u.inode = _
    rw [huinode, hkeeps.inode]
  · rw [hbh]
    split
    next hi => rw [hi]
    next hi => rw [hcount, if_neg hi]
  · have hcovers : ∀ o, s.Covers k d c o ↔ (d = (s.inode k).iDev ∧ c = inodeBlock sb (s.inode k).iNum) ∧
        o / 32 = ((s.inode k).iNum - 1) % inodesPerBlock := by
      intro o
      constructor
      · rintro ⟨⟨sb', hsb', rfl, _, rfl⟩, ho⟩
        rw [hsb] at hsb'
        cases hsb'
        exact ⟨⟨rfl, rfl⟩, ho⟩
      · rintro ⟨⟨rfl, rfl⟩, ho⟩
        exact ⟨⟨sb, hsb, rfl, hnum, rfl⟩, ho⟩
    by_cases hdc : d = (s.inode k).iDev ∧ c = inodeBlock sb (s.inode k).iNum
    · obtain ⟨rfl, rfl⟩ := hdc
      have hvv := h.contents_unique hon hv hv'
      have hw : w = fun o => if s.Covers k (s.inode k).iDev (inodeBlock sb (s.inode k).iNum) o then (s.inode k).dInode (o % 32)
          else v' o := by
        funext o
        rw [← hput, hdata, hvv]
        unfold putInode
        by_cases ho : o / 32 = ((s.inode k).iNum - 1) % inodesPerBlock
        · rw [if_pos ho, if_pos ((hcovers o).mpr ⟨⟨rfl, rfl⟩, ho⟩)]
        · rw [if_neg ho, if_neg fun hc => ho ((hcovers o).mp hc).2]
      rw [← hw]
      exact hnew
    · have hw : (fun o => if s.Covers k d c o then (s.inode k).dInode (o % 32) else v' o) = v' := by
        funext o
        rw [if_neg fun hc => hdc ((hcovers o).mp hc).1]
      rw [hw]
      exact hrest d c v' ((OnDisk.congr hkeeps.hd).mpr hon') hdc (hkeeps.contents d c v' hon' hv')

theorem Covers.congr (hsuper : s'.super = s.super) (hinode : s'.inode k = s.inode k) :
    s'.Covers k dev block o ↔ s.Covers k dev block o := by
  unfold Covers Home
  rw [hsuper, hinode]

/-- Two inodes of a device with a byte in common are the same one. -/
theorem Covers.num_eq (hk : s.Covers k dev block o) (hj : s.Covers j dev block o) :
    (s.inode k).iDev = (s.inode j).iDev ∧ (s.inode k).iNum = (s.inode j).iNum := by
  obtain ⟨⟨sb, hsb, hkd, hkn, hkb⟩, hko⟩ := hk
  obtain ⟨⟨sb', hsb', hjd, hjn, hjb⟩, hjo⟩ := hj
  rw [hsb] at hsb'
  cases hsb'
  unfold inodeBlock inodesPerBlock at hkb hjb
  unfold inodesPerBlock at hko hjo
  exact ⟨hkd.trans hjd.symm, by omega⟩

/-- What `sync_inodes` leaves of the first `n` inodes, in the buffers or already on the disk. -/
structure InodesSynced (n : Nat) (s s' : SyncSys) : Prop where
  nrBuffers : s'.nrBuffers = s.nrBuffers
  super : s'.super = s.super
  hd : s'.hd = s.hd
  counts : ∀ i, (s'.bh i).bCount = (s.bh i).bCount
  clean : ∀ k, k < n → s.Stale k → s'.inode k = { s.inode k with iDirt := false }
  others : ∀ k, ¬ (k < n ∧ s.Stale k) → s'.inode k = s.inode k
  contents : ∀ d b v, s.OnDisk d b → s.Contents d b v → ∃ w, s'.Contents d b w ∧ ∀ o,
    (∀ k < n, s.Stale k → s.Covers k d b o → w o = (s.inode k).dInode (o % 32)) ∧
    ((∀ k < n, s.Stale k → ¬ s.Covers k d b o) → w o = v o)

theorem Consistent.syncInodes (h : s.Consistent) (hn : n ≤ nrInode) :
    ∃ s', syncInodes n s = some s' ∧ s'.Coherent ∧ s'.Listed ∧ InodesSynced n s s' := by
  induction n with
  | zero =>
    refine ⟨s, rfl, h.toSound.coherent, h.toListed, rfl, rfl, rfl, fun _ => rfl, fun k hk => absurd hk (Nat.not_lt_zero k), fun _ _ => rfl,
      fun d b v _ hv => ⟨v, hv, fun o => ⟨fun k hk => absurd hk (Nat.not_lt_zero k), fun _ => rfl⟩⟩⟩
  | succ n ih =>
    obtain ⟨t, ht, hsound, hlist, hs⟩ := ih (by omega)
    have hsame : t.inode n = s.inode n := hs.others n fun hc => Nat.lt_irrefl n hc.1
    unfold SyncSys.syncInodes
    rw [ht, Option.bind_some, hsame]
    by_cases hstale : s.Stale n
    · have hcond : ((s.inode n).iDirt && !(s.inode n).iPipe) = true := by
        rw [hstale.2.1, hstale.2.2]
        rfl
      obtain ⟨block, hhome, hon⟩ := h.home n hstale
      have hcovers : ∀ d b o, t.Covers n d b o ↔ s.Covers n d b o := fun d b o => Covers.congr hs.super hsame
      have hhome' : t.Home n (t.inode n).iDev block := by
        unfold Home at hhome ⊢
        rw [hs.super, hsame]
        exact hhome
      have hon' : t.OnDisk (t.inode n).iDev block := by
        rw [OnDisk.congr hs.hd, hsame]
        exact hon
      obtain ⟨u, hwrite, hsound', hlist', hnr, hsuper, hhd, hinode, hcounts, hcontents⟩ :=
        hsound.writeInode hlist (fun i => by rw [hs.counts]; exact h.counts i) hhome' hon'
      rw [if_pos hcond]
      refine ⟨u, hwrite, hsound', hlist', hnr.trans hs.nrBuffers, hsuper.trans hs.super, hhd.trans hs.hd,
        fun i => (hcounts i).trans (hs.counts i), fun k hk hst => ?_, fun k hk => ?_, fun d b v hd hv => ?_⟩
      · rw [hinode]
        by_cases hkn : k = n
        · rw [hkn, Function.update_self, hsame]
        · rw [Function.update_of_ne hkn]
          exact hs.clean k (by omega) hst
      · rw [hinode]
        have hkn : k ≠ n := by
          rintro rfl
          exact hk ⟨Nat.lt_succ_self _, hstale⟩
        rw [Function.update_of_ne hkn]
        exact hs.others k fun hc => hk ⟨by omega, hc.2⟩
      · obtain ⟨w, hw, hbytes⟩ := hs.contents d b v hd hv
        refine ⟨_, hcontents d b w ((OnDisk.congr hs.hd).mpr hd) hw, fun o => ⟨fun k hk hst hcov => ?_, fun hnone => ?_⟩⟩
        · by_cases hcn : s.Covers n d b o
          · -- The place of an inode belongs to no other one.
            obtain ⟨hdev, hnum⟩ := hcov.num_eq hcn
            have hkn := h.apart k n hst hstale hdev hnum
            rw [if_pos ((hcovers d b o).mpr hcn), hsame, hkn]
          · have hkn : k ≠ n := by
              rintro rfl
              exact hcn hcov
            rw [if_neg fun hc => hcn ((hcovers d b o).mp hc)]
            exact (hbytes o).1 k (by omega) hst hcov
        · rw [if_neg fun hc => hnone n (Nat.lt_succ_self n) hstale ((hcovers d b o).mp hc)]
          exact (hbytes o).2 fun k hk => hnone k (by omega)
    · have hcond : ¬ ((s.inode n).iDirt && !(s.inode n).iPipe) = true := by
        intro hc
        rw [Bool.and_eq_true, Bool.not_eq_true'] at hc
        exact hstale ⟨by omega, hc.1, hc.2⟩
      have hlt : ∀ k, k < n + 1 → s.Stale k → k < n := by
        intro k hk hst
        have hkn : k ≠ n := by
          rintro rfl
          exact hstale hst
        omega
      rw [if_neg hcond]
      refine ⟨t, rfl, hsound, hlist, hs.nrBuffers, hs.super, hs.hd, hs.counts, fun k hk hst => hs.clean k (hlt k hk hst) hst,
        fun k hk => hs.others k fun hc => hk ⟨by omega, hc.2⟩, fun d b v hd hv => ?_⟩
      obtain ⟨w, hw, hbytes⟩ := hs.contents d b v hd hv
      exact ⟨w, hw, fun o => ⟨fun k hk hst => (hbytes o).1 k (hlt k hk hst) hst,
        fun hnone => (hbytes o).2 fun k hk => hnone k (by omega)⟩⟩

/-- Without a dirty buffer the disk holds what the blocks hold. -/
theorem Coherent.flushed (h : s.Coherent) (hclean : ∀ i < s.nrBuffers, (s.bh i).bDirt = false) (hdev : dev ≠ 0) (hv : s.Contents dev block v) :
    s.disk dev block = v := by
  rcases hv with ⟨i, ⟨hi, rfl, rfl⟩, hup, rfl⟩ | ⟨_, rfl⟩
  · exact (h.clean i hi hdev hup (hclean i hi)).symm
  · rfl

end SyncSys

/-- One buffer, dirty, and the dirty inode 1, whose block is on the disk only. -/
def syncSample : SyncSys where
  nrBuffers := 1
  bh := fun _ => ⟨0x301, 9, true, true, 0, fun _ => 5⟩
  freeList := [0]
  super := fun _ => some ⟨1, 1⟩
  inode := fun k => ⟨fun _ => 7, 0x301, 1, k = 0, false⟩
  hd := fun _ => ⟨0, 100⟩
  disk := fun _ _ _ => 0

theorem syncSample_onDisk : syncSample.OnDisk 0x301 4 ∧ syncSample.OnDisk 0x301 9 := by decide

theorem syncSample_home {k : Nat} : syncSample.Home k 0x301 4 :=
  ⟨⟨1, 1⟩, rfl, rfl, Nat.one_pos, show SyncSys.inodeBlock ⟨1, 1⟩ 1 = 4 by decide⟩

theorem syncSample_consistent : syncSample.Consistent := by
  have hzero : ∀ {i : Nat}, i < 1 → i = 0 := fun hi => by omega
  have hstale : ∀ k, syncSample.Stale k → k = 0 := fun k hk => of_decide_eq_true hk.2.1
  refine ⟨⟨fun i j dev block _ hi hj => (hzero hi.1).trans (hzero hj.1).symm, fun _ _ _ => rfl, fun _ _ _ => syncSample_onDisk.2,
    fun _ _ _ _ hd => nomatch hd⟩, ⟨Nat.one_pos, fun i => ?_, List.pairwise_singleton _ _⟩,
    ⟨fun k _ => ⟨4, syncSample_home, syncSample_onDisk.1⟩, fun k l hk hl _ _ => (hstale k hk).trans (hstale l hl).symm⟩,
    fun _ => show 0 < 255 by decide⟩
  change i ∈ [0] ↔ i < 1
  rw [List.mem_singleton]
  omega

end RheeKernel
