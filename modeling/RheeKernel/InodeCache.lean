import RheeKernel.InodeSlots

namespace RheeKernel

namespace Vfs

/-- No inode is in the table twice, and a clean one is what its inode block holds. -/
structure Cached (s : Vfs) : Prop extends Table s where
  unique : ∀ j k, (s.slot j).dev ≠ 0 → (s.slot j).dev = (s.slot k).dev → (s.slot j).num = (s.slot k).num → j = k
  coherent : ∀ k, (s.slot k).dev ≠ 0 → (s.slot k).dirt = false → (s.slot k).toDiskInode = s.disk (s.slot k).num

variable {s s' : Vfs} {op : InodeOp} {dev nr k e n : Nat} {i : CoreInode}

theorem Replaces.disk_clean (hr : Replaces k i s s') (hclean : (s.slot k).dirt = false) : s'.disk = s.disk := by
  rcases hr.disk with hdisk | ⟨hdisk, _⟩
  · exact hdisk
  · rw [hdisk]
    unfold written
    rw [hclean]
    rfl

theorem Replaces.unique (h : ∀ j k, (s.slot j).dev ≠ 0 → (s.slot j).dev = (s.slot k).dev → (s.slot j).num = (s.slot k).num → j = k)
    (hr : Replaces k i s s') (hnew : i.dev ≠ 0 → ∀ j, j ≠ k → ¬ ((s.slot j).dev = i.dev ∧ (s.slot j).num = i.num)) :
    ∀ a b, (s'.slot a).dev ≠ 0 → (s'.slot a).dev = (s'.slot b).dev → (s'.slot a).num = (s'.slot b).num → a = b := by
  have hself : s'.slot k = i := (hr.at k).trans (if_pos rfl)
  have hother : ∀ j, j ≠ k → s'.slot j = s.slot j := fun j hj => (hr.at j).trans (if_neg hj)
  intro a b ha hdev hnum
  by_cases hak : a = k
  · by_cases hbk : b = k
    · rw [hak, hbk]
    · rw [hak, hself] at ha hdev hnum
      rw [hother b hbk] at hdev hnum
      exact absurd ⟨hdev.symm, hnum.symm⟩ (hnew ha b hbk)
  · rw [hother a hak] at ha hdev hnum
    by_cases hbk : b = k
    · rw [hbk, hself] at hdev hnum
      exact absurd ⟨hdev, hnum⟩ (hnew (hdev ▸ ha) a hak)
    · rw [hother b hbk] at hdev hnum
      exact h a b ha hdev hnum

/-- What is written for the inode in slot `k` is not read by any other slot. -/
theorem Cached.replace (h : s.Cached) (hk : k < nrInode) (hr : Replaces k i s s') (hi : s.Fits i)
    (hnew : i.dev ≠ 0 → ∀ j, j ≠ k → ¬ ((s.slot j).dev = i.dev ∧ (s.slot j).num = i.num))
    (hclean : i.dev ≠ 0 → i.dirt = false → i.toDiskInode = s'.disk i.num) : s'.Cached := by
  have hself : s'.slot k = i := (hr.at k).trans (if_pos rfl)
  have hother : ∀ j, j ≠ k → s'.slot j = s.slot j := fun j hj => (hr.at j).trans (if_neg hj)
  refine ⟨h.toTable.replace hk hr hi, hr.unique h.unique hnew, fun j hdev hdirt => ?_⟩
  by_cases hj : j = k
  · rw [hj, hself] at hdev hdirt ⊢
    exact hclean hdev hdirt
  · rw [hother j hj] at hdev hdirt ⊢
    rw [h.coherent j hdev hdirt]
    rcases hr.disk with hdisk | ⟨hdisk, hhome⟩
    · rw [hdisk]
    · rw [hdisk]
      unfold written
      split
      next hd =>
        have hne : (s.slot j).num ≠ (s.slot k).num := by
          intro hnum
          have hmine := (h.home j).resolve_left hdev
          exact hj (h.unique j k hdev (hmine.trans (hhome hd).symm) hnum)
        rw [Function.update_of_ne hne]
      next => rfl

/-- An inode that stays where it is is in no other slot. -/
theorem Cached.stays (h : s.Cached) (hdev : i.dev = (s.slot k).dev) (hnum : i.num = (s.slot k).num) :
    i.dev ≠ 0 → ∀ j, j ≠ k → ¬ ((s.slot j).dev = i.dev ∧ (s.slot j).num = i.num) :=
  fun hne j hj hc => hj (h.unique j k (hc.1 ▸ hne) (hc.1.trans hdev) (hc.2.trans hnum))

/-- A clean inode that is not changed stays what its block holds. -/
theorem Cached.keeps (h : s.Cached) (hr : Replaces k i s s') (hdev : i.dev = (s.slot k).dev) (hnum : i.num = (s.slot k).num)
    (hdirt : i.dirt = (s.slot k).dirt) (hdisk : i.toDiskInode = (s.slot k).toDiskInode) :
    i.dev ≠ 0 → i.dirt = false → i.toDiskInode = s'.disk i.num := by
  intro hne hclean
  rw [hdirt] at hclean
  rw [hdisk, hr.disk_clean hclean, hnum]
  exact h.coherent k (hdev ▸ hne) hclean

theorem Cached.unchanged (h : s.Cached) (hdev : s'.dev = s.dev) (hslot : s'.slot = s.slot) (hdisk : s'.disk = s.disk) : s'.Cached :=
  ⟨h.toTable.unchanged hdev hslot, hslot ▸ h.unique, by rw [hslot, hdisk]; exact h.coherent⟩

/-- A slot is emptied. -/
theorem Cached.clear (h : s.Cached) (hk : k < nrInode) (hr : Replaces k {} s s') : s'.Cached :=
  h.replace hk hr .empty (fun hne => absurd rfl hne) fun hne => absurd rfl hne

theorem PutBack.cached (hp : PutBack k i s s') (h : s.Cached) : s'.Cached := by
  have hfits := hp.fits h.toTable
  have hr := hp.toReplaces
  have hk := h.bound hp.used
  rcases hp.left with rfl | ⟨hpipe, rfl⟩ | rfl | ⟨hdirt, rfl, hdisk⟩
  · exact h.replace hk hr hfits (h.stays rfl rfl) (h.keeps hr rfl rfl rfl rfl)
  · exact h.replace hk hr hfits (h.stays rfl rfl) fun hne => absurd (h.pipes k hpipe) hne
  · exact h.clear hk hr
  · refine h.replace hk hr hfits (h.stays rfl rfl) fun _ _ => ?_
    rw [hdisk]
    unfold written
    rw [if_pos hdirt, Function.update_self]

theorem Cached.step (h : s.Cached) (hok : Careful s op) (hs : opStep s op = some s') : s'.Cached := by
  cases op with
  | iget dev nr =>
    obtain ⟨⟨k, _⟩, hget, rfl⟩ := Option.map_eq_some_iff.mp hs
    obtain ⟨hdev, e, he, hdirt, ⟨hne, hk, hkd, _, rfl⟩ | ⟨rfl, hhome, hnone, rfl⟩⟩ := iget_some hget
    · have hmine : (s.slot k).dev = s.dev := (h.home k).resolve_left (hkd ▸ hdev)
      obtain ⟨hempty, hshared⟩ := shared_replaces (k := k) hdirt
      have hclear := h.clear (emptySlot_some he).1 hempty
      have hsame : (s.emptied e {}).slot k = s.slot k := Function.update_of_ne hne _ _
      have hfits : (s.emptied e {}).Fits { s.slot k with count := (s.slot k).count + 1 } :=
        ⟨h.home k, h.pipes k, fun _ _ => hmine, h.dirty k⟩
      rw [← hsame] at hshared hfits
      exact hclear.replace hk hshared hfits (hclear.stays rfl rfl) (hclear.keeps hshared rfl rfl rfl rfl)
    · have hfits : s.Fits { s.written k nr with dev := dev, num := nr, count := 1 } :=
        ⟨.inr hhome, (fun hp => nomatch hp), fun _ _ => hhome, fun _ => hhome⟩
      refine h.replace (emptySlot_some he).1 (emptied_replaces hdirt) hfits (fun _ j hj hc => ?_) fun _ _ => rfl
      by_cases hlt : j < nrInode
      · exact hnone j hlt hj hc
      · rw [h.far j (by omega)] at hc
        exact hdev hc.1.symm
  | newInode dev =>
    obtain ⟨⟨o, _⟩, hnew, rfl⟩ := Option.map_eq_some_iff.mp hs
    obtain ⟨e, he, hdirt, hdev, ⟨_, _, rfl⟩ | ⟨n, hn, _, rfl⟩⟩ := newInode_some hnew
    · exact h.clear (emptySlot_some he).1 (emptied_replaces hdirt)
    · have hfits : s.Fits { count := 1, nlinks := 1, dev := dev, dirt := true, num := n, mtime := s.now } :=
        ⟨.inr hdev, (fun hp => nomatch hp), fun _ _ => hdev, fun _ => hdev⟩
      refine (h.replace (emptySlot_some he).1 (emptied_replaces hdirt) hfits (fun _ j hj hc => ?_) fun _ hd => nomatch hd).unchanged rfl rfl rfl
      have hat := hok n hn j (hc.1.trans hdev) hc.2
      rw [he] at hat
      exact hj (Option.some.inj hat).symm
  | getPipeInode =>
    obtain ⟨⟨o, _⟩, hpipe, rfl⟩ := Option.map_eq_some_iff.mp hs
    obtain ⟨e, he, hdirt, rfl⟩ := getPipeInode_some hpipe
    refine Cached.unchanged (s := s.emptied e _) ?_ rfl rfl rfl
    split
    next => exact h.clear (emptySlot_some he).1 (emptied_replaces hdirt)
    next =>
      have hfits : s.Fits { count := 2, size := s.answers.headD 0, pipe := true } :=
        ⟨.inl rfl, fun _ => rfl, (fun _ hp => nomatch hp), fun hd => nomatch hd⟩
      exact h.replace (emptySlot_some he).1 (emptied_replaces hdirt) hfits (fun hne => absurd rfl hne) fun hne => absurd rfl hne
  | iput k =>
    obtain ⟨x, hput, rfl⟩ := Option.map_eq_some_iff.mp hs
    obtain ⟨i, hi⟩ := iput_some hput
    exact hi.cached h
  | hold k n =>
    obtain ⟨hpos, rfl⟩ := hold_some hs
    have hr : Replaces k { s.slot k with count := (s.slot k).count + n } s _ := setSlot_replaces
    exact h.replace (h.bound hpos) hr (.count h.toTable hpos) (h.stays rfl rfl) (h.keeps hr rfl rfl rfl rfl)
  | assign k d =>
    obtain ⟨hu, rfl⟩ := assign_some hs
    have hfits : s.Fits { s.slot k with toDiskInode := d, dirt := true } :=
      ⟨h.home k, h.pipes k, fun _ _ => h.named k hu, fun _ => h.named k hu⟩
    exact h.replace (h.bound hu.1) setSlot_replaces hfits (h.stays rfl rfl) fun _ hd => nomatch hd
  | stamp k =>
    obtain ⟨hu, rfl⟩ := stamp_some hs
    have hr : Replaces k { s.slot k with mtime := s.now } s _ := setSlot_replaces
    have hfits : s.Fits { s.slot k with mtime := s.now } := ⟨h.home k, h.pipes k, fun _ _ => h.named k hu, h.dirty k⟩
    refine h.replace (h.bound hu.1) hr hfits (h.stays rfl rfl) fun hne hclean => ?_
    have hsame : (s.slot k).mtime = s.now := hok.resolve_left fun hd => by
      rw [show (s.slot k).dirt = false from hclean] at hd
      cases hd
    exact h.keeps hr rfl rfl rfl (by rw [← hsame]) hne hclean
  | sync k =>
    obtain ⟨hdirt, hr, hdisk⟩ := sync_some hs
    have hfits : s.Fits { s.slot k with dirt := false } := ⟨h.home k, h.pipes k, fun hc hp => h.named k ⟨hc, hp⟩, fun hd => nomatch hd⟩
    refine h.replace (h.bound_dirty hdirt) hr hfits (h.stays rfl rfl) fun _ _ => ?_
    rw [hdisk]
    unfold written
    rw [if_pos hdirt, Function.update_self]
  | beside t =>
    cases Option.some.inj hs
    exact h.unchanged rfl rfl rfl

/-- An operation that is not careful leaves a clean inode that is not what its block holds, or an inode that is in the table twice. -/
theorem Cached.careful (h : s.Cached) (hs : opStep s op = some s') (h' : s'.Cached) : Careful s op := by
  cases op with
  | newInode dev =>
    obtain ⟨⟨o, _⟩, hnew, rfl⟩ := Option.map_eq_some_iff.mp hs
    obtain ⟨e, he, hdirt, hdev, ⟨_, hnone, rfl⟩ | ⟨n, hn, _, rfl⟩⟩ := newInode_some hnew
    · intro n hn
      rw [hnone] at hn
      cases hn
    · intro m hm k hkd hkn
      rw [hn] at hm
      cases Option.some.inj hm
      by_contra hne
      have hke : k ≠ e := fun hke => hne (hke ▸ he)
      have hself : (s.numbered e dev n).slot e = { count := 1, nlinks := 1, dev := dev, dirt := true, num := n, mtime := s.now } :=
        Function.update_self ..
      have hother : (s.numbered e dev n).slot k = s.slot k := Function.update_of_ne hke _ _
      refine hke (h'.unique k e ?_ ?_ ?_)
      · dsimp only
        rw [hother, hkd]
        exact h.mounted
      · dsimp only
        rw [hother, hself, hkd, hdev]
      · dsimp only
        rw [hother, hself, hkn]
  | stamp k =>
    obtain ⟨hu, rfl⟩ := stamp_some hs
    cases hdirt : (s.slot k).dirt with
    | true => exact .inl hdirt
    | false =>
      have hdev : (s.slot k).dev ≠ 0 := by
        rw [h.named k hu]
        exact h.mounted
      have hself : (s.setSlot k { s.slot k with mtime := s.now }).slot k = { s.slot k with mtime := s.now } := Function.update_self ..
      have hnew := h'.coherent k (by rw [hself]; exact hdev) (by rw [hself]; exact hdirt)
      rw [hself] at hnew
      have htime : s.now = (s.disk (s.slot k).num).mtime := congrArg DiskInode.mtime hnew
      exact .inr ((congrArg DiskInode.mtime (h.coherent k hdev hdirt)).trans htime.symm)
  | _ => trivial

theorem Booted.cached {t : Nat} {s₀ s₁ : Vfs} (h : s₀.Booted t) (hmount : mountRoot t s₀ = some ((), s₁)) : s₀.Cached := by
  refine ⟨h.table hmount, fun j k hj => ?_, fun k hk => ?_⟩
  · rw [h.slot] at hj
    exact absurd rfl hj
  · rw [h.slot] at hk
    exact absurd rfl hk

theorem Cached.run (h : s.Cached) (hr : Machine.Reach opStep Careful s s') : s'.Cached :=
  hr.invariant h fun _ _ _ hI hok hs => hI.step hok hs

theorem Ran.careful (h : Ran False s s') : Machine.Reach opStep Careful s s' := h.mono fun _ _ hok => hok.resolve_right id

/-- A call that comes out as careful inode operations would; a harmless one does. -/
def Gentle (s : Vfs) (e : VfsEvent) : Prop := Harmless s e ∨ ∀ s', vfsStep s e = some s' → Machine.Reach opStep Careful s s'

end Vfs

/-- In every run of system calls that are harmless or made of careful inode operations, an inode in the table that is of a device, no
pipe and clean is what its inode block holds. An operation at any point of the next call keeps the cache coherent, with no inode twice in
it, exactly if it is careful. -/
theorem inode_cache_coherent {t : Nat} {s₀ s₁ s : Vfs} (hboot : s₀.Booted t) (ht : t < nrTasks) (hmount : Vfs.mountRoot t s₀ = some ((), s₁))
    (h : Machine.Reach vfsStep Vfs.Gentle s₁ s) :
    (∀ k, (s.slot k).dev ≠ 0 → (s.slot k).pipe = false → (s.slot k).dirt = false →
      (s.slot k).dev = s.dev ∧ (s.slot k).toDiskInode = s.disk (s.slot k).num) ∧
    ∀ u, Machine.Reach opStep Careful s u → ∀ op u', opStep u op = some u' → (u'.Cached ↔ Careful u op) := by
  have hmounted : s₁.Cached := (hboot.cached hmount).run (Vfs.mountRoot_ran s₀ ⟨rfl, hboot⟩ () s₁ hmount).careful
  have hI : s.Balanced [] ∧ s.Cached := by
    refine h.invariant (I := fun u => u.Balanced [] ∧ u.Cached) ⟨hboot.balanced ht hmount .start, hmounted⟩ fun u e u' hu hgentle hs => ?_
    refine ⟨hu.1.step hs, hu.2.run ?_⟩
    rcases hgentle with hharmless | hcareful
    · exact (hu.1.ran (.inl hharmless) hs).careful
    · exact hcareful u' hs
  refine ⟨fun k hdev _ hdirt => ⟨(hI.2.home k).resolve_left hdev, hI.2.coherent k hdev hdirt⟩, fun u hu op u' hs => ?_⟩
  have hcached := hI.2.run hu
  exact ⟨fun h' => hcached.careful hs h', fun hok => hcached.step hok hs⟩

/-- A disk with a file of ten bytes in its root directory, last changed at time 1. -/
def fileVfs : Vfs :=
  { bootedVfs with
    imap := fun n => n < 3
    disk := fun n => if n = 2 then { mode := 0o100644, size := 10, mtime := 1, nlinks := 1, zone := fun z => if z = 0 then 10 else 0 }
      else if n = 1 then { mode := 0o40755, size := 48, nlinks := 2, zone := fun z => if z = 0 then 9 else 0 } else {}
    dir := fun _ e => if e = 0 then ⟨1, padName dotName⟩ else if e = 1 then ⟨1, padName dotdotName⟩ else ⟨2, padName [97]⟩ }

/-- The file is opened and five of its bytes are written at time 5. -/
def overwriting : List VfsEvent := [.sysOpen 1 [47, 97] 2 0, .world 5 [], .sysWrite 1 0 5]

/-- The file is given other rights and closed: its block holds the change. -/
theorem inode_cache_coherent_chmod : ∃ s₁ s, Vfs.mountRoot 1 fileVfs = some ((), s₁) ∧
    Machine.exec vfsStep s₁ [.sysOpen 1 [47, 97] 2 0, .sysChmod 1 [47, 97] 0o600, .sysClose 1 0] = some s ∧ (s.slot 1).num = 2 ∧
      (s.slot 1).mode = 0o100600 ∧ (s.slot 1).dirt = false ∧ (s.slot 1).toDiskInode = s.disk (s.slot 1).num := by
  have hrun : ((Vfs.mountRoot 1 fileVfs).bind fun x =>
      (Machine.exec vfsStep x.2 [.sysOpen 1 [47, 97] 2 0, .sysChmod 1 [47, 97] 0o600, .sysClose 1 0]).map fun s =>
        ([decide ((s.slot 1).dev ≠ 0), !(s.slot 1).pipe, !(s.slot 1).dirt], (s.slot 1).num, (s.slot 1).mode)) =
      some ([true, true, true], 2, 0o100600) := by decide +kernel
  obtain ⟨⟨⟨⟩, s₁⟩, hmount, hrun⟩ := Option.bind_eq_some_iff.mp hrun
  obtain ⟨s, hs, hend⟩ := Option.map_eq_some_iff.mp hrun
  simp only [Prod.mk.injEq, List.cons.injEq, decide_eq_true_eq, Bool.not_eq_true', and_true] at hend
  obtain ⟨⟨hdev, hpipe, hdirt⟩, hnum, hmode⟩ := hend
  have hboot : fileVfs.Booted 1 :=
    ⟨rfl, fun u hu => by rw [of_decide_eq_true hu]; decide, fun _ => ⟨rfl, rfl, fun _ => rfl⟩, fun _ => rfl, rfl, rfl⟩
  have hgentle : ∀ e ∈ [VfsEvent.sysOpen 1 [47, 97] 2 0, .sysChmod 1 [47, 97] 0o600, .sysClose 1 0], ∀ u, Vfs.Gentle u e := by
    intro e he u
    simp only [List.mem_cons, List.not_mem_nil, or_false] at he
    rcases he with rfl | rfl | rfl
    · exact .inl (show checkedFlag 2 &&& oCreat = 0 by decide)
    · exact .inl trivial
    · exact .inl trivial
  have hkept := inode_cache_coherent hboot (by decide) hmount (.exec .start hgentle hs)
  exact ⟨s₁, s, hmount, hs, hnum, hmode, hdirt, (hkept.1 1 hdev hpipe hdirt).2⟩

/-- Writing inside a file sets `i_mtime` and not `i_dirt`: the inode in slot 1 is clean, and its block has the old time. Once the file is
closed, the next look-up takes the slot and reads the old time back. -/
theorem inode_cache_stale : ∃ s₁ s s', Vfs.mountRoot 1 fileVfs = some ((), s₁) ∧ Machine.exec vfsStep s₁ overwriting = some s ∧
    ((s.slot 1).dev ≠ 0 ∧ (s.slot 1).pipe = false ∧ (s.slot 1).dirt = false ∧ (s.slot 1).mtime = 5 ∧
      (s.slot 1).toDiskInode ≠ s.disk (s.slot 1).num) ∧
    Machine.exec vfsStep s [.sysClose 1 0, .sysStat 1 [47, 97]] = some s' ∧ (s'.slot 1).num = (s.slot 1).num ∧ (s'.slot 1).mtime = 1 := by
  have hrun : ((Vfs.mountRoot 1 fileVfs).bind fun x => (Machine.exec vfsStep x.2 overwriting).bind fun s =>
      (Machine.exec vfsStep s [.sysClose 1 0, .sysStat 1 [47, 97]]).map fun s' =>
        ([decide ((s.slot 1).dev ≠ 0), !(s.slot 1).pipe, !(s.slot 1).dirt, decide ((s.slot 1).toDiskInode ≠ s.disk (s.slot 1).num)],
          [(s.slot 1).mtime, (s'.slot 1).mtime], decide ((s'.slot 1).num = (s.slot 1).num))) =
      some ([true, true, true, true], [5, 1], true) := by decide +kernel
  obtain ⟨⟨⟨⟩, s₁⟩, hmount, hrun⟩ := Option.bind_eq_some_iff.mp hrun
  obtain ⟨s, hs, hrun⟩ := Option.bind_eq_some_iff.mp hrun
  obtain ⟨s', hs', hend⟩ := Option.map_eq_some_iff.mp hrun
  simp only [Prod.mk.injEq, List.cons.injEq, decide_eq_true_eq, Bool.not_eq_true', and_true] at hend
  obtain ⟨⟨hdev, hpipe, hdirt, hstale⟩, ⟨htime, hold⟩, hnum⟩ := hend
  exact ⟨s₁, s, s', hmount, hs, ⟨hdev, hpipe, hdirt, htime, hstale⟩, hs', hnum, hold⟩

end RheeKernel
