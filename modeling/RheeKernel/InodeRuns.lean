import RheeKernel.InodeSteps

namespace RheeKernel

/-- The process that an event is about. -/
def InodeEvent.actor : InodeEvent → Nat
  | .iget p _ _ => p
  | .newInode p _ _ => p
  | .iput r => r.proc
  | .unlink r => r.proc
  | .link r => r.proc
  | .dirty r => r.proc
  | .resume p => p

namespace InodeSys

/-- The inode that `iget` searches the table for in this stretch. -/
def seeks (s : InodeSys) : InodeEvent → Option (Nat × Nat)
  | .iget _ dev num => some (dev, num)
  | .resume p =>
    match s.pc p with
    | .waitMatch w _ _ => some (w.dev, w.num)
    | _ => none
  | _ => none

/-- Nobody looks for an inode that is being truncated. -/
def Spares (s : InodeSys) (e : InodeEvent) : Prop := ∀ p r, s.pc p = .truncating r → s.seeks e ≠ some (r.dev, r.num)

/-- `get_empty_inode` hands out slot `k`: at once, after `wait_on_inode` or after `write_inode`. -/
def HandsOut (s : InodeSys) (k : Nat) : Prop :=
  ∃ t j, s.emptyScan = .got t k ∨ s.emptyWaited j = .got t k ∨ s.emptyWrote j = .got t k

variable {s s' t : InodeSys} {p q k e j : Nat} {r r' : InodeRef} {i : InodeSlot} {a : InodeEvent} {d : Nat → Nat → Prop}
  {disk : Nat → Nat → Nat}

/-- A process that is in none of the calls changes its inode. -/
theorem Goes.touch (h : s.Counted) (hr : s.Holds r)
    (hid : i.dev = (s.slot r.slot).dev ∧ i.num = (s.slot r.slot).num ∧ i.count = (s.slot r.slot).count) :
    Goes (∀ p dev num, a ≠ .newInode p dev num) d s (s.setSlot r.slot i) r.proc :=
  .idle (Moved.flags h hr.1 rfl rfl rfl rfl hid fun _ => hr.2.2) hr.2.1

theorem inodeStep_goes (h : s.Counted) (hhas : ∀ p, s.PcHas p (s.pc p)) (hs : inodeStep s a = some s') :
    Goes (∀ p dev num, a ≠ .newInode p dev num) (fun dev num => s.seeks a = some (dev, num)) s s' a.actor := by
  cases a with
  | iget p dev num =>
    simp only [inodeStep] at hs
    split at hs
    next => cases hs
    next hno =>
      rw [not_or, not_not] at hno
      have hgo := @start_goes s s' p ⟨dev, num, false⟩ (fun a b => some (dev, num) = some (a, b)) h hno.1 (fun _ => rfl) hs
      exact ⟨hgo.moved.weaken fun _ => rfl, hgo.has, hgo.last⟩
  | newInode p dev num =>
    simp only [inodeStep] at hs
    split at hs
    next => cases hs
    next hno =>
      rw [not_or, not_not] at hno
      have hgo := @start_goes s s' p ⟨dev, num, true⟩ (fun a b => none = some (a, b)) h hno.1 (fun hf => by cases hf) hs
      exact ⟨hgo.moved.weaken fun hne => absurd rfl (hne p dev num), hgo.has, hgo.last⟩
  | iput r =>
    simp only [inodeStep] at hs
    split at hs
    next hr => exact .iput h hr.1 hs
    next => cases hs
  | unlink r =>
    simp only [inodeStep] at hs
    split at hs
    next hr =>
      cases Option.some.inj hs
      exact .touch h hr ⟨rfl, rfl, rfl⟩
    next => cases hs
  | link r =>
    simp only [inodeStep] at hs
    split at hs
    next hr =>
      cases Option.some.inj hs
      exact .touch h hr ⟨rfl, rfl, rfl⟩
    next => cases hs
  | dirty r =>
    simp only [inodeStep] at hs
    split at hs
    next hr =>
      cases Option.some.inj hs
      exact .touch h hr ⟨rfl, rfl, rfl⟩
    next => cases hs
  | resume p =>
    refine @resume_goes s s' p _ _ h (hhas p) (fun w e j hc => ?_) hs
    unfold seeks
    dsimp only
    rw [hc]

/-- What holds between any two stretches. -/
structure Sound (s : InodeSys) : Prop where
  counted : s.Counted
  has : ∀ p, s.PcHas p (s.pc p)

/-- A stretch of `p` leaves what another process has in hand. -/
theorem PcHas.others (hhas : s.PcHas q (s.pc q)) (h : Moved (∀ p dev num, a ≠ .newInode p dev num) d s s' p) (hq : q ≠ p) :
    s'.PcHas q (s.pc q) := by
  generalize s.pc q = c at hhas
  cases c with
  | idle => trivial
  | waitEmpty w k => exact hhas
  | writeEmpty w k => exact hhas
  | waitMatch w e j =>
    obtain ⟨hw, hj, hin⟩ := hhas
    exact ⟨hw, hj, h.others _ hin hq⟩
  | reading r =>
    obtain ⟨rfl, hr, hd⟩ := hhas
    exact ⟨rfl, h.others r hr hq, hd⟩
  | waitPut r =>
    obtain ⟨rfl, hr⟩ := hhas
    exact ⟨rfl, h.others r hr hq⟩
  | writePut r =>
    obtain ⟨rfl, hr, hd, hlock, hone, hlinks⟩ := hhas
    refine ⟨rfl, h.others r hr hq, hd, ?_⟩
    rw [h.kept r hr hq hone (.inl hlock)]
    exact ⟨hlock, hone, hlinks⟩
  | truncating r =>
    obtain ⟨rfl, hr, hd⟩ := hhas
    exact ⟨rfl, h.others r hr hq, hd⟩

theorem Sound.step (h : s.Sound) (hs : inodeStep s a = some s') : s'.Sound := by
  have hgo := inodeStep_goes h.counted h.has hs
  refine ⟨hgo.moved.counted, fun q => ?_⟩
  by_cases hq : q = a.actor
  · rw [hq]
    exact hgo.has
  · rw [hgo.moved.pcs q hq]
    exact (h.has q).others hgo.moved hq

theorem sound_init : (inodeInit disk).Sound :=
  ⟨⟨fun _ => rfl, (fun _ hr => by cases hr), (fun _ hr => by cases hr), (fun _ hr => by cases hr), fun _ _ => rfl, fun _ _ => rfl⟩,
    fun _ => trivial⟩

theorem Sound.unique_step (h : s.Sound) (hu : s.Unique) (ha : ∀ p dev num, a ≠ .newInode p dev num)
    (hs : inodeStep s a = some s') : s'.Unique :=
  (inodeStep_goes h.counted h.has hs).moved.unique ha hu

/-- References to the same inode are to the same slot. -/
theorem Unique.same_slot (hu : s.Unique) (h : s.Counted) (hr : r ∈ s.refs) (hr' : r' ∈ s.refs) (hd : r.dev ≠ 0)
    (hdev : r.dev = r'.dev) (hnum : r.num = r'.num) : r.slot = r'.slot := by
  obtain ⟨hid, hidn⟩ := h.ident r hr
  obtain ⟨hid', hidn'⟩ := h.ident r' hr'
  refine hu _ _ (h.low r hr) (h.low r' hr') ?_ ?_ ?_
  · rw [hid]
    exact hd
  · rw [hid, hid', hdev]
  · rw [hidn, hidn', hnum]

theorem emptyFound_got (h : s.emptyFound j = .got t k) : j = k ∧ (s.slot j).dirt = false := by
  unfold emptyFound at h
  split at h
  next => cases h
  next hdirt =>
    cases h
    exact ⟨rfl, Bool.eq_false_iff.mpr hdirt⟩

theorem emptyScan_got (h : s.emptyScan = .got t k) : (s.slot k).count = 0 := by
  unfold emptyScan at h
  split at h
  next => cases h
  next j hfound =>
    dsimp only at h
    split at h
    next => cases h
    next =>
      have hzero := List.find?_some hfound
      rw [beq_iff_eq] at hzero
      obtain ⟨rfl, _⟩ := emptyFound_got h
      exact hzero

theorem wroteInode_count (j : Nat) : ((s.wroteInode j).slot k).count = (s.slot k).count := by
  by_cases hk : k = j
  · subst hk
    have hself : (s.wroteInode k).slot k = { s.slot k with dirt := false, lock := false } := Function.update_self _ _ _
    rw [hself]
  · have hother : (s.wroteInode j).slot k = s.slot k := Function.update_of_ne hk _ _
    rw [hother]

/-- No slot in use is handed out. -/
theorem HandsOut.count (h : s.HandsOut k) : (s.slot k).count = 0 := by
  obtain ⟨t, j, h | h | h⟩ := h
  · exact emptyScan_got h
  · unfold emptyWaited at h
    split at h
    next hc =>
      obtain ⟨rfl, hdirt⟩ := emptyFound_got h
      rw [hdirt] at hc
      exact hc.resolve_left Bool.false_ne_true
    next => exact emptyScan_got h
  · unfold emptyWrote at h
    dsimp only at h
    rw [← wroteInode_count j]
    split at h
    next hc =>
      obtain ⟨rfl, _⟩ := emptyFound_got h
      exact hc
    next => exact emptyScan_got h

/-- Whoever truncates an inode has the only reference, as long as nobody looks for it. -/
theorem Sound.lastGone_step (h : s.Sound) (hlast : ∀ p r, s.pc p = .truncating r → s.LastGone r) (ha : s.Spares a)
    (hs : inodeStep s a = some s') : ∀ p r, s'.pc p = .truncating r → s'.LastGone r := by
  intro p r hc
  have hgo := inodeStep_goes h.counted h.has hs
  by_cases hp : p = a.actor
  · subst hp
    exact hgo.last r hc
  · rw [hgo.moved.pcs p hp] at hc
    have hhas := h.has p
    rw [hc] at hhas
    obtain ⟨rfl, hr, _⟩ := hhas
    have hgone := hlast _ _ hc
    have hkept := hgo.moved.kept r hr hp hgone.1 (.inr (ha _ _ hc))
    unfold LastGone
    rw [hkept]
    exact hgone

theorem LastGone.frees (h : s.LastGone r) : s.freeInode r ≠ none := by
  unfold freeInode
  rw [h.1, h.2, if_neg]
  · exact Option.some_ne_none _
  · rintro ⟨_, hc | hc⟩
    · omega
    · exact hc rfl

end InodeSys

open Machine InodeSys

variable {disk : Nat → Nat → Nat} {s : InodeSys}

/-- As long as `iget` and `iput` run on inodes that exist, no inode is in two slots. -/
theorem one_slot_per_inode (h : Reach inodeStep (fun _ a => ∀ p dev num, a ≠ .newInode p dev num) (inodeInit disk) s) :
    s.Unique ∧ (∀ r ∈ s.refs, ∀ r' ∈ s.refs, r.dev ≠ 0 → r.dev = r'.dev → r.num = r'.num → r.slot = r'.slot) ∧
      ∀ k, s.HandsOut k → (s.slot k).count = 0 := by
  have hinit : (inodeInit disk).Unique := fun _ _ _ _ hd => absurd rfl hd
  have hboth : s.Sound ∧ s.Unique := h.invariant (I := fun s => s.Sound ∧ s.Unique) ⟨sound_init, hinit⟩
    fun _ _ _ h ha hs => ⟨h.1.step hs, h.1.unique_step h.2 ha hs⟩
  exact ⟨hboth.2, fun r hr r' hr' hd hdev hnum => hboth.2.same_slot hboth.1.counted hr hr' hd hdev hnum, fun _ hk => hk.count⟩

/-- Two processes look for an inode; the second waits until the first has read it. -/
theorem one_slot_per_inode_shared : ∃ s, Machine.exec inodeStep (inodeInit fun _ _ => 1)
    [.iget 1 1 5, .iget 2 1 5, .resume 1, .resume 2] = some s ∧ s.refs = [⟨2, 0, 1, 5⟩, ⟨1, 0, 1, 5⟩] ∧ s.Unique := by
  obtain ⟨s, hs, hrefs⟩ : ∃ s, Machine.exec inodeStep (inodeInit fun _ _ => 1)
      [.iget 1 1 5, .iget 2 1 5, .resume 1, .resume 2] = some s ∧ s.refs = [⟨2, 0, 1, 5⟩, ⟨1, 0, 1, 5⟩] := ⟨_, rfl, by decide⟩
  refine ⟨s, hs, hrefs, (one_slot_per_inode (.exec .start (fun a ha _ p dev num => ?_) hs)).1⟩
  rintro rfl
  simp at ha

/-- In runs in which nobody looks for an inode while it is being truncated, whoever truncates and frees an inode has the only reference to
it, the inode has no link, and `free_inode` does not panic. -/
theorem last_reference_frees (h : Reach inodeStep Spares (inodeInit disk) s) :
    ∀ p r, s.pc p = .truncating r → s.LastGone r ∧ s.resume p ≠ none := by
  have hboth : s.Sound ∧ ∀ p r, s.pc p = .truncating r → s.LastGone r :=
    h.invariant (I := fun s => s.Sound ∧ ∀ p r, s.pc p = .truncating r → s.LastGone r) ⟨sound_init, fun _ _ hc => by cases hc⟩
      fun _ _ _ h ha hs => ⟨h.1.step hs, h.1.lastGone_step h.2 ha hs⟩
  intro p r hc
  have hlast := hboth.2 p r hc
  refine ⟨hlast, ?_⟩
  unfold InodeSys.resume
  rw [hc]
  exact hlast.frees

theorem last_reference_frees_created : ∃ s, Machine.exec inodeStep (inodeInit fun _ _ => 0)
    [.newInode 1 1 5, .unlink ⟨1, 0, 1, 5⟩, .iput ⟨1, 0, 1, 5⟩] = some s ∧ s.LastGone ⟨1, 0, 1, 5⟩ ∧ s.resume 1 ≠ none := by
  obtain ⟨s, hs, hpc⟩ : ∃ s, Machine.exec inodeStep (inodeInit fun _ _ => 0)
      [.newInode 1 1 5, .unlink ⟨1, 0, 1, 5⟩, .iput ⟨1, 0, 1, 5⟩] = some s ∧ s.pc 1 = .truncating ⟨1, 0, 1, 5⟩ := ⟨_, rfl, by decide⟩
  refine ⟨s, hs, last_reference_frees (.exec .start (fun a ha t p r _ => ?_) hs) 1 _ hpc⟩
  rcases List.mem_cons.mp ha with rfl | ha
  · exact nofun
  · rcases List.mem_cons.mp ha with rfl | ha
    · exact nofun
    · rcases List.mem_singleton.mp ha with rfl
      exact nofun

/-- The last name and the last reference are gone; while the file is truncated, a process that has read the name before gets the
inode. -/
theorem last_reference_frees_fails : ∃ s, Reach inodeStep (fun _ _ => True) (inodeInit fun _ _ => 1) s ∧
    s.pc 1 = .truncating ⟨1, 0, 1, 5⟩ ∧ (s.slot 0).count = 2 ∧ s.resume 1 = none := by
  obtain ⟨s, hs, hpc, hcount, hpanic⟩ : ∃ s, Machine.exec inodeStep (inodeInit fun _ _ => 1)
      [.iget 1 1 5, .resume 1, .unlink ⟨1, 0, 1, 5⟩, .iput ⟨1, 0, 1, 5⟩, .iget 2 1 5] = some s ∧
      s.pc 1 = .truncating ⟨1, 0, 1, 5⟩ ∧ (s.slot 0).count = 2 ∧ s.resume 1 = none := ⟨_, rfl, by decide, by decide, rfl⟩
  exact ⟨s, .exec .start (fun _ _ _ => trivial) hs, hpc, hcount, hpanic⟩

end RheeKernel
