import RheeKernel.InodeRefs

namespace RheeKernel

namespace InodeSys

variable {s s' t : InodeSys} {p q k e j : Nat} {r r' : InodeRef} {w : Want} {i : InodeSlot} {c : InodePc} {u : Prop}
  {d : Nat → Nat → Prop}

namespace Moved

/-- `get_empty_inode` hands out a slot. -/
theorem take (h : s.Counted) (hcount : (s.slot k).count = 0) (hk : k < nrInode)
    (hslot : s'.slot = Function.update s.slot k { count := 1 }) (hrefs : s'.refs = ⟨p, k, 0, 0⟩ :: s.refs)
    (hpc : s'.pc = s.pc) : Moved u d s s' p := by
  have hnone : ∀ r ∈ s.refs, r.slot ≠ k := by
    rintro r hr rfl
    have := h.pos hr
    omega
  have hon : ∀ j, s'.refsOn j = s.refsOn j + if k = j then 1 else 0 := by
    intro j
    unfold refsOn
    rw [hrefs]
    exact refsOn_cons
  refine change h hslot hpc ?_ (fun j hj => ?_) (fun r hr hj => ?_) (fun r hr hj => ?_) (fun _ => rfl) (fun _ => rfl)
    (fun _ => .inl rfl) (fun r hr _ => ?_) fun r hr _ hj _ => absurd hj (hnone r hr)
  · rw [hon, if_pos rfl, ← h.counts, hcount]
  · rw [hon, if_neg fun hc => hj hc.symm, Nat.add_zero]
  · rw [hrefs] at hr
    rcases List.mem_cons.mp hr with rfl | hr
    · exact absurd rfl hj
    · exact hr
  · rw [hrefs] at hr
    rcases List.mem_cons.mp hr with rfl | hr
    · exact ⟨⟨rfl, rfl⟩, fun _ => rfl, hk⟩
    · exact absurd hj (hnone r hr)
  · rw [hrefs]
    exact List.mem_cons_of_mem _ hr

/-- The empty slot becomes an inode. -/
theorem name (h : s.Counted) (hin : (⟨p, e, 0, 0⟩ : InodeRef) ∈ s.refs) (hw : w.dev ≠ 0)
    (hslot : s'.slot = Function.update s.slot e i) (hrefs : s'.refs = ⟨p, e, w.dev, w.num⟩ :: s.refs.erase ⟨p, e, 0, 0⟩)
    (hpc : s'.pc = s.pc) (hid : i.dev = w.dev ∧ i.num = w.num ∧ i.count = (s.slot e).count)
    (hnew : u → ∀ k < nrInode, ¬ ((s.slot k).dev = w.dev ∧ (s.slot k).num = w.num)) : Moved u d s s' p := by
  have hone : (s.slot e).count = 1 := h.alone _ hin rfl
  have halone : ∀ r ∈ s.refs.erase ⟨p, e, 0, 0⟩, r.slot ≠ e := by
    intro r hr hre
    have : 1 < (s.slot e).count := h.two hin hr hre
    omega
  have hon : ∀ j, s'.refsOn j = s.refsOn j := by
    intro j
    have herase : (s.refs.erase ⟨p, e, 0, 0⟩).countP (fun x => x.slot = j) = s.refsOn j - if e = j then 1 else 0 :=
      refsOn_erase hin
    have hj := h.counts j
    unfold refsOn
    rw [hrefs, List.countP_cons, herase]
    by_cases hej : e = j
    · subst hej
      rw [if_pos rfl, if_pos (decide_eq_true rfl)]
      unfold refsOn at hj ⊢
      omega
    · rw [if_neg hej, if_neg fun hc => hej (of_decide_eq_true hc)]
      rfl
  refine change h hslot hpc ?_ (fun j _ => hon j) (fun r hr hj => ?_) (fun r hr hj => ?_) (fun hz => ?_) (fun hz => ?_)
    (fun hu => ?_) (fun r hr hp => ?_) fun r hr hp hj _ => ?_
  · rw [hid.2.2, hon, h.counts]
  · rw [hrefs] at hr
    rcases List.mem_cons.mp hr with rfl | hr
    · exact absurd rfl hj
    · exact List.mem_of_mem_erase hr
  · rw [hrefs] at hr
    rcases List.mem_cons.mp hr with rfl | hr
    · exact ⟨⟨hid.1, hid.2.1⟩, fun hz => absurd hz hw, h.low (⟨p, e, 0, 0⟩ : InodeRef) hin⟩
    · exact absurd hj (halone r hr)
  · rw [hid.1, hid.2.2, hone] at hz
    rcases hz with hz | hz
    · exact absurd hz hw
    · cases hz
  · rw [hid.2.2, hone] at hz
    cases hz
  · rw [hid.1, hid.2.1]
    exact .inr (.inr (hnew hu))
  · rw [hrefs]
    refine List.mem_cons_of_mem _ ((List.mem_erase_of_ne ?_).mpr hr)
    rintro rfl
    exact hp rfl
  · have : 1 < (s.slot e).count := h.two_of_ne hin hr hp hj
    omega

/-- `iget` counts a slot that holds the inode. -/
theorem hit (h : s.Counted) (hw : w.dev ≠ 0) (hj : j < nrInode) (hid : (s.slot j).dev = w.dev ∧ (s.slot j).num = w.num)
    (hlock : (s.slot j).lock = false) (hd : d w.dev w.num) :
    Moved u d s { s.setSlot j { s.slot j with count := (s.slot j).count + 1 } with refs := ⟨p, j, w.dev, w.num⟩ :: s.refs } p := by
  refine change h rfl rfl ?_ (fun k hk => ?_) (fun r hr hk => ?_) (fun r hr hk => ?_) (fun hz => ?_) (fun hz => ?_)
    (fun _ => .inr (.inl ⟨rfl, rfl⟩)) (fun r hr _ => List.mem_cons_of_mem _ hr) fun r hr _ hk _ hsafe => ?_
  · refine Eq.trans ?_ refsOn_cons.symm
    rw [if_pos rfl, ← h.counts]
  · refine refsOn_cons.trans ?_
    rw [if_neg fun hc => hk hc.symm, Nat.add_zero]
  · rcases List.mem_cons.mp hr with rfl | hr
    · exact absurd rfl hk
    · exact hr
  · rcases List.mem_cons.mp hr with rfl | hr
    · exact ⟨hid, fun hz => absurd hz hw, hj⟩
    · have hold := h.ident r hr
      rw [hk] at hold
      exact ⟨hold, fun hz => absurd (hid.1.symm.trans (hold.1.trans hz)) hw, hj⟩
  · rcases hz with hz | hz
    · exact absurd (hid.1.symm.trans hz) hw
    · exact absurd hz (Nat.succ_ne_zero _)
  · exact absurd hz (Nat.succ_ne_zero _)
  · have hold := h.ident r hr
    rw [hk] at hold
    rcases hsafe with hl | hno
    · rw [hlock] at hl
      cases hl
    · rw [← hold.1, ← hold.2, hid.1, hid.2] at hno
      exact hno hd

/-- The reference is given up; the slot keeps its identity or is cleared. -/
theorem giveUp (h : s.Counted) (hr : r ∈ s.refs) (hslot : s'.slot = Function.update s.slot r.slot i)
    (hrefs : s'.refs = s.refs.erase r) (hpc : s'.pc = s.pc) (hcount : i.count = (s.slot r.slot).count - 1)
    (hid : (i.dev = (s.slot r.slot).dev ∧ i.num = (s.slot r.slot).num) ∨ (i.dev = 0 ∧ i.count = 0))
    (hclean : i.dev = 0 ∨ i.count = 0 → i.dirt = false) (hfree : i.count = 0 → i.lock = false) : Moved u d s s' r.proc := by
  have hon : ∀ j, s'.refsOn j = s.refsOn j - if r.slot = j then 1 else 0 := by
    intro j
    rw [← refsOn_erase hr, ← hrefs]
    rfl
  refine change h hslot hpc ?_ (fun j hj => ?_) (fun r' hr' _ => ?_) (fun r' hr' hj => ?_) hclean hfree
    (fun _ => ?_) (fun r' hr' hp => ?_) fun r' hr' hp hj hone => ?_
  · rw [hon, if_pos rfl, ← h.counts, hcount]
  · rw [hon, if_neg fun hc => hj hc.symm, Nat.sub_zero]
  · rw [hrefs] at hr'
    exact List.mem_of_mem_erase hr'
  · rw [hrefs] at hr'
    have htwo := h.two hr hr' hj
    have hin := List.mem_of_mem_erase hr'
    have hold := h.ident r' hin
    have halone := h.alone r' hin
    rw [hj] at hold halone
    rcases hid with hid | ⟨_, hzero⟩
    · rw [hid.1, hid.2]
      refine ⟨hold, fun hz => ?_, h.low r hr⟩
      have := halone hz
      omega
    · omega
  · rcases hid with hid | ⟨hzero, _⟩
    · exact .inr (.inl hid)
    · exact .inl hzero
  · rw [hrefs]
    refine (List.mem_erase_of_ne ?_).mpr hr'
    rintro rfl
    exact hp rfl
  · have := h.two_of_ne hr hr' hp hj
    omega

theorem drop (h : s.Counted) (hr : r ∈ s.refs) (hlock : (s.slot r.slot).lock = false)
    (hclean : (s.slot r.slot).count = 1 → (s.slot r.slot).dirt = false) : Moved u d s (s.dropRef r) r.proc := by
  have hpos := h.pos hr
  refine setPc (giveUp h hr rfl rfl rfl rfl (.inl ⟨rfl, rfl⟩) (fun hz => ?_) fun _ => hlock)
  rcases hz with hz | hz
  · exact h.clean _ (.inl hz)
  · dsimp only at hz
    exact hclean (by omega)

/-- `free_inode` clears the slot of the last reference. -/
theorem clear (h : s.Counted) (hr : r ∈ s.refs) (hd : r.dev ≠ 0) (hs : s.freeInode r = some s') :
    Moved u d s s' r.proc ∧ s'.pc r.proc = .idle := by
  unfold freeInode at hs
  split at hs
  next => cases hs
  next hno =>
    have hdev : (s.slot r.slot).dev ≠ 0 := by
      rw [(h.ident r hr).1]
      exact hd
    have hone : (s.slot r.slot).count ≤ 1 := by
      by_contra hgt
      exact hno ⟨hdev, .inl (by omega)⟩
    cases Option.some.inj hs
    refine ⟨setPc (giveUp h hr rfl rfl rfl ?_ (.inr ⟨rfl, rfl⟩) (fun _ => rfl) fun _ => rfl), setPc_self⟩
    dsimp only
    omega

end Moved

/-- A whole stretch of process `p`, up to where it sleeps or returns. -/
structure Goes (u : Prop) (d : Nat → Nat → Prop) (s s' : InodeSys) (p : Nat) : Prop where
  moved : Moved u d s s' p
  has : s'.PcHas p (s'.pc p)
  last : ∀ r, s'.pc p = .truncating r → s'.LastGone r

namespace Goes

theorem of (h : Moved u d s s' p) (hc : s'.pc p = c) (hhas : s'.PcHas p c)
    (hlast : ∀ r, c = .truncating r → s'.LastGone r) : Goes u d s s' p :=
  ⟨h, hc ▸ hhas, fun r hr => hlast r (hc ▸ hr)⟩

theorem after (h : Moved u d s t p) (h' : Goes u d t s' p) : Goes u d s s' p := ⟨h.trans h'.moved, h'.has, h'.last⟩

theorem idle (h : Moved u d s s' p) (hc : s'.pc p = .idle) : Goes u d s s' p :=
  of h hc trivial fun _ hr => by cases hr

theorem iputGo (h : s.Counted) (hr : r ∈ s.refs) (hlock : (s.slot r.slot).lock = false) (hs : s.iputGo r = some s') :
    Goes u d s s' r.proc := by
  have hpos := h.pos hr
  unfold InodeSys.iputGo at hs
  dsimp only at hs
  split at hs
  next => cases hs
  next =>
    split at hs
    next hmany =>
      cases Option.some.inj hs
      refine idle (Moved.drop h hr hlock fun hone => ?_) setPc_self
      rcases hmany with hz | hgt
      · exact h.clean _ (.inl hz)
      · omega
    next hmany =>
      have hdev : r.dev ≠ 0 := by
        rw [← (h.ident r hr).1]
        exact fun hz => hmany (.inl hz)
      have hone : (s.slot r.slot).count = 1 := by
        by_contra hne
        exact hmany (.inr (by omega))
      split at hs
      next hlinks =>
        cases Option.some.inj hs
        refine of (Moved.refl h).setPc setPc_self ⟨rfl, hr, hdev⟩ fun r' hr' => ?_
        cases hr'
        exact ⟨hone, hlinks⟩
      next hlinks =>
        split at hs
        next =>
          cases Option.some.inj hs
          have hmoved : Moved u d s (s.lockInode r.slot) r.proc := Moved.flags h hr rfl rfl rfl rfl ⟨rfl, rfl, rfl⟩ fun _ => hdev
          refine of hmoved.setPc setPc_self ⟨rfl, hr, hdev, ?_⟩ fun _ hr' => by cases hr'
          have hself : ((s.lockInode r.slot).setPc r.proc (.writePut r)).slot r.slot = { s.slot r.slot with lock := true } :=
            Function.update_self _ _ _
          rw [hself]
          exact ⟨rfl, hone, hlinks⟩
        next hdirt =>
          cases Option.some.inj hs
          exact idle (Moved.drop h hr hlock fun _ => Bool.eq_false_iff.mpr hdirt) setPc_self

theorem iput (h : s.Counted) (hr : r ∈ s.refs) (hs : s.iput r = some s') : Goes u d s s' r.proc := by
  unfold InodeSys.iput at hs
  split at hs
  next =>
    cases Option.some.inj hs
    exact of (Moved.refl h).setPc setPc_self ⟨rfl, hr⟩ fun _ hr' => by cases hr'
  next hlock => exact iputGo h hr (Bool.eq_false_iff.mpr hlock) hs

theorem igetHit (h : s.Counted) (hin : (⟨p, e, 0, 0⟩ : InodeRef) ∈ s.refs) (hw : w.dev ≠ 0) (hj : j < nrInode)
    (hid : (s.slot j).dev = w.dev ∧ (s.slot j).num = w.num) (hlock : (s.slot j).lock = false) (hd : d w.dev w.num)
    (hs : s.igetHit p w e j = some s') : Goes u d s s' p := by
  have hhit : Moved u d s _ p := Moved.hit h hw hj hid hlock hd
  have hput : Goes u d _ s' (⟨p, e, 0, 0⟩ : InodeRef).proc := iput hhit.counted (List.mem_cons_of_mem _ hin) hs
  exact after hhit hput

theorem igetMiss (h : s.Counted) (hin : (⟨p, e, 0, 0⟩ : InodeRef) ∈ s.refs) (hw : w.dev ≠ 0)
    (hnew : ∀ k < nrInode, ¬ ((s.slot k).dev = w.dev ∧ (s.slot k).num = w.num)) : Goes u d s (s.igetMiss p w e) p := by
  have hname : Moved u d s { s.setSlot e { s.slot e with dev := w.dev, num := w.num, lock := true } with
      refs := ⟨p, e, w.dev, w.num⟩ :: s.refs.erase ⟨p, e, 0, 0⟩ } p :=
    Moved.name h hin hw rfl rfl rfl ⟨rfl, rfl, rfl⟩ fun _ => hnew
  exact of hname.setPc setPc_self ⟨rfl, List.mem_cons_self, hw⟩ fun _ hr => by cases hr

theorem igetSearch (h : s.Counted) (hin : (⟨p, e, 0, 0⟩ : InodeRef) ∈ s.refs) (hw : w.dev ≠ 0) (hd : d w.dev w.num)
    (hs : s.igetSearch p w e = some s') : Goes u d s s' p := by
  unfold InodeSys.igetSearch at hs
  split at hs
  next hnone =>
    cases Option.some.inj hs
    refine igetMiss h hin hw fun k hk hid => ?_
    have hno := List.find?_eq_none.mp hnone k (List.mem_range.mpr hk)
    rw [hid.1, hid.2] at hno
    exact hno (by rw [beq_self_eq_true, beq_self_eq_true]; rfl)
  next j hfound =>
    have hj : j < nrInode := List.mem_range.mp (List.mem_of_find?_eq_some hfound)
    have hid := List.find?_some hfound
    rw [Bool.and_eq_true, beq_iff_eq, beq_iff_eq] at hid
    split at hs
    next =>
      cases Option.some.inj hs
      exact of (Moved.refl h).setPc setPc_self ⟨hw, hj, hin⟩ fun _ hr => by cases hr
    next hlock => exact igetHit h hin hw hj hid (Bool.eq_false_iff.mpr hlock) hd hs

end Goes

/-- An unused slot is at once handed out. -/
theorem emptyScan_spec (h : s.Counted) : s.emptyScan = .panics ∨ ∃ k, k < nrInode ∧ (s.slot k).count = 0 ∧
    s.emptyScan = .got ({ s with last := k }.setSlot k { count := 1 }) k := by
  unfold emptyScan
  split
  next => exact .inl rfl
  next k hfound =>
    right
    have hzero := List.find?_some hfound
    rw [beq_iff_eq] at hzero
    have hk : k < nrInode := by
      obtain ⟨i, _, hi⟩ := List.mem_map.mp (List.mem_of_find?_eq_some hfound)
      rw [← hi]
      exact Nat.mod_lt _ (by decide)
    have hlock := h.free k hzero
    have hdirt := h.clean k (.inr hzero)
    refine ⟨k, hk, hzero, ?_⟩
    dsimp only
    unfold emptyFound
    dsimp only
    rw [hlock, hdirt]
    rfl

/-- A call of `iget` or `new_inode` begins. -/
theorem start_goes (h : s.Counted) (hw : w.dev ≠ 0) (hd : w.fresh = false → d w.dev w.num)
    (hs : afterEmpty p w s.emptyScan = some s') : Goes (w.fresh = false) d s s' p := by
  rcases emptyScan_spec h with hp | ⟨k, hk, hzero, hgot⟩
  · rw [hp] at hs
    cases hs
  · rw [hgot] at hs
    have htake : Moved (w.fresh = false) d s { { s with last := k }.setSlot k { count := 1 } with refs := ⟨p, k, 0, 0⟩ :: s.refs } p :=
      Moved.take h hzero hk rfl rfl rfl
    unfold afterEmpty at hs
    dsimp only at hs
    split at hs
    next hfresh =>
      cases Option.some.inj hs
      refine .after htake (.idle (Moved.setPc ?_) setPc_self)
      refine Moved.name htake.counted List.mem_cons_self hw rfl rfl rfl ⟨rfl, rfl, rfl⟩ fun hu => ?_
      rw [hfresh] at hu
      cases hu
    next hfresh => exact .after htake (.igetSearch htake.counted List.mem_cons_self hw (hd (Bool.eq_false_iff.mpr hfresh)) hs)

/-- The end of `write_inode` in `iput`: the inode has kept its link, so its count goes down. -/
theorem iputWrote_goes (h : s.Counted) (hhas : s.PcHas p (.writePut r)) : Goes u d s (s.iputWrote r) p := by
  obtain ⟨rfl, hr, hd, _, _, hlinks⟩ := hhas
  have hself : (s.wroteInode r.slot).slot r.slot = { s.slot r.slot with dirt := false, lock := false } :=
    Function.update_self _ _ _
  have hwrote : Moved u d s (s.wroteInode r.slot) r.proc :=
    Moved.flags h hr rfl rfl rfl rfl ⟨rfl, rfl, rfl⟩ fun hdirt => by cases hdirt
  have hgo : s.iputWrote r = (s.wroteInode r.slot).dropRef r := by
    unfold iputWrote
    dsimp only
    rw [hself, if_neg hlinks]
  rw [hgo]
  refine .after hwrote (.idle (Moved.drop hwrote.counted hr ?_ fun _ => ?_) setPc_self)
  · rw [hself]
  · rw [hself]

theorem resume_goes (h : s.Counted) (hhas : s.PcHas p (s.pc p))
    (hd : ∀ w e j, s.pc p = .waitMatch w e j → d w.dev w.num) (hs : s.resume p = some s') : Goes u d s s' p := by
  unfold resume at hs
  split at hs
  next => cases hs
  next hc =>
    rw [hc] at hhas
    exact hhas.elim
  next hc =>
    rw [hc] at hhas
    exact hhas.elim
  next w e j hc =>
    rw [hc] at hhas
    obtain ⟨hw, hj, hin⟩ := hhas
    split at hs
    next => cases hs
    next hlock =>
      split at hs
      next => exact .igetSearch h hin hw (hd _ _ _ hc) hs
      next hid =>
        rw [not_or, not_not, not_not] at hid
        exact .igetHit h hin hw hj hid (Bool.eq_false_iff.mpr hlock) (hd _ _ _ hc) hs
  next r hc =>
    rw [hc] at hhas
    obtain ⟨rfl, hr, hdev⟩ := hhas
    cases Option.some.inj hs
    have hread : Moved u d s (s.readInode r.slot) r.proc := Moved.flags h hr rfl rfl rfl rfl ⟨rfl, rfl, rfl⟩ fun _ => hdev
    exact .idle hread.setPc setPc_self
  next r hc =>
    rw [hc] at hhas
    obtain ⟨rfl, hr⟩ := hhas
    split at hs
    next => cases hs
    next hlock => exact .iputGo h hr (Bool.eq_false_iff.mpr hlock) hs
  next r hc =>
    rw [hc] at hhas
    cases Option.some.inj hs
    exact iputWrote_goes h hhas
  next r hc =>
    rw [hc] at hhas
    obtain ⟨rfl, hr, hdev⟩ := hhas
    obtain ⟨hmoved, hidle⟩ := Moved.clear h hr hdev hs
    exact .idle hmoved hidle

end InodeSys

end RheeKernel
