import RheeKernel.InodeCache

namespace RheeKernel

namespace Vfs

/-- What is said of the inodes `known` by their numbers holds of them in the table, where each is once, and on disk where the table has no
changes to them. -/
structure Current (known : Nat → Prop) (P : Nat → DiskInode → Prop) (s : Vfs) : Prop extends Table s where
  unique : ∀ j k, (s.slot j).dev ≠ 0 → (s.slot j).dev = (s.slot k).dev → (s.slot j).num = (s.slot k).num → j = k
  table : ∀ k, (s.slot k).dev ≠ 0 → known (s.slot k).num ∧ P (s.slot k).num (s.slot k).toDiskInode
  disk : ∀ n, known n → (∀ k, (s.slot k).dev = s.dev → (s.slot k).num = n → (s.slot k).dirt = false) → P n (s.disk n)

variable {known : Nat → Prop} {P : Nat → DiskInode → Prop} {s s' : Vfs} {k e n nr : Nat} {i : CoreInode}

/-- A slot gets an inode of which the same can be said; what it held is on disk, or stays in it unwritten. -/
theorem Current.replace (h : s.Current known P) (hk : k < nrInode) (hr : Replaces k i s s') (hi : s.Fits i)
    (hnew : i.dev ≠ 0 → ∀ j, j ≠ k → ¬ ((s.slot j).dev = i.dev ∧ (s.slot j).num = i.num))
    (hnode : i.dev ≠ 0 → known i.num ∧ P i.num i.toDiskInode)
    (hdisk : s'.disk = s.written k ∨ s'.disk = s.disk ∧ i.dev = (s.slot k).dev ∧ i.num = (s.slot k).num ∧ i.dirt = true) :
    s'.Current known P := by
  have hself : s'.slot k = i := (hr.at k).trans (if_pos rfl)
  have hother : ∀ j, j ≠ k → s'.slot j = s.slot j := fun j hj => (hr.at j).trans (if_neg hj)
  refine ⟨h.toTable.replace hk hr hi, hr.unique h.unique hnew, ?_, ?_⟩
  · intro j hj
    by_cases hjk : j = k
    · rw [hjk, hself] at hj ⊢
      exact hnode hj
    · rw [hother j hjk] at hj ⊢
      exact h.table j hj
  · intro n hn hclean
    rw [hr.dev] at hclean
    have hrest : ∀ j, j ≠ k → (s.slot j).dev = s.dev → (s.slot j).num = n → (s.slot j).dirt = false := by
      intro j hjk
      have hj := hclean j
      rw [hother j hjk] at hj
      exact hj
    rcases hdisk with hdisk | ⟨hdisk, hidev, hinum, hidirt⟩
    · rw [hdisk]
      unfold written
      split
      next hdirt =>
        by_cases hnum : n = (s.slot k).num
        · rw [hnum, Function.update_self]
          exact (h.table k (h.dirty k hdirt ▸ h.mounted)).2
        · rw [Function.update_of_ne hnum]
          refine h.disk n hn fun j hjdev hjnum => hrest j ?_ hjdev hjnum
          rintro rfl
          exact hnum hjnum.symm
      next hdirt =>
        refine h.disk n hn fun j hjdev hjnum => ?_
        by_cases hjk : j = k
        · rw [hjk]
          exact Bool.eq_false_iff.mpr hdirt
        · exact hrest j hjk hjdev hjnum
    · rw [hdisk]
      refine h.disk n hn fun j hjdev hjnum => ?_
      by_cases hjk : j = k
      · have hk := hclean k
        rw [hself, hidirt] at hk
        rw [hjk] at hjdev hjnum
        exact absurd (hk (hidev.trans hjdev) (hinum.trans hjnum)) (by decide)
      · exact hrest j hjk hjdev hjnum

/-- An inode that stays where it is. -/
theorem Current.stays (h : s.Current known P) (hdev : i.dev = (s.slot k).dev) (hnum : i.num = (s.slot k).num) :
    i.dev ≠ 0 → ∀ j, j ≠ k → ¬ ((s.slot j).dev = i.dev ∧ (s.slot j).num = i.num) :=
  fun hne j hj hc => hj (h.unique j k (hc.1 ▸ hne) (hc.1.trans hdev) (hc.2.trans hnum))

theorem written_clean (h : (s.slot k).dirt ≠ true) : s.written k = s.disk := if_neg h

/-- Another count for an inode. -/
theorem Current.recount (h : s.Current known P) (hk : k < nrInode) (hdev : (s.slot k).dev = s.dev) :
    (s.setSlot k { s.slot k with count := n }).Current known P := by
  refine h.replace hk setSlot_replaces ⟨h.home k, h.pipes k, fun _ _ => hdev, h.dirty k⟩ (h.stays rfl rfl) (h.table k) ?_
  by_cases hdirt : (s.slot k).dirt = true
  · exact .inr ⟨rfl, rfl, rfl, hdirt⟩
  · exact .inl (written_clean hdirt).symm

/-- An inode is marked. -/
theorem Current.mark (h : s.Current known P) (hk : k < nrInode) (hdev : (s.slot k).dev = s.dev) :
    (s.setSlot k { s.slot k with dirt := true }).Current known P :=
  h.replace hk setSlot_replaces ⟨h.home k, h.pipes k, fun _ _ => hdev, fun _ => hdev⟩ (h.stays rfl rfl) (h.table k)
    (.inr ⟨rfl, rfl, rfl, rfl⟩)

/-- A slot is emptied. -/
theorem Current.clear (h : s.Current known P) (hk : k < nrInode) : (s.emptied k {}).Current known P :=
  h.replace hk (emptied_replaces (h.dirty k)) .empty (fun hne => absurd rfl hne) (fun hne => absurd rfl hne) (.inl rfl)

/-- An inode that the table does not have is read. -/
theorem Current.load (h : s.Current known P) (hk : k < nrInode) (hnr : known nr)
    (hnone : ∀ j, j < nrInode → j ≠ k → ¬ ((s.slot j).dev = s.dev ∧ (s.slot j).num = nr)) : (s.loaded k s.dev nr).Current known P := by
  have hclear := h.clear hk
  have hall : ∀ j, j ≠ k → ¬ ((s.slot j).dev = s.dev ∧ (s.slot j).num = nr) := by
    intro j hj hc
    by_cases hlt : j < nrInode
    · exact hnone j hlt hj hc
    · rw [h.far j (Nat.not_lt.mp hlt)] at hc
      exact h.mounted hc.1.symm
  have hsame : P nr (s.written k nr) := by
    refine hclear.disk nr hnr fun j hjdev hjnum => ?_
    by_cases hj : j = k
    · have hempty : (s.emptied k {}).slot k = {} := Function.update_self _ _ _
      rw [hj, hempty]
    · have hold : (s.emptied k {}).slot j = s.slot j := Function.update_of_ne hj _ _
      rw [hold] at hjdev hjnum
      exact absurd ⟨hjdev, hjnum⟩ (hall j hj)
  exact h.replace hk (emptied_replaces (h.dirty k)) ⟨.inr rfl, (fun hp => nomatch hp), fun _ _ => rfl, fun _ => rfl⟩
    (fun _ j hj => hall j hj) (fun _ => ⟨hnr, hsame⟩) (.inl rfl)

/-- The inode in slot `k` is written and used once less. -/
theorem Current.clean (h : s.Current known P) (hk : k < nrInode) (hdirt : (s.slot k).dirt = true) : (s.cleaned k).Current known P := by
  have hdisk : (s.cleaned k).disk = s.written k := (if_pos hdirt).symm
  have hdev := h.dirty k hdirt
  exact h.replace hk ⟨rfl, rfl, .inr ⟨hdisk, fun _ => hdev⟩⟩ ⟨h.home k, h.pipes k, fun _ _ => hdev, fun hd => nomatch hd⟩
    (h.stays rfl rfl) (h.table k) (.inl hdisk)

theorem Current.unchanged (h : s.Current known P) (hdev : s'.dev = s.dev) (hslot : s'.slot = s.slot) (hdisk : s'.disk = s.disk) :
    s'.Current known P := by
  refine ⟨h.toTable.unchanged hdev hslot, hslot ▸ h.unique, hslot ▸ h.table, ?_⟩
  rw [hslot, hdisk, hdev]
  exact h.disk

/-- Something else is said of the inode in slot `k`, which is dirty or about to be. -/
theorem Current.assign {known' : Nat → Prop} {P' : Nat → DiskInode → Prop} (h : s.Current known P) (hk : k < nrInode)
    (hdev : (s.slot k).dev = s.dev) (hidev : i.dev = (s.slot k).dev) (hinum : i.num = (s.slot k).num) (hpipe : i.pipe = (s.slot k).pipe)
    (hdirt : i.dirt = true) (hself : known' (s.slot k).num ∧ P' (s.slot k).num i.toDiskInode)
    (hothers : ∀ n d, n ≠ (s.slot k).num → (known' n ↔ known n) ∧ (P n d → P' n d)) : (s.setSlot k i).Current known' P' := by
  have hat : (s.setSlot k i).slot k = i := Function.update_self _ _ _
  have hother : ∀ j, j ≠ k → (s.setSlot k i).slot j = s.slot j := fun j hj => Function.update_of_ne hj _ _
  have hfits : s.Fits i := ⟨hidev ▸ h.home k, fun hp => hidev.trans (h.pipes k (hpipe.symm.trans hp)), fun _ _ => hidev.trans hdev,
    fun _ => hidev.trans hdev⟩
  refine ⟨h.toTable.replace hk setSlot_replaces hfits, setSlot_replaces.unique h.unique (h.stays hidev hinum), ?_, ?_⟩
  · intro j hj
    by_cases hjk : j = k
    · rw [hjk, hat, hinum]
      exact hself
    · rw [hother j hjk] at hj ⊢
      have hne : (s.slot j).num ≠ (s.slot k).num := by
        intro hnum
        exact hjk (h.unique j k hj (((h.home j).resolve_left hj).trans hdev.symm) hnum)
      obtain ⟨hknown, hp⟩ := h.table j hj
      exact ⟨(hothers _ (s.slot j).toDiskInode hne).1.mpr hknown, (hothers _ _ hne).2 hp⟩
  · intro n hn hclean
    by_cases hnum : n = (s.slot k).num
    · have dirty := hclean k
      rw [hat, hidev, hinum, hdirt] at dirty
      exact absurd (dirty hdev hnum.symm) (by decide)
    · refine (hothers n _ hnum).2 (h.disk n ((hothers n (s.disk n) hnum).1.mp hn) fun j hjdev hjnum => ?_)
      have hjk : j ≠ k := by
        rintro rfl
        exact hnum hjnum.symm
      have clean := hclean j
      rw [hother j hjk] at clean
      exact clean hjdev hjnum

/-- A number that was not known gets an inode, in a slot that is emptied for it. -/
theorem Current.insert {known' : Nat → Prop} {P' : Nat → DiskInode → Prop} (h : s.Current known P) (hk : k < nrInode)
    (hidev : i.dev = s.dev) (hpipe : i.pipe = false) (hdirt : i.dirt = true) (hfresh : ¬ known i.num)
    (hself : known' i.num ∧ P' i.num i.toDiskInode)
    (hothers : ∀ n d, n ≠ i.num → (known' n ↔ known n) ∧ (P n d → P' n d)) : (s.emptied k i).Current known' P' := by
  have hclear := h.clear hk
  have hat : (s.emptied k i).slot k = i := Function.update_self _ _ _
  have hempty : (s.emptied k {}).slot k = {} := Function.update_self _ _ _
  have hother : ∀ j, j ≠ k → (s.emptied k i).slot j = (s.emptied k {}).slot j :=
    fun j hj => (Function.update_of_ne hj _ _).trans (Function.update_of_ne hj _ _).symm
  have hfits : s.Fits i := ⟨.inr hidev, (fun hp => by rw [hpipe] at hp; cases hp), fun _ _ => hidev, fun _ => hidev⟩
  have hapart : ∀ j, (s.slot j).dev ≠ 0 → (s.slot j).num ≠ i.num := fun j hj hnum => hfresh (hnum ▸ (h.table j hj).1)
  refine ⟨h.toTable.replace hk (emptied_replaces (h.dirty k)) hfits, (emptied_replaces (h.dirty k)).unique h.unique ?_, ?_, ?_⟩
  · intro hne j _ hc
    exact hapart j (hc.1 ▸ hne) hc.2
  · intro j hj
    by_cases hjk : j = k
    · rw [hjk, hat]
      exact hself
    · rw [hother j hjk] at hj ⊢
      obtain ⟨hknown, hp⟩ := hclear.table j hj
      have hne : ((s.emptied k {}).slot j).num ≠ i.num := fun hnum => hfresh (hnum ▸ hknown)
      exact ⟨(hothers _ ((s.emptied k {}).slot j).toDiskInode hne).1.mpr hknown, (hothers _ _ hne).2 hp⟩
  · intro n hn hclean
    have hnum : n ≠ i.num := by
      intro hnum
      have dirty := hclean k
      rw [hat, hdirt] at dirty
      exact absurd (dirty hidev hnum.symm) (by decide)
    refine (hothers n _ hnum).2 (hclear.disk n ((hothers n (s.disk n) hnum).1.mp hn) fun j hjdev hjnum => ?_)
    by_cases hjk : j = k
    · rw [hjk, hempty]
    · rw [← hother j hjk] at hjdev hjnum ⊢
      exact hclean j hjdev hjnum

end Vfs

end RheeKernel
