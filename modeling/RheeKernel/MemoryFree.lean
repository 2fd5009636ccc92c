import RheeKernel.MemorySpace

open Finset

namespace RheeKernel

namespace Mm

variable {s : Mm} {holds : Nat → Nat} {d i k n : Nat}

theorem mem_slots : i ∈ slots ↔ i < 1024 := Finset.mem_range

theorem mem_userDirs : d ∈ userDirs ↔ 16 ≤ d ∧ d < 1024 := Finset.mem_Ico

/-- One round of the inner loop of `free_page_tables`: the page loses the reference that the
cleared entry was. -/
theorem freeEntry_spec (h : s.Inv holds) (hd : d ∈ userDirs) (hdp : present (s.mem 0 d) = true)
    (hi : i ∈ slots) :
    ∃ m, (if present (s.mem (pageAddr (s.mem 0 d)) i) then freePage s (pageAddr (s.mem (pageAddr (s.mem 0 d)) i))
        else .ok s) = .ok { s with memMap := m } ∧
      Inv { s.store (pageAddr (s.mem 0 d)) i 0#32 with memMap := m } holds := by
  rw [← pte_present hd hdp]
  by_cases hp : present (s.pte d i) = true
  · rw [if_pos hp]
    by_cases hl : pageAddr (s.pte d i) < lowMem
    · exact ⟨s.memMap, freePage_low hl, h.storePte hd hdp (h.tables.clear hd hi hdp (Or.inr hl))⟩
    · obtain ⟨k, hk, ha⟩ := exists_pageAt (Nat.not_lt.mp hl) (h.tables.ptes d hd i hi hp)
      have hpos : s.memMap k ≠ 0 := by
        have h1 := Tables.pte_le_refs (T := s.tables holds) hd hi k
        have h2 := h.tables.counts k hk
        simp only [tables_pte, tables_memMap, refsOf_eq_one hp ha] at h1 h2
        omega
      rw [ha]
      exact ⟨_, freePage_pageAt hk hpos, h.storePte hd hdp (h.tables.unmap hd hi hp hdp hk ha)⟩
  · rw [if_neg hp]
    exact ⟨s.memMap, rfl, h.storePte hd hdp (h.tables.clear hd hi hdp (Or.inl (Bool.eq_false_iff.mpr hp)))⟩

/-- The inner loop empties the table and touches nothing else. -/
theorem freeEntries_spec (h : s.Inv holds) (hd : d ∈ userDirs) (hdp : present (s.mem 0 d) = true)
    {nr : Nat} (hn : nr + n = 1024) (hdone : ∀ i < nr, present (s.pte d i) = false) :
    ∃ s', freeEntries (pageAddr (s.mem 0 d)) n nr s = .ok s' ∧ s'.Inv holds ∧ s'.mem 0 = s.mem 0 ∧
      (∀ i ∈ slots, present (s'.pte d i) = false) ∧
      ∀ e ∈ userDirs, e ≠ d → ∀ j ∈ slots, s'.space e j = s.space e j := by
  induction n generalizing s nr with
  | zero =>
    exact ⟨s, rfl, h, rfl, fun i hi => hdone i (by rw [mem_slots] at hi; omega), fun _ _ _ _ _ => rfl⟩
  | succ n ih =>
    have hi : nr ∈ slots := mem_slots.mpr (by omega)
    obtain ⟨m, hfree, hinv⟩ := freeEntry_spec h hd hdp hi
    obtain ⟨k, hk, ha⟩ := h.table_at hd hdp
    let t : Mm := { s.store (pageAddr (s.mem 0 d)) nr 0#32 with memMap := m }
    have ht : Mm.store { s with memMap := m } (pageAddr (s.mem 0 d)) nr 0#32 = t := rfl
    have hzero : t.mem 0 = s.mem 0 := store_mem_ne s nr _ (ha ▸ (pageAt_ne_zero k).symm)
    have hpte : ∀ e j, t.pte e j = if e = d ∧ j = nr then 0#32 else s.pte e j :=
      pte_storePte h hd hdp nr 0#32
    have hdone' : ∀ i < nr + 1, present (t.pte d i) = false := by
      intro i hi
      rw [hpte]
      split
      next => rfl
      next hne => exact hdone i (by omega)
    obtain ⟨s', hs, hinv', hmem, hempty, hspace⟩ :=
      ih (s := t) hinv (by rw [hzero]; exact hdp) (by omega) hdone'
    rw [hzero] at hs hmem
    refine ⟨s', ?_, hinv', hmem, hempty, ?_⟩
    · rw [freeEntries, hfree]
      exact hs
    · intro e he hne j hj
      rw [hspace e he hne j hj]
      have := space_storePte (i := nr) (w := 0#32) h hd hdp he hj (by simp)
      rw [if_neg (by omega)] at this
      exact this

/-- One directory slot of `free_page_tables`. -/
theorem freeDir_spec (h : s.Inv holds) (hd : d ∈ userDirs) (hdp : present (s.mem 0 d) = true) :
    ∃ s₁ s₂, freeEntries (pageAddr (s.mem 0 d)) 1024 0 s = .ok s₁ ∧
      freePage s₁ (pageAddr (s₁.mem 0 d)) = .ok s₂ ∧ (s₂.store 0 d 0#32).Inv holds ∧
      ∀ e ∈ userDirs, ∀ j ∈ slots,
        (s₂.store 0 d 0#32).space e j = if e = d then none else s.space e j := by
  obtain ⟨s₁, hfree, h₁, hzero, hempty, hspace⟩ :=
    freeEntries_spec h hd hdp (show 0 + 1024 = 1024 from rfl) (by omega)
  have hdp₁ : present (s₁.mem 0 d) = true := by rw [hzero]; exact hdp
  obtain ⟨k, hk, ha, hm⟩ := h₁.tables.dirs d hd hdp₁
  change pageAddr (s₁.mem 0 d) = _ at ha
  change s₁.memMap k = 1 at hm
  refine ⟨s₁, s₁.setMap k (s₁.memMap k - 1), hfree, ?_, ?_, ?_⟩
  · rw [ha]
    exact freePage_pageAt hk (by omega)
  · exact h₁.storeDir hd (by simp) (h₁.tables.unhang hd hdp₁ hk ha hempty)
  · intro e he j hj
    have hdir : (s₁.store 0 d 0#32).space e j = _ := space_storeDir h₁ hd (by simp)
    change (s₁.store 0 d 0#32).space e j = _
    rw [hdir]
    by_cases hed : e = d
    · simp [hed]
    · rw [if_neg hed, if_neg hed, hspace e he hed j hj]

/-- `free_page_tables` over a range of user slots never panics, keeps the reference law and
removes exactly the pages of the range. -/
theorem freeDirs_spec (h : s.Inv holds) (hlow : 16 ≤ d) (hhigh : d + n ≤ 1024) :
    ∃ s', freeDirs n d s = .ok s' ∧ s'.Inv holds ∧ ∀ e ∈ userDirs, ∀ j ∈ slots,
      s'.space e j = if d ≤ e ∧ e < d + n then none else s.space e j := by
  induction n generalizing s d with
  | zero => exact ⟨s, rfl, h, fun e he j hj => (if_neg (by omega)).symm⟩
  | succ n ih =>
    have hd : d ∈ userDirs := mem_userDirs.mpr (by omega)
    rw [freeDirs]
    by_cases hdp : present (s.mem 0 d) = true
    · obtain ⟨s₁, s₂, hfree, hpage, hinv, hspace⟩ := freeDir_spec h hd hdp
      obtain ⟨s', hs, hinv', hspace'⟩ := ih (d := d + 1) hinv (by omega) (by omega)
      rw [if_pos hdp, hfree]
      simp only [hpage]
      refine ⟨s', hs, hinv', ?_⟩
      intro e he j hj
      rw [hspace' e he j hj]
      by_cases hin : d + 1 ≤ e ∧ e < d + 1 + n
      · rw [if_pos hin, if_pos (by omega)]
      · rw [if_neg hin, hspace e he j hj]
        by_cases hed : e = d
        · rw [if_pos hed, if_pos (by omega)]
        · rw [if_neg hed, if_neg (by omega)]
    · rw [if_neg hdp]
      obtain ⟨s', hs, hinv', hspace'⟩ := ih (d := d + 1) h (by omega) (by omega)
      refine ⟨s', hs, hinv', ?_⟩
      intro e he j hj
      rw [hspace' e he j hj]
      by_cases hin : d + 1 ≤ e ∧ e < d + 1 + n
      · rw [if_pos hin, if_pos (by omega)]
      · rw [if_neg hin]
        by_cases hed : e = d
        · rw [if_pos (by omega), hed]
          exact space_of_dir (by simpa using hdp)
        · rw [if_neg (by omega)]

end Mm

end RheeKernel
