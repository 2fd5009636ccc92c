import RheeKernel.PageTables

open Finset

namespace RheeKernel

namespace Tables

variable {T : Tables} {d e i j k : Nat} {w : Word}

/-- Every change of one page-table entry is of this form: the counters move with the references,
the pages that must stay at count one do so. -/
theorem Inv.replace (h : T.Inv) (hd : d ∈ userDirs) (hi : i ∈ slots) (hp : present (T.dir d) = true)
    {m n : Nat → Nat}
    (balance : ∀ k < pagingPages, m k + refsOf (T.pte d i) k + T.holds k = T.memMap k + refsOf w k + n k)
    (range : present w = true → pageAddr w < highMemory)
    (tables : ∀ e ∈ userDirs, present (T.dir e) = true → ∀ k < pagingPages,
      pageAddr (T.dir e) = pageAt k → m k = 1)
    (single : ∀ k < pagingPages, refsOf w k = 0 ∨ refsOf w k ≤ refsOf (T.pte d i) k ∨
      ∑ j ∈ slots, refsOf (T.pte d j) k = 0)
    (alone : ∀ k < pagingPages, 0 < n k → m k = 1)
    (others : ∀ e ∈ userDirs, ∀ j ∈ slots, e ≠ d ∨ j ≠ i → present (T.pte e j) = true →
      writable (T.pte e j) = true → ∀ k < pagingPages, pageAddr (T.pte e j) = pageAt k →
      T.memMap k = 1 → m k = 1)
    (own : present w = true → writable w = true → ∃ k < pagingPages, pageAddr w = pageAt k ∧ m k = 1) :
    Inv { T.setPte d i w with memMap := m, holds := n } := by
  refine ⟨?_, ?_, ?_, ?_, ?_, alone, ?_⟩
  · intro k hk
    have h1 := refs_setPte (T := T) hd hi w k
    have h2 := h.counts k hk
    have h3 := balance k hk
    simp only [Tables.refs, setPte] at *
    omega
  · intro e he hpe
    obtain ⟨k, hk, ha, _⟩ := h.dirs e he hpe
    exact ⟨k, hk, ha, tables e he hpe k hk ha⟩
  · intro e he j hj
    simp only [setPte_pte]
    split
    next => exact range
    next => exact h.ptes e he j hj
  · intro e he hpe
    have hne : e ≠ d := by
      rintro rfl
      exact absurd hpe (by simp [setPte, hp])
    simpa [setPte, hne] using h.absent e he hpe
  · intro e he k hk
    by_cases hne : e = d
    · subst hne
      have h1 := Counting.sum_update_add hi (fun w => refsOf w k) (T.pte e) w
      have h2 := h.once e he k hk
      have h3 := single k hk
      have h4 := refsOf_le_one w k
      have h5 := refsOf_le_one (T.pte e i) k
      have h6 := Counting.le_sum_of_mem hi fun j => refsOf (T.pte e j) k
      simp only [setPte, Function.update_self] at *
      omega
    · simpa [setPte, hne] using h.once e he k hk
  · intro e he j hj
    simp only [setPte_pte]
    split
    next => exact own
    next hne =>
      intro hpe hwe
      obtain ⟨k, hk, ha, hm⟩ := h.cow e he j hj hpe hwe
      exact ⟨k, hk, ha, others e he j hj (by omega) hpe hwe k hk ha hm⟩

theorem Inv.tables_kept (h : T.Inv) {n : Nat} (hk : k < pagingPages)
    (hm : ∀ e ∈ userDirs, present (T.dir e) = true → pageAddr (T.dir e) ≠ pageAt k) :
    ∀ e ∈ userDirs, present (T.dir e) = true → ∀ j < pagingPages, pageAddr (T.dir e) = pageAt j →
      Function.update T.memMap k n j = 1 := by
  intro e he hp j hj ha
  have hne : j ≠ k := by
    rintro rfl
    exact hm e he hp ha
  rw [Function.update_of_ne hne]
  exact (h.table_unshared he hp hj ha).1

/-- Dropping a present entry of a counted page. -/
theorem Inv.unmap (h : T.Inv) (hd : d ∈ userDirs) (hi : i ∈ slots) (hp : present (T.pte d i) = true)
    (hdp : present (T.dir d) = true) (hk : k < pagingPages) (ha : pageAddr (T.pte d i) = pageAt k) :
    ((T.setPte d i 0#32).setMap k (T.memMap k - 1)).Inv := by
  have hpos := pte_add_holds_le_refs (T := T) hd hi k
  have hcount := h.counts k hk
  rw [refsOf_eq_one hp ha] at hpos
  apply h.replace hd hi hdp
  · intro j hj
    by_cases hjk : j = k
    · subst hjk
      simp only [Function.update_self, refsOf_eq_one hp ha, refsOf_zero, setPte]
      omega
    · simp [hjk, refsOf_other ha (Ne.symm hjk), setPte]
  · simp
  · exact h.tables_kept hk fun e he hpe heq =>
      h.table_not_mapped he hpe hd hi hp (ha.trans heq.symm)
  · exact fun j _ => Or.inl (refsOf_zero j)
  · intro j hj hpos'
    have hne : j ≠ k := by
      rintro rfl
      exact h.free_not_mapped hk (Or.inr hpos') hd hi hp ha
    simpa [hne, setPte] using h.alone j hj hpos'
  · intro e he j hj hne hpe hwe l hl hal hm
    have hlk : l ≠ k := by
      rintro rfl
      have := h.only_entry hl hm he hd hj hi hpe hal hp ha
      omega
    simpa [hlk, setPte] using hm
  · simp

/-- Changing an entry without changing the counters: the new word refers to the same page or to
an uncounted one. -/
theorem Inv.rewrite (h : T.Inv) (hd : d ∈ userDirs) (hi : i ∈ slots) (hdp : present (T.dir d) = true)
    (same : ∀ k < pagingPages, refsOf w k = refsOf (T.pte d i) k)
    (range : present w = true → pageAddr w < highMemory)
    (own : present w = true → writable w = true →
      ∃ k < pagingPages, pageAddr w = pageAt k ∧ T.memMap k = 1) :
    (T.setPte d i w).Inv := by
  apply h.replace hd hi hdp
  · intro k hk
    rw [same k hk]
  · exact range
  · exact fun e he hpe k hk ha => (h.table_unshared he hpe hk ha).1
  · exact fun k hk => Or.inr (Or.inl (same k hk).le)
  · exact h.alone
  · exact fun e he j hj _ hpe hwe k hk ha hm => hm
  · exact own

/-- `*pg_table = 0` for an entry that is absent or names a page below `LOW_MEM`. -/
theorem Inv.clear (h : T.Inv) (hd : d ∈ userDirs) (hi : i ∈ slots) (hdp : present (T.dir d) = true)
    (hp : present (T.pte d i) = false ∨ pageAddr (T.pte d i) < lowMem) : (T.setPte d i 0#32).Inv := by
  apply h.rewrite hd hi hdp
  · intro k _
    rcases hp with hp | hp
    · rw [refsOf_zero, refsOf_absent hp]
    · rw [refsOf_zero, refsOf_low hp]
  · simp
  · simp

/-- Clearing the writable bit. -/
theorem Inv.protectEntry (h : T.Inv) (hd : d ∈ userDirs) (hi : i ∈ slots)
    (hdp : present (T.dir d) = true) : (T.setPte d i (protect (T.pte d i))).Inv := by
  apply h.rewrite hd hi hdp
  · exact fun k _ => refsOf_congr (present_protect _) (pageAddr_protect _) k
  · simpa using h.ptes d hd i hi
  · simp

/-- Setting the writable bit of the only entry of a page. -/
theorem Inv.grant (h : T.Inv) (hd : d ∈ userDirs) (hi : i ∈ slots) (hdp : present (T.dir d) = true)
    (hk : k < pagingPages) (ha : pageAddr (T.pte d i) = pageAt k)
    (hm : T.memMap k = 1) : (T.setPte d i (unprotect (T.pte d i))).Inv := by
  apply h.rewrite hd hi hdp
  · exact fun k _ => refsOf_congr (present_unprotect _) (pageAddr_unprotect _) k
  · simpa using h.ptes d hd i hi
  · intro _ _
    exact ⟨k, hk, by simpa using ha, hm⟩

/-- A second, read-only entry for an uncounted page. -/
theorem Inv.shareLow (h : T.Inv) (hd : d ∈ userDirs) (hi : i ∈ slots) (hdp : present (T.dir d) = true)
    (hp : present (T.pte d i) = false) (hlow : pageAddr w < lowMem) (hro : writable w = false) :
    (T.setPte d i w).Inv := by
  apply h.rewrite hd hi hdp
  · intro k _
    rw [refsOf_low hlow, refsOf_absent hp]
  · simp only [lowMem, highMemory] at *
    omega
  · simp [hro]

/-- A further read-only entry for a page that is mapped read-only only. -/
theorem Inv.share (h : T.Inv) (hd : d ∈ userDirs) (hi : i ∈ slots) (hdp : present (T.dir d) = true)
    (hp : present (T.pte d i) = false) (he : e ∈ userDirs) (hj : j ∈ slots)
    (hpe : present (T.pte e j) = true) (hw : present w = true) (hro : writable w = false)
    (hroe : writable (T.pte e j) = false)
    (hk : k < pagingPages) (hae : pageAddr (T.pte e j) = pageAt k) (ha : pageAddr w = pageAt k)
    (hnone : ∀ l ∈ slots, present (T.pte d l) = true → pageAddr (T.pte d l) ≠ pageAt k) :
    ((T.setPte d i w).setMap k (T.memMap k + 1)).Inv := by
  apply h.replace hd hi hdp
  · intro l hl
    rw [refsOf_absent hp]
    by_cases hlk : l = k
    · subst hlk
      simp only [Function.update_self, refsOf_eq_one hw ha, setPte]
    · simp [hlk, refsOf_other ha (Ne.symm hlk), setPte]
  · exact fun _ => ha ▸ pageAt_lt hk
  · exact h.tables_kept hk fun f hf hpf heq =>
      h.table_not_mapped hf hpf he hj hpe (hae.trans heq.symm)
  · intro l hl
    by_cases hlk : l = k
    · right; right
      apply Finset.sum_eq_zero
      intro f hf
      apply if_neg
      rintro ⟨hpf, haf⟩
      exact hnone f hf hpf (haf.trans (congrArg pageAt hlk))
    · exact Or.inl (refsOf_other ha (Ne.symm hlk))
  · intro l hl hpos
    have hne : l ≠ k := by
      rintro rfl
      exact h.free_not_mapped hl (Or.inr hpos) he hj hpe hae
    simpa [hne, setPte] using h.alone l hl hpos
  · intro f hf l hl hne hpf hwf m hm haf hmm
    have hmk : m ≠ k := by
      rintro rfl
      have heq := h.only_entry hm hmm hf he hl hj hpf haf hpe hae
      rw [heq.1, heq.2, hroe] at hwf
      exact absurd hwf (by simp)
    simpa [hmk, setPte] using hmm
  · simp [hro]

/-- A kernel hold becomes the page of an absent entry. -/
theorem Inv.mapHold (h : T.Inv) (hd : d ∈ userDirs) (hi : i ∈ slots) (hdp : present (T.dir d) = true)
    (hp : present (T.pte d i) = false) (hk : k < pagingPages) (hh : T.holds k = 1) :
    ((T.setPte d i (userEntry (pageAt k))).setHolds k 0).Inv := by
  have hm := h.alone k hk (by omega)
  apply h.replace hd hi hdp
  · intro l hl
    rw [refsOf_absent hp, refsOf_userEntry hk]
    by_cases hlk : l = k
    · subst hlk
      simp [setPte, hh]
    · simp [hlk, setPte]
  · exact fun _ => by rw [pageAddr_userEntry_pageAt hk]; exact pageAt_lt hk
  · exact fun e he hpe l hl ha => (h.table_unshared he hpe hl ha).1
  · intro l hl
    by_cases hlk : l = k
    · right; right
      apply Finset.sum_eq_zero
      intro f hf
      apply if_neg
      rintro ⟨hpf, haf⟩
      exact h.free_not_mapped hk (Or.inr (by omega)) hd hf hpf (haf.trans (congrArg pageAt hlk))
    · exact Or.inl (by rw [refsOf_userEntry hk, if_neg hlk])
  · intro l hl hpos
    by_cases hlk : l = k
    · simp [hlk] at hpos
    · exact h.alone l hl (by simpa [hlk, setPte] using hpos)
  · exact fun e he j hj _ hpe hwe l hl ha hm => hm
  · exact fun _ _ => ⟨k, hk, pageAddr_userEntry_pageAt hk, hm⟩

/-- The count and the kernel's hold of a page that no entry has change together. -/
theorem Inv.setHold {m n : Nat} (h : T.Inv) (hk : k < pagingPages) (hcount : m + T.holds k = T.memMap k + n) (hone : 0 < n → m = 1)
    (hfree : T.memMap k = 0 ∨ 0 < T.holds k) : ((T.setMap k m).setHolds k n).Inv := by
  refine ⟨?_, ?_, h.ptes, h.absent, h.once, ?_, ?_⟩
  · intro j hj
    have h1 := refs_setHolds (T.setMap k m) k n j
    have h2 := h.counts j hj
    simp only [refs_setMap] at h1
    by_cases hjk : j = k
    · subst hjk
      simp only [setHolds, setMap, Function.update_self, if_true] at *
      omega
    · simp only [setHolds, setMap, if_neg hjk, Function.update_of_ne hjk] at *
      omega
  · intro d hd hp
    obtain ⟨j, hj, ha, hm⟩ := h.dirs d hd hp
    have hjk : j ≠ k := by
      rintro rfl
      exact h.free_not_table hj hfree hd hp ha
    exact ⟨j, hj, ha, by simpa [setHolds, setMap, hjk] using hm⟩
  · intro j hj hpos
    by_cases hjk : j = k
    · subst hjk
      have hn : 0 < n := by simpa [setHolds] using hpos
      simpa [setHolds, setMap] using hone hn
    · simpa [setHolds, setMap, hjk] using h.alone j hj (by simpa [setHolds, setMap, hjk] using hpos)
  · intro d hd i hi hp hw
    obtain ⟨j, hj, ha, hm⟩ := h.cow d hd i hi hp hw
    have hjk : j ≠ k := by
      rintro rfl
      exact h.free_not_mapped hj hfree hd hi hp ha
    exact ⟨j, hj, ha, by simpa [setHolds, setMap, hjk] using hm⟩

/-- `get_free_page` for the kernel itself. -/
theorem Inv.allocHold (h : T.Inv) (hk : k < pagingPages) (hz : T.memMap k = 0) :
    ((T.setMap k 1).setHolds k 1).Inv := by
  have hzero : T.holds k = 0 := by
    have h1 := h.counts k hk
    have h2 := holds_le_refs T k
    omega
  exact h.setHold hk (by omega) (fun _ => rfl) (.inl hz)

/-- `free_page` of a page the kernel holds. -/
theorem Inv.dropHold (h : T.Inv) (hk : k < pagingPages) (hh : 0 < T.holds k) :
    ((T.setMap k (T.memMap k - 1)).setHolds k (T.holds k - 1)).Inv := by
  have hm := h.alone k hk hh
  have hcount := h.counts k hk
  have hone : T.holds k = 1 := by
    have := holds_le_refs T k
    omega
  exact h.setHold hk (by omega) (fun hpos => by omega) (.inr hh)

/-- A kernel hold becomes the empty page table of a directory slot. -/
theorem Inv.hang (h : T.Inv) (hd : d ∈ userDirs) (hp : present (T.dir d) = false)
    (hk : k < pagingPages) (hh : T.holds k = 1) :
    ((T.setDir d (userEntry (pageAt k))).setHolds k 0).Inv := by
  have hm := h.alone k hk (by omega)
  have hempty : ∀ l, ∑ i ∈ slots, refsOf (T.pte d i) l = 0 := by
    intro l
    rw [h.absent d hd hp]
    simp
  refine ⟨?_, ?_, ?_, ?_, ?_, ?_, ?_⟩
  · intro j hj
    have h1 := refs_setDir (T := T) hd (userEntry (pageAt k)) j
    have h2 := refs_setHolds (T.setDir d (userEntry (pageAt k))) k 0 j
    have h3 := h.counts j hj
    rw [refsOf_absent hp, hempty, refsOf_userEntry hk] at h1
    simp only [setHolds, setDir] at *
    by_cases hjk : j = k
    · subst hjk
      simp only [if_true] at *
      omega
    · simp only [if_neg hjk] at *
      omega
  · intro e he hpe
    by_cases hed : e = d
    · subst hed
      exact ⟨k, hk, by simp [setHolds, setDir, hk], hm⟩
    · exact h.dirs e he (by simpa [setHolds, setDir, hed] using hpe) |>.imp fun j hj => by
        simpa [setHolds, setDir, hed] using hj
  · intro e he i hi
    by_cases hed : e = d
    · simp [setHolds, setDir, hed]
    · simpa [setHolds, setDir, hed] using h.ptes e he i hi
  · intro e he hpe
    by_cases hed : e = d
    · simp [setHolds, setDir, hed]
    · simpa [setHolds, setDir, hed] using h.absent e he (by simpa [setHolds, setDir, hed] using hpe)
  · intro e he l hl
    by_cases hed : e = d
    · simp [setHolds, setDir, hed]
    · simpa [setHolds, setDir, hed] using h.once e he l hl
  · intro j hj hpos
    by_cases hjk : j = k
    · simp [setHolds, hjk] at hpos
    · exact h.alone j hj (by simpa [setHolds, setDir, hjk] using hpos)
  · intro e he i hi
    by_cases hed : e = d
    · simp [setHolds, setDir, hed]
    · simpa [setHolds, setDir, hed] using h.cow e he i hi

/-- Releasing the page table of a directory slot once all its entries are empty. -/
theorem Inv.unhang (h : T.Inv) (hd : d ∈ userDirs) (hp : present (T.dir d) = true)
    (hk : k < pagingPages) (ha : pageAddr (T.dir d) = pageAt k)
    (hempty : ∀ i ∈ slots, present (T.pte d i) = false) :
    ((T.setDir d 0#32).setMap k (T.memMap k - 1)).Inv := by
  obtain ⟨hm, hr⟩ := h.table_unshared hd hp hk ha
  have hsum : ∀ l, ∑ i ∈ slots, refsOf (T.pte d i) l = 0 := fun l =>
    Finset.sum_eq_zero fun i hi => refsOf_absent (hempty i hi) l
  refine ⟨?_, ?_, ?_, ?_, ?_, ?_, ?_⟩
  · intro j hj
    have h1 := refs_setDir (T := T) hd 0#32 j
    have h3 := h.counts j hj
    rw [hsum, refsOf_zero] at h1
    change Function.update T.memMap k (T.memMap k - 1) j = (T.setDir d 0#32).refs j
    by_cases hjk : j = k
    · subst hjk
      rw [refsOf_eq_one hp ha] at h1
      rw [Function.update_self]
      omega
    · rw [refsOf_other ha (Ne.symm hjk)] at h1
      rw [Function.update_of_ne hjk]
      omega
  · intro e he hpe
    by_cases hed : e = d
    · simp [setMap, setDir, hed] at hpe
    · have hpe' : present (T.dir e) = true := by simpa [setMap, setDir, hed] using hpe
      obtain ⟨j, hj, haj, hmj⟩ := h.dirs e he hpe'
      have hjk : j ≠ k := by
        rintro rfl
        exact h.tables_ne he hpe' hd hp hed (haj.trans ha.symm)
      exact ⟨j, hj, by simpa [setMap, setDir, hed] using haj, by simpa [setMap, setDir, hjk] using hmj⟩
  · intro e he i hi
    by_cases hed : e = d
    · simp [setMap, setDir, hed]
    · simpa [setMap, setDir, hed] using h.ptes e he i hi
  · intro e he hpe
    by_cases hed : e = d
    · simp [setMap, setDir, hed]
    · simpa [setMap, setDir, hed] using h.absent e he (by simpa [setMap, setDir, hed] using hpe)
  · intro e he l hl
    by_cases hed : e = d
    · simp [setMap, setDir, hed]
    · simpa [setMap, setDir, hed] using h.once e he l hl
  · intro j hj hpos
    have hjk : j ≠ k := by
      rintro rfl
      exact h.free_not_table hj (Or.inr hpos) hd hp ha
    simpa [setMap, setDir, hjk] using h.alone j hj hpos
  · intro e he i hi
    by_cases hed : e = d
    · simp [setMap, setDir, hed]
    · intro hpe hwe
      have hpe' : present (T.pte e i) = true := by simpa [setMap, setDir, hed] using hpe
      obtain ⟨j, hj, haj, hmj⟩ := h.cow e he i hi hpe' (by simpa [setMap, setDir, hed] using hwe)
      have hjk : j ≠ k := by
        rintro rfl
        exact h.table_not_mapped hd hp he hi hpe' (haj.trans ha.symm)
      exact ⟨j, hj, by simpa [setMap, setDir, hed] using haj, by simpa [setMap, setDir, hjk] using hmj⟩

end Tables

end RheeKernel
