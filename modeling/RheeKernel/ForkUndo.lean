import RheeKernel.CallRuns

open Finset

namespace RheeKernel

namespace Mm

variable {s s' t : Mm} {T : Nat → Prop} {holds : Nat → Nat} {a d e f i k n page : Nat} {w : Word}

/-- What a copy into the directory slots `T` may do to everything else: take away the right to write. The page at
address 0 is the page directory. -/
structure Fades (T : Nat → Prop) (s s' : Mm) : Prop where
  dir : ∀ e, ¬ T e → s'.mem 0 e = s.mem 0 e
  low : ∀ a, a ≠ 0 → a < lowMem → s'.mem a = s.mem a
  entry : ∀ e ∈ userDirs, ¬ T e → ∀ i, s'.pte e i = s.pte e i ∨ s'.pte e i = protect (s.pte e i)
  page : ∀ e ∈ userDirs, ¬ T e → ∀ i ∈ slots, present (s.pte e i) = true → pageAddr (s.pte e i) ≠ 0 →
    s'.mem (pageAddr (s.pte e i)) = s.mem (pageAddr (s.pte e i))

theorem protect_protect (w : Word) : protect (protect w) = protect w := by
  unfold protect
  rw [BitVec.and_assoc, BitVec.and_self]

theorem Fades.of_mem (h : s'.mem = s.mem) : Fades T s s' := by
  refine ⟨fun e _ => ?_, fun a _ _ => ?_, fun e _ _ i => .inl ?_, fun e _ _ i _ _ _ => ?_⟩
  · rw [h]
  · rw [h]
  · rw [pte_of_mem h]
  · rw [h]

theorem Fades.same_page (h : Fades T s s') (he : e ∈ userDirs) (hT : ¬ T e) :
    present (s'.pte e i) = present (s.pte e i) ∧ pageAddr (s'.pte e i) = pageAddr (s.pte e i) := by
  rcases h.entry e he hT i with heq | heq
  · rw [heq]
    exact ⟨rfl, rfl⟩
  · rw [heq]
    exact ⟨present_protect _, pageAddr_protect _⟩

theorem Fades.trans (h : Fades T s t) (h' : Fades T t s') : Fades T s s' := by
  refine ⟨fun e he => (h'.dir e he).trans (h.dir e he), fun a h0 ha => (h'.low a h0 ha).trans (h.low a h0 ha),
    fun e he hT i => ?_, fun e he hT i hi hp h0 => ?_⟩
  · rcases h.entry e he hT i with hsame | hfaded
    · rw [← hsame]
      exact h'.entry e he hT i
    · right
      rcases h'.entry e he hT i with hsame | hagain
      · rw [hsame, hfaded]
      · rw [hagain, hfaded, protect_protect]
  · obtain ⟨hpres, haddr⟩ := h.same_page (i := i) he hT
    have hlast := h'.page e he hT i hi (hpres.trans hp) (haddr ▸ h0)
    rw [haddr] at hlast
    exact hlast.trans (h.page e he hT i hi hp h0)

/-- A change of the entries `T` of the directory, and of pages that no other slot maps or has as its table. -/
theorem Fades.of_pages (hdir : ∀ e, ¬ T e → s'.mem 0 e = s.mem 0 e) (hlow : ∀ a, a ≠ 0 → a < lowMem → s'.mem a = s.mem a)
    (htable : ∀ e ∈ userDirs, ¬ T e → present (s.mem 0 e) = true → s'.mem (pageAddr (s.mem 0 e)) = s.mem (pageAddr (s.mem 0 e)))
    (hpage : ∀ e ∈ userDirs, ¬ T e → ∀ i ∈ slots, present (s.pte e i) = true → pageAddr (s.pte e i) ≠ 0 →
      s'.mem (pageAddr (s.pte e i)) = s.mem (pageAddr (s.pte e i))) : Fades T s s' := by
  refine ⟨hdir, hlow, fun e he hT i => .inl ?_, hpage⟩
  unfold pte
  rw [hdir e hT]
  split
  next hc => rw [htable e he hT hc.2]
  next => rfl

/-- A free page is nobody's. -/
theorem alloc_fades (h : s.Inv holds) (hg : getFreePage s = some (page, s')) : Fades T s s' := by
  obtain ⟨k, hk, rfl, hz, rfl, _⟩ := h.alloc hg
  have hmem : ∀ a, a ≠ pageAt k → ((s.setMap k 1).setPage (pageAt k) fun _ => 0#32).mem a = s.mem a := by
    intro a ha
    rw [setPage_mem_ne _ _ ha, setMap_mem]
  refine Fades.of_pages (fun e _ => ?_) (fun a _ ha => hmem a ?_) (fun e he _ hp => hmem _ ?_) fun e he _ i hi hp _ => hmem _ ?_
  · rw [hmem 0 (pageAt_ne_zero k).symm]
  · simp only [pageAt]
    omega
  · exact h.tables.free_not_table hk (.inl hz) he hp
  · exact h.tables.free_not_mapped hk (.inl hz) he hi hp

theorem storeDir_fades (hd : T d) (htable : ∀ e ∈ userDirs, present (s.mem 0 e) = true → pageAddr (s.mem 0 e) ≠ 0) :
    Fades T s (s.store 0 d w) := by
  have hne : ∀ a, a ≠ 0 → (s.store 0 d w).mem a = s.mem a := fun a ha => store_mem_ne _ _ _ ha
  refine Fades.of_pages (fun e he => ?_) (fun a h0 _ => hne a h0) (fun e he _ hp => hne _ (htable e he hp)) fun e he _ i _ _ h0 => hne _ h0
  have hed : e ≠ d := fun heq => he (heq ▸ hd)
  rw [store_mem_self, Function.update_of_ne hed]

/-- A page that is taken for a table. -/
theorem newTable_fades (h : s.Inv holds) (hg : getFreePage s = some (page, s')) (hd : T d) :
    Fades T s (s'.store 0 d (userEntry page)) := by
  refine (alloc_fades h hg).trans (storeDir_fades hd fun e he hp => ?_)
  obtain ⟨_, _, _, _, _, hinv⟩ := h.alloc hg
  obtain ⟨j, _, hj⟩ := hinv.table_at he hp
  exact hj ▸ pageAt_ne_zero j

/-- Stores into the table of one of the slots `T`. -/
theorem Fades.of_table (h : s.Inv holds) (hd : d ∈ userDirs) (hT : T d) (hp : present (s.mem 0 d) = true)
    (hmem : ∀ a, a ≠ pageAddr (s.mem 0 d) → s'.mem a = s.mem a) : Fades T s s' := by
  obtain ⟨k, _, hk⟩ := h.table_at hd hp
  refine Fades.of_pages (fun e _ => ?_) (fun a _ ha => hmem a ?_) (fun e he hne hpe => hmem _ ?_) fun e he _ i hi hpe _ => hmem _ ?_
  · rw [hmem 0 (hk ▸ (pageAt_ne_zero k).symm)]
  · rw [hk]
    simp only [pageAt]
    omega
  · exact h.tables.tables_ne he hpe hd hp fun heq => hne (heq ▸ hT)
  · exact h.tables.table_not_mapped hd hp he hi hpe

theorem copiedWord_source {src dst : Nat} {mem : Nat → Nat → Word} (hne : src ≠ dst) :
    copiedWord src dst mem src i = mem src i ∨ copiedWord src dst mem src i = protect (mem src i) := by
  unfold copiedWord
  by_cases hp : present (mem src i) = true
  · rw [if_pos hp, if_neg hne]
    split
    next => exact .inr rfl
    next => exact .inl rfl
  · rw [if_neg hp]
    exact .inl rfl

/-- The inner loop of `copy_page_tables` between two user tables. -/
theorem copyEntries_fades {nr : Nat} (h : s.Copying holds f d nr) (hT : T d) :
    Fades T s (copyEntries (pageAddr (s.mem 0 f)) (pageAddr (s.mem 0 d)) n nr s) := by
  obtain ⟨hf, hfp⟩ := h.source
  obtain ⟨hd, hdp⟩ := h.target
  obtain ⟨b, _, hb⟩ := h.inv.table_at hf hfp
  obtain ⟨c, _, hc⟩ := h.inv.table_at hd hdp
  have hother : ∀ a, a ≠ pageAddr (s.mem 0 f) → a ≠ pageAddr (s.mem 0 d) →
      (copyEntries (pageAddr (s.mem 0 f)) (pageAddr (s.mem 0 d)) n nr s).mem a = s.mem a := fun a ha ha' => copyEntries_mem ha ha'
  have hzero := hother 0 (hb ▸ (pageAt_ne_zero b).symm) (hc ▸ (pageAt_ne_zero c).symm)
  have hne : pageAddr (s.mem 0 f) ≠ pageAddr (s.mem 0 d) := h.inv.tables.tables_ne hf hfp hd hdp h.distinct
  refine ⟨fun e _ => by rw [hzero], fun a _ ha => hother a ?_ ?_, fun e he hTe i => ?_, fun e he _ i hi hp _ => hother _ ?_ ?_⟩
  · rw [hb]
    simp only [pageAt]
    omega
  · rw [hc]
    simp only [pageAt]
    omega
  · by_cases hef : e = f
    · -- The source loses the right to write.
      have hold : s.pte f = s.mem (pageAddr (s.mem 0 f)) := pte_present hf hfp
      have hnew : (copyEntries (pageAddr (s.mem 0 f)) (pageAddr (s.mem 0 d)) n nr s).pte f =
          (copyEntries (pageAddr (s.mem 0 f)) (pageAddr (s.mem 0 d)) n nr s).mem (pageAddr (s.mem 0 f)) := by
        rw [pte_present hf (by rw [hzero]; exact hfp), hzero]
      rw [hef, hold, hnew, copyEntries_memory hne]
      dsimp only
      split
      next => exact copiedWord_source hne
      next => exact .inl rfl
    · left
      unfold pte
      rw [hzero]
      split
      next hc =>
        have hsrc : pageAddr (s.mem 0 e) ≠ pageAddr (s.mem 0 f) := h.inv.tables.tables_ne he hc.2 hf hfp hef
        have hdst : pageAddr (s.mem 0 e) ≠ pageAddr (s.mem 0 d) :=
          h.inv.tables.tables_ne he hc.2 hd hdp fun heq => hTe (heq ▸ hT)
        rw [hother _ hsrc hdst]
      next => rfl
  · exact h.inv.tables.table_not_mapped hf hfp he hi hp
  · exact h.inv.tables.table_not_mapped hd hdp he hi hp

/-- `copy_page_tables` between user slots, whether or not it runs out of memory. -/
theorem copyDirs_fades {b : Bool} (h : s.Inv holds) (hf : 16 ≤ f) (hfn : f + n ≤ 1024) (hd : 16 ≤ d) (hdn : d + n ≤ 1024)
    (hT : ∀ e, d ≤ e → e < d + n → T e) (hTf : ∀ e, f ≤ e → e < f + n → ¬ T e) (hc : copyDirs 1024 n f d s = .ok (b, s')) :
    s'.Inv holds ∧ Fades T s s' ∧
      ∀ e, s'.mem 0 e = s.mem 0 e ∨ d ≤ e ∧ e < d + n ∧ present (s'.mem 0 e) = true := by
  induction n generalizing s f d with
  | zero =>
    cases hc
    exact ⟨h, Fades.of_mem rfl, fun e => .inl rfl⟩
  | succ n ih =>
    have hfu : f ∈ userDirs := mem_userDirs.mpr (by omega)
    have hdu : d ∈ userDirs := mem_userDirs.mpr (by omega)
    have hTd : T d := hT d le_rfl (by omega)
    have hnext : ∀ e, d + 1 ≤ e → e < d + 1 + n → T e := fun e hle hlt => hT e (by omega) (by omega)
    have hnext' : ∀ e, f + 1 ≤ e → e < f + 1 + n → ¬ T e := fun e hle hlt => hTf e (by omega) (by omega)
    rw [copyDirs] at hc
    by_cases hdp : present (s.mem 0 d) = true
    · rw [if_pos hdp] at hc
      cases hc
    rw [if_neg hdp] at hc
    by_cases hfp : present (s.mem 0 f) = true
    · rw [if_pos hfp] at hc
      have hne : f ≠ d := fun hfd => hdp (hfd ▸ hfp)
      split at hc
      next =>
        cases hc
        exact ⟨h, Fades.of_mem rfl, fun e => .inl rfl⟩
      next page s₁ hg =>
        obtain ⟨k, hk, rfl, hinv, hdir, hempty, _, _⟩ := h.newTable hg hdu (Bool.eq_false_iff.mpr hdp)
        let s₂ := s₁.store 0 d (userEntry (pageAt k))
        have hnew : Fades T s s₂ := newTable_fades h hg hTd
        have hf₂ : s₂.mem 0 f = s.mem 0 f := by rw [hdir, Function.update_of_ne hne]
        have hd₂ : s₂.mem 0 d = userEntry (pageAt k) := by rw [hdir, Function.update_self]
        have hstart : s₂.Copying holds f d 0 := by
          refine ⟨hinv, ⟨hfu, by rw [hf₂]; exact hfp⟩, ⟨hdu, by rw [hd₂]; simp⟩, hne, by omega, ?_⟩
          intro i _ _
          rw [hempty]
          exact present_zero
        obtain ⟨s₃, hs₃, hdone, hzero, _⟩ := hstart.loop (show 0 + 1024 ≤ 1024 by omega)
        have hcopy : Fades T s₂ s₃ := by
          rw [← hs₃]
          exact copyEntries_fades hstart hTd
        rw [hd₂, pageAddr_userEntry_pageAt hk] at hs₃
        dsimp only at hc
        rw [show copyEntries (pageAddr ((s₁.store 0 d (userEntry (pageAt k))).mem 0 f)) (pageAt k) 1024 0
          (s₁.store 0 d (userEntry (pageAt k))) = s₃ from hs₃] at hc
        obtain ⟨hinv', hfades, hdirs⟩ := ih hdone.inv (by omega) (by omega) (by omega) (by omega) hnext hnext' hc
        refine ⟨hinv', (hnew.trans hcopy).trans hfades, fun e => ?_⟩
        have hdir₃ : s₃.mem 0 = Function.update (s.mem 0) d (userEntry (pageAt k)) := hzero.trans hdir
        rcases hdirs e with hsame | ⟨hlow, hhigh, hpres⟩
        · by_cases hed : e = d
          · refine .inr ⟨by omega, by omega, ?_⟩
            rw [hsame, hdir₃, hed, Function.update_self]
            exact present_userEntry _
          · rw [hsame, hdir₃, Function.update_of_ne hed]
            exact .inl rfl
        · exact .inr ⟨by omega, by omega, hpres⟩
    · rw [if_neg hfp] at hc
      obtain ⟨hinv', hfades, hdirs⟩ := ih h (by omega) (by omega) (by omega) (by omega) hnext hnext' hc
      refine ⟨hinv', hfades, fun e => ?_⟩
      rcases hdirs e with hsame | ⟨hlow, hhigh, hpres⟩
      · exact .inl hsame
      · exact .inr ⟨by omega, by omega, hpres⟩

/-- The same for the fork of the first task, whose pages are all below `LOW_MEM`. -/
theorem copyDirs_kernel_fades {b : Bool} (h : s.Inv holds) (hn : n ≤ 1) (hd : 16 ≤ d) (hdn : d + n ≤ 1024)
    (hT : ∀ e, d ≤ e → e < d + n → T e) (hc : copyDirs 0xA0 n 0 d s = .ok (b, s')) :
    s'.Inv holds ∧ Fades T s s' ∧
      ∀ e, s'.mem 0 e = s.mem 0 e ∨ d ≤ e ∧ e < d + n ∧ present (s'.mem 0 e) = true := by
  cases n with
  | zero =>
    cases hc
    exact ⟨h, Fades.of_mem rfl, fun e => .inl rfl⟩
  | succ n =>
    have hn0 : n = 0 := by omega
    subst hn0
    have hdu : d ∈ userDirs := mem_userDirs.mpr (by omega)
    have hTd : T d := hT d le_rfl (by omega)
    rw [copyDirs] at hc
    by_cases hdp : present (s.mem 0 d) = true
    · rw [if_pos hdp] at hc
      cases hc
    rw [if_neg hdp, if_pos h.kernelDir.1] at hc
    split at hc
    next =>
      cases hc
      exact ⟨h, Fades.of_mem rfl, fun e => .inl rfl⟩
    next page s₁ hg =>
      obtain ⟨k, hk, rfl, hinv, hdir, hempty, _, _⟩ := h.newTable hg hdu (Bool.eq_false_iff.mpr hdp)
      let s₂ := s₁.store 0 d (userEntry (pageAt k))
      have hnew : Fades T s s₂ := newTable_fades h hg hTd
      have hd₂ : s₂.mem 0 d = userEntry (pageAt k) := by rw [hdir, Function.update_self]
      have hdp₂ : present (s₂.mem 0 d) = true := by rw [hd₂]; simp
      obtain ⟨s₃, hs₃, hinv₃, hzero, _⟩ := copyKernel_loop hinv hdu hdp₂ (show 0 + 160 ≤ 160 by omega)
        (by intro i _ _; rw [hempty]; exact present_zero)
      have hlow : ∀ i, 0 ≤ i → i < 0 + 160 → ¬ lowMem < (protect (s₂.mem 0x1000 i)).toNat := by
        intro i _ hi
        obtain ⟨hp, ha⟩ := hinv.kernelTable i (by omega)
        rw [lowMem_lt_entry (by simpa using hp), pageAddr_protect, ha]
        simp only [lowMem]
        omega
      have hcopy : Fades T s₂ s₃ := by
        refine Fades.of_table hinv hdu hTd hdp₂ fun a ha => ?_
        rw [← hs₃, hd₂, pageAddr_userEntry_pageAt hk]
        refine copyEntries_low hlow (pageAt_ne_kernelTable k).symm ?_
        rw [hd₂, pageAddr_userEntry_pageAt hk] at ha
        exact ha
      rw [hd₂, pageAddr_userEntry_pageAt hk] at hs₃
      simp only [copyDirs, hinv.kernelDir.2] at hc
      have hdir₃ : s₃.mem 0 = Function.update (s.mem 0) d (userEntry (pageAt k)) := hzero.trans hdir
      rw [show copyEntries 0x1000 (pageAt k) 160 0 (s₁.store 0 d (userEntry (pageAt k))) = s₃ from hs₃] at hc
      obtain ⟨_, rfl⟩ : true = b ∧ s₃ = s' := by simpa using hc
      refine ⟨hinv₃, hnew.trans hcopy, fun e => ?_⟩
      by_cases hed : e = d
      · refine .inr ⟨by omega, by omega, ?_⟩
        rw [hdir₃, hed, Function.update_self]
        exact present_userEntry _
      · rw [hdir₃, Function.update_of_ne hed]
        exact .inl rfl

theorem and_congr_range {p : Prop} (hed : e ≠ d) : d + 1 ≤ e ∧ e < d + 1 + n ∧ p ↔ d ≤ e ∧ e < d + (n + 1) ∧ p := by
  constructor
  · rintro ⟨hlow, hhigh, hp⟩
    exact ⟨by omega, by omega, hp⟩
  · rintro ⟨hlow, hhigh, hp⟩
    exact ⟨by omega, by omega, hp⟩

/-- `free_page_tables` clears the entries of its range that are present. -/
theorem freeDirs_fades (h : s.Inv holds) (hd : 16 ≤ d) (hdn : d + n ≤ 1024) (hT : ∀ e, d ≤ e → e < d + n → T e)
    (hf : freeDirs n d s = .ok s') : s'.Inv holds ∧ Fades T s s' ∧
      ∀ e, s'.mem 0 e = if d ≤ e ∧ e < d + n ∧ present (s.mem 0 e) = true then 0#32 else s.mem 0 e := by
  induction n generalizing s d with
  | zero =>
    cases hf
    exact ⟨h, Fades.of_mem rfl, fun e => (if_neg (by omega)).symm⟩
  | succ n ih =>
    have hdu : d ∈ userDirs := mem_userDirs.mpr (by omega)
    have hTd : T d := hT d le_rfl (by omega)
    have hnext : ∀ e, d + 1 ≤ e → e < d + 1 + n → T e := fun e hle hlt => hT e (by omega) (by omega)
    rw [freeDirs] at hf
    by_cases hp : present (s.mem 0 d) = true
    · obtain ⟨s₁, s₂, hfree, hpage, hinv, _⟩ := freeDir_spec h hdu hp
      rw [if_pos hp, hfree] at hf
      simp only [hpage] at hf
      obtain ⟨k, _, hk⟩ := h.table_at hdu hp
      have hmem : ∀ a, a ≠ pageAddr (s.mem 0 d) → s₂.mem a = s.mem a := by
        intro a ha
        rw [freePage_mem hpage, freeEntries_mem hfree ha]
      have hzero : s₂.mem 0 = s.mem 0 := hmem 0 (hk ▸ (pageAt_ne_zero k).symm)
      have htable : Fades T s s₂ := Fades.of_table h hdu hTd hp hmem
      have hclear : Fades T s₂ (s₂.store 0 d 0#32) := by
        refine storeDir_fades hTd fun e he hpe => ?_
        rw [hzero] at hpe ⊢
        obtain ⟨j, _, hj⟩ := h.table_at he hpe
        exact hj ▸ pageAt_ne_zero j
      obtain ⟨hinv', hfades, hdirs⟩ := ih hinv (by omega) (by omega) hnext hf
      refine ⟨hinv', (htable.trans hclear).trans hfades, fun e => ?_⟩
      have hdir : (s₂.store 0 d 0#32).mem 0 = Function.update (s.mem 0) d 0#32 := by rw [store_mem_self, hzero]
      rw [hdirs e, hdir]
      by_cases hed : e = d
      · rw [hed, Function.update_self, if_neg (by omega), if_pos ⟨le_rfl, by omega, hp⟩]
      · rw [Function.update_of_ne hed]
        exact if_congr (and_congr_range hed) rfl rfl
    · rw [if_neg hp] at hf
      obtain ⟨hinv', hfades, hdirs⟩ := ih h (by omega) (by omega) hnext hf
      refine ⟨hinv', hfades, fun e => ?_⟩
      rw [hdirs e]
      by_cases hed : e = d
      · rw [hed, if_neg (by omega), if_neg fun hc => hp hc.2.2]
      · exact if_congr (and_congr_range hed) rfl rfl

theorem dirCount_le_task {size : Nat} (h : size ≤ 0x4000000) : dirCount size ≤ 16 := by
  unfold dirCount
  omega

theorem dirCount_le_kernel {size : Nat} (h : size ≤ 0xA0000) : dirCount size ≤ 1 := by
  unfold dirCount
  omega

/-- `copy_page_tables` from the window of one task into that of another. -/
theorem copyPageTables_fades {t nr size : Nat} {b : Bool} (h : s.Inv holds) (ht : t < 64) (hnr : 0 < nr ∧ nr < 64) (hne : t ≠ nr)
    (hsize : size ≤ if t = 0 then 0xA0000 else 0x4000000)
    (hc : copyPageTables s (taskBase t) (taskBase nr) size = .ok (b, s')) :
    s'.Inv holds ∧ Fades (TaskSlots nr) s s' ∧
      ∀ e, s'.mem 0 e = s.mem 0 e ∨ 16 * nr ≤ e ∧ e < 16 * nr + dirCount size ∧ present (s'.mem 0 e) = true := by
  have hsrc : taskBase t / 0x400000 = 16 * t := by rw [taskBase_eq]; omega
  have hdst : taskBase nr / 0x400000 = 16 * nr := by rw [taskBase_eq]; omega
  unfold copyPageTables at hc
  split at hc
  next => cases hc
  rw [hsrc, hdst] at hc
  by_cases ht0 : t = 0
  · rw [if_pos ht0] at hsize
    have hcount := dirCount_le_kernel hsize
    rw [ht0] at hc
    exact copyDirs_kernel_fades h hcount (by omega) (by omega) (fun e hlow hhigh => ⟨hlow, by omega⟩) hc
  · rw [if_neg ht0] at hsize
    have hcount := dirCount_le_task hsize
    have hbase : taskBase t ≠ 0 := by rw [taskBase_eq]; omega
    rw [if_neg hbase] at hc
    refine copyDirs_fades h (by omega) (by omega) (by omega) (by omega) (fun e hlow hhigh => ⟨hlow, by omega⟩) ?_ hc
    intro e hlow hhigh hT
    unfold TaskSlots at hT
    omega

theorem freePageTables_fades {nr size : Nat} (h : s.Inv holds) (hnr : 0 < nr ∧ nr < 64) (hsize : size ≤ 0x4000000)
    (hT : ∀ e, 16 * nr ≤ e → e < 16 * nr + dirCount size → T e)
    (hf : freePageTables s (taskBase nr) size = .ok s') : s'.Inv holds ∧ Fades T s s' ∧
      ∀ e, s'.mem 0 e = if 16 * nr ≤ e ∧ e < 16 * nr + dirCount size ∧ present (s.mem 0 e) = true then 0#32 else s.mem 0 e := by
  have hdst : taskBase nr / 0x400000 = 16 * nr := by rw [taskBase_eq]; omega
  have hcount := dirCount_le_task hsize
  unfold freePageTables at hf
  split at hf
  next => cases hf
  split at hf
  next => cases hf
  rw [hdst] at hf
  exact freeDirs_fades h (by omega) (by omega) hT hf

/-- The tables that `copy_page_tables` has made when it runs out of memory, taken back by `free_page_tables`. -/
theorem copy_then_free_fades {nr size t : Nat} {b : Bool} {u : Mm} (h : s.Inv holds) (ht : t < 64) (hnr : 0 < nr ∧ nr < 64) (hne : t ≠ nr)
    (hsize : size ≤ if t = 0 then 0xA0000 else 0x4000000) (hempty : ∀ e, TaskSlots nr e → s.mem 0 e = 0#32)
    (hc : copyPageTables s (taskBase t) (taskBase nr) size = .ok (b, u)) (hf : freePageTables u (taskBase nr) size = .ok s') :
    s'.Inv holds ∧ Fades (TaskSlots nr) s s' ∧ s'.mem 0 = s.mem 0 := by
  have hsize' : size ≤ 0x4000000 := by
    split at hsize
    next => omega
    next => exact hsize
  have hcount := dirCount_le_task hsize'
  obtain ⟨hu, hcopy, hmade⟩ := copyPageTables_fades h ht hnr hne hsize hc
  have hrange : ∀ e, 16 * nr ≤ e → e < 16 * nr + dirCount size → TaskSlots nr e := fun e hlow hhigh => ⟨hlow, by omega⟩
  obtain ⟨hinv, hfree, hcleared⟩ := freePageTables_fades hu hnr hsize' hrange hf
  refine ⟨hinv, hcopy.trans hfree, funext fun e => ?_⟩
  rw [hcleared e]
  rcases hmade e with hsame | hrange
  · split
    next hc => rw [hempty e ⟨hc.1, by omega⟩]
    next => exact hsame
  · rw [if_pos hrange, hempty e ⟨hrange.1, by omega⟩]

/-- Two memories with the same pages behind their entries have the same counters. -/
theorem Inv.same_counts (h : s.Inv holds) (h' : s'.Inv holds) (hdir : ∀ e, s'.mem 0 e = s.mem 0 e)
    (hentry : ∀ e ∈ userDirs, ∀ i, present (s'.pte e i) = present (s.pte e i) ∧ pageAddr (s'.pte e i) = pageAddr (s.pte e i))
    (hk : k < pagingPages) : s'.memMap k = s.memMap k := by
  have hmapped : ∑ e ∈ userDirs, ∑ i ∈ slots, refsOf (s'.pte e i) k = ∑ e ∈ userDirs, ∑ i ∈ slots, refsOf (s.pte e i) k := by
    refine sum_congr rfl fun e he => sum_congr rfl fun i _ => ?_
    exact refsOf_congr (hentry e he i).1 (hentry e he i).2 k
  have hdirs : ∑ e ∈ userDirs, refsOf (s'.mem 0 e) k = ∑ e ∈ userDirs, refsOf (s.mem 0 e) k :=
    sum_congr rfl fun e _ => by rw [hdir e]
  calc s'.memMap k = (∑ e ∈ userDirs, ∑ i ∈ slots, refsOf (s'.pte e i) k) + (∑ e ∈ userDirs, refsOf (s'.mem 0 e) k) + holds k :=
        h'.tables.counts k hk
    _ = (∑ e ∈ userDirs, ∑ i ∈ slots, refsOf (s.pte e i) k) + (∑ e ∈ userDirs, refsOf (s.mem 0 e) k) + holds k := by
        rw [hmapped, hdirs]
    _ = s.memMap k := (h.tables.counts k hk).symm

end Mm

end RheeKernel
