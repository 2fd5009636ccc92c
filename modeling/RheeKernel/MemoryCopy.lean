import RheeKernel.MemoryFree

open Finset

namespace RheeKernel

namespace Mm

variable {s : Mm} {holds : Nat → Nat} {d e f i j k n t : Nat}

/-- The loop state of the inner loop of `copy_page_tables` after `nr` entries: the part already
copied names the pages of the source table, the rest of the new table is empty. -/
structure Copying (s : Mm) (holds : Nat → Nat) (f t nr : Nat) : Prop where
  inv : s.Inv holds
  source : f ∈ userDirs ∧ present (s.mem 0 f) = true
  target : t ∈ userDirs ∧ present (s.mem 0 t) = true
  distinct : f ≠ t
  copied : ∀ i < nr, present (s.pte t i) = true →
    present (s.pte f i) = true ∧ pageAddr (s.pte t i) = pageAddr (s.pte f i)
  rest : ∀ i, nr ≤ i → i ∈ slots → present (s.pte t i) = false

/-- The page of the next source entry is not in the new table yet. -/
theorem Copying.fresh {nr : Nat} (h : s.Copying holds f t nr) (hnr : nr ∈ slots)
    (hp : present (s.pte f nr) = true) (hk : k < pagingPages) (ha : pageAddr (s.pte f nr) = pageAt k) :
    ∀ l ∈ slots, present (s.pte t l) = true → pageAddr (s.pte t l) ≠ pageAt k := by
  intro l hl hpl hal
  by_cases hlt : l < nr
  · obtain ⟨hpf, haf⟩ := h.copied l hlt hpl
    have h1 := Counting.add_le_sum_of_ne hnr hl (by omega) fun i => refsOf (s.pte f i) k
    have h2 : ∑ i ∈ slots, refsOf (s.pte f i) k ≤ 1 := h.inv.tables.once f h.source.1 k hk
    simp only [refsOf_eq_one hp ha, refsOf_eq_one hpf (haf.symm.trans hal)] at h1
    omega
  · rw [h.rest l (by omega) hl] at hpl
    exact absurd hpl (by simp)

theorem Copying.skip {nr : Nat} (h : s.Copying holds f t nr) (hnr : nr ∈ slots) :
    s.Copying holds f t (nr + 1) := by
  refine ⟨h.inv, h.source, h.target, h.distinct, ?_, fun i hi hs => h.rest i (by omega) hs⟩
  intro i hi hp
  by_cases hin : i = nr
  · subst hin
    rw [h.rest i le_rfl hnr] at hp
    exact absurd hp (by simp)
  · exact h.copied i (by omega) hp

/-- An entry for a page below `LOW_MEM` is copied without being counted. -/
theorem Copying.low {nr : Nat} (h : s.Copying holds f t nr) (hnr : nr ∈ slots)
    (hp : present (s.pte f nr) = true) (hl : pageAddr (s.pte f nr) < lowMem) :
    Copying (s.store (pageAddr (s.mem 0 t)) nr (protect (s.pte f nr))) holds f t (nr + 1) ∧
      ∀ e ∈ userDirs, ∀ j ∈ slots, (s.store (pageAddr (s.mem 0 t)) nr (protect (s.pte f nr))).space e j =
        if e = t ∧ j = nr then s.space f nr else s.space e j := by
  obtain ⟨ht, htp⟩ := h.target
  obtain ⟨b, _, hb⟩ := h.inv.table_at ht htp
  have hzero : (s.store (pageAddr (s.mem 0 t)) nr (protect (s.pte f nr))).mem 0 = s.mem 0 :=
    store_mem_ne s nr _ (hb ▸ (pageAt_ne_zero b).symm)
  have hpte := pte_storePte h.inv ht htp nr (protect (s.pte f nr))
  refine ⟨⟨?_, ?_, ?_, h.distinct, ?_, ?_⟩, ?_⟩
  · exact h.inv.storePte ht htp (h.inv.tables.shareLow ht hnr htp (h.rest nr le_rfl hnr)
      (by simpa using hl) (writable_protect _))
  · rw [hzero]
    exact h.source
  · rw [hzero]
    exact h.target
  · intro i hi
    have hf : s.pte f i = (s.store (pageAddr (s.mem 0 t)) nr (protect (s.pte f nr))).pte f i := by
      rw [hpte, if_neg (by have := h.distinct; omega)]
    rw [← hf, hpte]
    split
    next hc => simp [hc.2, hp]
    next hc => exact h.copied i (by omega)
  · intro i hi hs
    rw [hpte, if_neg (by omega)]
    exact h.rest i (by omega) hs
  · intro e he j hj
    rw [space_storePte h.inv ht htp he hj]
    · split
      next => exact cellOf_congr (present_protect _) (pageAddr_protect _)
      next => rfl
    · intro _
      rw [pageAddr_protect, hb]
      simp only [pageAt]
      omega

/-- An entry for a counted page: both tables now map it read-only and its count goes up. -/
theorem Copying.high {nr : Nat} (h : s.Copying holds f t nr) (hnr : nr ∈ slots)
    (hp : present (s.pte f nr) = true) (hk : k < pagingPages) (ha : pageAddr (s.pte f nr) = pageAt k) :
    Copying (((s.store (pageAddr (s.mem 0 t)) nr (protect (s.pte f nr))).store (pageAddr (s.mem 0 f)) nr
        (protect (s.pte f nr))).setMap k (s.memMap k + 1)) holds f t (nr + 1) ∧
      ∀ e ∈ userDirs, ∀ j ∈ slots,
        (((s.store (pageAddr (s.mem 0 t)) nr (protect (s.pte f nr))).store (pageAddr (s.mem 0 f)) nr
          (protect (s.pte f nr))).setMap k (s.memMap k + 1)).space e j =
        if e = t ∧ j = nr then s.space f nr else s.space e j := by
  obtain ⟨hf, hfp⟩ := h.source
  obtain ⟨ht, htp⟩ := h.target
  obtain ⟨a, _, hfa⟩ := h.inv.table_at hf hfp
  obtain ⟨b, _, hb⟩ := h.inv.table_at ht htp
  have hne : pageAddr (s.mem 0 t) ≠ pageAddr (s.mem 0 f) :=
    h.inv.tables.tables_ne ht htp hf hfp h.distinct.symm
  -- The source writes the new entry first; the two stores go to different pages.
  have hswap : (s.store (pageAddr (s.mem 0 t)) nr (protect (s.pte f nr))).store (pageAddr (s.mem 0 f)) nr
      (protect (s.pte f nr)) = (s.store (pageAddr (s.mem 0 f)) nr (protect (s.pte f nr))).store
      (pageAddr (s.mem 0 t)) nr (protect (s.pte f nr)) := by
    simp only [store, setPage, Function.update_of_ne hne, Function.update_of_ne hne.symm]
    rw [Function.update_comm hne]
  let s₁ := s.store (pageAddr (s.mem 0 f)) nr (protect (s.pte f nr))
  have hzero : s₁.mem 0 = s.mem 0 := store_mem_ne s nr _ (hfa ▸ (pageAt_ne_zero a).symm)
  have hinv₁ : s₁.Inv holds := h.inv.storePte hf hfp (h.inv.tables.protectEntry hf hnr hfp)
  have hpte₁ : ∀ e j, s₁.pte e j = if e = f ∧ j = nr then protect (s.pte f nr) else s.pte e j :=
    pte_storePte h.inv hf hfp nr _
  have htp₁ : present (s₁.mem 0 t) = true := by rw [hzero]; exact htp
  have hfnr : s₁.pte f nr = protect (s.pte f nr) := by rw [hpte₁, if_pos ⟨rfl, rfl⟩]
  have ht₁ : ∀ i, s₁.pte t i = s.pte t i := by
    intro i
    rw [hpte₁, if_neg (by have := h.distinct; omega)]
  let s₂ := s₁.store (pageAddr (s₁.mem 0 t)) nr (protect (s.pte f nr))
  have hgoal : ((s.store (pageAddr (s.mem 0 t)) nr (protect (s.pte f nr))).store (pageAddr (s.mem 0 f)) nr
      (protect (s.pte f nr))).setMap k (s.memMap k + 1) = s₂.setMap k (s₁.memMap k + 1) := by
    rw [hswap]
    simp only [s₂, hzero]
    rfl
  rw [hgoal]
  have hpte₂ : ∀ e j, s₂.pte e j = if e = t ∧ j = nr then protect (s.pte f nr) else s₁.pte e j :=
    pte_storePte hinv₁ ht htp₁ nr _
  have hzero₂ : s₂.mem 0 = s.mem 0 := by
    rw [← hzero]
    exact store_mem_ne s₁ nr _ (by rw [hzero, hb]; exact (pageAt_ne_zero b).symm)
  have hf₂ : ∀ i, i ≠ nr → s₂.pte f i = s.pte f i := by
    intro i hi
    rw [hpte₂, if_neg (by omega), hpte₁, if_neg (by omega)]
  refine ⟨⟨?_, ?_, ?_, h.distinct, ?_, ?_⟩, ?_⟩
  · apply hinv₁.storePte ht htp₁
    apply hinv₁.tables.share ht hnr htp₁ (by rw [tables_pte, ht₁]; exact h.rest nr le_rfl hnr) hf hnr
      (by simp [hfnr, hp]) (by simp [hp]) (writable_protect _) (by simp [hfnr]) hk
      (by simpa [hfnr] using ha) (by simpa using ha)
    intro l hl
    rw [tables_pte, ht₁]
    exact h.fresh hnr hp hk ha l hl
  · exact ⟨hf, by change present (s₂.mem 0 f) = true; rw [hzero₂]; exact hfp⟩
  · exact ⟨ht, by change present (s₂.mem 0 t) = true; rw [hzero₂]; exact htp⟩
  · intro i hi
    change present (s₂.pte t i) = true → present (s₂.pte f i) = true ∧
      pageAddr (s₂.pte t i) = pageAddr (s₂.pte f i)
    by_cases hin : i = nr
    · subst hin
      rw [hpte₂, if_pos ⟨rfl, rfl⟩, hpte₂, if_neg (by have := h.distinct; omega), hfnr]
      simp [hp]
    · rw [hf₂ i hin, hpte₂, if_neg (by omega), ht₁]
      exact h.copied i (by omega)
  · intro i hi hs
    change present (s₂.pte t i) = false
    rw [hpte₂, if_neg (by omega), ht₁]
    exact h.rest i (by omega) hs
  · intro e he j hj
    rw [space_setMap]
    have hfar : ∀ g ∈ userDirs, present (s.mem 0 g) = true →
        pageAddr (protect (s.pte f nr)) ≠ pageAddr (s.mem 0 g) := by
      intro g hg hgp
      rw [pageAddr_protect]
      exact h.inv.tables.table_not_mapped hg hgp hf hnr hp
    rw [space_storePte hinv₁ ht htp₁ he hj (fun _ => by rw [hzero]; exact hfar t ht htp)]
    have hcell : s₁.cellOf (protect (s.pte f nr)) = s.space f nr := by
      rw [cellOf_congr (present_protect _) (pageAddr_protect _)]
      refine cellOf_mem fun _ _ => store_mem_ne s nr _ ?_
      exact h.inv.tables.table_not_mapped hf hfp hf hnr hp
    by_cases hc : e = t ∧ j = nr
    · rw [if_pos hc, if_pos hc, hcell]
    · rw [if_neg hc, if_neg hc, space_storePte h.inv hf hfp he hj (fun _ => hfar f hf hfp)]
      split
      next hd =>
        rw [hd.1, hd.2]
        exact cellOf_congr (present_protect _) (pageAddr_protect _)
      next => rfl

/-- One round of the inner loop between two user tables. -/
theorem Copying.next {nr : Nat} (h : s.Copying holds f t nr) (hnr : nr ∈ slots) :
    ∃ s', copyEntry (pageAddr (s.mem 0 f)) (pageAddr (s.mem 0 t)) nr s = s' ∧
      s'.Copying holds f t (nr + 1) ∧ s'.mem 0 = s.mem 0 ∧ ∀ e ∈ userDirs, ∀ j ∈ slots,
        s'.space e j = if e = t ∧ j = nr then s.space f nr else s.space e j := by
  obtain ⟨hf, hfp⟩ := h.source
  obtain ⟨ht, htp⟩ := h.target
  obtain ⟨a, _, hfa⟩ := h.inv.table_at hf hfp
  obtain ⟨b, _, hb⟩ := h.inv.table_at ht htp
  have htable : s.mem (pageAddr (s.mem 0 f)) nr = s.pte f nr := by rw [pte_present hf hfp]
  have hzero : ∀ w, (s.store (pageAddr (s.mem 0 t)) nr w).mem 0 = s.mem 0 := fun w =>
    store_mem_ne s nr w (hb ▸ (pageAt_ne_zero b).symm)
  by_cases hp : present (s.pte f nr) = true
  · by_cases hl : pageAddr (s.pte f nr) < lowMem
    · have hlow : ¬ lowMem < (protect (s.pte f nr)).toNat := by
        rw [lowMem_lt_entry (by simpa using hp), pageAddr_protect]
        omega
      obtain ⟨hnext, hspace⟩ := h.low hnr hp hl
      refine ⟨_, ?_, hnext, hzero _, hspace⟩
      simp only [copyEntry, htable, hp, if_true, if_neg hlow]
    · obtain ⟨k, hk, ha⟩ := exists_pageAt (Nat.not_lt.mp hl) (h.inv.tables.ptes f hf nr hnr hp)
      have hhigh : lowMem < (protect (s.pte f nr)).toNat := by
        rw [lowMem_lt_entry (by simpa using hp), pageAddr_protect]
        omega
      have hnumber : ((protect (s.pte f nr)).toNat - lowMem) / 4096 = k := by
        rw [mapNr_entry (by rw [pageAddr_protect]; omega), pageAddr_protect, ha, mapNr_pageAt]
      have hbound : (s.memMap k + 1) % 65536 = s.memMap k + 1 := by
        have h1 := h.inv.tables.refs_lt hk
        have h2 := h.inv.tables.counts k hk
        simp only [tables_memMap] at h2
        omega
      obtain ⟨hnext, hspace⟩ := h.high hnr hp hk ha
      refine ⟨_, ?_, hnext, ?_, hspace⟩
      · simp only [copyEntry, htable, hp, if_true, if_pos hhigh, hnumber, store_memMap, hbound]
      · rw [setMap_mem, store_mem_ne _ nr _ (hfa ▸ (pageAt_ne_zero a).symm), hzero]
  · have hskip : s.space f nr = none := cellOf_absent (Bool.eq_false_iff.mpr hp)
    refine ⟨s, ?_, h.skip hnr, rfl, ?_⟩
    · simp only [copyEntry, htable, if_neg hp]
    · intro e he j hj
      split
      next hc =>
        rw [hc.1, hc.2, hskip]
        exact cellOf_absent (h.rest nr le_rfl hnr)
      next => rfl

/-- The whole inner loop. -/
theorem Copying.loop {nr : Nat} (h : s.Copying holds f t nr) (hn : nr + n ≤ 1024) :
    ∃ s', copyEntries (pageAddr (s.mem 0 f)) (pageAddr (s.mem 0 t)) n nr s = s' ∧
      s'.Copying holds f t (nr + n) ∧ s'.mem 0 = s.mem 0 ∧ ∀ e ∈ userDirs, ∀ j ∈ slots,
        s'.space e j = if e = t ∧ nr ≤ j ∧ j < nr + n then s.space f j else s.space e j := by
  induction n generalizing s nr with
  | zero => exact ⟨s, rfl, h, rfl, fun e he j hj => (if_neg (by omega)).symm⟩
  | succ n ih =>
    obtain ⟨s₁, hs₁, hnext, hzero, hspace⟩ := h.next (mem_slots.mpr (by omega))
    obtain ⟨s', hs', hrest, hzero', hspace'⟩ := ih hnext (by omega)
    rw [hzero] at hs'
    refine ⟨s', ?_, ?_, hzero'.trans hzero, ?_⟩
    · rw [copyEntries, hs₁, hs']
    · rw [show nr + (n + 1) = nr + 1 + n by omega]
      exact hrest
    · intro e he j hj
      have hne := h.distinct
      rw [hspace' e he j hj, hspace f h.source.1 j hj, hspace e he j hj]
      rw [if_neg (show ¬(f = t ∧ j = nr) by omega)]
      by_cases hc : e = t ∧ nr + 1 ≤ j ∧ j < nr + 1 + n
      · rw [if_pos hc, if_pos (by omega)]
      · rw [if_neg hc]
        by_cases hnow : e = t ∧ j = nr
        · rw [if_pos hnow, if_pos (by omega), hnow.2]
        · rw [if_neg hnow, if_neg (by omega)]

/-- The copy of the kernel's first 160 entries, all of them below `LOW_MEM`. -/
theorem copyKernel_loop (h : s.Inv holds) (ht : t ∈ userDirs) (htp : present (s.mem 0 t) = true)
    {nr : Nat} (hn : nr + n ≤ 160) (hrest : ∀ i, nr ≤ i → i ∈ slots → present (s.pte t i) = false) :
    ∃ s', copyEntries 0x1000 (pageAddr (s.mem 0 t)) n nr s = s' ∧ s'.Inv holds ∧ s'.mem 0 = s.mem 0 ∧
      ∀ e ∈ userDirs, ∀ j ∈ slots, s'.space e j =
        if e = t ∧ nr ≤ j ∧ j < nr + n then some (.kernel (4096 * j)) else s.space e j := by
  induction n generalizing s nr with
  | zero => exact ⟨s, rfl, h, rfl, fun e he j hj => (if_neg (by omega)).symm⟩
  | succ n ih =>
    have hnr : nr ∈ slots := mem_slots.mpr (by omega)
    obtain ⟨b, _, hb⟩ := h.table_at ht htp
    obtain ⟨hp, ha⟩ := h.kernelTable nr (by omega)
    have hl : pageAddr (s.mem 0x1000 nr) < lowMem := by
      rw [ha]
      simp only [lowMem]
      omega
    have hlow : ¬ lowMem < (protect (s.mem 0x1000 nr)).toNat := by
      rw [lowMem_lt_entry (by simpa using hp), pageAddr_protect]
      omega
    let s₁ := s.store (pageAddr (s.mem 0 t)) nr (protect (s.mem 0x1000 nr))
    have hs₁ : copyEntry 0x1000 (pageAddr (s.mem 0 t)) nr s = s₁ := by
      simp only [copyEntry, hp, if_true, if_neg hlow, s₁]
    have hzero : s₁.mem 0 = s.mem 0 := store_mem_ne s nr _ (hb ▸ (pageAt_ne_zero b).symm)
    have hinv : s₁.Inv holds := h.storePte ht htp (h.tables.shareLow ht hnr htp (hrest nr le_rfl hnr)
      (by simpa using hl) (writable_protect _))
    have hrest₁ : ∀ i, nr + 1 ≤ i → i ∈ slots → present (s₁.pte t i) = false := by
      intro i hi hs
      rw [pte_storePte h ht htp, if_neg (by omega)]
      exact hrest i (by omega) hs
    obtain ⟨s', hs', hinv', hzero', hspace'⟩ := ih hinv (by rw [hzero]; exact htp) (by omega) hrest₁
    rw [hzero] at hs'
    refine ⟨s', ?_, hinv', hzero'.trans hzero, ?_⟩
    · rw [copyEntries, hs₁, hs']
    · intro e he j hj
      rw [hspace' e he j hj, space_storePte h ht htp he hj]
      · by_cases hc : e = t ∧ nr + 1 ≤ j ∧ j < nr + 1 + n
        · rw [if_pos hc, if_pos (by omega)]
        · rw [if_neg hc]
          by_cases hnow : e = t ∧ j = nr
          · rw [if_pos hnow, if_pos (by omega), cellOf_low (by simpa using hp) (by simpa using hl),
              pageAddr_protect, ha, hnow.2]
          · rw [if_neg hnow, if_neg (by omega)]
      · intro _
        rw [pageAddr_protect, hb]
        simp only [pageAt]
        omega

/-- `get_free_page` followed by `*dir = page | 7`. -/
theorem Inv.newTable (h : s.Inv holds) {page : Nat} {s₁ : Mm} (hg : getFreePage s = some (page, s₁))
    (ht : t ∈ userDirs) (htp : present (s.mem 0 t) = false) :
    ∃ k < pagingPages, page = pageAt k ∧ (s₁.store 0 t (userEntry page)).Inv holds ∧
      (s₁.store 0 t (userEntry page)).mem 0 = Function.update (s.mem 0) t (userEntry page) ∧
      (s₁.store 0 t (userEntry page)).pte t = (fun _ => 0#32) ∧
      (∀ a, a ≠ 0 → a ≠ page → (s₁.store 0 t (userEntry page)).mem a = s.mem a) ∧
      ∀ e ∈ userDirs, ∀ j ∈ slots, (s₁.store 0 t (userEntry page)).space e j = s.space e j := by
  obtain ⟨k, hk, rfl, hz, rfl, hinv⟩ := h.alloc hg
  have hheld : holds k = 0 := by
    have h1 := h.tables.counts k hk
    have h2 := Tables.holds_le_refs (s.tables holds) k
    simp only [tables_memMap, tables_holds] at h1 h2
    omega
  have hzero : ((s.setMap k 1).setPage (pageAt k) fun _ => 0#32).mem 0 = s.mem 0 :=
    setPage_mem_ne _ _ (pageAt_ne_zero k).symm
  have hempty : present (userEntry (pageAt k)) = true → pageAddr (userEntry (pageAt k)) ≠ 0 ∧
      ((s.setMap k 1).setPage (pageAt k) fun _ => 0#32).mem (pageAddr (userEntry (pageAt k))) =
        fun _ => 0#32 := by
    intro _
    rw [pageAddr_userEntry_pageAt hk]
    exact ⟨pageAt_ne_zero k, setPage_mem_self _ _ _⟩
  have hback : Function.update (Function.update holds k 1) k 0 = holds := by
    rw [Function.update_idem, ← hheld, Function.update_eq_self]
  have htp₁ : present (((s.setMap k 1).setPage (pageAt k) fun _ => 0#32).mem 0 t) = false := by
    rw [hzero]
    exact htp
  have hhang := hinv.tables.hang ht htp₁ hk (Function.update_self k 1 holds)
  have hinv₂ : (((s.setMap k 1).setPage (pageAt k) fun _ => 0#32).store 0 t (userEntry (pageAt k))).Inv
      (Function.update (Function.update holds k 1) k 0) := hinv.storeDir ht hempty hhang
  rw [hback] at hinv₂
  refine ⟨k, hk, rfl, hinv₂, ?_, ?_, ?_, ?_⟩
  · rw [store_mem_self, hzero]
  · have := congrArg Tables.pte (tables_storeDir hinv ht _ hempty)
    rw [show (store _ 0 t (userEntry (pageAt k))).pte = _ from this]
    exact Function.update_self _ _ _
  · intro a h0 ha
    rw [store_mem_ne _ _ _ h0, setPage_mem_ne _ _ ha, setMap_mem]
  · intro e he j hj
    rw [space_storeDir hinv ht hempty]
    split
    next hc =>
      rw [hc]
      exact (space_of_dir htp).symm
    next => exact space_alloc h hk hz he hj

/-- The outer loop between two ranges of user slots: it either finds a slot of the new range in
use, or keeps the reference law; and if it does not run out of memory, the new range shows what the
old one shows. -/
theorem copyDirs_spec (h : s.Inv holds) (hf : 16 ≤ f) (hfn : f + n ≤ 1024) (ht : 16 ≤ t)
    (htn : t + n ≤ 1024) :
    copyDirs 1024 n f t s = .error .alreadyExist ∨ ∃ b s', copyDirs 1024 n f t s = .ok (b, s') ∧
      s'.Inv holds ∧ (b = true → f + n ≤ t ∨ t + n ≤ f → ∀ e ∈ userDirs, ∀ j ∈ slots,
        s'.space e j = if t ≤ e ∧ e < t + n then s.space (e - t + f) j else s.space e j) := by
  induction n generalizing s f t with
  | zero => exact Or.inr ⟨true, s, rfl, h, fun _ _ e he j hj => (if_neg (by omega)).symm⟩
  | succ n ih =>
    have hfu : f ∈ userDirs := mem_userDirs.mpr (by omega)
    have htu : t ∈ userDirs := mem_userDirs.mpr (by omega)
    rw [copyDirs]
    by_cases htp : present (s.mem 0 t) = true
    · exact Or.inl (if_pos htp)
    have htf : present (s.mem 0 t) = false := Bool.eq_false_iff.mpr htp
    rw [if_neg htp]
    by_cases hfp : present (s.mem 0 f) = true
    · rw [if_pos hfp]
      have hne : f ≠ t := by
        rintro rfl
        exact htp hfp
      cases hg : getFreePage s with
      | none => exact Or.inr ⟨false, s, rfl, h, fun hb => absurd hb (by simp)⟩
      | some r =>
        obtain ⟨page, s₁⟩ := r
        obtain ⟨k, hk, rfl, hinv, hdir, hempty, _, hspace⟩ := h.newTable hg htu htf
        let s₂ := s₁.store 0 t (userEntry (pageAt k))
        have hf₂ : s₂.mem 0 f = s.mem 0 f := by rw [hdir, Function.update_of_ne hne]
        have ht₂ : s₂.mem 0 t = userEntry (pageAt k) := by rw [hdir, Function.update_self]
        have hstart : s₂.Copying holds f t 0 := by
          refine ⟨hinv, ⟨hfu, by rw [hf₂]; exact hfp⟩, ⟨htu, by rw [ht₂]; simp⟩, hne, by omega, ?_⟩
          intro i _ _
          rw [hempty]
          exact present_zero
        obtain ⟨s₃, hs₃, hdone, _, hspace₃⟩ := hstart.loop (show 0 + 1024 ≤ 1024 by omega)
        rw [ht₂, pageAddr_userEntry_pageAt hk] at hs₃
        simp only
        rw [show copyEntries (pageAddr ((s₁.store 0 t (userEntry (pageAt k))).mem 0 f)) (pageAt k) 1024 0
          (s₁.store 0 t (userEntry (pageAt k))) = s₃ from hs₃]
        have hround : ∀ e ∈ userDirs, ∀ j ∈ slots,
            s₃.space e j = if e = t then s.space f j else s.space e j := by
          intro e he j hj
          rw [mem_slots] at hj
          rw [hspace₃ e he j (mem_slots.mpr hj), hspace f hfu j (mem_slots.mpr hj),
            hspace e he j (mem_slots.mpr hj)]
          by_cases het : e = t
          · rw [if_pos (by omega), if_pos het]
          · rw [if_neg (by omega), if_neg het]
        rcases ih (f := f + 1) (t := t + 1) hdone.inv (by omega) (by omega) (by omega) (by omega) with
          hbad | ⟨b, s', hs', hinv', hspace'⟩
        · exact Or.inl hbad
        · refine Or.inr ⟨b, s', hs', hinv', ?_⟩
          intro hb hdis e he j hj
          rw [hspace' hb (by omega) e he j hj]
          have heu := mem_userDirs.mp he
          by_cases hin : t + 1 ≤ e ∧ e < t + 1 + n
          · rw [if_pos hin, if_pos (by omega), show e - (t + 1) + (f + 1) = e - t + f by omega,
              hround _ (mem_userDirs.mpr (by omega)) j hj, if_neg (by omega)]
          · rw [if_neg hin, hround e he j hj]
            by_cases het : e = t
            · rw [if_pos het, if_pos (by omega), show e - t + f = f by omega]
            · rw [if_neg het, if_neg (by omega)]
    · rw [if_neg hfp]
      rcases ih (f := f + 1) (t := t + 1) h (by omega) (by omega) (by omega) (by omega) with
        hbad | ⟨b, s', hs', hinv', hspace'⟩
      · exact Or.inl hbad
      · refine Or.inr ⟨b, s', hs', hinv', ?_⟩
        intro hb hdis e he j hj
        rw [hspace' hb (by omega) e he j hj]
        by_cases hin : t + 1 ≤ e ∧ e < t + 1 + n
        · rw [if_pos hin, if_pos (by omega), show e - (t + 1) + (f + 1) = e - t + f by omega]
        · rw [if_neg hin]
          by_cases het : e = t
          · rw [if_pos (by omega), het, show t - t + f = f by omega, space_of_dir htf,
              space_of_dir (Bool.eq_false_iff.mpr hfp)]
          · rw [if_neg (by omega)]

/-- The fork of the first task: one slot, filled with the first 160 pages of the kernel. -/
theorem copyDirs_kernel_spec (h : s.Inv holds) (hn : n ≤ 1) (ht : 16 ≤ t) (htn : t + n ≤ 1024) :
    copyDirs 0xA0 n 0 t s = .error .alreadyExist ∨ ∃ b s', copyDirs 0xA0 n 0 t s = .ok (b, s') ∧
      s'.Inv holds ∧ (b = true → ∀ e ∈ userDirs, ∀ j ∈ slots,
        s'.space e j = if e = t ∧ n = 1 ∧ j < 160 then some (.kernel (4096 * j)) else s.space e j) := by
  cases n with
  | zero => exact Or.inr ⟨true, s, rfl, h, fun _ e he j hj => (if_neg (by omega)).symm⟩
  | succ n =>
    have hn0 : n = 0 := by omega
    subst hn0
    have htu : t ∈ userDirs := mem_userDirs.mpr (by omega)
    rw [copyDirs]
    by_cases htp : present (s.mem 0 t) = true
    · exact Or.inl (if_pos htp)
    rw [if_neg htp, if_pos h.kernelDir.1]
    cases hg : getFreePage s with
    | none => exact Or.inr ⟨false, s, rfl, h, fun hb => absurd hb (by simp)⟩
    | some r =>
      obtain ⟨page, s₁⟩ := r
      obtain ⟨k, hk, rfl, hinv, hdir, hempty, _, hspace⟩ := h.newTable hg htu (Bool.eq_false_iff.mpr htp)
      have ht₂ : (s₁.store 0 t (userEntry (pageAt k))).mem 0 t = userEntry (pageAt k) := by
        rw [hdir, Function.update_self]
      obtain ⟨s', hs', hinv', _, hspace'⟩ := copyKernel_loop hinv htu (by rw [ht₂]; simp)
        (show 0 + 160 ≤ 160 by omega) (by intro i _ _; rw [hempty]; exact present_zero)
      rw [ht₂, pageAddr_userEntry_pageAt hk] at hs'
      refine Or.inr ⟨true, s', ?_, hinv', ?_⟩
      · simp only [copyDirs, hinv.kernelDir.2, hs']
      · intro _ e he j hj
        rw [hspace' e he j hj, hspace e he j hj]
        by_cases hc : e = t ∧ j < 160
        · rw [if_pos (by omega), if_pos (by omega)]
        · rw [if_neg (by omega), if_neg (by omega)]

end Mm

end RheeKernel
