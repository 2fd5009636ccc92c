import RheeKernel.MemoryCopy

open Finset

namespace RheeKernel

namespace Mm

variable {s : Mm} {holds : Nat → Nat} {d e i j k : Nat} {w : Word}

theorem slotOf_mem (address : Nat) : slotOf address ∈ slots := mem_slots.mpr (Nat.mod_lt _ (by omega))

/-- Writing into a page that has one entry and no other reference: only that entry sees it. -/
theorem Inv.writePage (h : s.Inv holds) (hd : d ∈ userDirs) (hi : i ∈ slots)
    (hp : present (s.pte d i) = true) (hk : k < pagingPages) (ha : pageAddr (s.pte d i) = pageAt k)
    (hm : s.memMap k = 1) (c : Nat → Word) :
    (s.setPage (pageAt k) c).Inv holds ∧ (s.setPage (pageAt k) c).pte = s.pte ∧
      ∀ e ∈ userDirs, ∀ j ∈ slots, (s.setPage (pageAt k) c).space e j =
        if e = d ∧ j = i then some (.own c) else s.space e j := by
  have hn : ∀ e ∈ userDirs, present (s.mem 0 e) = true → pageAddr (s.mem 0 e) ≠ pageAt k :=
    fun e he hpe heq => h.tables.table_not_mapped he hpe hd hi hp (ha.trans heq.symm)
  have hpte : (s.setPage (pageAt k) c).pte = s.pte :=
    congrArg Tables.pte (@tables_setPage s holds _ c (pageAt_ne_zero k) hn)
  refine ⟨h.setPage rfl hn, hpte, ?_⟩
  intro e he j hj
  split
  next hc =>
    unfold space
    rw [hpte, hc.1, hc.2, cellOf_high hp ha, setPage_mem_self]
  next hc =>
    apply space_setPage rfl hn
    intro hpe hae
    have := h.tables.only_entry hk hm he hd hj hi hpe hae hp ha
    omega

/-- `put_page` of a held page into an absent entry whose table exists. -/
theorem Inv.putEntry (h : s.Inv holds) (hd : d ∈ userDirs) (hdp : present (s.mem 0 d) = true)
    (hi : i ∈ slots) (hp : present (s.pte d i) = false) (hk : k < pagingPages) (hh : holds k = 1) :
    (s.store (pageAddr (s.mem 0 d)) i (userEntry (pageAt k))).Inv (Function.update holds k 0) ∧
      ∀ e ∈ userDirs, ∀ j ∈ slots,
        (s.store (pageAddr (s.mem 0 d)) i (userEntry (pageAt k))).space e j =
          if e = d ∧ j = i then some (.own (s.mem (pageAt k))) else s.space e j := by
  refine ⟨h.storePte hd hdp (h.tables.mapHold hd hi hdp hp hk hh), ?_⟩
  intro e he j hj
  rw [space_storePte h hd hdp he hj, cellOf_high (present_userEntry _) (pageAddr_userEntry_pageAt hk)]
  intro _
  rw [pageAddr_userEntry_pageAt hk]
  exact (h.tables.free_not_table hk (Or.inr (by simp [hh])) hd hdp).symm

theorem putPage_spec {address : Nat} {s' : Mm} (h : s.Inv holds) (hd : dirOf address ∈ userDirs)
    (hp : present (s.pte (dirOf address) (slotOf address)) = false) (hk : k < pagingPages)
    (hh : holds k = 1) (hput : putPage s (pageAt k) address = some s') :
    s'.Inv (Function.update holds k 0) ∧ ∀ e ∈ userDirs, ∀ j ∈ slots, s'.space e j =
      if e = dirOf address ∧ j = slotOf address then some (.own (s.mem (pageAt k))) else s.space e j := by
  unfold putPage at hput
  split at hput
  next hdp =>
    cases Option.some.inj hput
    exact h.putEntry hd hdp (slotOf_mem address) hp hk hh
  next hdp =>
    split at hput
    next => simp at hput
    next page s₁ hg =>
      cases Option.some.inj hput
      have hm : s.memMap k = 1 := h.tables.alone k hk (by simp [hh])
      obtain ⟨b, hb, rfl, hzb, _, _⟩ := h.alloc hg
      obtain ⟨l, hl, hbl, hinv, hdir, hempty, hmem, hspace⟩ := h.newTable hg hd (Bool.eq_false_iff.mpr hdp)
      let s₂ := s₁.store 0 (dirOf address) (userEntry (pageAt b))
      have hd₂ : s₂.mem 0 (dirOf address) = userEntry (pageAt b) := by
        rw [hdir, Function.update_self]
      have hsame : s₂.mem (pageAt k) = s.mem (pageAt k) := by
        apply hmem _ (pageAt_ne_zero k)
        intro heq
        rw [pageAt_inj heq] at hm
        omega
      obtain ⟨hinv', hspace'⟩ := hinv.putEntry hd (by rw [hd₂]; simp) (slotOf_mem address)
        (by rw [hempty]; exact present_zero) hk hh
      rw [hd₂, pageAddr_userEntry_pageAt hb] at hinv' hspace'
      refine ⟨hinv', ?_⟩
      intro e he j hj
      rw [hspace' e he j hj, hsame, hspace e he j hj]

/-- Moving an entry from a page it shares to a fresh page, counters included. -/
theorem Inv.moveEntry (h : s.Inv holds) (hd : d ∈ userDirs) (hdp : present (s.mem 0 d) = true)
    (hi : i ∈ slots) (hp : present (s.pte d i) = true) (hk : k < pagingPages) (hh : holds k = 1) :
    let old := pageAddr (s.pte d i)
    let s₁ := if lowMem ≤ old then s.setMap (mapNr old) ((s.memMap (mapNr old) + 65535) % 65536) else s
    (s₁.store (pageAddr (s.mem 0 d)) i (userEntry (pageAt k))).Inv (Function.update holds k 0) := by
  intro old s₁
  obtain ⟨b, _, hb⟩ := h.table_at hd hdp
  -- First the old reference is dropped, then the held page is put in its place.
  have hdrop : (s₁.store (pageAddr (s.mem 0 d)) i 0#32).Inv holds := by
    by_cases hl : lowMem ≤ old
    · obtain ⟨o, ho, hao⟩ := exists_pageAt hl (h.tables.ptes d hd i hi hp)
      change old = pageAt o at hao
      have hcount : (s.memMap o + 65535) % 65536 = s.memMap o - 1 := by
        have h1 := h.tables.refs_lt ho
        have h2 := h.tables.counts o ho
        have h3 := Tables.pte_le_refs (T := s.tables holds) hd hi o
        simp only [tables_pte, tables_memMap, refsOf_eq_one hp hao] at h2 h3
        omega
      have hs₁ : s₁ = s.setMap o (s.memMap o - 1) := by
        simp only [s₁, if_pos hl, hao, mapNr_pageAt, hcount]
      rw [hs₁]
      exact h.storePte hd hdp (h.tables.unmap hd hi hp hdp ho hao)
    · have hs₁ : s₁ = s := if_neg hl
      rw [hs₁]
      exact h.storePte hd hdp (h.tables.clear hd hi hdp (Or.inr (Nat.not_le.mp hl)))
  have hmem : s₁.mem = s.mem := by
    simp only [s₁]
    split <;> rfl
  have hpte : ∀ j, (s₁.store (pageAddr (s.mem 0 d)) i 0#32).pte d j = if j = i then 0#32 else s.pte d j := by
    intro j
    have hsame : (s₁.store (pageAddr (s.mem 0 d)) i 0#32).mem = (s.store (pageAddr (s.mem 0 d)) i 0#32).mem := by
      rw [store_mem, store_mem, hmem]
    rw [pte_of_mem hsame, pte_storePte h hd hdp i 0#32 d j]
    simp
  have hzero : (s₁.store (pageAddr (s.mem 0 d)) i 0#32).mem 0 = s.mem 0 := by
    rw [store_mem_ne _ _ _ (hb ▸ (pageAt_ne_zero b).symm), hmem]
  have hput := (hdrop.putEntry (i := i) (k := k) hd (by rw [hzero]; exact hdp) hi
    (by rw [hpte, if_pos rfl]; exact present_zero) hk hh).1
  rw [hzero, store_store] at hput
  exact hput

theorem unWpPage_spec {s' : Mm} (h : s.Inv holds) (hd : d ∈ userDirs) (hdp : present (s.mem 0 d) = true)
    (hi : i ∈ slots) (hp : present (s.pte d i) = true)
    (hun : unWpPage s (pageAddr (s.mem 0 d)) i = some s') :
    s'.Inv holds ∧ (present (s'.pte d i) = true ∧ writable (s'.pte d i) = true) ∧
      ∀ e ∈ userDirs, ∀ j ∈ slots, s'.space e j =
        if e = d ∧ j = i then some (.own (s.mem (pageAddr (s.pte d i)))) else s.space e j := by
  have htable : s.mem (pageAddr (s.mem 0 d)) i = s.pte d i := by rw [pte_present hd hdp]
  obtain ⟨b, _, hb⟩ := h.table_at hd hdp
  simp only [unWpPage, htable] at hun
  split at hun
  next hone =>
    cases Option.some.inj hun
    obtain ⟨k, hk, ha⟩ := exists_pageAt hone.1 (h.tables.ptes d hd i hi hp)
    have hm : s.memMap k = 1 := by rw [ha, mapNr_pageAt] at hone; exact hone.2
    refine ⟨h.storePte hd hdp (h.tables.grant hd hi hdp hk ha hm), ?_, ?_⟩
    · rw [pte_storePte h hd hdp, if_pos ⟨rfl, rfl⟩]
      exact ⟨by simpa using hp, by simp [writable_eq, unprotect]⟩
    · intro e he j hj
      rw [space_storePte h hd hdp he hj]
      · rw [cellOf_congr (present_unprotect _) (pageAddr_unprotect _), cellOf_high hp ha, ha]
      · intro _
        rw [pageAddr_unprotect]
        exact h.tables.table_not_mapped hd hdp hd hi hp
  next hone =>
    split at hun
    next => simp at hun
    next page s₁ hg =>
      cases Option.some.inj hun
      obtain ⟨k, hk, rfl, hz, hs₁, hinv₁⟩ := h.alloc hg
      have hheld : holds k = 0 := by
        have h1 := h.tables.counts k hk
        have h2 := Tables.holds_le_refs (s.tables holds) k
        simp only [tables_memMap, tables_holds] at h1 h2
        omega
      have hback : Function.update (Function.update holds k 1) k 0 = holds := by
        rw [Function.update_idem, ← hheld, Function.update_eq_self]
      have hzero : s₁.mem 0 = s.mem 0 := by
        rw [hs₁]
        exact setPage_mem_ne _ _ (pageAt_ne_zero k).symm
      have hpte₁ : s₁.pte = s.pte := by
        rw [hs₁]
        exact congrArg Tables.pte (@tables_setPage (s.setMap k 1) holds _ _ (pageAt_ne_zero k)
          fun e he hpe => h.tables.free_not_table hk (Or.inl hz) he hpe)
      have hp₁ : present (s₁.pte d i) = true := by rw [hpte₁]; exact hp
      have hdp₁ : present (s₁.mem 0 d) = true := by rw [hzero]; exact hdp
      have hmove := hinv₁.moveEntry hd hdp₁ hi hp₁ hk (Function.update_self k 1 holds)
      rw [hback, hzero, hpte₁] at hmove
      -- The old page is neither the fresh page nor the table that was written.
      have holdFresh : pageAddr (s.pte d i) ≠ pageAt k :=
        h.tables.free_not_mapped hk (Or.inl hz) hd hi hp
      have holdTable : pageAddr (s.pte d i) ≠ pageAddr (s.mem 0 d) :=
        h.tables.table_not_mapped hd hdp hd hi hp
      have hfar : ∀ e ∈ userDirs, ∀ j ∈ slots, present (s.pte e j) = true → pageAddr (s.pte e j) ≠ pageAt k :=
        fun e he j hj => h.tables.free_not_mapped hk (Or.inl hz) he hj
      let s₂ := if lowMem ≤ pageAddr (s.pte d i) then
        s₁.setMap (mapNr (pageAddr (s.pte d i))) ((s₁.memMap (mapNr (pageAddr (s.pte d i))) + 65535) % 65536)
        else s₁
      have hmem₂ : s₂.mem = s₁.mem := by
        simp only [s₂]
        split <;> rfl
      let s₃ := s₂.store (pageAddr (s.mem 0 d)) i (userEntry (pageAt k))
      have hpte₃ : ∀ e j, s₃.pte e j = if e = d ∧ j = i then userEntry (pageAt k) else s.pte e j := by
        intro e j
        have h2 := pte_storePte hinv₁ hd hdp₁ i (userEntry (pageAt k)) e j
        rw [hzero, hpte₁] at h2
        have hsame : s₃.mem = (s₁.store (pageAddr (s.mem 0 d)) i (userEntry (pageAt k))).mem := by
          rw [store_mem, store_mem, hmem₂]
        rw [pte_of_mem hsame, h2]
      have hown : s₃.pte d i = userEntry (pageAt k) := by rw [hpte₃, if_pos ⟨rfl, rfl⟩]
      have hold : s₃.mem (pageAddr (s.pte d i)) = s.mem (pageAddr (s.pte d i)) := by
        rw [store_mem_ne _ _ _ holdTable, hmem₂, hs₁, setPage_mem_ne _ _ holdFresh, setMap_mem]
      have hinv₃ : s₃.Inv holds := hmove
      have hpres : present (s₃.pte d i) = true := by rw [hown]; exact present_userEntry _
      have hwrit : writable (s₃.pte d i) = true := by rw [hown]; exact writable_userEntry _
      have haddr : pageAddr (s₃.pte d i) = pageAt k := by rw [hown]; exact pageAddr_userEntry_pageAt hk
      obtain ⟨l, hl, hal, hml⟩ := hinv₃.tables.cow d hd i hi hpres hwrit
      have hlk : l = k := pageAt_inj (hal.symm.trans haddr)
      rw [hlk] at hml
      obtain ⟨hinv', hpte', hspace'⟩ := hinv₃.writePage hd hi hpres hk haddr hml
        (s₃.mem (pageAddr (s.pte d i)))
      refine ⟨hinv', ?_, ?_⟩
      · rw [hpte']
        exact ⟨hpres, hwrit⟩
      · intro e he j hj
        rw [hspace' e he j hj, hold]
        split
        next => rfl
        next hne =>
          have hentry : s₃.pte e j = s.pte e j := by rw [hpte₃, if_neg hne]
          change s₃.cellOf (s₃.pte e j) = s.cellOf (s.pte e j)
          rw [hentry]
          apply cellOf_mem
          intro hpe _
          have hother : pageAddr (s.pte e j) ≠ pageAddr (s.mem 0 d) := h.tables.table_not_mapped hd hdp he hj hpe
          rw [store_mem_ne _ _ _ hother, hmem₂, hs₁, setPage_mem_ne _ _ (hfar e he j hj hpe), setMap_mem]

end Mm

end RheeKernel
