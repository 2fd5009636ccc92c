import RheeKernel.EagerCopy

open Finset

namespace RheeKernel

namespace Mm

variable {s s' t : Mm} {W : Nat → Prop} {holds : Nat → Nat} {a d e f i k n page : Nat} {w : Word}

/-- Kernel memory behind the page directory, and the page tables of the directory slots `W`. -/
def Reserved (s : Mm) (W : Nat → Prop) (a : Nat) : Prop :=
  (a ≠ 0 ∧ a < lowMem) ∨ ∃ e ∈ userDirs, W e ∧ present (s.mem 0 e) = true ∧ pageAddr (s.mem 0 e) = a

/-- A change that leaves alone the kernel's own tables and those of the slots `W`. -/
structure Kept (W : Nat → Prop) (s s' : Mm) : Prop where
  dir : ∀ e, e < 16 ∨ W e → s'.mem 0 e = s.mem 0 e
  page : ∀ a, s.Reserved W a → s'.mem a = s.mem a

theorem Kept.reserved (h : Kept W s s') : s'.Reserved W a ↔ s.Reserved W a := by
  unfold Reserved
  constructor
  · intro hr
    rcases hr with hlow | ⟨e, he, hW, hp, ha⟩
    · exact .inl hlow
    · rw [h.dir e (.inr hW)] at hp ha
      exact .inr ⟨e, he, hW, hp, ha⟩
  · intro hr
    rcases hr with hlow | ⟨e, he, hW, hp, ha⟩
    · exact .inl hlow
    · rw [← h.dir e (.inr hW)] at hp ha
      exact .inr ⟨e, he, hW, hp, ha⟩

theorem Kept.of_mem (h : s'.mem = s.mem) : Kept W s s' := by
  refine ⟨fun e _ => ?_, fun a _ => ?_⟩
  · rw [h]
  · rw [h]

theorem Kept.trans (h : Kept W s t) (h' : Kept W t s') : Kept W s s' := by
  refine ⟨fun e he => (h'.dir e he).trans (h.dir e he), fun a ha => ?_⟩
  exact (h'.page a (h.reserved.mpr ha)).trans (h.page a ha)

/-- What the slots `W` map is as before. -/
theorem Kept.pte (h : Kept W s s') (hW : W e) : s'.pte e = s.pte e := by
  unfold Mm.pte
  rw [h.dir e (.inr hW)]
  split
  next hc => exact h.page _ (.inr ⟨e, hc.1, hW, hc.2, rfl⟩)
  next => rfl

theorem Kept.setPage (ha : a ≠ 0) (hr : ¬ s.Reserved W a) (c : Nat → Word) : Kept W s (s.setPage a c) := by
  refine ⟨fun e _ => ?_, fun b hb => setPage_mem_ne s c fun hba => hr (hba ▸ hb)⟩
  rw [setPage_mem_ne s c ha.symm]

theorem Kept.storeDir (h0 : ¬ s.Reserved W 0) (hd : 16 ≤ d) (hW : ¬ W d) : Kept W s (s.store 0 d w) := by
  refine ⟨fun e he => ?_, fun b hb => store_mem_ne s d w fun hb0 => h0 (hb0 ▸ hb)⟩
  rw [store_mem_self, Function.update_of_ne]
  intro hed
  rcases he with he | he
  · omega
  · exact hW (hed ▸ he)

theorem Inv.zero_not_reserved (h : s.Inv holds) : ¬ s.Reserved W 0 := by
  intro hr
  rcases hr with hlow | ⟨e, he, _, hp, ha⟩
  · exact hlow.1 rfl
  · obtain ⟨k, _, hk⟩ := h.table_at he hp
    exact pageAt_ne_zero k (hk.symm.trans ha)

theorem Inv.free_not_reserved (h : s.Inv holds) (hk : k < pagingPages) (hz : s.memMap k = 0) : ¬ s.Reserved W (pageAt k) := by
  intro hr
  rcases hr with hlow | ⟨e, he, _, hp, ha⟩
  · have := hlow.2
    simp only [pageAt] at this
    omega
  · exact h.tables.free_not_table hk (.inl hz) he hp ha

/-- The tables of other slots. -/
theorem Inv.table_not_reserved (h : s.Inv holds) (hd : d ∈ userDirs) (hW : ¬ W d) (hp : present (s.mem 0 d) = true) :
    pageAddr (s.mem 0 d) ≠ 0 ∧ ¬ s.Reserved W (pageAddr (s.mem 0 d)) := by
  obtain ⟨k, _, hk⟩ := h.table_at hd hp
  refine ⟨hk ▸ pageAt_ne_zero k, fun hr => ?_⟩
  rcases hr with hlow | ⟨e, he, hWe, hpe, ha⟩
  · have := hlow.2
    rw [hk] at this
    simp only [pageAt] at this
    omega
  · exact h.tables.tables_ne he hpe hd hp (fun hed => hW (hed ▸ hWe)) ha

/-- A page that a process may write. -/
theorem Inv.private_not_reserved (h : s.Inv holds) (hd : d ∈ userDirs) (hi : i ∈ slots) (hp : present (s.pte d i) = true)
    (hw : writable (s.pte d i) = true) : pageAddr (s.pte d i) ≠ 0 ∧ ¬ s.Reserved W (pageAddr (s.pte d i)) := by
  obtain ⟨k, _, hk, _⟩ := h.tables.cow d hd i hi hp hw
  change pageAddr (s.pte d i) = pageAt k at hk
  refine ⟨hk ▸ pageAt_ne_zero k, fun hr => ?_⟩
  rcases hr with hlow | ⟨e, he, _, hpe, ha⟩
  · have := hlow.2
    rw [hk] at this
    simp only [pageAt] at this
    omega
  · exact h.tables.table_not_mapped he hpe hd hi hp ha.symm

theorem getFreePage_kept (h : s.Inv holds) (hg : getFreePage s = some (page, s')) :
    Kept W s s' ∧ page ≠ 0 ∧ ¬ s.Reserved W page := by
  obtain ⟨k, hk, rfl, hz, rfl, _⟩ := h.alloc hg
  have hfree : ¬ s.Reserved W (pageAt k) := h.free_not_reserved hk hz
  have hset := Kept.setPage (s := s.setMap k 1) (W := W) (pageAt_ne_zero k) hfree fun _ => 0#32
  exact ⟨⟨hset.dir, hset.page⟩, pageAt_ne_zero k, hfree⟩

theorem putPage_kept {address : Nat} (h : s.Inv holds) (hd : dirOf address ∈ userDirs) (hW : ¬ W (dirOf address))
    (hput : putPage s page address = some s') : Kept W s s' := by
  unfold putPage at hput
  split at hput
  next hp =>
    cases Option.some.inj hput
    obtain ⟨hne, hr⟩ := h.table_not_reserved hd hW hp
    exact Kept.setPage hne hr _
  next =>
    split at hput
    next => cases hput
    next tmp s₁ hg =>
      cases Option.some.inj hput
      obtain ⟨hkept, hne, hr⟩ := getFreePage_kept (W := W) h hg
      have hdir : Kept W s₁ (s₁.store 0 (dirOf address) (userEntry tmp)) :=
        Kept.storeDir (fun h0 => h.zero_not_reserved (hkept.reserved.mp h0)) (mem_userDirs.mp hd).1 hW
      have hboth := hkept.trans hdir
      exact hboth.trans (Kept.setPage hne (fun hr' => hr (hboth.reserved.mp hr')) _)

theorem doNoPage_kept {address : Nat} (h : s.Inv fun _ => 0) (hd : dirOf address ∈ userDirs) (hW : ¬ W (dirOf address))
    (hn : doNoPage s address = some s') : Kept W s s' := by
  unfold doNoPage at hn
  split at hn
  next => cases hn
  next tmp s₁ hg =>
    obtain ⟨k, hk, rfl, hz, hs₁, hinv⟩ := h.alloc hg
    exact (getFreePage_kept h hg).1.trans (putPage_kept hinv hd hW hn)

theorem unWpPage_kept (h : s.Inv holds) (hd : d ∈ userDirs) (hW : ¬ W d) (hp : present (s.mem 0 d) = true)
    (hun : unWpPage s (pageAddr (s.mem 0 d)) i = some s') : Kept W s s' := by
  obtain ⟨hne, hr⟩ := h.table_not_reserved hd hW hp
  unfold unWpPage at hun
  dsimp only at hun
  split at hun
  next =>
    cases Option.some.inj hun
    exact Kept.setPage hne hr _
  next =>
    split at hun
    next => cases hun
    next newPage s₁ hg =>
      cases Option.some.inj hun
      obtain ⟨hkept, hne₁, hr₁⟩ := getFreePage_kept (W := W) h hg
      generalize hs₂ : (if lowMem ≤ pageAddr (s.mem (pageAddr (s.mem 0 d)) i) then
        s₁.setMap (mapNr (pageAddr (s.mem (pageAddr (s.mem 0 d)) i)))
          ((s₁.memMap (mapNr (pageAddr (s.mem (pageAddr (s.mem 0 d)) i))) + 65535) % 65536)
        else s₁) = s₂
      have hmap : Kept W s₁ s₂ := by
        refine Kept.of_mem ?_
        rw [← hs₂]
        split
        next => rfl
        next => rfl
      have htwo := hkept.trans hmap
      have hthree := htwo.trans
        (Kept.setPage (c := Function.update (s₂.mem (pageAddr (s.mem 0 d))) i (userEntry newPage)) hne
          fun hr' => hr (htwo.reserved.mp hr'))
      exact hthree.trans (Kept.setPage hne₁ (fun hr' => hr₁ (hthree.reserved.mp hr')) _)

theorem freePage_mem (h : freePage s a = .ok s') : s'.mem = s.mem := by
  unfold freePage at h
  split at h
  next => cases h; rfl
  next =>
    split at h
    next => cases h
    next =>
      split at h
      next => cases h
      next => cases h; rfl

theorem freeEntries_mem {table nr : Nat} (h : freeEntries table n nr s = .ok s') (ha : a ≠ table) : s'.mem a = s.mem a := by
  induction n generalizing s nr with
  | zero => cases h; rfl
  | succ n ih =>
    unfold freeEntries at h
    split at h
    next => cases h
    next s₁ hs₁ =>
      have hmem : s₁.mem = s.mem := by
        split at hs₁
        next => exact freePage_mem hs₁
        next => cases hs₁; rfl
      rw [ih h, store_mem_ne _ _ _ ha, hmem]

theorem freeDirs_kept (h : s.Inv holds) (hlow : 16 ≤ d) (hhigh : d + n ≤ 1024) (hW : ∀ e, d ≤ e → e < d + n → ¬ W e)
    (hf : freeDirs n d s = .ok s') : Kept W s s' := by
  induction n generalizing s d with
  | zero => cases hf; exact Kept.of_mem rfl
  | succ n ih =>
    have hd : d ∈ userDirs := mem_userDirs.mpr (by omega)
    rw [freeDirs] at hf
    by_cases hp : present (s.mem 0 d) = true
    · obtain ⟨s₁, s₂, hfree, hpage, hinv, _⟩ := freeDir_spec h hd hp
      rw [if_pos hp, hfree] at hf
      simp only [hpage] at hf
      obtain ⟨hne, hr⟩ := h.table_not_reserved hd (hW d le_rfl (by omega)) hp
      have hone : Kept W s s₁ := by
        refine ⟨fun e _ => ?_, fun a ha => freeEntries_mem hfree fun hat => hr (hat ▸ ha)⟩
        rw [freeEntries_mem hfree hne.symm]
      have htwo : Kept W s s₂ := hone.trans (Kept.of_mem (freePage_mem hpage))
      have hthree : Kept W s (s₂.store 0 d 0#32) :=
        htwo.trans (Kept.storeDir (fun h0 => h.zero_not_reserved (htwo.reserved.mp h0)) hlow (hW d le_rfl (by omega)))
      exact hthree.trans (ih hinv (by omega) (by omega) (fun e hle hlt => hW e (by omega) (by omega)) hf)
    · rw [if_neg hp] at hf
      exact ih h (by omega) (by omega) (fun e hle hlt => hW e (by omega) (by omega)) hf

theorem copyEntry_mem {src dst nr : Nat} (hs : a ≠ src ∨ ¬ lowMem < (protect (s.mem src nr)).toNat) (hd : a ≠ dst) :
    (copyEntry src dst nr s).mem a = s.mem a := by
  unfold copyEntry
  dsimp only
  split
  next =>
    split
    next hhigh =>
      have hsrc : a ≠ src := hs.resolve_right (not_not.mpr hhigh)
      rw [setMap_mem, store_mem_ne _ _ _ hsrc, store_mem_ne _ _ _ hd]
    next => exact store_mem_ne _ _ _ hd
  next => rfl

theorem copyEntries_mem {src dst nr : Nat} (hs : a ≠ src) (hd : a ≠ dst) : (copyEntries src dst n nr s).mem a = s.mem a := by
  induction n generalizing s nr with
  | zero => rfl
  | succ n ih => exact ih.trans (copyEntry_mem (.inl hs) hd)

/-- A source table with entries below `LOW_MEM` only is not written. -/
theorem copyEntries_low {src dst nr : Nat} (hlow : ∀ i, nr ≤ i → i < nr + n → ¬ lowMem < (protect (s.mem src i)).toNat)
    (hne : src ≠ dst) (hd : a ≠ dst) : (copyEntries src dst n nr s).mem a = s.mem a := by
  induction n generalizing s nr with
  | zero => rfl
  | succ n ih =>
    have hfirst := hlow nr le_rfl (by omega)
    have hsrc : (copyEntry src dst nr s).mem src = s.mem src := copyEntry_mem (.inr hfirst) hne
    refine (ih fun i hi hlt => ?_).trans (copyEntry_mem (.inr hfirst) hd)
    rw [hsrc]
    exact hlow i (by omega) (by omega)

/-- `get_free_page` for a page table of a slot outside of `W`. -/
theorem newTable_kept (h : s.Inv holds) (hg : getFreePage s = some (page, s')) (hd : 16 ≤ d) (hW : ¬ W d) :
    Kept W s (s'.store 0 d (userEntry page)) := by
  have hkept := (getFreePage_kept (W := W) h hg).1
  exact hkept.trans (Kept.storeDir (fun h0 => h.zero_not_reserved (hkept.reserved.mp h0)) hd hW)

theorem copyDirs_kept {b : Bool} {f t : Nat} (h : s.Inv holds) (hf : 16 ≤ f) (hfn : f + n ≤ 1024) (ht : 16 ≤ t)
    (htn : t + n ≤ 1024) (hWf : ∀ e, f ≤ e → e < f + n → ¬ W e) (hWt : ∀ e, t ≤ e → e < t + n → ¬ W e)
    (hc : copyDirs 1024 n f t s = .ok (b, s')) : Kept W s s' := by
  induction n generalizing s f t with
  | zero => cases hc; exact Kept.of_mem rfl
  | succ n ih =>
    have hfu : f ∈ userDirs := mem_userDirs.mpr (by omega)
    have htu : t ∈ userDirs := mem_userDirs.mpr (by omega)
    rw [copyDirs] at hc
    by_cases htp : present (s.mem 0 t) = true
    · rw [if_pos htp] at hc
      cases hc
    have htf : present (s.mem 0 t) = false := Bool.eq_false_iff.mpr htp
    have hnext : ∀ e, f + 1 ≤ e → e < f + 1 + n → ¬ W e := fun e hle hlt => hWf e (by omega) (by omega)
    have hnext' : ∀ e, t + 1 ≤ e → e < t + 1 + n → ¬ W e := fun e hle hlt => hWt e (by omega) (by omega)
    rw [if_neg htp] at hc
    by_cases hfp : present (s.mem 0 f) = true
    · rw [if_pos hfp] at hc
      have hne : f ≠ t := fun hft => htp (hft ▸ hfp)
      split at hc
      next => cases hc; exact Kept.of_mem rfl
      next page s₁ hg =>
        obtain ⟨k, hk, rfl, hinv, hdir, hempty, _, _⟩ := h.newTable hg htu htf
        let s₂ := s₁.store 0 t (userEntry (pageAt k))
        have hf₂ : s₂.mem 0 f = s.mem 0 f := by rw [hdir, Function.update_of_ne hne]
        have ht₂ : s₂.mem 0 t = userEntry (pageAt k) := by rw [hdir, Function.update_self]
        have hpf : present (s₂.mem 0 f) = true := by rw [hf₂]; exact hfp
        have hpt : present (s₂.mem 0 t) = true := by rw [ht₂]; simp
        have hstart : s₂.Copying holds f t 0 := by
          refine ⟨hinv, ⟨hfu, hpf⟩, ⟨htu, hpt⟩, hne, by omega, ?_⟩
          intro i _ _
          rw [hempty]
          exact present_zero
        obtain ⟨s₃, hs₃, hdone, _, _⟩ := hstart.loop (show 0 + 1024 ≤ 1024 by omega)
        have hnew : Kept W s s₂ := newTable_kept h hg (by omega) (hWt t le_rfl (by omega))
        obtain ⟨hf0, hfr⟩ := hinv.table_not_reserved hfu (hWf f le_rfl (by omega)) hpf
        obtain ⟨ht0, htr⟩ := hinv.table_not_reserved htu (hWt t le_rfl (by omega)) hpt
        have hcopy : Kept W s₂ s₃ := by
          rw [← hs₃]
          refine ⟨fun e _ => ?_, fun a ha => copyEntries_mem (fun haf => hfr (haf ▸ ha)) fun hat => htr (hat ▸ ha)⟩
          rw [copyEntries_mem hf0.symm ht0.symm]
        rw [ht₂, pageAddr_userEntry_pageAt hk] at hs₃
        dsimp only at hc
        rw [show copyEntries (pageAddr ((s₁.store 0 t (userEntry (pageAt k))).mem 0 f)) (pageAt k) 1024 0
          (s₁.store 0 t (userEntry (pageAt k))) = s₃ from hs₃] at hc
        exact (hnew.trans hcopy).trans (ih hdone.inv (by omega) (by omega) (by omega) (by omega) hnext hnext' hc)
    · rw [if_neg hfp] at hc
      exact ih h (by omega) (by omega) (by omega) (by omega) hnext hnext' hc

theorem copyDirs_kernel_kept {b : Bool} {t : Nat} (h : s.Inv holds) (hn : n ≤ 1) (ht : 16 ≤ t) (htn : t + n ≤ 1024)
    (hWt : ∀ e, t ≤ e → e < t + n → ¬ W e) (hc : copyDirs 0xA0 n 0 t s = .ok (b, s')) : Kept W s s' := by
  cases n with
  | zero => cases hc; exact Kept.of_mem rfl
  | succ n =>
    have hn0 : n = 0 := by omega
    subst hn0
    have htu : t ∈ userDirs := mem_userDirs.mpr (by omega)
    rw [copyDirs] at hc
    by_cases htp : present (s.mem 0 t) = true
    · rw [if_pos htp] at hc
      cases hc
    rw [if_neg htp, if_pos h.kernelDir.1] at hc
    split at hc
    next => cases hc; exact Kept.of_mem rfl
    next page s₁ hg =>
      obtain ⟨k, hk, rfl, hinv, hdir, _, _, _⟩ := h.newTable hg htu (Bool.eq_false_iff.mpr htp)
      let s₂ := s₁.store 0 t (userEntry (pageAt k))
      have ht₂ : s₂.mem 0 t = userEntry (pageAt k) := by rw [hdir, Function.update_self]
      have hpt : present (s₂.mem 0 t) = true := by rw [ht₂]; simp
      have hnew : Kept W s s₂ := newTable_kept h hg (by omega) (hWt t le_rfl (by omega))
      obtain ⟨ht0, htr⟩ := hinv.table_not_reserved htu (hWt t le_rfl (by omega)) hpt
      rw [ht₂, pageAddr_userEntry_pageAt hk] at ht0 htr
      have hlow : ∀ i, 0 ≤ i → i < 0 + 160 → ¬ lowMem < (protect (s₂.mem 0x1000 i)).toNat := by
        intro i _ hi
        obtain ⟨hp, ha⟩ := hinv.kernelTable i (by omega)
        rw [lowMem_lt_entry (by simpa using hp), pageAddr_protect, ha]
        simp only [lowMem]
        omega
      have hcopy : ∀ a, a ≠ pageAt k → (copyEntries 0x1000 (pageAt k) 160 0 s₂).mem a = s₂.mem a :=
        fun a ha => copyEntries_low hlow (pageAt_ne_kernelTable k).symm ha
      have hother : ∀ a, s₂.Reserved W a → a ≠ pageAt k := by
        intro a ha hat
        subst hat
        exact htr ha
      simp only [copyDirs, hinv.kernelDir.2] at hc
      cases hc
      refine hnew.trans ⟨fun e _ => ?_, fun a ha => hcopy a (hother a ha)⟩
      rw [show (copyEntries 4096 (pageAt k) 160 0 (s₁.store 0 t (userEntry (pageAt k)))).mem 0 = s₂.mem 0 from
        hcopy 0 ht0.symm]

/-- `put_page` writes one entry. -/
theorem putPage_pte {address : Nat} (h : s.Inv holds) (hd : dirOf address ∈ userDirs) (hput : putPage s page address = some s')
    (e j : Nat) :
    s'.pte e j = if e = dirOf address ∧ j = slotOf address then userEntry page else s.pte e j := by
  unfold putPage at hput
  split at hput
  next hp =>
    cases Option.some.inj hput
    exact pte_storePte h hd hp _ _ e j
  next hp =>
    have hp : present (s.mem 0 (dirOf address)) = false := Bool.eq_false_iff.mpr hp
    split at hput
    next => cases hput
    next tmp s₁ hg =>
      cases Option.some.inj hput
      have hkept := newTable_kept (W := fun e => e ≠ dirOf address) h hg (mem_userDirs.mp hd).1 (not_not.mpr rfl)
      obtain ⟨k, hk, rfl, hinv, hdir, hempty, _, _⟩ := h.newTable hg hd hp
      have hentry : (s₁.store 0 (dirOf address) (userEntry (pageAt k))).mem 0 (dirOf address) = userEntry (pageAt k) := by
        rw [hdir, Function.update_self]
      have hstore := pte_storePte hinv hd (by rw [hentry]; simp) (slotOf address) (userEntry page) e j
      rw [hentry, pageAddr_userEntry_pageAt hk] at hstore
      rw [hstore]
      split
      next => rfl
      next =>
        by_cases he : e = dirOf address
        · rw [he, hempty, pte_absent hp]
        · exact congrFun (hkept.pte he) j

/-- `do_no_page` makes one entry, which the process may write. -/
theorem doNoPage_pte {address : Nat} (h : s.Inv fun _ => 0) (hd : dirOf address ∈ userDirs)
    (hn : doNoPage s address = some s') :
    (present (s'.entry address) = true ∧ writable (s'.entry address) = true) ∧
      ∀ e j, ¬ (e = dirOf address ∧ j = slotOf address) → s'.pte e j = s.pte e j := by
  unfold doNoPage at hn
  split at hn
  next => cases hn
  next tmp s₁ hg =>
    have hkept := (getFreePage_kept (W := fun _ => True) h hg).1
    obtain ⟨k, hk, rfl, hz, hs₁, hinv⟩ := h.alloc hg
    have hpte := putPage_pte hinv hd hn
    refine ⟨?_, fun e j hne => ?_⟩
    · have hentry : s'.entry address = userEntry (pageAt k) := (hpte _ _).trans (if_pos ⟨rfl, rfl⟩)
      rw [hentry]
      exact ⟨present_userEntry _, writable_userEntry _⟩
    · rw [hpte, if_neg hne, hkept.pte trivial]

/-- `un_wp_page` changes one entry. -/
theorem unWpPage_pte (h : s.Inv holds) (hd : d ∈ userDirs) (hp : present (s.mem 0 d) = true)
    (hun : unWpPage s (pageAddr (s.mem 0 d)) i = some s') {e j : Nat} (hne : ¬ (e = d ∧ j = i)) : s'.pte e j = s.pte e j := by
  by_cases he : e = d
  · -- The same table: only its entry `i` is written.
    subst he
    have hj : j ≠ i := fun hji => hne ⟨rfl, hji⟩
    obtain ⟨h0, _⟩ := h.table_not_reserved (W := fun _ => False) hd not_false hp
    have hmem : s'.mem 0 = s.mem 0 ∧ s'.mem (pageAddr (s.mem 0 e)) j = s.mem (pageAddr (s.mem 0 e)) j := by
      unfold unWpPage at hun
      dsimp only at hun
      split at hun
      next =>
        cases Option.some.inj hun
        rw [store_mem_ne _ _ _ h0.symm, store_mem_self, Function.update_of_ne hj]
        exact ⟨rfl, rfl⟩
      next =>
        split at hun
        next => cases hun
        next newPage s₁ hg =>
          cases Option.some.inj hun
          obtain ⟨k, hk, rfl, hz, rfl, _⟩ := h.alloc hg
          have hfresh : pageAddr (s.mem 0 e) ≠ pageAt k := h.tables.free_not_table hk (.inl hz) hd hp
          have hzero := (pageAt_ne_zero k).symm
          rw [setPage_mem_ne _ _ hzero, setPage_mem_ne _ _ hfresh, store_mem_ne _ _ _ h0.symm, store_mem_self,
            Function.update_of_ne hj]
          split
          next => exact ⟨setPage_mem_ne _ _ hzero, by rw [setMap_mem, setPage_mem_ne _ _ hfresh, setMap_mem]⟩
          next => exact ⟨setPage_mem_ne _ _ hzero, by rw [setPage_mem_ne _ _ hfresh, setMap_mem]⟩
    obtain ⟨hdir, htable⟩ := hmem
    rw [pte_present hd hp, pte_present hd (by rw [hdir]; exact hp), hdir]
    exact htable
  · have hkept := unWpPage_kept (W := fun x => x ≠ d) h hd (not_not.mpr rfl) hp hun
    exact congrFun (hkept.pte he) j

/-- The kernel's own tables lie below `LOW_MEM` and map all they map for writing. -/
def KernelTables (s : Mm) : Prop :=
  ∀ e, e < 16 → present (s.mem 0 e) = true → (pageAddr (s.mem 0 e) ≠ 0 ∧ pageAddr (s.mem 0 e) < lowMem) ∧
    ∀ i, present (s.mem (pageAddr (s.mem 0 e)) i) = true → writable (s.mem (pageAddr (s.mem 0 e)) i) = true

theorem Kept.kernelTables (h : Kept W s s') (hk : s.KernelTables) : s'.KernelTables := by
  intro e he hp
  rw [h.dir e (.inl he)] at hp ⊢
  obtain ⟨hlow, hwrite⟩ := hk e he hp
  refine ⟨hlow, fun i hi => ?_⟩
  rw [h.page _ (.inl hlow)] at hi ⊢
  exact hwrite i hi

end Mm

/-- The steps of other processes than the one whose directory slots are `W`. -/
def UserOp.Elsewhere (W : Nat → Prop) : UserOp → Prop
  | .fork src dst size =>
    (∀ e, src / 0x400000 ≤ e → e < src / 0x400000 + dirCount size → ¬ W e) ∧
      ∀ e, dst / 0x400000 ≤ e → e < dst / 0x400000 + dirCount size → ¬ W e
  | .exit base size => ∀ e, base / 0x400000 ≤ e → e < base / 0x400000 + dirCount size → ¬ W e
  | .touch address => ¬ W (dirOf address)
  | .load address => ¬ W (dirOf address)
  | .store address _ => ¬ W (dirOf address)

namespace Mm

variable {s s' t : Mm} {W : Nat → Prop} {address : Nat}

theorem faultIn_inv (h : s.Inv fun _ => 0) (ha : UserAddress address) (hf : faultIn s address = some s') :
    s'.Inv fun _ => 0 := by
  unfold RheeKernel.faultIn at hf
  split at hf
  next => cases Option.some.inj hf; exact h
  next hp => exact (doNoPage_spec h ha (Bool.eq_false_iff.mpr hp) hf).1

theorem faultIn_kept (h : s.Inv fun _ => 0) (ha : UserAddress address) (hW : ¬ W (dirOf address))
    (hf : faultIn s address = some s') : Kept W s s' := by
  unfold RheeKernel.faultIn at hf
  split at hf
  next => cases Option.some.inj hf; exact Kept.of_mem rfl
  next => exact doNoPage_kept h (dirOf_user ha) hW hf

theorem faultIn_present (h : s.Inv fun _ => 0) (ha : UserAddress address) (hf : faultIn s address = some s') :
    present (s'.entry address) = true := by
  unfold RheeKernel.faultIn at hf
  split at hf
  next hp => cases Option.some.inj hf; exact hp
  next => exact (doNoPage_pte h (dirOf_user ha) hf).1.1

theorem userStore_kept {v : Byte} (h : s.Inv fun _ => 0) (ha : UserAddress address) (hW : ¬ W (dirOf address))
    (hs : userStore s address v = some s') : Kept W s s' := by
  obtain ⟨t, hf, hs⟩ := Option.bind_eq_some_iff.mp hs
  obtain ⟨u, hw, hu⟩ := Option.map_eq_some_iff.mp hs
  subst hu
  have hd := dirOf_user ha
  have hi := slotOf_mem address
  have ht := faultIn_inv h ha hf
  have hp := faultIn_present h ha hf
  have hready : Kept W t u ∧ u.Inv (fun _ => 0) ∧ present (u.entry address) = true ∧ writable (u.entry address) = true := by
    unfold faultWrite at hw
    split at hw
    next hwr => cases Option.some.inj hw; exact ⟨Kept.of_mem rfl, ht, hp, hwr⟩
    next =>
      have hdp := (dir_present_of_pte hp).2
      obtain ⟨hinv, hpw, _⟩ := unWpPage_spec ht hd hdp hi hp hw
      exact ⟨unWpPage_kept ht hd hW hdp hw, hinv, hpw⟩
  obtain ⟨hkept, hinv, hpu, hwu⟩ := hready
  obtain ⟨hne, hr⟩ := hinv.private_not_reserved (W := W) hd hi hpu hwu
  exact ((faultIn_kept h ha hW hf).trans hkept).trans (Kept.setPage hne hr _)

theorem cowStep_kept {op : UserOp} (h : s.Inv fun _ => 0) (hop : op.Allowed s) (hW : op.Elsewhere W)
    (hs : cowStep s op = some s') : Kept W s s' := by
  cases op with
  | fork src dst size =>
    obtain ⟨hsrc, hdst, hsize, _⟩ := hop
    have hcopy := cowStep_fork hs
    unfold copyPageTables at hcopy
    split at hcopy
    next => cases hcopy
    next =>
      obtain ⟨hlow, hhigh⟩ := dirCount_le hdst (by omega)
      rcases hsrc with ⟨rfl, hk⟩ | hsrc
      · rw [if_pos rfl] at hcopy
        exact copyDirs_kernel_kept h (by unfold dirCount; omega) hlow hhigh hW.2 hcopy
      · obtain ⟨hslow, hshigh⟩ := dirCount_le hsrc (by omega)
        rw [if_neg (by unfold UserRange at hsrc; omega)] at hcopy
        exact copyDirs_kept h hslow hshigh hlow hhigh hW.1 hW.2 hcopy
  | exit base size =>
    have hfree := cowStep_exit hs
    unfold freePageTables at hfree
    split at hfree
    next => cases hfree
    next =>
      split at hfree
      next => cases hfree
      next =>
        obtain ⟨hlow, hhigh⟩ := dirCount_le hop (by omega)
        exact freeDirs_kept h hlow hhigh hW hfree
  | touch address => exact doNoPage_kept h (dirOf_user hop.1) hW hs
  | load address =>
    obtain ⟨⟨v, u⟩, hl, rfl⟩ := Option.map_eq_some_iff.mp hs
    obtain ⟨t, hf, ht⟩ := Option.map_eq_some_iff.mp hl
    cases ht
    exact faultIn_kept h hop hW hf
  | store address v => exact userStore_kept h hop hW hs

theorem cowStep_inv {op : UserOp} (h : s.Inv fun _ => 0) (hop : op.Allowed s) (hs : cowStep s op = some s') :
    s'.Inv fun _ => 0 := by
  have hshows : s.Shows s.space := ⟨h, fun _ _ _ _ => rfl⟩
  exact (hshows.step hop hs).inv

theorem bootMm_kernelTables (ram : Nat → Nat → Word) : (bootMm ram).KernelTables := by
  intro e he hp
  have hdir : e = 0 ∨ e = 1 := by
    by_contra hne
    have habsent : (bootMm ram).mem 0 e = 0#32 := by
      simp only [bootMm, if_true, if_neg (show e ≠ 0 by omega), if_neg (show e ≠ 1 by omega)]
    rw [habsent, present_zero] at hp
    exact absurd hp (by simp)
  rcases hdir with rfl | rfl
  · have haddr : pageAddr ((bootMm ram).mem 0 0) = 0x1000 := by
      rw [show (bootMm ram).mem 0 0 = 0x1007#32 from rfl]
      decide
    rw [haddr]
    exact ⟨by decide, fun i _ => writable_userEntry _⟩
  · have haddr : pageAddr ((bootMm ram).mem 0 1) = 0x2000 := by
      rw [show (bootMm ram).mem 0 1 = 0x2007#32 from rfl]
      decide
    rw [haddr]
    exact ⟨by decide, fun i _ => writable_userEntry _⟩

end Mm

end RheeKernel
