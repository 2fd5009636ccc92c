import RheeKernel.CopyProcess

open Finset

namespace RheeKernel

/-- How `do_no_page` ends: it returns, or it calls `do_exit(SIGSEGV)`. -/
inductive FaultEnd
  | mapped (s : Mm)
  | killed (s : Mm)

/-- `do_no_page` with the memory that `do_exit` is called in. -/
def noPage (s : Mm) (address : Nat) : FaultEnd :=
  match getFreePage s with
  | none => .killed s
  | some (tmp, s) =>
    match putPage s tmp address with
    | some s => .mapped s
    | none => .killed s

theorem doNoPage_eq (s : Mm) (address : Nat) :
    doNoPage s address = match noPage s address with
      | .mapped s => some s
      | .killed _ => none := by
  unfold doNoPage noPage
  cases getFreePage s with
  | none => rfl
  | some x =>
    dsimp only
    cases putPage x.2 x.1 address with
    | none => rfl
    | some s' => rfl

def freeAll : List Nat → Mm → Except MmPanic Mm
  | [], s => .ok s
  | p :: pages, s =>
    match freePage s p with
    | .error e => .error e
    | .ok s => freeAll pages s

/-- What `do_exit` gives back: the tables of the two segments, then the pages that `sys_close`, `iput` and `release`
free, which are pipe buffers and the task structure. -/
def exitMemory (s : Mm) (code data : Segment) (pages : List Nat) : Except MmPanic Mm :=
  match freePageTables s code.base code.limit with
  | .error e => .error e
  | .ok s =>
    match freePageTables s data.base data.limit with
    | .error e => .error e
    | .ok s => freeAll pages s

/-- The count `free` of `calc_mem`. -/
def Mm.freeCount (s : Mm) : Nat := #{k ∈ range pagingPages | s.memMap k = 0}

/-- A process in order: its segments are in its window, and it is the only holder of its kernel pages. -/
structure Exiting (holds : Nat → Nat) (t : Nat) (code data : Segment) (pages : List Nat) : Prop where
  task : 0 < t ∧ t < 64
  code : code.base = taskBase t ∧ code.limit ≤ 0x4000000
  data : data.base = taskBase t ∧ data.limit ≤ 0x4000000
  held : ∀ p ∈ pages, ∃ k < pagingPages, p = pageAt k ∧ holds k = 1
  nodup : pages.Nodup

/-- The address has got an empty page of its own, or the process has gone and memory is as if it had exited without
the fault. -/
def FaultAccounted (s : Mm) (code data : Segment) (pages : List Nat) (address : Nat) : Prop :=
  match noPage s address with
  | .mapped s' => ∃ k < pagingPages, s.memMap k = 0 ∧ s'.memMap k = 1 ∧ s'.entry address = userEntry (pageAt k) ∧
      s'.mem (pageAt k) = fun _ => 0#32
  | .killed s' => ∃ u v, exitMemory s' code data pages = .ok u ∧ exitMemory s code data pages = .ok v ∧
      u.freeCount = v.freeCount ∧ ∀ k < pagingPages, u.memMap k = v.memMap k

namespace Mm

variable {s s' u v : Mm} {holds holds' : Nat → Nat} {d k n size t : Nat} {page : Nat} {code data : Segment} {pages : List Nat}

/-- Two memories whose user entries lead to the same pages. -/
structure Alike (s s' : Mm) : Prop where
  dir : s'.mem 0 = s.mem 0
  entry : ∀ e ∈ userDirs, ∀ i, present (s'.pte e i) = present (s.pte e i) ∧ pageAddr (s'.pte e i) = pageAddr (s.pte e i)

theorem Alike.of_mem (h : s'.mem = s.mem) : Alike s s' := by
  refine ⟨by rw [h], fun e _ i => ?_⟩
  rw [pte_of_mem h]
  exact ⟨rfl, rfl⟩

theorem Alike.trans (h : Alike s u) (h' : Alike u s') : Alike s s' :=
  ⟨h'.dir.trans h.dir, fun e he i => ⟨(h'.entry e he i).1.trans (h.entry e he i).1, (h'.entry e he i).2.trans (h.entry e he i).2⟩⟩

theorem Alike.symm (h : Alike s s') : Alike s' s := ⟨h.dir.symm, fun e he i => ⟨(h.entry e he i).1.symm, (h.entry e he i).2.symm⟩⟩

/-- What two such memories count differs by what the kernel holds. -/
theorem Alike.counts (h : Alike s s') (hi : s.Inv holds) (hi' : s'.Inv holds') (hk : k < pagingPages) :
    s'.memMap k + holds k = s.memMap k + holds' k := by
  have hmapped : ∑ e ∈ userDirs, ∑ i ∈ slots, refsOf (s'.pte e i) k = ∑ e ∈ userDirs, ∑ i ∈ slots, refsOf (s.pte e i) k := by
    refine sum_congr rfl fun e he => sum_congr rfl fun i _ => ?_
    exact refsOf_congr (h.entry e he i).1 (h.entry e he i).2 k
  have hdirs : ∑ e ∈ userDirs, refsOf (s'.mem 0 e) k = ∑ e ∈ userDirs, refsOf (s.mem 0 e) k := by rw [h.dir]
  have hnow : s'.memMap k = (∑ e ∈ userDirs, ∑ i ∈ slots, refsOf (s'.pte e i) k) + (∑ e ∈ userDirs, refsOf (s'.mem 0 e) k) + holds' k :=
    hi'.tables.counts k hk
  have hthen : s.memMap k = (∑ e ∈ userDirs, ∑ i ∈ slots, refsOf (s.pte e i) k) + (∑ e ∈ userDirs, refsOf (s.mem 0 e) k) + holds k :=
    hi.tables.counts k hk
  rw [hmapped, hdirs] at hnow
  omega

theorem freePageTables_ok (h : s.Inv holds) (ht : 0 < t ∧ t < 64) (hsize : size ≤ 0x4000000) :
    ∃ u, freePageTables s (taskBase t) size = .ok u ∧ u.Inv holds := by
  have hcount := dirCount_le_task hsize
  have hdir : taskBase t / 0x400000 = 16 * t := by rw [taskBase_eq]; omega
  obtain ⟨u, hu, hinv, _⟩ := @freeDirs_spec s holds (16 * t) (dirCount size) h (by omega) (by omega)
  refine ⟨u, ?_, hinv⟩
  unfold freePageTables
  rw [if_neg (by rw [taskBase_eq]; omega), if_neg (by rw [taskBase_eq]; omega), hdir, hu]

/-- `free_page_tables` does the same to two such memories. -/
theorem Alike.freePageTables (h : Alike s s') (hi : s.Inv holds) (hi' : s'.Inv holds') (ht : 0 < t ∧ t < 64) (hsize : size ≤ 0x4000000)
    (hu : RheeKernel.freePageTables s (taskBase t) size = .ok u) (hv : RheeKernel.freePageTables s' (taskBase t) size = .ok v) :
    Alike u v := by
  obtain ⟨_, hfades, hdir⟩ := freePageTables_fades hi ht hsize (fun e hlow hhigh => And.intro hlow hhigh) hu
  obtain ⟨_, hfades', hdir'⟩ := freePageTables_fades hi' ht hsize (fun e hlow hhigh => And.intro hlow hhigh) hv
  have hsame : v.mem 0 = u.mem 0 := by
    funext e
    rw [hdir e, hdir' e, h.dir]
  refine ⟨hsame, fun e he i => ?_⟩
  by_cases hT : 16 * t ≤ e ∧ e < 16 * t + dirCount size
  · -- Whatever was mapped here is gone.
    have hnone : present (u.mem 0 e) = false := by
      rw [hdir e]
      split
      next => exact present_zero
      next hc => exact Bool.eq_false_iff.mpr fun hp => hc ⟨hT.1, hT.2, hp⟩
    rw [pte_absent hnone, pte_absent (by rw [hsame]; exact hnone)]
    exact ⟨rfl, rfl⟩
  · obtain ⟨hp, ha⟩ := hfades.same_page (i := i) he hT
    obtain ⟨hp', ha'⟩ := hfades'.same_page (i := i) he hT
    obtain ⟨hpres, haddr⟩ := h.entry e he i
    exact ⟨(hp'.trans hpres).trans hp.symm, (ha'.trans haddr).trans ha.symm⟩

theorem freeAll_mem (h : freeAll pages s = .ok u) : u.mem = s.mem := by
  induction pages generalizing s with
  | nil =>
    cases h
    rfl
  | cons p pages ih =>
    rw [freeAll] at h
    split at h
    next => cases h
    next s₁ hs₁ => rw [ih h, freePage_mem hs₁]

/-- What the kernel still holds without the pages of a list. -/
def without (pages : List Nat) (holds : Nat → Nat) (k : Nat) : Nat := if pageAt k ∈ pages then 0 else holds k

theorem freeAll_ok (h : s.Inv holds) (hheld : ∀ p ∈ pages, ∃ k < pagingPages, p = pageAt k ∧ holds k = 1) (hn : pages.Nodup) :
    ∃ u, freeAll pages s = .ok u ∧ u.Inv (without pages holds) := by
  induction pages generalizing s holds with
  | nil =>
    have hsame : without [] holds = holds := funext fun k => if_neg List.not_mem_nil
    rw [hsame]
    exact ⟨s, rfl, h⟩
  | cons p pages ih =>
    obtain ⟨k, hk, rfl, hone⟩ := hheld p List.mem_cons_self
    obtain ⟨hnot, hrest⟩ := List.nodup_cons.mp hn
    obtain ⟨s₁, hs₁, hinv⟩ := h.drop hk (by omega)
    have hheld₁ : ∀ p ∈ pages, ∃ j < pagingPages, p = pageAt j ∧ Function.update holds k (holds k - 1) j = 1 := by
      intro p hp
      obtain ⟨j, hj, rfl, hj1⟩ := hheld p (List.mem_cons_of_mem _ hp)
      have hjk : j ≠ k := by
        rintro rfl
        exact hnot hp
      exact ⟨j, hj, rfl, by rw [Function.update_of_ne hjk]; exact hj1⟩
    obtain ⟨u, hu, hinv'⟩ := ih hinv hheld₁ hrest
    refine ⟨u, by rw [freeAll, hs₁]; exact hu, ?_⟩
    have hsame : without pages (Function.update holds k (holds k - 1)) = without (pageAt k :: pages) holds := by
      funext j
      unfold without
      by_cases hj : j = k
      · subst hj
        rw [Function.update_self, if_neg hnot, if_pos List.mem_cons_self, hone]
      · rw [Function.update_of_ne hj]
        refine if_congr ?_ rfl rfl
        rw [List.mem_cons]
        exact ⟨.inr, fun hc => hc.resolve_left fun heq => hj (pageAt_inj heq)⟩
    rw [← hsame]
    exact hinv'

theorem exitMemory_eq {u₁ u₂ : Mm} (h₁ : RheeKernel.freePageTables s code.base code.limit = .ok u₁)
    (h₂ : RheeKernel.freePageTables u₁ data.base data.limit = .ok u₂) : exitMemory s code data pages = freeAll pages u₂ := by
  unfold exitMemory
  rw [h₁]
  dsimp only
  rw [h₂]

/-- The two calls of `free_page_tables` in `do_exit`. -/
theorem exitTables_ok (h : s.Inv holds) (hx : Exiting holds' t code data pages) :
    ∃ u₁ u₂, (RheeKernel.freePageTables s code.base code.limit = .ok u₁ ∧ u₁.Inv holds) ∧
      RheeKernel.freePageTables u₁ data.base data.limit = .ok u₂ ∧ u₂.Inv holds := by
  rw [hx.code.1, hx.data.1]
  obtain ⟨u₁, hu₁, h₁⟩ := freePageTables_ok h hx.task hx.code.2
  obtain ⟨u₂, hu₂, h₂⟩ := freePageTables_ok h₁ hx.task hx.data.2
  exact ⟨u₁, u₂, ⟨hu₁, h₁⟩, hu₂, h₂⟩

theorem exitMemory_ok (h : s.Inv holds) (hx : Exiting holds t code data pages) :
    ∃ u, exitMemory s code data pages = .ok u ∧ u.Inv (without pages holds) := by
  obtain ⟨u₁, u₂, ⟨hu₁, _⟩, hu₂, h₂⟩ := exitTables_ok h hx
  rw [exitMemory_eq hu₁ hu₂]
  exact freeAll_ok h₂ hx.held hx.nodup

theorem Alike.exitMemory (h : Alike s s') (hi : s.Inv holds) (hi' : s'.Inv holds') (hx : Exiting holds t code data pages)
    (hu : RheeKernel.exitMemory s code data pages = .ok u) (hv : RheeKernel.exitMemory s' code data pages = .ok v) : Alike u v := by
  obtain ⟨u₁, u₂, ⟨hu₁, h₁⟩, hu₂, h₂⟩ := exitTables_ok hi hx
  obtain ⟨v₁, v₂, ⟨hv₁, h₁'⟩, hv₂, h₂'⟩ := exitTables_ok hi' hx
  rw [exitMemory_eq hu₁ hu₂] at hu
  rw [exitMemory_eq hv₁ hv₂] at hv
  rw [hx.code.1] at hu₁ hv₁
  rw [hx.data.1] at hu₂ hv₂
  have hcode : Alike u₁ v₁ := h.freePageTables hi hi' hx.task hx.code.2 hu₁ hv₁
  have hdata : Alike u₂ v₂ := hcode.freePageTables h₁ h₁' hx.task hx.data.2 hu₂ hv₂
  have hback : Alike u u₂ := (Alike.of_mem (freeAll_mem hu)).symm
  exact (hback.trans hdata).trans (Alike.of_mem (freeAll_mem hv))

theorem alloc_alike (h : s.Inv holds) (hg : getFreePage s = some (page, s')) : Alike s s' := by
  have hfades : Fades (fun _ => False) s s' := alloc_fades h hg
  exact ⟨funext fun e => hfades.dir e not_false, fun e he i => hfades.same_page he not_false⟩

theorem freeCount_eq_zero : s.freeCount = 0 ↔ getFreePage s = none := by
  rw [getFreePage_none]
  unfold freeCount
  rw [card_eq_zero, filter_eq_empty_iff]
  constructor
  · exact fun h k hk => h (mem_range.mpr hk)
  · exact fun h k hk => h k (mem_range.mp hk)

/-- One page less is free. -/
theorem freeCount_take (hk : k < pagingPages) (hz : v.memMap k = 0) (hone : u.memMap k ≠ 0)
    (hother : ∀ j < pagingPages, j ≠ k → u.memMap j = v.memMap j) : u.freeCount + 1 = v.freeCount := by
  have hmem : k ∈ ({j ∈ range pagingPages | v.memMap j = 0} : Finset Nat) := mem_filter.mpr ⟨mem_range.mpr hk, hz⟩
  have herase : ({j ∈ range pagingPages | u.memMap j = 0} : Finset Nat) = ({j ∈ range pagingPages | v.memMap j = 0} : Finset Nat).erase k := by
    ext j
    rw [mem_erase, mem_filter, mem_filter, mem_range]
    by_cases hjk : j = k
    · subst hjk
      exact ⟨fun hc => absurd hc.2 hone, fun hc => absurd rfl hc.1⟩
    · constructor
      · exact fun hc => ⟨hjk, hc.1, (hother j hc.1 hjk).symm.trans hc.2⟩
      · exact fun hc => ⟨hc.2.1, (hother j hc.2.1 hjk).trans hc.2.2⟩
  unfold freeCount
  rw [herase]
  exact card_erase_add_one hmem

theorem freeCount_alloc (hg : getFreePage s = some (page, s')) : s'.freeCount + 1 = s.freeCount := by
  obtain ⟨k, hk, _, hz, rfl⟩ := getFreePage_some hg
  apply freeCount_take hk hz
  · rw [setPage_memMap, setMap_memMap, Function.update_self]
    decide
  · intro j _ hjk
    rw [setPage_memMap, setMap_memMap, Function.update_of_ne hjk]

theorem putPage_none {address : Nat} :
    putPage s page address = none ↔ present (s.mem 0 (dirOf address)) = false ∧ getFreePage s = none := by
  unfold putPage
  by_cases hp : present (s.mem 0 (dirOf address)) = true
  · rw [if_pos hp, hp]
    simp
  · rw [if_neg hp, Bool.eq_false_iff.mpr hp]
    cases getFreePage s with
    | none => simp
    | some x => simp

theorem noPage_killed {address : Nat} (hn : noPage s address = .killed s') : (getFreePage s = none ∧ s' = s) ∨
    ∃ tmp, getFreePage s = some (tmp, s') ∧ present (s'.mem 0 (dirOf address)) = false ∧ getFreePage s' = none := by
  unfold noPage at hn
  split at hn
  next hg =>
    cases hn
    exact .inl ⟨hg, rfl⟩
  next tmp s₁ hg =>
    split at hn
    next => cases hn
    next hput =>
      cases hn
      exact .inr ⟨tmp, hg, putPage_none.mp hput⟩

/-- The page that `do_no_page` maps. -/
theorem noPage_mapped {address : Nat} (h : s.Inv holds) (hd : dirOf address ∈ userDirs) (hn : noPage s address = .mapped s') :
    ∃ k < pagingPages, s.memMap k = 0 ∧ s'.memMap k = 1 ∧ s'.entry address = userEntry (pageAt k) ∧
      s'.mem (pageAt k) = fun _ => 0#32 := by
  unfold noPage at hn
  split at hn
  next => cases hn
  next tmp s₁ hg =>
    obtain ⟨k, hk, rfl, hz, hs₁, hinv⟩ := h.alloc hg
    have hempty : s₁.mem (pageAt k) = fun _ => 0#32 := by rw [hs₁, setPage_mem_self]
    have hone : s₁.memMap k = 1 := by rw [hs₁, setPage_memMap, setMap_memMap, Function.update_self]
    have hheld : 0 < Function.update holds k 1 k := by rw [Function.update_self]; decide
    refine ⟨k, hk, hz, ?_⟩
    split at hn
    next u hput =>
      cases hn
      unfold putPage at hput
      split at hput
      next hdp =>
        cases Option.some.inj hput
        obtain ⟨j, _, hj⟩ := hinv.table_at hd hdp
        have hzero : (0 : Nat) ≠ pageAddr (s₁.mem 0 (dirOf address)) := hj ▸ (pageAt_ne_zero j).symm
        have hother : pageAt k ≠ pageAddr (s₁.mem 0 (dirOf address)) := (hinv.tables.free_not_table hk (.inr hheld) hd hdp).symm
        refine ⟨hone, ?_, (store_mem_ne _ _ _ hother).trans hempty⟩
        unfold entry
        rw [pte_present hd (by rw [store_mem_ne _ _ _ hzero]; exact hdp), store_mem_ne _ _ _ hzero, store_mem_self, Function.update_self]
      next hdp =>
        split at hput
        next => cases hput
        next tmp s₂ hg₂ =>
          cases Option.some.inj hput
          obtain ⟨j, hj, rfl, hzj, hs₂⟩ := getFreePage_some hg₂
          have hkj : k ≠ j := by
            rintro rfl
            rw [hone] at hzj
            cases hzj
          have hpages : pageAt k ≠ pageAt j := fun heq => hkj (pageAt_inj heq)
          have hdir : ((s₂.store 0 (dirOf address) (userEntry (pageAt j))).store (pageAt j) (slotOf address)
              (userEntry (pageAt k))).mem 0 (dirOf address) = userEntry (pageAt j) := by
            rw [store_mem_ne _ _ _ (pageAt_ne_zero j).symm, store_mem_self, Function.update_self]
          refine ⟨?_, ?_, ?_⟩
          · rw [store_memMap, store_memMap, hs₂, setPage_memMap, setMap_memMap, Function.update_of_ne hkj]
            exact hone
          · unfold entry
            rw [pte_present hd (by rw [hdir]; exact present_userEntry _), hdir, pageAddr_userEntry_pageAt hj, store_mem_self,
              Function.update_self]
          · rw [store_mem_ne _ _ _ hpages, store_mem_ne _ _ _ (pageAt_ne_zero k), hs₂, setPage_mem_ne _ _ hpages, setMap_mem]
            exact hempty
    next => cases hn

end Mm

variable {s s' : Mm} {holds : Nat → Nat} {t address : Nat} {code data : Segment} {pages : List Nat}

/-- The page for the data is gone when there is none for the table: `do_exit` does not know of it. -/
theorem killed_leaks {tmp : Nat} (h : s.Inv holds) (hx : Exiting holds t code data pages) (hg : getFreePage s = some (tmp, s')) :
    ∃ u v, exitMemory s' code data pages = .ok u ∧ exitMemory s code data pages = .ok v ∧ u.freeCount + 1 = v.freeCount := by
  obtain ⟨k, hk, rfl, hz, _, hinv⟩ := h.alloc hg
  have hfree : holds k = 0 := by
    by_contra hne
    have hone := h.tables.alone k hk (Nat.pos_of_ne_zero hne)
    rw [Mm.tables_memMap, hz] at hone
    cases hone
  have hnot : pageAt k ∉ pages := by
    intro hp
    obtain ⟨j, _, hj, hone⟩ := hx.held _ hp
    rw [← pageAt_inj hj, hfree] at hone
    cases hone
  have hx' : Exiting (Function.update holds k 1) t code data pages := by
    refine ⟨hx.task, hx.code, hx.data, fun p hp => ?_, hx.nodup⟩
    obtain ⟨j, hj, rfl, hone⟩ := hx.held p hp
    have hjk : j ≠ k := by
      rintro rfl
      exact hnot hp
    exact ⟨j, hj, rfl, by rw [Function.update_of_ne hjk]; exact hone⟩
  obtain ⟨u, hu, hinvu⟩ := Mm.exitMemory_ok hinv hx'
  obtain ⟨v, hv, hinvv⟩ := Mm.exitMemory_ok h hx
  have halike : Mm.Alike v u := (Mm.alloc_alike h hg).exitMemory h hinv hx hv hu
  have hheld : Mm.without pages (Function.update holds k 1) k = 1 := by
    unfold Mm.without
    rw [if_neg hnot, Function.update_self]
  have hone : u.memMap k = 1 := hinvu.tables.alone k hk (by rw [Mm.tables_holds, hheld]; decide)
  have hcount := halike.counts hinvv hinvu hk
  have hnone : Mm.without pages holds k = 0 := by
    unfold Mm.without
    rw [if_neg hnot, hfree]
  refine ⟨u, v, hu, hv, Mm.freeCount_take hk (by omega) (by omega) fun j hj hjk => ?_⟩
  have hsame : Mm.without pages (Function.update holds k 1) j = Mm.without pages holds j := by
    unfold Mm.without
    rw [Function.update_of_ne hjk]
  have hother := halike.counts hinvv hinvu hj
  omega

theorem faultAccounted_of_room (h : s.Inv holds) (hx : Exiting holds t code data pages) (ha : UserAddress address)
    (hroom : present (s.mem 0 (dirOf address)) = true ∨ s.freeCount ≠ 1) : FaultAccounted s code data pages address := by
  unfold FaultAccounted
  split
  next s' hn => exact Mm.noPage_mapped h (dirOf_user ha) hn
  next s' hn =>
    rcases Mm.noPage_killed hn with ⟨_, rfl⟩ | ⟨tmp, hg, habs, hnone⟩
    · obtain ⟨u, hu, _⟩ := Mm.exitMemory_ok h hx
      exact ⟨u, u, hu, hu, rfl, fun _ _ => rfl⟩
    · have hdir := (Mm.alloc_alike h hg).dir
      have hlast := Mm.freeCount_eq_zero.mpr hnone
      have hcount := Mm.freeCount_alloc hg
      rcases hroom with hp | hne
      · rw [hdir, hp] at habs
        cases habs
      · omega

theorem not_faultAccounted (h : s.Inv holds) (hx : Exiting holds t code data pages) (habs : present (s.mem 0 (dirOf address)) = false)
    (hone : s.freeCount = 1) : ¬ FaultAccounted s code data pages address := by
  obtain ⟨tmp, s₁, hg⟩ : ∃ tmp s₁, getFreePage s = some (tmp, s₁) := by
    cases hg : getFreePage s with
    | none =>
      rw [Mm.freeCount_eq_zero.mpr hg] at hone
      cases hone
    | some x => exact ⟨x.1, x.2, rfl⟩
  have hcount := Mm.freeCount_alloc hg
  have hput : putPage s₁ tmp address = none := by
    refine Mm.putPage_none.mpr ⟨?_, Mm.freeCount_eq_zero.mp (by omega)⟩
    rw [(Mm.alloc_alike h hg).dir]
    exact habs
  have hkilled : noPage s address = .killed s₁ := by
    unfold noPage
    rw [hg]
    dsimp only
    rw [hput]
  unfold FaultAccounted
  rw [hkilled]
  rintro ⟨u, v, hu, hv, hsame, _⟩
  obtain ⟨u', v', hu', hv', hleak⟩ := killed_leaks h hx hg
  rw [hu] at hu'
  rw [hv] at hv'
  cases hu'
  cases hv'
  omega

/-- `do_no_page` accounts for its pages unless exactly one is free and the address has no page table yet. -/
theorem faultAccounted_iff (h : s.Inv holds) (hx : Exiting holds t code data pages) (ha : UserAddress address) :
    FaultAccounted s code data pages address ↔ present (s.mem 0 (dirOf address)) = true ∨ s.freeCount ≠ 1 := by
  constructor
  · intro hok
    by_contra hnot
    rw [not_or, not_not] at hnot
    exact not_faultAccounted h hx (Bool.eq_false_iff.mpr hnot.1) hnot.2 hok
  · exact faultAccounted_of_room h hx ha

theorem firstTask_exiting : Exiting (fun _ => 0) 1 ⟨taskBase 1, 0x4000000⟩ ⟨taskBase 1, 0x4000000⟩ [] :=
  ⟨by decide, ⟨rfl, Nat.le_refl _⟩, ⟨rfl, Nat.le_refl _⟩, by simp, List.nodup_nil⟩

theorem faultAccounted_iff_boot : FaultAccounted (bootMm fun _ _ => 0#32) ⟨taskBase 1, 0x4000000⟩ ⟨taskBase 1, 0x4000000⟩ [] 0x4000000 ↔
    present ((bootMm fun _ _ => 0#32).mem 0 (dirOf 0x4000000)) = true ∨ (bootMm fun _ _ => 0#32).freeCount ≠ 1 :=
  faultAccounted_iff (bootMm_inv _) firstTask_exiting (by unfold UserAddress; omega)

namespace Mm

theorem freeCount_of_memMap (h : s'.memMap = s.memMap) : s'.freeCount = s.freeCount := by
  unfold freeCount
  rw [h]

/-- With two pages free `do_no_page` goes well: one goes to the address, the other to a table that is not there yet. -/
theorem doNoPage_taken (h : s.Inv fun _ => 0) (ha : UserAddress address) (hp : present (s.entry address) = false) (hroom : 2 ≤ s.freeCount) :
    ∃ s', doNoPage s address = some s' ∧ s'.Inv (fun _ => 0) ∧
      s.freeCount = s'.freeCount + (if present (s.mem 0 (dirOf address)) = true then 1 else 2) ∧
      (∀ e, e ≠ dirOf address → s'.mem 0 e = s.mem 0 e) ∧ present (s'.mem 0 (dirOf address)) = true ∧
      ∀ e j, ¬ (e = dirOf address ∧ j = slotOf address) → s'.pte e j = s.pte e j := by
  have hd := dirOf_user ha
  obtain ⟨tmp, s₁, hg⟩ : ∃ tmp s₁, getFreePage s = some (tmp, s₁) := by
    cases hg : getFreePage s with
    | none =>
      have hzero := freeCount_eq_zero.mpr hg
      omega
    | some x => exact ⟨x.1, x.2, rfl⟩
  have hfirst := freeCount_alloc hg
  have hdir := (alloc_alike h hg).dir
  obtain ⟨s', hput, hcount, hother, hpres⟩ : ∃ s', putPage s₁ tmp address = some s' ∧
      s.freeCount = s'.freeCount + (if present (s.mem 0 (dirOf address)) = true then 1 else 2) ∧
      (∀ e, e ≠ dirOf address → s'.mem 0 e = s.mem 0 e) ∧ present (s'.mem 0 (dirOf address)) = true := by
    obtain ⟨k, _, _, _, _, hinv⟩ := h.alloc hg
    unfold putPage
    rw [← hdir]
    by_cases hdp : present (s₁.mem 0 (dirOf address)) = true
    · obtain ⟨j, _, hj⟩ := hinv.table_at hd hdp
      have hzero : (0 : Nat) ≠ pageAddr (s₁.mem 0 (dirOf address)) := hj ▸ (pageAt_ne_zero j).symm
      rw [if_pos hdp, if_pos hdp]
      refine ⟨_, rfl, ?_, fun e _ => ?_, ?_⟩
      · rw [freeCount_of_memMap (store_memMap _ _ _ _)]
        omega
      · rw [store_mem_ne _ _ _ hzero]
      · rw [store_mem_ne _ _ _ hzero]
        exact hdp
    · rw [if_neg hdp, if_neg hdp]
      cases hg₂ : getFreePage s₁ with
      | none =>
        have hzero := freeCount_eq_zero.mpr hg₂
        omega
      | some x =>
        obtain ⟨tmp₂, s₂⟩ := x
        have hsecond := freeCount_alloc hg₂
        obtain ⟨j, _, rfl, _, rfl⟩ := getFreePage_some hg₂
        refine ⟨_, rfl, ?_, fun e he => ?_, ?_⟩
        · rw [freeCount_of_memMap (store_memMap _ _ _ _), freeCount_of_memMap (store_memMap _ _ _ _)]
          omega
        · rw [store_mem_ne _ _ _ (pageAt_ne_zero j).symm, store_mem_self, Function.update_of_ne he,
            setPage_mem_ne _ _ (pageAt_ne_zero j).symm, setMap_mem]
        · rw [store_mem_ne _ _ _ (pageAt_ne_zero j).symm, store_mem_self, Function.update_self]
          exact present_userEntry _
  have hsome : doNoPage s address = some s' := by
    unfold doNoPage
    rw [hg]
    exact hput
  exact ⟨s', hsome, (doNoPage_spec h ha hp hsome).1, hcount, hother, hpres, (doNoPage_pte h hd hsome).2⟩

/-- Memory after the first task has touched the first `n` pages of its window, one after the other. -/
def touched : Nat → Mm
  | 0 => bootMm fun _ _ => 0#32
  | n + 1 => (doNoPage (touched n) (0x4000000 + 4096 * n)).getD (touched n)

/-- A page for each touch, and a table for each 1024 of them. -/
theorem touched_spec {n : Nat} (hn : n ≤ 1533) : (touched n).Inv (fun _ => 0) ∧ (touched n).freeCount + n + (n + 1023) / 1024 = 1536 ∧
    (∀ e ∈ userDirs, (present ((touched n).mem 0 e) = true ↔ e < 16 + (n + 1023) / 1024)) ∧
      ∀ e ∈ userDirs, ∀ j ∈ slots, n ≤ 1024 * (e - 16) + j → present ((touched n).pte e j) = false := by
  induction n with
  | zero =>
    have hinv := bootMm_inv fun _ _ => 0#32
    have hdirs : ∀ e ∈ userDirs, present ((bootMm fun _ _ => 0#32).mem 0 e) = false := by
      intro e he
      have hrange := mem_userDirs.mp he
      simp only [bootMm, if_true, if_neg (show e ≠ 0 by omega), if_neg (show e ≠ 1 by omega), present_zero]
    refine ⟨hinv, ?_, fun e he => ?_, fun e he j _ _ => ?_⟩
    · have hall : ({k ∈ range pagingPages | (bootMm fun _ _ => 0#32).memMap k = 0} : Finset Nat) = range pagingPages :=
        filter_true_of_mem fun k _ => rfl
      change (bootMm fun _ _ => 0#32).freeCount + 0 + _ = 1536
      unfold freeCount
      rw [hall, card_range]
      rfl
    · have hrange := mem_userDirs.mp he
      change present ((bootMm fun _ _ => 0#32).mem 0 e) = true ↔ _
      rw [hdirs e he]
      constructor
      · intro hc
        cases hc
      · intro hlt
        omega
    · change present ((bootMm fun _ _ => 0#32).pte e j) = false
      rw [pte_absent (hdirs e he)]
      exact present_zero
  | succ n ih =>
    obtain ⟨hinv, hcount, hdirs, hptes⟩ := ih (by omega)
    have hdir : dirOf (0x4000000 + 4096 * n) = 16 + n / 1024 := by
      unfold dirOf
      omega
    have hslot : slotOf (0x4000000 + 4096 * n) = n % 1024 := by
      unfold slotOf
      omega
    have ha : UserAddress (0x4000000 + 4096 * n) := by
      unfold UserAddress
      omega
    have hd : 16 + n / 1024 ∈ userDirs := mem_userDirs.mpr (by omega)
    have habs : present ((touched n).entry (0x4000000 + 4096 * n)) = false := by
      unfold entry
      rw [hdir, hslot]
      exact hptes _ hd _ (mem_slots.mpr (by omega)) (by omega)
    obtain ⟨s', hs', hinv', hcount', hother, hpres, hpte⟩ := doNoPage_taken hinv ha habs (by omega)
    have heq : touched (n + 1) = s' := by
      rw [touched, hs']
      rfl
    rw [heq]
    rw [hdir] at hcount' hother hpres
    rw [hdir, hslot] at hpte
    have hcut := hdirs _ hd
    refine ⟨hinv', ?_, fun e he => ?_, fun e he j hj hle => ?_⟩
    · split at hcount'
      next hp =>
        have hlt := hcut.mp hp
        omega
      next hp =>
        have hge : ¬ 16 + n / 1024 < 16 + (n + 1023) / 1024 := fun hlt => hp (hcut.mpr hlt)
        omega
    · by_cases hed : e = 16 + n / 1024
      · rw [hed]
        exact ⟨fun _ => by omega, fun _ => hpres⟩
      · rw [hother e hed, hdirs e he]
        have hrange := mem_userDirs.mp he
        omega
    · have hrange := mem_userDirs.mp he
      have hslots := mem_slots.mp hj
      rw [hpte e j (by omega)]
      exact hptes e he j hj (by omega)

end Mm

/-- A process that has touched 1533 pages has one page left and no table behind the third. -/
theorem touched_not_faultAccounted : ∃ code data pages, Exiting (fun _ => 0) 1 code data pages ∧ (Mm.touched 1533).Inv (fun _ => 0) ∧
    UserAddress 0x4800000 ∧ ¬ FaultAccounted (Mm.touched 1533) code data pages 0x4800000 := by
  obtain ⟨hinv, hcount, hdirs, _⟩ := Mm.touched_spec (le_refl 1533)
  generalize Mm.touched 1533 = s at hinv hcount hdirs ⊢
  have hdir : dirOf 0x4800000 = 18 := rfl
  have habs : present (s.mem 0 (dirOf 0x4800000)) = false := by
    rw [hdir]
    refine Bool.eq_false_iff.mpr fun hp => ?_
    have hlt := (hdirs 18 (Mm.mem_userDirs.mpr (by omega))).mp hp
    omega
  refine ⟨_, _, _, firstTask_exiting, hinv, by unfold UserAddress; omega, not_faultAccounted hinv firstTask_exiting habs ?_⟩
  omega

end RheeKernel
