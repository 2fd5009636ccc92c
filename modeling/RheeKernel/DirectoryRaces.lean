import RheeKernel.DirectoryCalls
import RheeKernel.FileCounts
import Mathlib.Data.List.GetD

namespace RheeKernel

/-- The process that an event is about. -/
def DirEvent.actor : DirEvent → Nat
  | .start p _ => p
  | .look p => p
  | .allocate p _ => p
  | .extend p => p
  | .clear p => p
  | .count p => p
  | .giveUp p => p

/-- The creation that a process is in, from the start of its search until its entry is there. -/
def DirPc.creating : DirPc → Option DirCall
  | .finding c _ _ => if c.creates then some c else none
  | .absent c => some c
  | .adding c _ _ => some c
  | _ => none

namespace DirSys

/-- An entry of the directory that is in use. -/
def Live (s : DirSys) (k : Nat) : Prop := direntSize * k < s.size ∧ (s.entry k).inode ≠ 0

/-- No name is there twice. -/
def Distinct (s : DirSys) : Prop := ∀ j k, s.Live j → s.Live k → (s.entry j).name = (s.entry k).name → j = k

/-- No creation of a name begins while another creation of it is under way. -/
def CreatesApart (s : DirSys) (e : DirEvent) : Prop :=
  ∀ p c, e = .start p c → c.creates = true → ∀ q c', (s.pc q).creating = some c' → padName c'.name ≠ padName c.name

/-- No entry is cleared that another process has found and is about to clear. -/
def RemovesApart (s : DirSys) (e : DirEvent) : Prop :=
  ∀ p c k n, e = .clear p → s.pc p = .removing c k n → ∀ q c' n', q ≠ p → s.pc q ≠ .removing c' k n'

/-- What a sleeping process knows of the directory: about the name that it creates if `u` holds, about the entry that it removes
if `v` holds. -/
def Knows (u v : Prop) (s : DirSys) : DirPc → Prop
  | .idle => True
  | .finding c entries i => direntSize * entries ≤ s.size ∧
    (u → c.creates = true → ∀ k, s.Live k → (s.entry k).name = padName c.name → i ≤ k ∧ k < entries)
  | .absent c => c.creates = true ∧ (u → ∀ k, s.Live k → (s.entry k).name ≠ padName c.name)
  | .adding c _ i => direntSize * i ≤ s.size ∧ (u → ∀ k, s.Live k → (s.entry k).name ≠ padName c.name)
  | .linking _ => True
  | .removing _ k n => direntSize * k < s.size ∧ (v → n ≠ 0 ∧ (s.entry k).inode = n)

/-- The directory between any two stretches. -/
structure Sound (u v : Prop) (s : DirSys) : Prop where
  whole : direntSize ∣ s.size
  knows : ∀ p, s.Knows u v (s.pc p)
  distinct : u → s.Distinct
  apart : u → ∀ p q c c', p ≠ q → (s.pc p).creating = some c → (s.pc q).creating = some c' → padName c.name ≠ padName c'.name

/-- What a stretch does to the entries: none gets live but one of the name `N`, and none is lost but `R`. -/
structure Edits (N : (Fin 14 → UInt8) → Prop) (R : Nat → Prop) (s s' : DirSys) : Prop where
  size : s.size ≤ s'.size
  names : ∀ k, s'.Live k → N (s'.entry k).name ∨ (s.Live k ∧ (s'.entry k).name = (s.entry k).name)
  keeps : ∀ k, s.Live k → ¬ R k → s'.entry k = s.entry k

variable {s s' : DirSys} {e : DirEvent} {p q i j k n num entries : Nat} {c c' : DirCall} {pc : DirPc} {name : List UInt8}
  {u v : Prop} {N : (Fin 14 → UInt8) → Prop} {R : Nat → Prop} {de : NameEntry}

theorem setPc_self : (s.setPc p pc).pc p = pc := Function.update_self _ _ _

theorem setPc_other (h : q ≠ p) : (s.setPc p pc).pc q = s.pc q := Function.update_of_ne h _ _

theorem matchName_pad (hlive : de.inode ≠ 0) (hname : de.name = padName name) : matchName (name.take nameLen) de = true := by
  have hlen : (name.take nameLen).length ≤ 14 := List.length_take_le _ _
  refine matchName_iff.mpr ⟨hlive, hlen, fun hlt => ?_, fun k hk => ?_⟩
  · rw [hname]
    unfold padName
    exact List.getD_eq_default _ _ (le_refl _)
  · rw [hname]
    unfold padName
    rw [List.getD_eq_getElem _ _ hk]
    exact List.getElem?_eq_getElem hk

theorem creating_finding (h : (DirPc.finding c entries i).creating = some c') : c.creates = true ∧ c' = c := by
  unfold DirPc.creating at h
  dsimp only at h
  split at h
  next hc => exact ⟨hc, (Option.some.inj h).symm⟩
  next => cases h

theorem lt_blockEnd : i < blockEnd i := by
  unfold blockEnd dirEntriesPerBlock
  omega

theorem Edits.quiet (hentry : s'.entry = s.entry) (hsize : s'.size = s.size) : Edits N R s s' := by
  refine ⟨by rw [hsize], fun k hk => .inr ⟨?_, by rw [hentry]⟩, fun k _ _ => by rw [hentry]⟩
  unfold Live at hk ⊢
  rw [hsize, hentry] at hk
  exact hk

/-- A process that is not about the new name or the removed entry knows what it knew. -/
theorem Knows.edits (h : s.Knows u v pc) (hed : Edits N R s s') (hN : u → ∀ c, pc.creating = some c → ¬ N (padName c.name))
    (hR : v → ∀ c k n, pc = .removing c k n → ¬ R k) : s'.Knows u v pc := by
  have hle := hed.size
  cases pc with
  | idle => trivial
  | finding c entries i =>
    obtain ⟨hsize, hknown⟩ := h
    refine ⟨by omega, fun hu hc k hk hname => ?_⟩
    rcases hed.names k hk with hn | ⟨hold, hsame⟩
    · rw [hname] at hn
      exact absurd hn (hN hu c (if_pos hc))
    · exact hknown hu hc k hold (hsame.symm.trans hname)
  | absent c =>
    obtain ⟨hc, hknown⟩ := h
    refine ⟨hc, fun hu k hk hname => ?_⟩
    rcases hed.names k hk with hn | ⟨hold, hsame⟩
    · rw [hname] at hn
      exact hN hu c rfl hn
    · exact hknown hu k hold (hsame.symm.trans hname)
  | adding c num i =>
    obtain ⟨hsize, hknown⟩ := h
    refine ⟨by omega, fun hu k hk hname => ?_⟩
    rcases hed.names k hk with hn | ⟨hold, hsame⟩
    · rw [hname] at hn
      exact hN hu c rfl hn
    · exact hknown hu k hold (hsame.symm.trans hname)
  | linking num => trivial
  | removing c k n =>
    obtain ⟨hlow, hknown⟩ := h
    refine ⟨by omega, fun hv => ?_⟩
    obtain ⟨hn, hentry⟩ := hknown hv
    rw [hed.keeps k ⟨hlow, by rw [hentry]; exact hn⟩ (hR hv c k n rfl)]
    exact ⟨hn, hentry⟩

/-- A search that has seen no entry of the name in a block has only later ones to look for. -/
theorem findIn_none (h : s.findIn c.name entries i = none)
    (hknown : ∀ k, s.Live k → (s.entry k).name = padName c.name → i ≤ k ∧ k < entries) (hk : s.Live k)
    (hname : (s.entry k).name = padName c.name) : blockEnd i ≤ k ∧ k < entries := by
  obtain ⟨hlow, hhigh⟩ := hknown k hk hname
  refine ⟨?_, hhigh⟩
  by_contra hlt
  have hno := Files.firstIndex_none h hlow (by omega)
  rw [matchName_pad hk.2 hname] at hno
  cases hno

theorem found_knows (h : s.findIn c.name entries i = some k) (hsize : direntSize * entries ≤ s.size) :
    s.Knows u v (.removing c k (s.entry k).inode) := by
  obtain ⟨_, hhigh, hmatch⟩ := Files.firstIndex_spec h
  have hlt : k < entries := by omega
  refine ⟨?_, fun _ => ⟨(matchName_iff.mp hmatch).1, rfl⟩⟩
  unfold direntSize at hsize ⊢
  omega

/-- `add_entry` finds no free entry in a block, so the directory goes on behind it. -/
theorem freeIn_none (hwhole : direntSize ∣ s.size) (h : s.freeIn i = none) : direntSize * blockEnd i ≤ s.size := by
  have hlt := @lt_blockEnd i
  have hno := Files.firstIndex_none h (show i ≤ blockEnd i - 1 by omega) (by omega)
  rw [Bool.or_eq_false_iff, decide_eq_false_iff_not] at hno
  obtain ⟨m, hm⟩ := hwhole
  have hin := hno.1
  unfold direntSize at hm hin ⊢
  omega

/-- The entry that `add_entry` takes is not in use and not behind the end. -/
theorem freeIn_some (hwhole : direntSize ∣ s.size) (hsize : direntSize * i ≤ s.size) (h : s.freeIn i = some k) :
    ¬ s.Live k ∧ direntSize * k ≤ s.size := by
  obtain ⟨hlow, _, hfree⟩ := Files.firstIndex_spec h
  rw [Bool.or_eq_true, decide_eq_true_eq, beq_iff_eq] at hfree
  refine ⟨fun hk => ?_, ?_⟩
  · rcases hfree with hend | hzero
    · exact absurd hk.1 (by omega)
    · exact hk.2 hzero
  · by_cases hik : k = i
    · rw [hik]
      exact hsize
    · have hno := Files.firstIndex_before h (show i ≤ k - 1 by omega) (by omega)
      rw [Bool.or_eq_false_iff, decide_eq_false_iff_not] at hno
      obtain ⟨m, hm⟩ := hwhole
      have hin := hno.1
      unfold direntSize at hm hin ⊢
      omega

/-- `add_entry` makes one entry live. -/
theorem enter_spec (hwhole : direntSize ∣ s.size) (hfree : ¬ s.Live k) (hend : direntSize * k ≤ s.size) :
    Edits (fun n => n = padName c.name) R s (s.enter p c num k) ∧ direntSize ∣ (s.enter p c num k).size ∧
      (∀ j, j ≠ k → (s.enter p c num k).Live j → s.Live j ∧ ((s.enter p c num k).entry j).name = (s.entry j).name) ∧
      ((s.enter p c num k).entry k).name = padName c.name ∧ ((s.enter p c num k).pc p).creating = none ∧
      (s.enter p c num k).Knows u v ((s.enter p c num k).pc p) ∧ ∀ q, q ≠ p → (s.enter p c num k).pc q = s.pc q := by
  have hentry : (s.enter p c num k).entry = Function.update s.entry k ⟨num, padName c.name⟩ := by
    unfold enter
    cases c <;> rfl
  have hsize : (s.enter p c num k).size = if s.size ≤ direntSize * k then direntSize * (k + 1) else s.size := by
    unfold enter
    cases c <;> rfl
  have hpc : (s.enter p c num k).pc = Function.update s.pc p .idle ∨ (s.enter p c num k).pc = Function.update s.pc p (.linking num) := by
    unfold enter
    cases c with
    | link old name => exact .inr rfl
    | _ => exact .inl rfl
  generalize s.enter p c num k = t at hentry hsize hpc
  have hself : (t.entry k).name = padName c.name := by rw [hentry, Function.update_self]
  have hother : ∀ j, j ≠ k → t.entry j = s.entry j := fun j hj => by rw [hentry, Function.update_of_ne hj]
  have hlive : ∀ j, j ≠ k → t.Live j → s.Live j ∧ (t.entry j).name = (s.entry j).name := by
    intro j hj hlive
    obtain ⟨hlow, hin⟩ := hlive
    rw [hother j hj] at hin
    refine ⟨⟨?_, hin⟩, by rw [hother j hj]⟩
    rw [hsize] at hlow
    split at hlow
    · unfold direntSize at hlow hend ⊢
      omega
    · exact hlow
  refine ⟨⟨?_, fun j hj => ?_, fun j hj _ => hother j ?_⟩, ?_, hlive, hself, ?_, ?_, fun q hq => ?_⟩
  · rw [hsize]
    split <;> unfold direntSize at * <;> omega
  · by_cases hjk : j = k
    · rw [hjk]
      exact .inl hself
    · exact .inr (hlive j hjk hj)
  · rintro rfl
    exact hfree hj
  · rw [hsize]
    split
    · exact Nat.dvd_mul_right _ _
    · exact hwhole
  · rcases hpc with hpc | hpc
    · rw [hpc, Function.update_self]
      rfl
    · rw [hpc, Function.update_self]
      rfl
  · rcases hpc with hpc | hpc
    · rw [hpc, Function.update_self]
      trivial
    · rw [hpc, Function.update_self]
      trivial
  · rcases hpc with hpc | hpc
    · rw [hpc, Function.update_of_ne hq]
    · rw [hpc, Function.update_of_ne hq]

theorem removed_spec : Edits N (fun j => j = k) s (s.removed c k n) ∧ (s.removed c k n).size = s.size ∧
    (s.removed c k n).pc = s.pc ∧ ∀ j, (s.removed c k n).Live j → s.Live j ∧ ((s.removed c k n).entry j).name = (s.entry j).name := by
  have hentry : (s.removed c k n).entry = Function.update s.entry k { s.entry k with inode := 0 } := by
    unfold removed
    cases c <;> rfl
  have hsize : (s.removed c k n).size = s.size := by
    unfold removed
    cases c <;> rfl
  have hpc : (s.removed c k n).pc = s.pc := by
    unfold removed
    cases c <;> rfl
  generalize s.removed c k n = t at hentry hsize hpc
  have hother : ∀ j, j ≠ k → t.entry j = s.entry j := fun j hj => by rw [hentry, Function.update_of_ne hj]
  have hlive : ∀ j, t.Live j → s.Live j ∧ (t.entry j).name = (s.entry j).name := by
    intro j ⟨hlow, hin⟩
    have hjk : j ≠ k := by
      rintro rfl
      rw [hentry, Function.update_self] at hin
      exact hin rfl
    rw [hother j hjk] at hin ⊢
    rw [hsize] at hlow
    exact ⟨⟨hlow, hin⟩, rfl⟩
  exact ⟨⟨by rw [hsize], fun j hj => .inr (hlive j hj), fun j _ hj => hother j hj⟩, hsize, hpc, hlive⟩

/-- A stretch of process `p` that edits the directory. -/
theorem Sound.after (h : s.Sound u v) (hed : Edits N R s s') (hpcs : ∀ q, q ≠ p → s'.pc q = s.pc q) (hwhole : direntSize ∣ s'.size)
    (hown : s'.Knows u v (s'.pc p)) (hdistinct : u → s'.Distinct)
    (hN : u → ∀ q c, q ≠ p → (s.pc q).creating = some c → ¬ N (padName c.name))
    (hR : v → ∀ q c k n, q ≠ p → s.pc q = .removing c k n → ¬ R k)
    (hnew : u → ∀ c, (s'.pc p).creating = some c → ∀ q c', q ≠ p → (s.pc q).creating = some c' → padName c'.name ≠ padName c.name) :
    s'.Sound u v := by
  refine ⟨hwhole, fun q => ?_, hdistinct, fun hu a b c c' hab ha hb => ?_⟩
  · by_cases hq : q = p
    · rw [hq]
      exact hown
    · rw [hpcs q hq]
      exact (h.knows q).edits hed (fun hu c hc => hN hu q c hq hc) fun hv c k n hc => hR hv q c k n hq hc
  · by_cases hap : a = p
    · have hbp : b ≠ p := fun hbp => hab (hap.trans hbp.symm)
      rw [hap] at ha
      rw [hpcs b hbp] at hb
      exact (hnew hu c ha b c' hbp hb).symm
    · rw [hpcs a hap] at ha
      by_cases hbp : b = p
      · rw [hbp] at hb
        exact hnew hu c' hb a c hap ha
      · rw [hpcs b hbp] at hb
        exact h.apart hu a b c c' hab ha hb

/-- A stretch that leaves the entries alone. -/
theorem Sound.quiet (h : s.Sound u v) (hentry : s'.entry = s.entry) (hsize : s'.size = s.size) (hpc : s'.pc = Function.update s.pc p pc)
    (hown : s'.Knows u v pc)
    (hnew : u → ∀ c, pc.creating = some c → ∀ q c', q ≠ p → (s.pc q).creating = some c' → padName c'.name ≠ padName c.name) :
    s'.Sound u v := by
  have hself : s'.pc p = pc := by rw [hpc, Function.update_self]
  refine h.after (Edits.quiet (N := fun _ => False) (R := fun _ => False) hentry hsize) (fun q hq => by rw [hpc, Function.update_of_ne hq])
    (by rw [hsize]; exact h.whole) (by rw [hself]; exact hown) (fun hu j k hj hk hname => ?_) (fun _ _ _ _ _ => not_false)
    (fun _ _ _ _ _ _ _ => not_false) (by rw [hself]; exact hnew)
  unfold Live at hj hk
  rw [hsize, hentry] at hj hk
  rw [hentry] at hname
  exact h.distinct hu j k hj hk hname

/-- The creation that a process is in stays different from the others. -/
theorem Sound.still (h : s.Sound u v) (hpc : (s.pc p).creating = some c') :
    u → ∀ c, some c' = some c → ∀ q c', q ≠ p → (s.pc q).creating = some c' → padName c'.name ≠ padName c.name := by
  intro hu c hc q c'' hq hq'
  cases hc
  exact h.apart hu q p c'' c' hq hq' hpc

theorem Sound.idle (h : s.Sound u v) (hentry : s'.entry = s.entry) (hsize : s'.size = s.size)
    (hpc : s'.pc = Function.update s.pc p .idle) : s'.Sound u v :=
  h.quiet hentry hsize hpc trivial fun _ _ hc => by cases hc

theorem Sound.look (h : s.Sound u v) (hpc : s.pc p = .finding c entries i) (hs : dirStep s (.look p) = some s') : s'.Sound u v := by
  have hknows := h.knows p
  simp only [dirStep, hpc] at hs
  rw [hpc] at hknows
  obtain ⟨hsize, hknown⟩ := hknows
  split at hs
  next k hfound =>
    cases Option.some.inj hs
    unfold found
    split
    next => exact h.idle rfl rfl rfl
    next => exact h.quiet rfl rfl rfl (found_knows hfound hsize) fun _ _ hc => by cases hc
  next hnone =>
    have hlater : u → c.creates = true → ∀ k, s.Live k → (s.entry k).name = padName c.name → blockEnd i ≤ k ∧ k < entries :=
      fun hu hc k hk hname => findIn_none hnone (hknown hu hc) hk hname
    split at hs
    next =>
      cases Option.some.inj hs
      refine h.quiet rfl rfl rfl ⟨hsize, hlater⟩ fun hu c' hc' => ?_
      have hsame : (s.pc p).creating = some c' := by
        rw [hpc]
        exact hc'
      exact h.still hsame hu c' rfl
    next hend =>
      cases Option.some.inj hs
      unfold missing
      split
      next hc =>
        refine h.quiet rfl rfl rfl ⟨hc, fun hu k hk hname => ?_⟩ fun hu c' hc' => h.still (by rw [hpc]; exact if_pos hc) hu c' hc'
        have := hlater hu hc k hk hname
        omega
      next => exact h.idle rfl rfl rfl

theorem Sound.allocate (h : s.Sound u v) (hpc : s.pc p = .absent c) (hentry : s'.entry = s.entry) (hsize : s'.size = s.size)
    (hpc' : s'.pc = Function.update s.pc p (.adding c num 0)) : s'.Sound u v := by
  have hknows := h.knows p
  rw [hpc] at hknows
  refine h.quiet hentry hsize hpc' ⟨Nat.zero_le _, fun hu k hk => ?_⟩ fun hu c' hc' => h.still (by rw [hpc]; rfl) hu c' hc'
  unfold Live at hk
  rw [hsize, hentry] at hk
  rw [hentry]
  exact hknows.2 hu k hk

theorem Sound.extend (h : s.Sound u v) (hpc : s.pc p = .adding c num i) (hs : dirStep s (.extend p) = some s') : s'.Sound u v := by
  have hknows := h.knows p
  simp only [dirStep, hpc] at hs
  rw [hpc] at hknows
  obtain ⟨hsize, hknown⟩ := hknows
  split at hs
  next k hfree =>
    cases Option.some.inj hs
    obtain ⟨hdead, hend⟩ := freeIn_some h.whole hsize hfree
    obtain ⟨hed, hwhole, hlive, hname, hcreating, hown, hpcs⟩ := @enter_spec s p k num c u v (fun _ => False) h.whole hdead hend
    refine h.after hed hpcs hwhole hown (fun hu a b ha hb hab => ?_) (fun hu q c' hq hc' => ?_) (fun _ _ _ _ _ _ _ => not_false)
      fun _ c' hc' => ?_
    · by_cases hak : a = k
      · by_cases hbk : b = k
        · rw [hak, hbk]
        · obtain ⟨hold, hsame⟩ := hlive b hbk hb
          rw [hak, hname, hsame] at hab
          exact absurd hab.symm (hknown hu b hold)
      · obtain ⟨hold, hsame⟩ := hlive a hak ha
        by_cases hbk : b = k
        · rw [hbk, hname, hsame] at hab
          exact absurd hab (hknown hu a hold)
        · obtain ⟨hold', hsame'⟩ := hlive b hbk hb
          rw [hsame, hsame'] at hab
          exact h.distinct hu a b hold hold' hab
    · exact h.apart hu q p c' c hq hc' (by rw [hpc]; rfl)
    · rw [hcreating] at hc'
      cases hc'
  next hnone =>
    cases Option.some.inj hs
    exact h.quiet rfl rfl rfl ⟨freeIn_none h.whole hnone, hknown⟩ fun hu c' hc' => h.still (by rw [hpc]; rfl) hu c' hc'

theorem Sound.clear (h : s.Sound u v) (hpc : s.pc p = .removing c k n) (ha : v → s.RemovesApart (.clear p)) :
    ((s.removed c k n).setPc p .idle).Sound u v := by
  obtain ⟨hed, hsize, hpcs, hlive⟩ := @removed_spec s k n c fun _ => False
  have hed' : Edits (fun _ => False) (fun j => j = k) s ((s.removed c k n).setPc p .idle) := ⟨hed.size, hed.names, hed.keeps⟩
  have hwhole : direntSize ∣ ((s.removed c k n).setPc p .idle).size := hsize.symm ▸ h.whole
  refine h.after hed' (fun q hq => (setPc_other hq).trans (congrFun hpcs q)) hwhole (by rw [setPc_self]; trivial)
    (fun hu a b ha hb hab => ?_) (fun _ _ _ _ _ => not_false) (fun hv q c' k' n' hq hc' hk' => ?_) fun _ c' hc' => ?_
  · obtain ⟨hold, hsame⟩ := hlive a ha
    obtain ⟨hold', hsame'⟩ := hlive b hb
    exact h.distinct hu a b hold hold' (hsame.symm.trans (hab.trans hsame'))
  · rw [hk'] at hc'
    exact ha hv p c k n rfl hpc q c' n' hq hc'
  · rw [setPc_self] at hc'
    cases hc'

theorem Sound.step (h : s.Sound u v) (ha : u → s.CreatesApart e) (hb : v → s.RemovesApart e) (hs : dirStep s e = some s') :
    s'.Sound u v := by
  cases e with
  | start p c =>
    simp only [dirStep] at hs
    split at hs
    next =>
      cases Option.some.inj hs
      refine h.quiet rfl rfl rfl ⟨Nat.mul_div_le _ _, fun hu _ k hk _ => ⟨Nat.zero_le _, ?_⟩⟩ fun hu c' hc' q c'' _ hq => ?_
      · obtain ⟨m, hm⟩ := h.whole
        have hlow := hk.1
        unfold direntSize at hm hlow ⊢
        change 16 * k < s.size at hlow
        omega
      · obtain ⟨hc, rfl⟩ := creating_finding hc'
        exact ha hu p _ rfl hc q c'' hq
    next => cases hs
  | look p =>
    cases hpc : s.pc p with
    | finding c entries i => exact h.look hpc hs
    | _ => simp only [dirStep, hpc] at hs; cases hs
  | allocate p num =>
    simp only [dirStep] at hs
    split at hs
    next name hpc =>
      split at hs
      next => cases hs
      next =>
        cases Option.some.inj hs
        exact h.allocate hpc rfl rfl rfl
    next name hpc =>
      split at hs
      next => cases hs
      next =>
        cases Option.some.inj hs
        exact h.allocate hpc rfl rfl rfl
    next old name hpc =>
      split at hs
      next =>
        cases Option.some.inj hs
        exact h.allocate hpc rfl rfl rfl
      next => cases hs
    next => cases hs
  | extend p =>
    cases hpc : s.pc p with
    | adding c num i => exact h.extend hpc hs
    | _ => simp only [dirStep, hpc] at hs; cases hs
  | clear p =>
    simp only [dirStep] at hs
    split at hs
    next c k n hpc =>
      split at hs
      next => cases hs
      next =>
        cases Option.some.inj hs
        exact h.clear hpc hb
    next => cases hs
  | count p =>
    simp only [dirStep] at hs
    split at hs
    next =>
      cases Option.some.inj hs
      exact h.idle rfl rfl rfl
    next => cases hs
  | giveUp p =>
    simp only [dirStep] at hs
    split at hs
    case h_5 => cases hs
    all_goals
      cases Option.some.inj hs
      exact h.idle rfl rfl rfl

theorem removed_links (hself : n ≠ s.self) : ((s.removed c k n).entry k).inode = 0 ∧ (s.removed c k n).links n ≤ s.links n - 1 ∧
    ∀ m, m ≠ n → m ≠ s.self → (s.removed c k n).links m = s.links m := by
  unfold removed
  have hself' : (Function.update s.entry k { s.entry k with inode := 0 } k).inode = 0 := by rw [Function.update_self]
  cases c with
  | rmdir name =>
    refine ⟨hself', ?_, fun m hm hms => (Function.update_of_ne hms _ _).trans (Function.update_of_ne hm _ _)⟩
    refine le_of_eq_of_le ((Function.update_of_ne hself _ _).trans (Function.update_self _ _ _)) ?_
    exact Nat.zero_le _
  | _ =>
    refine ⟨hself', ?_, fun m hm _ => Function.update_of_ne hm _ _⟩
    unfold setLinks setEntry
    dsimp only
    rw [Function.update_self]
    split <;> omega

/-- A directory without two entries of one name and without a call under way. -/
structure Ready (s : DirSys) : Prop where
  whole : direntSize ∣ s.size
  distinct : s.Distinct
  idle : ∀ p, s.pc p = .idle

theorem Ready.sound (h : s.Ready) : s.Sound u v := by
  refine ⟨h.whole, fun p => ?_, fun _ => h.distinct, fun _ p q c c' _ hc => ?_⟩
  · rw [h.idle p]
    trivial
  · rw [h.idle p] at hc
    cases hc

theorem smallDirectory_ready : smallDirectory.Ready := by
  refine ⟨⟨3, rfl⟩, fun j k hj hk hname => ?_, fun _ => rfl⟩
  have hlow : ∀ i, smallDirectory.Live i → i < 3 := by
    intro i hi
    have hi := hi.1
    change 16 * i < 48 at hi
    omega
  have hnames : ∀ j < 3, ∀ k < 3, (smallDirectory.entry j).name = (smallDirectory.entry k).name → j = k := by decide
  exact hnames j (hlow j hj) k (hlow k hk) hname

end DirSys

open Machine DirSys

variable {s₀ s s' : DirSys}

/-- In runs in which no two creations of one name overlap, no two entries of the directory have the same name. -/
theorem directory_names_unique (h₀ : s₀.Ready) (h : Reach dirStep CreatesApart s₀ s) :
    ∀ j k, s.Live j → s.Live k → (s.entry j).name = (s.entry k).name → j = k := by
  have hsound : s.Sound True False := h.invariant h₀.sound fun _ _ _ h ha hs => h.step (fun _ => ha) (fun hf => hf.elim) hs
  exact hsound.distinct trivial

theorem directory_names_unique_created : ∃ t s, dirStep smallDirectory (.start 1 (.create [98])) = some t ∧
    exec dirStep t [.look 1, .allocate 1 8, .extend 1] = some s ∧ s.Live 3 ∧ (s.entry 3).name ≠ (s.entry 2).name := by
  obtain ⟨t, s, ht, hs, hlive, hlive'⟩ : ∃ t s, dirStep smallDirectory (.start 1 (.create [98])) = some t ∧
      exec dirStep t [.look 1, .allocate 1 8, .extend 1] = some s ∧ s.Live 3 ∧ s.Live 2 :=
    ⟨_, _, rfl, rfl, by unfold Live; decide, by unfold Live; decide⟩
  have hstart : Reach dirStep CreatesApart smallDirectory t := .next .start (fun _ _ _ _ q c' hc => by cases hc) ht
  have hreach : Reach dirStep CreatesApart smallDirectory s := by
    refine .exec hstart (fun e he _ p c hec => ?_) hs
    subst hec
    simp at he
  refine ⟨t, s, ht, hs, hlive, fun hname => ?_⟩
  have := directory_names_unique smallDirectory_ready hreach 3 2 hlive hlive' hname
  omega

/-- Two processes make a directory of one name: both look for the name before either has entered it. -/
theorem directory_names_unique_fails : ∃ s, Reach dirStep (fun _ _ => True) smallDirectory s ∧ s.Live 3 ∧ s.Live 4 ∧
    (s.entry 3).name = (s.entry 4).name := by
  obtain ⟨s, hs, hlive, hlive', hname⟩ : ∃ s, exec dirStep smallDirectory
      [.start 1 (.mkdir [98]), .start 2 (.mkdir [98]), .look 1, .look 2, .allocate 1 8, .allocate 2 9, .extend 1, .extend 2] = some s ∧
      s.Live 3 ∧ s.Live 4 ∧ (s.entry 3).name = (s.entry 4).name :=
    ⟨_, rfl, by unfold Live; decide, by unfold Live; decide, by decide⟩
  exact ⟨s, .exec .start (fun _ _ _ => trivial) hs, hlive, hlive', hname⟩

/-- In runs in which no entry is cleared that another removal has found and is about to clear, a removal clears an entry of the inode
whose link count it lowers. -/
theorem removal_hits_entry {p : Nat} (h₀ : s₀.Ready) (h : Reach dirStep RemovesApart s₀ s) (hs : dirStep s (.clear p) = some s') :
    ∃ c k n, s.pc p = .removing c k n ∧ (s.entry k).inode = n ∧ (s'.entry k).inode = 0 ∧ s'.links n ≤ s.links n - 1 ∧
      ∀ m, m ≠ n → m ≠ s.self → s'.links m = s.links m := by
  have hsound : s.Sound False True := h.invariant h₀.sound fun _ _ _ h ha hs => h.step (fun hf => hf.elim) (fun _ => ha) hs
  have hknows := hsound.knows p
  simp only [dirStep] at hs
  split at hs
  next c k n hpc =>
    rw [hpc] at hknows
    split at hs
    next => cases hs
    next hself =>
      cases Option.some.inj hs
      exact ⟨c, k, n, hpc, (hknows.2 trivial).2, removed_links hself⟩
  next => cases hs

theorem removal_hits_entry_unlink : ∃ s s', exec dirStep smallDirectory [.start 1 (.unlink [97]), .look 1] = some s ∧
    dirStep s (.clear 1) = some s' ∧ ∃ c k n, s.pc 1 = .removing c k n ∧ (s.entry k).inode = n ∧ s'.links n ≤ s.links n - 1 := by
  obtain ⟨s, s', hs, hs'⟩ : ∃ s s', exec dirStep smallDirectory [.start 1 (.unlink [97]), .look 1] = some s ∧
      dirStep s (.clear 1) = some s' := ⟨_, _, rfl, rfl⟩
  have hreach : Reach dirStep RemovesApart smallDirectory s := by
    refine .exec .start (fun e he t p c k n hec => ?_) hs
    subst hec
    simp at he
  obtain ⟨c, k, n, hpc, hentry, _, hlinks, _⟩ := removal_hits_entry smallDirectory_ready hreach hs'
  exact ⟨s, s', hs, hs', c, k, n, hpc, hentry, hlinks⟩

/-- Two processes unlink one name; when the first is done, a third creates another name in the entry, and the second clears that. -/
theorem removal_hits_entry_fails : ∃ s s', Reach dirStep (fun _ _ => True) smallDirectory s ∧ dirStep s (.clear 2) = some s' ∧
    s.pc 2 = .removing (.unlink [97]) 2 7 ∧ s.entry 2 = ⟨9, padName [98]⟩ ∧ (s'.entry 2).inode = 0 ∧ s'.links 9 = 1 := by
  obtain ⟨s, s', hs, hs', hpc, hentry, hgone, hlinks⟩ : ∃ s s', exec dirStep smallDirectory
      [.start 1 (.unlink [97]), .look 1, .start 2 (.unlink [97]), .look 2, .clear 1, .start 3 (.create [98]), .look 3, .allocate 3 9,
        .extend 3] = some s ∧ dirStep s (.clear 2) = some s' ∧ s.pc 2 = .removing (.unlink [97]) 2 7 ∧
      s.entry 2 = ⟨9, padName [98]⟩ ∧ (s'.entry 2).inode = 0 ∧ s'.links 9 = 1 := ⟨_, _, rfl, rfl, by decide, by decide, by decide, by decide⟩
  exact ⟨s, s', .exec .start (fun _ _ _ => trivial) hs, hs', hpc, hentry, hgone, hlinks⟩

end RheeKernel
