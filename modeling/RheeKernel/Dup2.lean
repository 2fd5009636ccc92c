import RheeKernel.InodeCache

namespace RheeKernel

namespace Vfs

def dupfd (t fd arg : Nat) : Call Int := do
  let s ← get
  modify fun s => s.withFiles (s.files.dupfd t fd arg).1
  return (s.files.dupfd t fd arg).2

def sysDup2 (t oldfd newfd : Nat) : Call Int := do
  let _ ← sysClose t newfd
  dupfd t oldfd newfd

/-- The state of `sys_close` after `--filp->f_count`, for a descriptor that refers to entry `j`. -/
def detached (s : Vfs) (t fd j : Nat) : Vfs :=
  s.withFiles ((((s.files.setCloseOnExec t fd false).setFilp t fd none).setOpening t fd none).setFile j
    { s.file j with count := (s.file j).count - 1 })

/-- `sys_close` of the descriptor does not panic: its entry is in use, and the inode of a last reference can be put. -/
def Closes (s : Vfs) (t fd : Nat) : Prop :=
  ∀ j, s.openEntry t fd = some j → (s.file j).count ≠ 0 ∧ ((s.file j).count = 1 → (iput (s.file j).inode (s.detached t fd j)).isSome)

/-- The same descriptors, close-on-exec masks and counts. -/
structure SameDescriptors (s s' : Vfs) : Prop where
  filp : ∀ t, (s'.task t).filp = (s.task t).filp
  closeOnExec : ∀ t, (s'.task t).closeOnExec = (s.task t).closeOnExec
  count : ∀ j, (s'.file j).count = (s.file j).count

/-- `dup2` makes the new descriptor refer to the file of the old one, or changes nothing. -/
structure DupAtomic (t oldfd newfd : Nat) (s : Vfs) : Prop where
  error : ∀ r s', sysDup2 t oldfd newfd s = some (r, s') → r < 0 → SameDescriptors s s'
  refers : ∀ j, s.openEntry t oldfd = some j → newfd < nrOpen →
    ∃ s', sysDup2 t oldfd newfd s = some ((newfd : Int), s') ∧ s'.openEntry t newfd = some j
  self : oldfd = newfd → (s.openEntry t oldfd).isSome → ∃ s', sysDup2 t oldfd newfd s = some ((oldfd : Int), s') ∧
    (s'.openEntry t oldfd).isSome

variable {s s' : Vfs} {t fd oldfd newfd j : Nat} {r : Int}

theorem openEntry_lt (h : s.openEntry t fd = some j) : fd < nrOpen := by
  unfold openEntry at h
  split at h
  next => cases h
  next hlt => exact Nat.lt_of_not_le hlt

theorem openEntry_filp (h : fd < nrOpen) : s.openEntry t fd = (s.task t).filp fd := if_neg (Nat.not_le_of_lt h)

/-- `sys_close` by what the call on the descriptors comes back with. -/
theorem sysClose_run {f : Files} (h : s.files.sysClose t fd = some (f, r)) : sysClose t fd s = (match s.openEntry t fd with
    | none => return r
    | some j =>
      if (s.file j).count = 1 then (do iput (s.file j).inode; return r)
      else return r : Call Int) (s.withFiles f) := by
  unfold sysClose
  rw [get_bind, h]
  rfl

/-- `sys_close` of a descriptor that is not open clears its close-on-exec bit. -/
theorem sysClose_free (h : s.openEntry t fd = none) : sysClose t fd s =
    some (-22, if nrOpen ≤ fd then s else s.withFiles (s.files.setCloseOnExec t fd false)) := by
  by_cases hfd : nrOpen ≤ fd
  · rw [if_pos hfd, @sysClose_run s t fd (-22) s.files (if_pos hfd), h]
    rfl
  · have hfilp : (s.task t).filp fd = none := (openEntry_filp (Nat.lt_of_not_le hfd)).symm.trans h
    have hclose : s.files.sysClose t fd = some (s.files.setCloseOnExec t fd false, -22) := by
      have hfilp' : (s.files.setCloseOnExec t fd false).filp t fd = none := hfilp
      unfold Files.sysClose
      rw [if_neg hfd]
      dsimp only
      rw [hfilp']
    rw [if_neg hfd, sysClose_run hclose, h]
    rfl

theorem sysClose_open (h : s.openEntry t fd = some j) : sysClose t fd s =
    if (s.file j).count = 0 then none
    else if (s.file j).count = 1 then (iput (s.file j).inode (s.detached t fd j)).map fun u => (0, u.2)
    else some (0, s.detached t fd j) := by
  have hfd := openEntry_lt h
  have hfilp := (openEntry_filp hfd).symm.trans h
  have hclose : s.files.sysClose t fd = if (s.file j).count = 0 then none else
      some ((((s.files.setCloseOnExec t fd false).setFilp t fd none).setOpening t fd none).setFile j
        { s.file j with count := (s.file j).count - 1 }, 0) := by
    have hfilp' : (s.files.setCloseOnExec t fd false).filp t fd = some j := hfilp
    unfold Files.sysClose
    rw [if_neg (Nat.not_le_of_lt hfd)]
    dsimp only
    rw [hfilp']
    rfl
  by_cases hzero : (s.file j).count = 0
  · rw [if_pos hzero] at hclose ⊢
    unfold sysClose
    rw [get_bind, hclose]
    rfl
  · rw [if_neg hzero] at hclose ⊢
    rw [sysClose_run hclose, h]
    change (if (s.file j).count = 1 then (do iput (s.file j).inode; return 0) else return 0 : Call Int) (s.detached t fd j) = _
    split
    next => 
      cases hiput : iput (s.file j).inode (s.detached t fd j) with
      | none =>
        change (iput (s.file j).inode (s.detached t fd j)).bind _ = _
        rw [hiput]
        rfl
      | some u =>
        change (iput (s.file j).inode (s.detached t fd j)).bind _ = _
        rw [hiput]
        rfl
    next => rfl

/-- What `sys_close` leaves of the descriptors and the entries. -/
theorem sysClose_detached (h : s.openEntry t fd = some j) (hclose : sysClose t fd s = some (r, s')) :
    s'.task = (s.detached t fd j).task ∧ s'.file = (s.detached t fd j).file := by
  rw [sysClose_open h] at hclose
  split at hclose
  next => cases hclose
  next =>
    split at hclose
    next =>
      obtain ⟨⟨_, u⟩, hiput, hu⟩ := Option.map_eq_some_iff.mp hclose
      have hdrop := iput_drops _ rfl _ _ hiput
      cases hu
      exact ⟨hdrop.task, hdrop.file⟩
    next =>
      cases hclose
      exact ⟨rfl, rfl⟩

/-- `sys_close` comes back just when nothing in it panics. -/
theorem closes_iff : s.Closes t fd ↔ (sysClose t fd s).isSome := by
  cases h : s.openEntry t fd with
  | none =>
    rw [sysClose_free h]
    exact ⟨fun _ => rfl, fun _ j hj => by rw [h] at hj; cases hj⟩
  | some j =>
    rw [sysClose_open h]
    constructor
    · intro hcloses
      obtain ⟨hzero, hlast⟩ := hcloses j h
      rw [if_neg hzero]
      split
      next hone => rw [Option.isSome_map, hlast hone]
      next => rfl
    · intro hsome i hi
      rw [h] at hi
      cases hi
      split at hsome
      next => cases hsome
      next hzero =>
        refine ⟨hzero, fun hone => ?_⟩
        rwa [if_pos hone, Option.isSome_map] at hsome

theorem dupfd_run : dupfd t oldfd newfd s = some ((s.files.dupfd t oldfd newfd).2, s.withFiles (s.files.dupfd t oldfd newfd).1) := rfl

theorem dupfd_unopened (h : s.openEntry t oldfd = none) : dupfd t oldfd newfd s = some (-9, s) := by
  have hdup : s.files.dupfd t oldfd newfd = (s.files, -9) := by
    unfold Files.dupfd
    split
    next => rfl
    next hfd =>
      have hfilp : s.files.filp t oldfd = none := (openEntry_filp (Nat.lt_of_not_le hfd)).symm.trans h
      rw [hfilp]
  rw [dupfd_run, hdup]
  rfl

theorem dupfd_high (h : s.openEntry t oldfd = some j) (hnew : nrOpen ≤ newfd) : dupfd t oldfd newfd s = some (-22, s) := by
  have hold := openEntry_lt h
  have hfilp : s.files.filp t oldfd = some j := (openEntry_filp hold).symm.trans h
  have hdup : s.files.dupfd t oldfd newfd = (s.files, -22) := by
    unfold Files.dupfd
    rw [if_neg (Nat.not_le_of_lt hold), hfilp]
    exact if_pos hnew
  rw [dupfd_run, hdup]
  rfl

/-- A free descriptor is the first one that `dupfd` finds. -/
theorem dupfd_free (h : s.openEntry t oldfd = some j) (hnew : newfd < nrOpen) (hfree : s.openEntry t newfd = none) :
    ∃ s', dupfd t oldfd newfd s = some ((newfd : Int), s') ∧ s'.openEntry t newfd = some j := by
  have hold := openEntry_lt h
  have hfilp : s.files.filp t oldfd = some j := (openEntry_filp hold).symm.trans h
  have hnone : s.files.filp t newfd = none := (openEntry_filp hnew).symm.trans hfree
  have hfirst : Files.firstIndex (fun k => (s.files.filp t k).isNone) (nrOpen - newfd) newfd = some newfd := by
    obtain ⟨n, hn⟩ := Nat.exists_eq_add_of_lt hnew
    rw [show nrOpen - newfd = n + 1 by omega]
    unfold Files.firstIndex
    rw [hnone]
    rfl
  have hdup : s.files.dupfd t oldfd newfd =
      ((((s.files.setCloseOnExec t newfd false).setFilp t newfd (some j)).setOpening t newfd (s.files.opening t oldfd)).setFile j
        { s.file j with count := (s.file j).count + 1 }, (newfd : Int)) := by
    unfold Files.dupfd
    rw [if_neg (Nat.not_le_of_lt hold), hfilp]
    dsimp only
    rw [if_neg (Nat.not_le_of_lt hnew), hfirst]
    rfl
  rw [dupfd_run, hdup]
  refine ⟨_, rfl, ?_⟩
  rw [openEntry_filp hnew]
  exact Files.setFilp_self

/-- The inputs on which `dup2` is atomic: the new descriptor is out of range, or the old one is open and another one, or there is
nothing to close. -/
def DupSafe (t oldfd newfd : Nat) (s : Vfs) : Prop :=
  nrOpen ≤ newfd ∨
  (oldfd ≠ newfd ∧ (s.openEntry t oldfd).isSome ∧ s.Closes t newfd) ∨
  (s.openEntry t oldfd = none ∧ (¬ s.Closes t newfd ∨ s.openEntry t newfd = none ∧ (s.task t).closeOnExec newfd = false))

/-- `dup2` with a descriptor that is open and another one. -/
theorem sysDup2_refers (h : s.openEntry t oldfd = some j) (hne : oldfd ≠ newfd) (hnew : newfd < nrOpen) (hclose : s.Closes t newfd) :
    ∃ s', sysDup2 t oldfd newfd s = some ((newfd : Int), s') ∧ s'.openEntry t newfd = some j := by
  obtain ⟨⟨r, u⟩, hu⟩ := Option.isSome_iff_exists.mp (closes_iff.mp hclose)
  have hold := openEntry_lt h
  have htask : (u.task t).filp oldfd = (s.task t).filp oldfd ∧ (u.task t).filp newfd = none := by
    cases hn : s.openEntry t newfd with
    | none =>
      rw [sysClose_free hn, if_neg (Nat.not_le_of_lt hnew)] at hu
      cases hu
      exact ⟨rfl, (openEntry_filp hnew).symm.trans hn⟩
    | some i =>
      obtain ⟨htask, _⟩ := sysClose_detached hn hu
      rw [htask]
      exact ⟨Files.setFilp_other (.inr hne), Files.setFilp_self⟩
  have hopen : u.openEntry t oldfd = some j := by rw [openEntry_filp hold, htask.1, ← openEntry_filp hold, h]
  have hfree : u.openEntry t newfd = none := by rw [openEntry_filp hnew, htask.2]
  obtain ⟨s', hs', hj⟩ := dupfd_free hopen hnew hfree
  refine ⟨s', ?_, hj⟩
  change (sysClose t newfd s).bind _ = _
  rw [hu]
  exact hs'

/-- `dup2` of an open descriptor to itself closes it, and then there is nothing to refer to. -/
theorem sysDup2_self (h : s.openEntry t oldfd = some j) (hrun : sysDup2 t oldfd oldfd s = some (r, s')) : r = -9 := by
  obtain ⟨⟨r', u⟩, hu, hdup⟩ := Option.bind_eq_some_iff.mp hrun
  obtain ⟨htask, _⟩ := sysClose_detached h hu
  have hfree : u.openEntry t oldfd = none := by
    rw [openEntry_filp (openEntry_lt h), htask]
    exact Files.setFilp_self
  change dupfd t oldfd oldfd u = _ at hdup
  rw [dupfd_unopened hfree] at hdup
  cases hdup
  rfl

/-- `dup2` of a descriptor that is not open does what `sys_close` does. -/
theorem sysDup2_unopened (h : s.openEntry t oldfd = none) : sysDup2 t oldfd newfd s = (sysClose t newfd s).map fun u => (-9, u.2) := by
  change (sysClose t newfd s).bind _ = _
  cases hu : sysClose t newfd s with
  | none => rfl
  | some a =>
    obtain ⟨r, u⟩ := a
    have hfree : u.openEntry t oldfd = none := by
      cases hn : s.openEntry t newfd with
      | none =>
        rw [sysClose_free hn] at hu
        cases hu
        split
        next => exact h
        next => exact h
      | some i =>
        obtain ⟨htask, _⟩ := sysClose_detached hn hu
        by_cases hold : nrOpen ≤ oldfd
        · exact if_pos hold
        · have hlt := Nat.lt_of_not_le hold
          rw [openEntry_filp hlt, htask]
          by_cases hne : oldfd = newfd
          · rw [hne]
            exact Files.setFilp_self
          · exact (Files.setFilp_other (.inr hne)).trans ((openEntry_filp hlt).symm.trans h)
    exact dupfd_unopened hfree

theorem SameDescriptors.refl : SameDescriptors s s := ⟨fun _ => rfl, fun _ => rfl, fun _ => rfl⟩

/-- Clearing a bit that is clear. -/
theorem sameDescriptors_clear : SameDescriptors s (s.withFiles (s.files.setCloseOnExec t fd false)) ↔ (s.task t).closeOnExec fd = false := by
  constructor
  · intro h
    rw [← h.closeOnExec t]
    change Function.update (fun t => (s.task t).closeOnExec) t (Function.update (s.task t).closeOnExec fd false) t fd = false
    rw [Function.update_self, Function.update_self]
  · intro h
    refine ⟨fun _ => rfl, fun v => ?_, fun _ => rfl⟩
    change Function.update (fun t => (s.task t).closeOnExec) t (Function.update (s.task t).closeOnExec fd false) v = _
    rw [← h, Function.update_eq_self]
    exact congrFun (Function.update_eq_self t _) v

/-- With an open descriptor to duplicate. -/
theorem dupAtomic_open (h : s.openEntry t oldfd = some j) (hnew : newfd < nrOpen) :
    DupAtomic t oldfd newfd s ↔ oldfd ≠ newfd ∧ s.Closes t newfd := by
  constructor
  · intro hatomic
    obtain ⟨s', hrun, _⟩ := hatomic.refers j h hnew
    have hne : oldfd ≠ newfd := by
      intro heq
      rw [← heq] at hrun
      have hminus := sysDup2_self h hrun
      omega
    obtain ⟨⟨r, u⟩, hu, _⟩ := Option.bind_eq_some_iff.mp hrun
    exact ⟨hne, closes_iff.mpr (Option.isSome_iff_exists.mpr ⟨_, hu⟩)⟩
  · rintro ⟨hne, hclose⟩
    obtain ⟨u, hrun, hrefers⟩ := sysDup2_refers h hne hnew hclose
    constructor
    · intro r s' hr hneg
      rw [hrun] at hr
      cases hr
      omega
    · intro i hi _
      rw [h] at hi
      cases hi
      exact ⟨u, hrun, hrefers⟩
    · intro heq
      exact absurd heq hne

/-- With nothing to duplicate. -/
theorem dupAtomic_unopened (h : s.openEntry t oldfd = none) (hnew : newfd < nrOpen) :
    DupAtomic t oldfd newfd s ↔ ¬ s.Closes t newfd ∨ s.openEntry t newfd = none ∧ (s.task t).closeOnExec newfd = false := by
  have hatomic : DupAtomic t oldfd newfd s ↔ ∀ r s', sysClose t newfd s = some (r, s') → SameDescriptors s s' := by
    constructor
    · intro hatomic r s' hclose
      refine hatomic.error (-9) s' ?_ (by decide)
      rw [sysDup2_unopened h, hclose]
      rfl
    · intro hclose
      refine ⟨fun r s' hrun _ => ?_, fun j hj => ?_, fun _ hsome => ?_⟩
      · rw [sysDup2_unopened h] at hrun
        obtain ⟨⟨r', u⟩, hu, heq⟩ := Option.map_eq_some_iff.mp hrun
        cases heq
        exact hclose r' _ hu
      · rw [h] at hj
        cases hj
      · rw [h] at hsome
        cases hsome
  rw [hatomic, closes_iff]
  cases hn : s.openEntry t newfd with
  | none =>
    have hclose := @sysClose_free s t newfd hn
    rw [if_neg (Nat.not_le_of_lt hnew)] at hclose
    rw [hclose]
    constructor
    · intro hall
      exact .inr ⟨rfl, sameDescriptors_clear.mp (hall _ _ rfl)⟩
    · rintro (hpanic | ⟨_, hclear⟩) r s' heq
      · exact absurd rfl hpanic
      · cases heq
        exact sameDescriptors_clear.mpr hclear
  | some i =>
    constructor
    · intro hall
      refine .inl fun hsome => ?_
      obtain ⟨⟨r, u⟩, hu⟩ := Option.isSome_iff_exists.mp hsome
      have hsame := (hall r u hu).filp t
      rw [(sysClose_detached hn hu).1] at hsame
      have hgone := congrFun hsame newfd
      rw [← openEntry_filp (s := s) hnew, hn] at hgone
      exact absurd (Files.setFilp_self.symm.trans hgone) nofun
    · rintro (hpanic | ⟨hnone, _⟩) r s' heq
      · rw [heq] at hpanic
        exact absurd rfl hpanic
      · cases hnone

/-- A new descriptor out of range is left alone. -/
theorem dupAtomic_high (hnew : nrOpen ≤ newfd) : DupAtomic t oldfd newfd s := by
  have hclose : sysClose t newfd s = some (-22, s) := by
    rw [sysClose_free (if_pos hnew), if_pos hnew]
  have hrun : ∃ r, sysDup2 t oldfd newfd s = some (r, s) := by
    cases h : s.openEntry t oldfd with
    | none =>
      rw [sysDup2_unopened h, hclose]
      exact ⟨-9, rfl⟩
    | some j =>
      refine ⟨-22, ?_⟩
      change (sysClose t newfd s).bind _ = _
      rw [hclose]
      exact dupfd_high h hnew
  obtain ⟨r, hr⟩ := hrun
  refine ⟨fun r' s' hrun _ => ?_, fun _ _ hlt => ?_, fun heq hsome => ?_⟩
  · rw [hr] at hrun
    cases hrun
    exact .refl
  · omega
  · obtain ⟨j, hj⟩ := Option.isSome_iff_exists.mp hsome
    have hlt := openEntry_lt hj
    omega

theorem dup2_atomic_iff : DupAtomic t oldfd newfd s ↔ DupSafe t oldfd newfd s := by
  unfold DupSafe
  by_cases hnew : nrOpen ≤ newfd
  · exact iff_of_true (dupAtomic_high hnew) (.inl hnew)
  · cases h : s.openEntry t oldfd with
    | none =>
      rw [dupAtomic_unopened h (Nat.lt_of_not_le hnew)]
      simp [hnew]
    | some j =>
      rw [dupAtomic_open h (Nat.lt_of_not_le hnew)]
      simp [hnew]

end Vfs

/-- Descriptor 0 refers to entry 0, which a second descriptor refers to. -/
def dupVfs : Vfs :=
  { bootedVfs with
    file := fun j => ⟨0o100644, 0, if j = 0 then 2 else 0, 0, 0⟩
    task := fun t => { bootedVfs.task t with filp := fun fd => if fd < 2 then some 0 else none } }

/-- An error that leaves an open descriptor closed. -/
theorem dupAtomic_closed {t oldfd newfd : Nat} {s s' : Vfs} {r : Int} (hrun : Vfs.sysDup2 t oldfd newfd s = some (r, s')) (hneg : r < 0)
    (hopen : s.openEntry t newfd ≠ none) (hclosed : s'.openEntry t newfd = none) : ¬ Vfs.DupAtomic t oldfd newfd s := by
  intro hatomic
  have hsame := (hatomic.error r s' hrun hneg).filp t
  unfold Vfs.openEntry at hopen hclosed
  rw [hsame] at hclosed
  exact hopen hclosed

/-- `dup2(7, 0)` fails and closes descriptor 0, `dup2(0, 0)` too. -/
theorem dup2_closes : dupVfs.openEntry 1 0 = some 0 ∧
    (∃ s', Vfs.sysDup2 1 7 0 dupVfs = some (-9, s') ∧ s'.openEntry 1 0 = none) ∧ ¬ Vfs.DupAtomic 1 7 0 dupVfs ∧
    (∃ s', Vfs.sysDup2 1 0 0 dupVfs = some (-9, s') ∧ s'.openEntry 1 0 = none) ∧ ¬ Vfs.DupAtomic 1 0 0 dupVfs := by
  have hopen : dupVfs.openEntry 1 0 = some 0 := by decide
  have hruns : ∀ oldfd ∈ [7, 0], ∃ s', Vfs.sysDup2 1 oldfd 0 dupVfs = some (-9, s') ∧ s'.openEntry 1 0 = none := by
    intro oldfd hold
    have hrun : ∀ fd ∈ [7, 0], (Vfs.sysDup2 1 fd 0 dupVfs).map (fun x => (x.1, x.2.openEntry 1 0)) = some (-9, none) := by decide +kernel
    obtain ⟨⟨r, s'⟩, hs', hend⟩ := Option.map_eq_some_iff.mp (hrun oldfd hold)
    obtain ⟨hr, hclosed⟩ := Prod.mk.inj hend
    have hr : r = -9 := hr
    exact ⟨s', hr ▸ hs', hclosed⟩
  obtain ⟨s₁, hs₁, hclosed₁⟩ := hruns 7 (by decide)
  obtain ⟨s₂, hs₂, hclosed₂⟩ := hruns 0 (by decide)
  have hne : dupVfs.openEntry 1 0 ≠ none := by rw [hopen]; exact nofun
  exact ⟨hopen, ⟨s₁, hs₁, hclosed₁⟩, dupAtomic_closed hs₁ (by decide) hne hclosed₁, ⟨s₂, hs₂, hclosed₂⟩,
    dupAtomic_closed hs₂ (by decide) hne hclosed₂⟩

end RheeKernel
