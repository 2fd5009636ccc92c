import RheeKernel.FileTable

open Finset

namespace RheeKernel

namespace Files

/-- Descriptors in a row of the table that refer to entry `j`. -/
def rowRefs (row : Nat → Option Nat) (j : Nat) : Nat := ∑ fd ∈ range nrOpen, if row fd = some j then 1 else 0

/-- Descriptors of all tasks that refer to entry `j`. -/
def refs (s : Files) (j : Nat) : Nat := ∑ t ∈ range nrTasks, rowRefs (s.filp t) j

/-- Every `f_count` is the number of descriptors that refer to the entry. -/
structure Counted (s : Files) : Prop where
  count : ∀ j, (s.file j).count = s.refs j
  low : ∀ t fd j, s.filp t fd = some j → t < nrTasks ∧ fd < nrOpen

variable {s s' : Files} {t u fd j k n : Nat}

theorem Counted.of_eq (h : s.Counted) (hcount : ∀ j, (s'.file j).count = (s.file j).count) (hfilp : s'.filp = s.filp) :
    s'.Counted := by
  refine ⟨fun j => ?_, fun t fd j => ?_⟩
  · rw [hcount, h.count]
    unfold refs
    rw [hfilp]
  · rw [hfilp]
    exact h.low t fd j

theorem setFile_self {f : OpenFile} : (s.setFile j f).file j = f := Function.update_self ..

theorem setFile_other {f : OpenFile} (h : k ≠ j) : (s.setFile j f).file k = s.file k := Function.update_of_ne h _ _

/-- An entry that keeps its count. -/
theorem setFile_count {f : OpenFile} (hf : f.count = (s.file j).count) : ((s.setFile j f).file k).count = (s.file k).count := by
  by_cases hk : k = j
  · rw [hk, setFile_self, hf]
  · rw [setFile_other hk]

theorem setFilp_self {o : Option Nat} : (s.setFilp t fd o).filp t fd = o := by
  simp [setFilp]

theorem setFilp_other {o : Option Nat} {v fd' : Nat} (h : v ≠ t ∨ fd' ≠ fd) : (s.setFilp t fd o).filp v fd' = s.filp v fd' := by
  by_cases hv : v = t
  · subst hv
    have hfd : fd' ≠ fd := by
      rcases h with h | h
      · exact absurd rfl h
      · exact h
    simp [setFilp, hfd]
  · simp [setFilp, hv]

theorem refs_setFilp {o : Option Nat} (ht : t < nrTasks) (hfd : fd < nrOpen) :
    (s.setFilp t fd o).refs j + (if s.filp t fd = some j then 1 else 0) = s.refs j + (if o = some j then 1 else 0) :=
  Counting.sum_update_update_add (mem_range.mpr ht) (mem_range.mpr hfd) (fun o => if o = some j then 1 else 0) s.filp o

theorem Counted.ref_pos (h : s.Counted) (hj : s.filp t fd = some j) : 0 < (s.file j).count := by
  obtain ⟨ht, hfd⟩ := h.low t fd j hj
  have hle : (if s.filp t fd = some j then 1 else 0) ≤ s.refs j :=
    Counting.le_sum_sum_of_mem (mem_range.mpr ht) (mem_range.mpr hfd) fun t fd => if s.filp t fd = some j then 1 else 0
  rw [if_pos hj] at hle
  rw [h.count]
  omega

/-- One descriptor changes what it refers to, and the counts change with it. -/
theorem Counted.change (h : s.Counted) {o : Option Nat} (ht : t < nrTasks) (hfd : fd < nrOpen)
    (hfilp : s'.filp = (s.setFilp t fd o).filp)
    (hcount : ∀ i, (s'.file i).count + (if s.filp t fd = some i then 1 else 0) =
      (s.file i).count + (if o = some i then 1 else 0)) : s'.Counted := by
  refine ⟨fun i => ?_, fun v e i hi => ?_⟩
  · have hrefs : s'.refs i = (s.setFilp t fd o).refs i := by
      unfold refs
      rw [hfilp]
    have hsum := @refs_setFilp s t fd i o ht hfd
    have hold := h.count i
    have hnew := hcount i
    omega
  · rw [hfilp] at hi
    by_cases hv : v = t ∧ e = fd
    · exact ⟨hv.1 ▸ ht, hv.2 ▸ hfd⟩
    · rw [setFilp_other (by omega)] at hi
      exact h.low v e i hi

theorem firstIndex_spec {p : Nat → Bool} {i : Nat} (h : firstIndex p n i = some k) : i ≤ k ∧ k < i + n ∧ p k = true := by
  induction n generalizing i with
  | zero => simp [firstIndex] at h
  | succ n ih =>
    unfold firstIndex at h
    split at h
    next hp => cases Option.some.inj h; exact ⟨by omega, by omega, hp⟩
    next =>
      obtain ⟨hle, hlt, hp⟩ := ih h
      exact ⟨by omega, by omega, hp⟩

theorem firstIndex_before {p : Nat → Bool} {i : Nat} (h : firstIndex p n i = some k) (hlow : i ≤ j) (hhigh : j < k) : p j = false := by
  induction n generalizing i with
  | zero => simp [firstIndex] at h
  | succ n ih =>
    unfold firstIndex at h
    split at h
    next =>
      cases Option.some.inj h
      omega
    next hp =>
      by_cases hj : j = i
      · rw [hj]
        exact Bool.eq_false_iff.mpr hp
      · exact ih h (by omega)

theorem firstIndex_none {p : Nat → Bool} {i : Nat} (h : firstIndex p n i = none) (hlow : i ≤ k) (hhigh : k < i + n) :
    p k = false := by
  induction n generalizing i with
  | zero => omega
  | succ n ih =>
    unfold firstIndex at h
    split at h
    next => cases h
    next hp =>
      by_cases hk : k = i
      · rw [hk]
        exact Bool.eq_false_iff.mpr hp
      · exact ih h (by omega) (by omega)

/-- What `open_namei` can do to the inodes: nothing, make a new one, or empty one that passed the check. -/
theorem openNamei_cases {l : Lookup} {flag mode : BitVec 32} :
    (s.openNamei t l flag mode).1 = s ∨
    (∃ i k ip, l = .absent i (some k) true ∧ (s.openNamei t l flag mode).1 = s.setInode k ip) ∨
    (∃ k ip, s.inode k = some ip ∧ (s.openNamei t l flag mode).1 = s.setInode k ip.truncate ∧
      checkedFlag flag &&& oTrunc ≠ 0 ∧
      permission (s.cred t) ip (accMode (checkedFlag flag)) = accMode (checkedFlag flag)) := by
  unfold openNamei
  cases l with
  | noDirectory => exact .inl rfl
  | directory i =>
    dsimp only
    split <;> exact .inl rfl
  | absent i node entry =>
    dsimp only
    split
    next => exact .inl rfl
    next =>
      split
      next => exact .inl rfl
      next =>
        split
        next => exact .inl rfl
        next k =>
          split
          next => exact .inl rfl
          next hentry =>
            have hentry : entry = true := by simpa using hentry
            exact .inr (.inl ⟨i, k, _, by rw [hentry], rfl⟩)
  | present node =>
    dsimp only
    split
    next => exact .inl rfl
    next =>
      split
      next => exact .inl rfl
      next k ip hk =>
        split
        next => exact .inl rfl
        next hperm =>
          split
          next htrunc =>
            obtain ⟨k', hk', hip⟩ := Option.bind_eq_some_iff.mp hk
            obtain ⟨ip', hip', hpair⟩ := Option.map_eq_some_iff.mp hip
            cases hpair
            refine .inr (.inr ⟨k, ip, hip', rfl, htrunc, ?_⟩)
            by_contra hne
            exact hperm (.inr hne)
          next => exact .inl rfl

/-- The calls on names and terminals leave the descriptors alone. -/
theorem openNamei_files {l : Lookup} {flag mode : BitVec 32} :
    (s.openNamei t l flag mode).1.file = s.file ∧ (s.openNamei t l flag mode).1.filp = s.filp ∧
      (s.openNamei t l flag mode).1.opening = s.opening := by
  rcases @openNamei_cases s t l flag mode with heq | ⟨i, k, ip, _, heq⟩ | ⟨k, ip, _, heq, _⟩ <;> rw [heq] <;>
    exact ⟨rfl, rfl, rfl⟩

theorem claimTty_files {ip : FileInode} :
    (s.claimTty t ip).file = s.file ∧ (s.claimTty t ip).filp = s.filp ∧ (s.claimTty t ip).opening = s.opening ∧
      (s.claimTty t ip).inode = s.inode := by
  unfold claimTty
  split <;> exact ⟨rfl, rfl, rfl, rfl⟩

/-- How `sys_open` ends: with an error and the descriptors as they were, or with a free descriptor on a
free entry. -/
theorem sysOpen_cases {l : Lookup} {flag mode : BitVec 32} :
    ((s.sysOpen t l flag mode).1.file = s.file ∧ (s.sysOpen t l flag mode).1.filp = s.filp ∧
      (s.sysOpen t l flag mode).1.opening = s.opening) ∨
    ∃ fd j i f o m, fd < nrOpen ∧ s.filp t fd = none ∧ (s.file j).count = 0 ∧
      ((s.setCloseOnExec t fd false).openNamei t l flag m).2 = .ok (i, o) ∧
      f.count = 1 ∧ f.flags = flag.truncate 16 ∧ f.inode = i ∧
      (s.sysOpen t l flag mode).1.file = (s.setFile j f).file ∧
      (s.sysOpen t l flag mode).1.filp = (s.setFilp t fd (some j)).filp ∧
      (s.sysOpen t l flag mode).1.opening = (s.setOpening t fd (some o)).opening := by
  unfold sysOpen
  split
  next => exact .inl ⟨rfl, rfl, rfl⟩
  next fd hfd =>
    obtain ⟨_, hlow, hfree⟩ := firstIndex_spec hfd
    dsimp only
    split
    next => exact .inl ⟨rfl, rfl, rfl⟩
    next j hj =>
      obtain ⟨_, _, hcount⟩ := firstIndex_spec hj
      have hsame := @openNamei_files (s.setCloseOnExec t fd false) t l flag
        (mode &&& 0o777 &&& ~~~((s.setCloseOnExec t fd false).cred t).umask)
      split
      next s' e heq =>
        rw [heq] at hsame
        exact .inl hsame
      next s' i o heq =>
        rw [heq] at hsame
        obtain ⟨hfile, hfilp, hopening⟩ := hsame
        split
        next => exact .inl ⟨hfile, hfilp, hopening⟩
        next ip hip =>
          split
          next => exact .inl ⟨hfile, hfilp, hopening⟩
          next =>
            obtain ⟨htf, htp, hto, _⟩ := @claimTty_files s' t ip
            have hzero : (s.file j).count = 0 := beq_iff_eq.mp hcount
            refine .inr ⟨fd, j, i, ⟨ip.mode.truncate 16, flag.truncate 16, 1, i, 0⟩, o, _, by omega,
              Option.isNone_iff_eq_none.mp hfree, hzero, congrArg Prod.snd heq, rfl, rfl, rfl, ?_, ?_, ?_⟩
            · show Function.update (s'.claimTty t ip).file j _ = Function.update s.file j _
              rw [htf, hfile]
              rfl
            · show Function.update (s'.claimTty t ip).filp t (Function.update ((s'.claimTty t ip).filp t) fd _) = _
              rw [htp, hfilp]
              rfl
            · show Function.update (s'.claimTty t ip).opening t (Function.update ((s'.claimTty t ip).opening t) fd _) = _
              rw [hto, hopening]
              rfl

theorem Counted.sysOpen (h : s.Counted) {l : Lookup} {flag mode : BitVec 32} (ht : t < nrTasks) :
    (s.sysOpen t l flag mode).1.Counted := by
  rcases @sysOpen_cases s t l flag mode with ⟨hfile, hfilp, _⟩ | ⟨fd, j, i, f, o, m, hfd, hfree, hzero, _, hf, _, _, hfile, hfilp, _⟩
  · exact h.of_eq (fun j => by rw [hfile]) hfilp
  · refine h.change ht hfd hfilp fun k => ?_
    rw [hfile, hfree]
    by_cases hk : k = j
    · subst hk
      rw [setFile_self, hf, hzero]
      simp
    · rw [setFile_other hk]
      simp [Ne.symm hk]

theorem Counted.sysClose (h : s.Counted) (ht : t < nrTasks) {r : Files × Int} (hr : s.sysClose t fd = some r) :
    r.1.Counted := by
  unfold Files.sysClose at hr
  split at hr
  next => cases Option.some.inj hr; exact h
  next hfd =>
    have hfd : fd < nrOpen := by omega
    dsimp only at hr
    split at hr
    next => cases Option.some.inj hr; exact h.of_eq (fun _ => rfl) rfl
    next j hj =>
      have hj : s.filp t fd = some j := hj
      have hpos := h.ref_pos hj
      split at hr
      next => simp at hr
      next =>
        cases Option.some.inj hr
        refine @Counted.change s _ t fd h none ht hfd rfl fun k => ?_
        show (Function.update s.file j _ k).count + _ = _
        rw [hj]
        by_cases hk : k = j
        · subst hk
          rw [Function.update_self]
          show (s.file k).count - 1 + _ = _
          simp
          omega
        · rw [Function.update_of_ne hk]
          simp [Ne.symm hk]

/-- `dupfd` either changes nothing or makes a free descriptor refer to the same entry. -/
theorem dupfd_cases {arg : Nat} :
    (s.dupfd t fd arg).1 = s ∨ ∃ j k, s.filp t fd = some j ∧ k < nrOpen ∧ s.filp t k = none ∧
      (s.dupfd t fd arg).1 = (((s.setCloseOnExec t k false).setFilp t k (some j)).setOpening t k (s.opening t fd)).setFile j
        { s.file j with count := (s.file j).count + 1 } := by
  unfold dupfd
  split
  next => exact .inl rfl
  next =>
    split
    next => exact .inl rfl
    next j hj =>
      split
      next => exact .inl rfl
      next =>
        split
        next => exact .inl rfl
        next k hk =>
          obtain ⟨_, hlow, hfree⟩ := firstIndex_spec hk
          exact .inr ⟨j, k, hj, by omega, Option.isNone_iff_eq_none.mp hfree, rfl⟩

theorem Counted.dupfd (h : s.Counted) (ht : t < nrTasks) {arg : Nat} : (s.dupfd t fd arg).1.Counted := by
  rcases @dupfd_cases s t fd arg with heq | ⟨j, k, _, hk, hfree, heq⟩
  · rw [heq]
    exact h
  · rw [heq]
    refine @Counted.change s _ t k h (some j) ht hk rfl fun i => ?_
    show (Function.update s.file j _ i).count + _ = _
    rw [hfree]
    by_cases hi : i = j
    · subst hi
      rw [Function.update_self]
      simp
    · rw [Function.update_of_ne hi]
      simp [Ne.symm hi]

/-- `F_SETFL` rewrites the flags of the entry; the other commands go to `dupfd` or touch no entry. -/
theorem sysFcntl_cases {cmd : Nat} {arg : BitVec 32} :
    (s.sysFcntl t fd cmd arg).1 = (s.dupfd t fd arg.toNat).1 ∨
    ((s.sysFcntl t fd cmd arg).1.file = s.file ∧ (s.sysFcntl t fd cmd arg).1.filp = s.filp ∧
      (s.sysFcntl t fd cmd arg).1.opening = s.opening ∧ (s.sysFcntl t fd cmd arg).1.inode = s.inode) ∨
    ∃ j, (s.sysFcntl t fd cmd arg).1 = s.setFile j { s.file j with
      flags := (s.file j).flags &&& ~~~((oAppend ||| oNonblock).truncate 16) |||
        (arg.truncate 16 &&& (oAppend ||| oNonblock).truncate 16) } := by
  unfold sysFcntl
  split
  next => exact .inr (.inl ⟨rfl, rfl, rfl, rfl⟩)
  next =>
    split
    next => exact .inr (.inl ⟨rfl, rfl, rfl, rfl⟩)
    next j hj =>
      split
      next => exact .inl rfl
      next => exact .inr (.inl ⟨rfl, rfl, rfl, rfl⟩)
      next => exact .inr (.inl ⟨rfl, rfl, rfl, rfl⟩)
      next => exact .inr (.inl ⟨rfl, rfl, rfl, rfl⟩)
      next => exact .inr (.inr ⟨j, rfl⟩)
      next => exact .inr (.inl ⟨rfl, rfl, rfl, rfl⟩)

theorem Counted.sysFcntl (h : s.Counted) (ht : t < nrTasks) {cmd : Nat} {arg : BitVec 32} :
    (s.sysFcntl t fd cmd arg).1.Counted := by
  rcases @sysFcntl_cases s t fd cmd arg with heq | ⟨hfile, hfilp, _⟩ | ⟨j, heq⟩
  · rw [heq]
    exact h.dupfd ht
  · exact h.of_eq (fun j => by rw [hfile]) hfilp
  · rw [heq]
    exact h.of_eq (fun k => setFile_count rfl) rfl

theorem inherit_spec :
    (s.inherit t n).filp = s.filp ∧ (s.inherit t n).opening = s.opening ∧ (s.inherit t n).inode = s.inode ∧
      ∀ j, ((s.inherit t n).file j).count = (s.file j).count + ∑ fd ∈ range n, (if s.filp t fd = some j then 1 else 0) ∧
        ((s.inherit t n).file j).flags = (s.file j).flags ∧ ((s.inherit t n).file j).inode = (s.file j).inode := by
  induction n with
  | zero => exact ⟨rfl, rfl, rfl, fun j => ⟨by simp [inherit], rfl, rfl⟩⟩
  | succ n ih =>
    obtain ⟨hfilp, hopening, hinode, hfile⟩ := ih
    unfold inherit
    dsimp only
    rw [hfilp]
    split
    next hnone =>
      refine ⟨hfilp, hopening, hinode, fun j => ⟨?_, (hfile j).2⟩⟩
      rw [sum_range_succ, hnone, (hfile j).1]
      simp
    next i hi =>
      refine ⟨hfilp, hopening, hinode, fun j => ?_⟩
      rw [sum_range_succ, hi]
      by_cases hj : j = i
      · subst hj
        rw [setFile_self]
        refine ⟨?_, (hfile j).2⟩
        show ((s.inherit t n).file j).count + 1 = _
        rw [(hfile j).1]
        simp
        omega
      · rw [setFile_other hj]
        refine ⟨?_, (hfile j).2⟩
        rw [(hfile j).1]
        simp [Ne.symm hj]

theorem Counted.forkFiles (h : s.Counted) (hu : u < nrTasks) (hfree : s.NoDescriptors u) :
    (s.forkFiles t u).Counted := by
  obtain ⟨hfilp, _, _, hfile⟩ := @inherit_spec s t nrOpen
  have hnew : (s.forkFiles t u).filp = Function.update s.filp u (s.filp t) := by
    show Function.update (s.inherit t nrOpen).filp u ((s.inherit t nrOpen).filp t) = _
    rw [hfilp]
  refine ⟨fun j => ?_, fun v fd j hj => ?_⟩
  · have hrow := Counting.sum_update_add (mem_range.mpr hu) (fun row => rowRefs row j) s.filp (s.filp t)
    have hzero : rowRefs (s.filp u) j = 0 := by
      refine sum_eq_zero fun fd hfd => ?_
      rw [hfree fd (mem_range.mp hfd)]
      simp
    have hcount : ((s.forkFiles t u).file j).count = (s.file j).count + rowRefs (s.filp t) j := (hfile j).1
    have hrefs : (s.forkFiles t u).refs j = ∑ v ∈ range nrTasks, rowRefs (Function.update s.filp u (s.filp t) v) j := by
      unfold refs
      rw [hnew]
    have hold : (s.file j).count = ∑ v ∈ range nrTasks, rowRefs (s.filp v) j := h.count j
    omega
  · rw [hnew] at hj
    by_cases hv : v = u
    · rw [hv, Function.update_self] at hj
      exact ⟨hv ▸ hu, (h.low t fd j hj).2⟩
    · rw [Function.update_of_ne hv] at hj
      exact h.low v fd j hj

theorem descriptor_some {f : OpenFile} {ip : FileInode} (h : s.descriptor t fd = some (j, f, ip)) :
    s.filp t fd = some j ∧ f = s.file j ∧ s.inode f.inode = some ip := by
  unfold descriptor at h
  split at h
  next => simp at h
  next =>
    obtain ⟨i, hi, h⟩ := Option.bind_eq_some_iff.mp h
    obtain ⟨ip', hip, h⟩ := Option.map_eq_some_iff.mp h
    cases h
    exact ⟨hi, rfl, hip⟩

/-- Reading moves the position of the entry and nothing else. -/
theorem sysRead_cases {count : Int} {avail : Nat} :
    s.sysRead t fd count avail = (s, []) ∨ ∃ j ip n, s.descriptor t fd = some (j, s.file j, ip) ∧ (ip.isDir = true ∨ ip.isReg = true) ∧
      (s.sysRead t fd count avail).1 = s.setFile j { s.file j with pos := n } := by
  unfold sysRead
  split
  next => exact .inl rfl
  next =>
    split
    next => exact .inl rfl
    next j f ip hd =>
      obtain ⟨_, rfl, _⟩ := descriptor_some hd
      split
      next => exact .inl rfl
      next hkind =>
        have hkind : ip.isDir = true ∨ ip.isReg = true := by
          by_contra hne
          exact hkind (.inr (.inr (.inr hne)))
        generalize (if count + (s.file j).pos > ip.size then (ip.size : Int) - (s.file j).pos else count) = c
        dsimp only
        split
        next => exact .inl rfl
        next => exact .inr ⟨j, ip, _, hd, hkind, rfl⟩

/-- Writing changes the regular file behind the descriptor, and the position of the entry. -/
theorem sysWrite_cases {buf : Nat → UInt8} {count : Int} {avail : Nat} :
    s.sysWrite t fd buf count avail = s ∨ ∃ j ip ip' f, s.descriptor t fd = some (j, s.file j, ip) ∧ ip.isReg = true ∧
      f.count = (s.file j).count ∧ f.flags = (s.file j).flags ∧ f.inode = (s.file j).inode ∧
      s.sysWrite t fd buf count avail = (s.setInode (s.file j).inode ip').setFile j f := by
  unfold sysWrite
  split
  next => exact .inl rfl
  next =>
    split
    next => exact .inl rfl
    next j f ip hd =>
      obtain ⟨_, rfl, _⟩ := descriptor_some hd
      split
      next => exact .inl rfl
      next hkind =>
        have hkind : ip.isReg = true := by
          by_contra hne
          exact hkind (.inr (.inr (.inr hne)))
        refine .inr ⟨j, ip, _, _, hd, hkind, ?_, ?_, ?_, rfl⟩
        all_goals split <;> rfl

end Files

/-- What a step of the file table can do. -/
inductive FileStep (s : Files) : FileEvent → Files → Prop
  | sysOpen {t l flag mode} (ht : t < nrTasks) (hl : s.LookupOk l) : FileStep s (.sysOpen t l flag mode) (s.sysOpen t l flag mode).1
  | sysClose {t fd r} (ht : t < nrTasks) (hr : s.sysClose t fd = some r) : FileStep s (.sysClose t fd) r.1
  | sysDup {t fd} (ht : t < nrTasks) : FileStep s (.sysDup t fd) (s.sysDup t fd).1
  | sysDup2 {t oldfd newfd c} (ht : t < nrTasks) (hc : s.sysClose t newfd = some c) :
    FileStep s (.sysDup2 t oldfd newfd) (c.1.dupfd t oldfd newfd).1
  | sysFcntl {t fd cmd arg} (ht : t < nrTasks) : FileStep s (.sysFcntl t fd cmd arg) (s.sysFcntl t fd cmd arg).1
  | fork {t u} (ht : t < nrTasks) (hu : u < nrTasks) (hfree : s.NoDescriptors u) : FileStep s (.fork t u) (s.forkFiles t u)
  | noRead {t fd count avail} : FileStep s (.sysRead t fd count avail) s
  | sysRead {t fd count avail j n} {ip : FileInode} (hd : s.descriptor t fd = some (j, s.file j, ip))
    (hkind : ip.isDir = true ∨ ip.isReg = true) : FileStep s (.sysRead t fd count avail) (s.setFile j { s.file j with pos := n })
  | noWrite {t fd buf count avail} : FileStep s (.sysWrite t fd buf count avail) s
  | sysWrite {t fd buf count avail j ip' f} {ip : FileInode} (hd : s.descriptor t fd = some (j, s.file j, ip)) (hreg : ip.isReg = true)
    (hcount : f.count = (s.file j).count) (hflags : f.flags = (s.file j).flags) (hinode : f.inode = (s.file j).inode) :
    FileStep s (.sysWrite t fd buf count avail) ((s.setInode (s.file j).inode ip').setFile j f)

theorem fileStep_cases {s s' : Files} {e : FileEvent} (hs : fileStep s e = some s') : FileStep s e s' := by
  cases e with
  | sysOpen t l flag mode =>
    obtain ⟨ht, hs⟩ := Option.ite_none_right_eq_some.mp hs
    cases hs
    exact .sysOpen ht.1 ht.2
  | sysClose t fd =>
    obtain ⟨ht, hs⟩ := Option.ite_none_right_eq_some.mp hs
    obtain ⟨r, hr, rfl⟩ := Option.map_eq_some_iff.mp hs
    exact .sysClose ht hr
  | sysDup t fd =>
    obtain ⟨ht, hs⟩ := Option.ite_none_right_eq_some.mp hs
    cases hs
    exact .sysDup ht
  | sysDup2 t oldfd newfd =>
    obtain ⟨ht, hs⟩ := Option.ite_none_right_eq_some.mp hs
    obtain ⟨r, hr, rfl⟩ := Option.map_eq_some_iff.mp hs
    obtain ⟨c, hc, rfl⟩ := Option.map_eq_some_iff.mp hr
    exact .sysDup2 ht hc
  | sysFcntl t fd cmd arg =>
    obtain ⟨ht, hs⟩ := Option.ite_none_right_eq_some.mp hs
    cases hs
    exact .sysFcntl ht
  | fork t u =>
    obtain ⟨ht, hs⟩ := Option.ite_none_right_eq_some.mp hs
    cases hs
    exact .fork ht.1 ht.2.1 ht.2.2
  | sysRead t fd count avail =>
    obtain ⟨_, hs⟩ := Option.ite_none_right_eq_some.mp hs
    cases hs
    rcases @Files.sysRead_cases s t fd count avail with heq | ⟨j, ip, n, hd, hkind, heq⟩
    · rw [heq]
      exact .noRead
    · rw [heq]
      exact .sysRead hd hkind
  | sysWrite t fd buf count avail =>
    obtain ⟨_, hs⟩ := Option.ite_none_right_eq_some.mp hs
    cases hs
    rcases @Files.sysWrite_cases s t fd buf count avail with heq | ⟨j, ip, ip', f, hd, hreg, hcount, hflags, hinode, heq⟩
    · rw [heq]
      exact .noWrite
    · rw [heq]
      exact .sysWrite hd hreg hcount hflags hinode

theorem fileStep_counted {s s' : Files} {e : FileEvent} (h : s.Counted) (hs : fileStep s e = some s') : s'.Counted := by
  cases fileStep_cases hs with
  | sysOpen ht => exact h.sysOpen ht
  | sysClose ht hr => exact h.sysClose ht hr
  | sysDup ht => exact h.dupfd ht
  | sysDup2 ht hc => exact (h.sysClose ht hc).dupfd ht
  | sysFcntl ht => exact h.sysFcntl ht
  | fork _ hu hfree => exact h.forkFiles hu hfree
  | noRead => exact h
  | sysRead => exact h.of_eq (fun k => Files.setFile_count rfl) rfl
  | noWrite => exact h
  | sysWrite _ _ hcount => exact h.of_eq (fun k => Files.setFile_count hcount) rfl

end RheeKernel
