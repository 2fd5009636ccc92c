import RheeKernel.FileCounts

open Finset

namespace RheeKernel

namespace Files

/-- The first two indices below `n` for which the test holds. -/
def firstTwo (p : Nat → Bool) (n : Nat) : Option (Nat × Nat) :=
  (firstIndex p n 0).bind fun i => (firstIndex p (n - (i + 1)) (i + 1)).map fun k => (i, k)

/-- The two ends that `sys_pipe` makes of the entries `i` and `k`. -/
def openEnds (s : Files) (i k node : Nat) : Files :=
  (s.setFile i { s.file i with mode := 1, count := 1, inode := node, pos := 0 }).setFile k
    { s.file k with mode := 2, count := 1, inode := node, pos := 0 }

/-- `node` is what `get_pipe_inode` finds. An end that gets only half of what it needs gives it back. -/
def sysPipe (s : Files) (t : Nat) (node : Option Nat) : Files × Int :=
  match firstTwo (fun j => (s.file j).count == 0) nrFile with
  | none => (s, -1)
  | some (i, k) =>
    match firstTwo (fun fd => (s.filp t fd).isNone) nrOpen with
    | none => (s, -1)
    | some (r, w) =>
      match node with
      | none => (s, -1)
      | some n => (((s.openEnds i k n).setFilp t r (some i)).setFilp t w (some k), 0)

/-- The loops of `do_execve` and `do_exit` over the descriptors below `n`; `none` is a panic. -/
def closeEach (s : Files) (t : Nat) (p : Files → Nat → Bool) : Nat → Option Files
  | 0 => some s
  | n + 1 => (closeEach s t p n).bind fun s => if p s n then (s.sysClose t n).map Prod.fst else some s

def closeMarked (s : Files) (t : Nat) : Option Files :=
  (s.closeEach t (fun s fd => s.closeOnExec t fd) nrOpen).map fun s =>
    { s with closeOnExec := Function.update s.closeOnExec t fun _ => false }

def closeAll (s : Files) (t : Nat) : Option Files := s.closeEach t (fun s fd => (s.filp t fd).isSome) nrOpen

/-- A close-on-exec bit is set for an open descriptor only. -/
def Marks (s : Files) : Prop := ∀ t fd, s.closeOnExec t fd = true → s.filp t fd ≠ none

variable {s s' : Files} {t u v fd e i j k n r : Nat} {p : Nat → Bool}

/-- No new bits, and no open descriptor closed that keeps its bit. -/
theorem Marks.change (h : s.Marks) (hbits : ∀ v e, s'.closeOnExec v e = true → s.closeOnExec v e = true)
    (hopen : ∀ v e, s'.closeOnExec v e = true → s.filp v e ≠ none → s'.filp v e ≠ none) : s'.Marks :=
  fun v e hb => hopen v e hb (h v e (hbits v e hb))

theorem setCloseOnExec_self {b : Bool} : (s.setCloseOnExec t fd b).closeOnExec t fd = b := by
  simp [setCloseOnExec]

theorem setCloseOnExec_other {b : Bool} (h : ¬ (v = t ∧ e = fd)) :
    (s.setCloseOnExec t fd b).closeOnExec v e = s.closeOnExec v e := by
  by_cases hv : v = t
  · have he : e ≠ fd := fun he => h ⟨hv, he⟩
    simp [setCloseOnExec, hv, he]
  · simp [setCloseOnExec, hv]

theorem setCloseOnExec_false (h : (s.setCloseOnExec t fd false).closeOnExec v e = true) :
    s.closeOnExec v e = true ∧ ¬ (v = t ∧ e = fd) := by
  by_cases hat : v = t ∧ e = fd
  · rw [hat.1, hat.2, setCloseOnExec_self] at h
    cases h
  · rw [setCloseOnExec_other hat] at h
    exact ⟨h, hat⟩

theorem openNamei_marks {l : Lookup} {flag mode : BitVec 32} : (s.openNamei t l flag mode).1.closeOnExec = s.closeOnExec := by
  rcases @openNamei_cases s t l flag mode with heq | ⟨i, k, ip, _, heq⟩ | ⟨k, ip, _, heq, _⟩ <;> rw [heq] <;> rfl

theorem sysOpen_marks {l : Lookup} {flag mode : BitVec 32} (h : (s.sysOpen t l flag mode).1.closeOnExec v e = true) :
    s.closeOnExec v e = true := by
  unfold sysOpen at h
  split at h
  next => exact h
  next fd hfd =>
    dsimp only at h
    split at h
    next => exact (setCloseOnExec_false h).1
    next j hj =>
      have hsame := @openNamei_marks (s.setCloseOnExec t fd false) t l flag
        (mode &&& 0o777 &&& ~~~((s.setCloseOnExec t fd false).cred t).umask)
      split at h
      next s' err heq =>
        rw [heq] at hsame
        rw [show s'.closeOnExec = _ from hsame] at h
        exact (setCloseOnExec_false h).1
      next s' i o heq =>
        rw [heq] at hsame
        have hback : s'.closeOnExec v e = true → s.closeOnExec v e = true := by
          intro hs
          rw [show s'.closeOnExec = _ from hsame] at hs
          exact (setCloseOnExec_false hs).1
        split at h
        next => exact hback h
        next ip hip =>
          split at h
          next => exact hback h
          next =>
            refine hback ?_
            change (s'.claimTty t ip).closeOnExec v e = true at h
            unfold claimTty at h
            split at h
            next => exact h
            next => exact h

theorem Marks.sysOpen (h : s.Marks) {l : Lookup} {flag mode : BitVec 32} : (s.sysOpen t l flag mode).1.Marks := by
  refine h.change (fun v e => sysOpen_marks) fun v e _ hne => ?_
  rcases @sysOpen_cases s t l flag mode with ⟨_, hfilp, _⟩ | ⟨fd, j, _, _, _, _, _, _, _, _, _, _, _, _, hfilp, _⟩
  · rw [hfilp]
    exact hne
  · rw [hfilp]
    by_cases hat : v = t ∧ e = fd
    · rw [hat.1, hat.2, setFilp_self]
      exact nofun
    · rw [setFilp_other (by omega)]
      exact hne

theorem Marks.sysClose (h : s.Marks) {x : Files × Int} (hx : s.sysClose t fd = some x) : x.1.Marks := by
  unfold Files.sysClose at hx
  split at hx
  next =>
    cases Option.some.inj hx
    exact h
  next =>
    dsimp only at hx
    split at hx
    next =>
      cases Option.some.inj hx
      exact h.change (fun v e hb => (setCloseOnExec_false hb).1) fun v e _ hne => hne
    next j hj =>
      split at hx
      next => cases hx
      next =>
        cases Option.some.inj hx
        refine h.change (fun v e hb => (setCloseOnExec_false hb).1) fun v e hb hne => ?_
        obtain ⟨_, hat⟩ := setCloseOnExec_false hb
        change ((s.setCloseOnExec t fd false).setFilp t fd none).filp v e ≠ none
        rw [setFilp_other (by omega)]
        exact hne

theorem Marks.dupfd (h : s.Marks) {arg : Nat} : (s.dupfd t fd arg).1.Marks := by
  rcases @dupfd_cases s t fd arg with heq | ⟨j, k, _, _, _, heq⟩
  · rw [heq]
    exact h
  · rw [heq]
    refine h.change (fun v e hb => (setCloseOnExec_false hb).1) fun v e _ hne => ?_
    change ((s.setCloseOnExec t k false).setFilp t k (some j)).filp v e ≠ none
    by_cases hat : v = t ∧ e = k
    · rw [hat.1, hat.2, setFilp_self]
      exact nofun
    · rw [setFilp_other (by omega)]
      exact hne

/-- `F_SETFD` sets the bit of an open descriptor. -/
theorem Marks.sysFcntl (h : s.Marks) {cmd : Nat} {arg : BitVec 32} : (s.sysFcntl t fd cmd arg).1.Marks := by
  unfold Files.sysFcntl
  split
  next => exact h
  next =>
    split
    next => exact h
    next j hj =>
      split
      next => exact h.dupfd
      next => exact h
      next =>
        intro v e hb
        change s.filp v e ≠ none
        by_cases hat : v = t ∧ e = fd
        · rw [hat.1, hat.2, hj]
          exact nofun
        · change (s.setCloseOnExec t fd _).closeOnExec v e = true at hb
          rw [setCloseOnExec_other hat] at hb
          exact h v e hb
      next => exact h
      next => exact h
      next => exact h

theorem Marks.forkFiles (h : s.Marks) : (s.forkFiles t u).Marks := by
  obtain ⟨hfilp, _⟩ := @inherit_spec s t nrOpen
  have hmarks : ∀ n, (s.inherit t n).closeOnExec = s.closeOnExec := by
    intro n
    induction n with
    | zero => rfl
    | succ n ih =>
      unfold inherit
      dsimp only
      split
      next => exact ih
      next => exact ih
  intro v e hb
  change Function.update (s.inherit t nrOpen).closeOnExec u ((s.inherit t nrOpen).closeOnExec t) v e = true at hb
  change Function.update (s.inherit t nrOpen).filp u ((s.inherit t nrOpen).filp t) v e ≠ none
  rw [hmarks] at hb
  rw [hfilp]
  by_cases hv : v = u
  · rw [hv, Function.update_self] at hb ⊢
    exact h t e hb
  · rw [Function.update_of_ne hv] at hb ⊢
    exact h v e hb

theorem firstTwo_spec (h : firstTwo p n = some (i, k)) : i < k ∧ k < n ∧ p i = true ∧ p k = true := by
  obtain ⟨i', hi, h⟩ := Option.bind_eq_some_iff.mp h
  obtain ⟨k', hk, heq⟩ := Option.map_eq_some_iff.mp h
  cases heq
  obtain ⟨_, hlt, hpi⟩ := firstIndex_spec hi
  obtain ⟨hle, hlt', hpk⟩ := firstIndex_spec hk
  exact ⟨by omega, by omega, hpi, hpk⟩

/-- `sys_pipe` opens two free descriptors on two free entries, or does nothing. -/
theorem sysPipe_cases {node : Option Nat} : (s.sysPipe t node).1 = s ∨ ∃ i k r w m, i ≠ k ∧ (s.file i).count = 0 ∧
    (s.file k).count = 0 ∧ (r < nrOpen ∧ w < nrOpen ∧ r ≠ w) ∧ s.filp t r = none ∧ s.filp t w = none ∧
      (s.sysPipe t node).1 = ((s.openEnds i k m).setFilp t r (some i)).setFilp t w (some k) := by
  unfold sysPipe
  split
  next => exact .inl rfl
  next i k hik =>
    split
    next => exact .inl rfl
    next r w hrw =>
      split
      next => exact .inl rfl
      next m =>
        obtain ⟨hlt, _, hi, hk⟩ := firstTwo_spec hik
        obtain ⟨hlt', hw, hr, hwn⟩ := firstTwo_spec hrw
        refine .inr ⟨i, k, r, w, m, by omega, beq_iff_eq.mp hi, beq_iff_eq.mp hk, by omega,
          Option.isNone_iff_eq_none.mp hr, Option.isNone_iff_eq_none.mp hwn, rfl⟩

theorem Counted.sysPipe (h : s.Counted) (ht : t < nrTasks) {node : Option Nat} : (s.sysPipe t node).1.Counted := by
  rcases @sysPipe_cases s t node with heq | ⟨i, k, r, w, m, hne, hi, hk, ⟨hr, hw, hrw⟩, hfr, hfw, heq⟩
  · rw [heq]
    exact h
  · rw [heq]
    -- One end after the other.
    have hone : ((s.setFile i { s.file i with mode := 1, count := 1, inode := m, pos := 0 }).setFilp t r (some i)).Counted := by
      refine @Counted.change s _ t r h (some i) ht hr rfl fun j => ?_
      change (Function.update s.file i _ j).count + _ = _
      rw [hfr]
      by_cases hj : j = i
      · rw [hj, Function.update_self, hi]
        simp
      · rw [Function.update_of_ne hj, if_neg (by simp), if_neg fun hc => hj (Option.some.inj hc).symm]
    refine @Counted.change _ _ t w hone (some k) ht hw ?_ fun j => ?_
    · rfl
    · change (Function.update (Function.update s.file i _) k _ j).count + _ = (Function.update s.file i _ j).count + _
      rw [setFilp_other (.inr hrw.symm)]
      change _ + (if s.filp t w = some j then 1 else 0) = _
      rw [hfw]
      by_cases hj : j = k
      · rw [hj, Function.update_self, Function.update_of_ne hne.symm, hk]
        simp
      · rw [Function.update_of_ne hj, if_neg (by simp), if_neg fun hc => hj (Option.some.inj hc).symm]

theorem Marks.sysPipe (h : s.Marks) {node : Option Nat} : (s.sysPipe t node).1.Marks := by
  rcases @sysPipe_cases s t node with heq | ⟨i, k, r, w, m, _, _, _, _, _, _, heq⟩
  · rw [heq]
    exact h
  · rw [heq]
    refine h.change (fun v e hb => hb) fun v e _ hn => ?_
    by_cases hw : v = t ∧ e = w
    · rw [hw.1, hw.2, setFilp_self]
      exact nofun
    · rw [setFilp_other (by omega)]
      by_cases hr : v = t ∧ e = r
      · rw [hr.1, hr.2, setFilp_self]
        exact nofun
      · rw [setFilp_other (by omega)]
        exact hn

/-- What closing does to the descriptors: it leaves `fd` closed and all others as they are. -/
theorem sysClose_filp {x : Files × Int} (hx : s.sysClose t fd = some x) :
    (∀ v e, ¬ (v = t ∧ e = fd) → x.1.filp v e = s.filp v e) ∧ (fd < nrOpen → x.1.filp t fd = none) := by
  unfold Files.sysClose at hx
  split at hx
  next hfd =>
    cases Option.some.inj hx
    exact ⟨fun _ _ _ => rfl, fun hlt => absurd hfd (by omega)⟩
  next =>
    dsimp only at hx
    split at hx
    next hnone =>
      cases Option.some.inj hx
      exact ⟨fun _ _ _ => rfl, fun _ => hnone⟩
    next j hj =>
      split at hx
      next => cases hx
      next =>
        cases Option.some.inj hx
        refine ⟨fun v e hat => ?_, fun _ => ?_⟩
        · change ((s.setCloseOnExec t fd false).setFilp t fd none).filp v e = s.filp v e
          rw [setFilp_other (by omega)]
          rfl
        · exact setFilp_self

/-- `Close: file count is 0` does not happen. -/
theorem Counted.sysClose_isSome (h : s.Counted) : ∃ x, s.sysClose t fd = some x := by
  unfold Files.sysClose
  split
  next => exact ⟨_, rfl⟩
  next =>
    dsimp only
    split
    next => exact ⟨_, rfl⟩
    next j hj =>
      have hpos := h.ref_pos (show s.filp t fd = some j from hj)
      rw [if_neg (by change ¬ (s.file j).count = 0; omega)]
      exact ⟨_, rfl⟩

/-- A loop of closes keeps the accounts and does not panic; below `n` it leaves what the test refused. -/
theorem closeEach_spec {q : Files → Nat → Bool} (hc : s.Counted) (hm : s.Marks) (ht : t < nrTasks) (hn : n ≤ nrOpen) :
    ∃ s', s.closeEach t q n = some s' ∧ s'.Counted ∧ s'.Marks ∧ (∀ v e, v ≠ t → s'.filp v e = s.filp v e) ∧
      ∀ e < n, s'.filp t e = none ∨ ∃ m : Files, q m e = false ∧ s'.filp t e = m.filp t e := by
  induction n with
  | zero => exact ⟨s, rfl, hc, hm, fun _ _ _ => rfl, fun e he => absurd he (Nat.not_lt_zero e)⟩
  | succ n ih =>
    obtain ⟨m, hrun, hcm, hmm, hother, hdone⟩ := ih (by omega)
    unfold closeEach
    rw [hrun, Option.bind_some]
    by_cases hq : q m n = true
    · obtain ⟨x, hx⟩ := @Counted.sysClose_isSome m t n hcm
      obtain ⟨hsame, hclosed⟩ := sysClose_filp hx
      rw [if_pos hq, hx]
      refine ⟨x.1, rfl, hcm.sysClose ht hx, hmm.sysClose hx, fun v e hv => ?_, fun e he => ?_⟩
      · rw [hsame v e fun hat => hv hat.1]
        exact hother v e hv
      · by_cases hen : e = n
        · rw [hen]
          exact .inl (hclosed (by omega))
        · rw [hsame t e fun hat => hen hat.2]
          exact hdone e (by omega)
    · rw [if_neg hq]
      refine ⟨m, rfl, hcm, hmm, hother, fun e he => ?_⟩
      by_cases hen : e = n
      · rw [hen]
        exact .inr ⟨m, Bool.eq_false_iff.mpr hq, rfl⟩
      · exact hdone e (by omega)

theorem closeMarked_spec (hc : s.Counted) (hm : s.Marks) (ht : t < nrTasks) :
    ∃ s', s.closeMarked t = some s' ∧ s'.Counted ∧ s'.Marks ∧ ∀ v e, v ≠ t → s'.filp v e = s.filp v e := by
  obtain ⟨m, hrun, hcm, hmm, hother, _⟩ := closeEach_spec (q := fun s fd => s.closeOnExec t fd) hc hm ht (Nat.le_refl nrOpen)
  refine ⟨{ m with closeOnExec := Function.update m.closeOnExec t fun _ => false }, ?_, hcm.of_eq (fun _ => rfl) rfl, ?_, hother⟩
  · unfold closeMarked
    rw [hrun, Option.map_some]
  · refine hmm.change (fun v e hb => ?_) fun v e _ hne => hne
    change Function.update m.closeOnExec t (fun _ => false) v e = true at hb
    by_cases hv : v = t
    · rw [hv, Function.update_self] at hb
      cases hb
    · rw [Function.update_of_ne hv] at hb
      exact hb

/-- `do_exit` leaves a task without descriptors. -/
theorem closeAll_spec (hc : s.Counted) (hm : s.Marks) (ht : t < nrTasks) :
    ∃ s', s.closeAll t = some s' ∧ s'.Counted ∧ s'.Marks ∧ (∀ v e, v ≠ t → s'.filp v e = s.filp v e) ∧ ∀ e, s'.filp t e = none := by
  obtain ⟨m, hrun, hcm, hmm, hother, hdone⟩ :=
    closeEach_spec (q := fun s fd => (s.filp t fd).isSome) hc hm ht (Nat.le_refl nrOpen)
  refine ⟨m, hrun, hcm, hmm, hother, fun e => ?_⟩
  by_cases he : e < nrOpen
  · rcases hdone e he with hnone | ⟨m', hq, heq⟩
    · exact hnone
    · rw [heq]
      exact Option.not_isSome_iff_eq_none.mp (by rw [hq]; exact nofun)
  · cases hfd : m.filp t e with
    | none => rfl
    | some j => exact absurd (hcm.low t e j hfd).2 he

end Files

end RheeKernel
