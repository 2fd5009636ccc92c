import RheeKernel.Descriptors

open Finset

namespace RheeKernel

inductive TaskSlot
  | free
  | live
  | zombie
deriving DecidableEq

/-- The descriptors of all tasks, beside them what each slot of `task[]` holds. -/
structure TaskFiles where
  files : Files
  slot : Nat → TaskSlot

inductive DescriptorCall
  | sysOpen (t : Nat) (l : Lookup) (flag mode : BitVec 32)
  | sysClose (t fd : Nat)
  | sysDup (t fd : Nat)
  | sysDup2 (t oldfd newfd : Nat)
  | sysFcntl (t fd cmd : Nat) (arg : BitVec 32)
  | sysPipe (t : Nat) (node : Option Nat)
  | fork (t : Nat) (mem : Bool)
  | execve (t : Nat)
  | exit (t : Nat) (orphan : Bool)
  | release (t : Nat)

namespace TaskFiles

def setFiles (s : TaskFiles) (f : Files) : TaskFiles := { s with files := f }

def setSlot (s : TaskFiles) (t : Nat) (k : TaskSlot) : TaskFiles := { s with slot := Function.update s.slot t k }

/-- `find_empty_process` and `copy_process`; `mem` says whether the latter gets its pages and tables. -/
def fork (s : TaskFiles) (t : Nat) (mem : Bool) : TaskFiles :=
  match Files.firstIndex (fun u => s.slot u == .free) (nrTasks - 1) 1 with
  | none => s
  | some u => if mem then (s.setFiles (s.files.forkFiles t u)).setSlot u .live else s

end TaskFiles

/-- Calls come from live tasks; `none` is a panic or a call that nobody can make. An orphan's structure goes at once, any other
waits as a zombie for its father. `execve` stands for the part past the point of no return: before it no descriptor is touched. -/
def descriptorStep (s : TaskFiles) : DescriptorCall → Option TaskFiles
  | .sysOpen t l flag mode =>
    if s.slot t = .live ∧ s.files.LookupOk l then some (s.setFiles (s.files.sysOpen t l flag mode).1) else none
  | .sysClose t fd => if s.slot t = .live then (s.files.sysClose t fd).map fun r => s.setFiles r.1 else none
  | .sysDup t fd => if s.slot t = .live then some (s.setFiles (s.files.sysDup t fd).1) else none
  | .sysDup2 t oldfd newfd => if s.slot t = .live then (s.files.sysDup2 t oldfd newfd).map fun r => s.setFiles r.1 else none
  | .sysFcntl t fd cmd arg => if s.slot t = .live then some (s.setFiles (s.files.sysFcntl t fd cmd arg).1) else none
  | .sysPipe t node => if s.slot t = .live then some (s.setFiles (s.files.sysPipe t node).1) else none
  | .fork t mem => if s.slot t = .live then some (s.fork t mem) else none
  | .execve t => if s.slot t = .live then (s.files.closeMarked t).map fun f => s.setFiles f else none
  | .exit t orphan =>
    if s.slot t = .live ∧ t ≠ 0 then
      (s.files.closeAll t).map fun f => (s.setFiles f).setSlot t (if orphan then .free else .zombie)
    else none
  | .release t => if s.slot t = .zombie then some (s.setSlot t .free) else none

/-- The first task, without descriptors. -/
def descriptorInit (inode : Nat → Option FileInode) (cred : Nat → Cred) : TaskFiles where
  files := fileInit inode cred
  slot := fun t => if t = 0 then .live else .free

namespace TaskFiles

structure Accounts (s : TaskFiles) : Prop where
  counted : s.files.Counted
  marks : s.files.Marks
  low : ∀ t, s.slot t = .live → t < nrTasks
  gone : ∀ t, s.slot t ≠ .live → ∀ fd, s.files.filp t fd = none

variable {s s' : TaskFiles} {t u fd j : Nat} {mem : Bool} {c : DescriptorCall}

/-- A call that touches the descriptors of its own live task. -/
theorem Accounts.own {f : Files} (h : s.Accounts) (ht : s.slot t = .live) (hc : f.Counted) (hm : f.Marks)
    (hother : ∀ v e, v ≠ t → f.filp v e = s.files.filp v e) : (s.setFiles f).Accounts := by
  refine ⟨hc, hm, h.low, fun v hv e => ?_⟩
  have hne : v ≠ t := by
    intro hvt
    rw [hvt] at hv
    exact hv ht
  change f.filp v e = none
  rw [hother v e hne]
  exact h.gone v hv e

end TaskFiles

namespace Files

variable {s s' : Files} {t u v fd e j k : Nat}

theorem sysOpen_others {l : Lookup} {flag mode : BitVec 32} (hv : v ≠ t) :
    (s.sysOpen t l flag mode).1.filp v e = s.filp v e := by
  rcases @sysOpen_cases s t l flag mode with ⟨_, hfilp, _⟩ | ⟨fd, j, _, _, _, _, _, _, _, _, _, _, _, _, hfilp, _⟩
  · rw [hfilp]
  · rw [hfilp, setFilp_other (.inl hv)]

theorem dupfd_others {arg : Nat} (hv : v ≠ t) : (s.dupfd t fd arg).1.filp v e = s.filp v e := by
  rcases @dupfd_cases s t fd arg with heq | ⟨j, k, _, _, _, heq⟩
  · rw [heq]
  · rw [heq]
    change ((s.setCloseOnExec t k false).setFilp t k (some j)).filp v e = s.filp v e
    rw [setFilp_other (.inl hv)]
    rfl

theorem sysFcntl_others {cmd : Nat} {arg : BitVec 32} (hv : v ≠ t) : (s.sysFcntl t fd cmd arg).1.filp v e = s.filp v e := by
  rcases @sysFcntl_cases s t fd cmd arg with heq | ⟨_, hfilp, _⟩ | ⟨j, heq⟩
  · rw [heq]
    exact dupfd_others hv
  · rw [hfilp]
  · rw [heq]
    rfl

theorem sysPipe_others {node : Option Nat} (hv : v ≠ t) : (s.sysPipe t node).1.filp v e = s.filp v e := by
  rcases @sysPipe_cases s t node with heq | ⟨i, k, r, w, m, _, _, _, _, _, _, heq⟩
  · rw [heq]
  · rw [heq, setFilp_other (.inl hv), setFilp_other (.inl hv)]
    rfl

/-- An `unsigned short` holds every count. -/
theorem Counted.count_le (h : s.Counted) : (s.file j).count ≤ nrTasks * nrOpen := by
  rw [h.count]
  have hrow : ∀ t, rowRefs (s.filp t) j ≤ nrOpen := by
    intro t
    have hle : rowRefs (s.filp t) j ≤ ∑ fd ∈ range nrOpen, 1 := by
      refine sum_le_sum fun fd _ => ?_
      split
      next => exact le_rfl
      next => exact Nat.zero_le _
    rw [sum_const_nat fun _ _ => rfl, card_range, Nat.mul_one] at hle
    exact hle
  have hall : s.refs j ≤ ∑ t ∈ range nrTasks, nrOpen := sum_le_sum fun t _ => hrow t
  rw [sum_const_nat fun _ _ => rfl, card_range] at hall
  exact hall

end Files

namespace TaskFiles

variable {s s' : TaskFiles} {t u fd j : Nat} {mem : Bool} {c : DescriptorCall}

theorem Accounts.fork (h : s.Accounts) (ht : s.slot t = .live) : (s.fork t mem).Accounts := by
  unfold TaskFiles.fork
  split
  next => exact h
  next u hu =>
    obtain ⟨hlow, hlt, hfree⟩ := Files.firstIndex_spec hu
    have hu' : u < nrTasks := by
      unfold nrTasks at *
      omega
    have hslot : s.slot u = .free := beq_iff_eq.mp hfree
    have hempty : ∀ fd, s.files.filp u fd = none := h.gone u (by rw [hslot]; exact nofun)
    cases mem with
    | false => exact h
    | true =>
      rw [if_pos rfl]
      refine ⟨h.counted.forkFiles hu' fun fd _ => hempty fd, h.marks.forkFiles, fun v hv => ?_, fun v hv e => ?_⟩
      · by_cases hvu : v = u
        · rw [hvu]
          exact hu'
        · refine h.low v ?_
          rw [← hv]
          exact (Function.update_of_ne hvu _ _).symm
      · have hvu : v ≠ u := by
          rintro rfl
          exact hv (Function.update_self _ _ _)
        have hold : s.slot v ≠ .live := by
          intro hl
          exact hv ((Function.update_of_ne hvu _ _).trans hl)
        obtain ⟨hfilp, _⟩ := @Files.inherit_spec s.files t nrOpen
        change Function.update (s.files.inherit t nrOpen).filp u _ v e = none
        rw [Function.update_of_ne hvu, hfilp]
        exact h.gone v hold e

theorem Accounts.step (h : s.Accounts) (hs : descriptorStep s c = some s') : s'.Accounts := by
  cases c with
  | sysOpen t l flag mode =>
    simp only [descriptorStep] at hs
    split at hs
    next ht =>
      cases Option.some.inj hs
      exact h.own ht.1 (h.counted.sysOpen (h.low t ht.1)) h.marks.sysOpen fun v e hv => Files.sysOpen_others hv
    next => cases hs
  | sysClose t fd =>
    simp only [descriptorStep] at hs
    split at hs
    next ht =>
      obtain ⟨x, hx, rfl⟩ := Option.map_eq_some_iff.mp hs
      exact h.own ht (h.counted.sysClose (h.low t ht) hx) (h.marks.sysClose hx) fun v e hv =>
        (Files.sysClose_filp hx).1 v e fun hat => hv hat.1
    next => cases hs
  | sysDup t fd =>
    simp only [descriptorStep] at hs
    split at hs
    next ht =>
      cases Option.some.inj hs
      exact h.own ht (h.counted.dupfd (h.low t ht)) h.marks.dupfd fun v e hv => Files.dupfd_others hv
    next => cases hs
  | sysDup2 t oldfd newfd =>
    simp only [descriptorStep] at hs
    split at hs
    next ht =>
      obtain ⟨x, hx, rfl⟩ := Option.map_eq_some_iff.mp hs
      obtain ⟨y, hy, rfl⟩ := Option.map_eq_some_iff.mp hx
      have hclosed := h.own ht (h.counted.sysClose (h.low t ht) hy) (h.marks.sysClose hy) fun v e hv =>
        (Files.sysClose_filp hy).1 v e fun hat => hv hat.1
      exact hclosed.own ht (hclosed.counted.dupfd (h.low t ht)) hclosed.marks.dupfd fun v e hv => Files.dupfd_others hv
    next => cases hs
  | sysFcntl t fd cmd arg =>
    simp only [descriptorStep] at hs
    split at hs
    next ht =>
      cases Option.some.inj hs
      exact h.own ht (h.counted.sysFcntl (h.low t ht)) h.marks.sysFcntl fun v e hv => Files.sysFcntl_others hv
    next => cases hs
  | sysPipe t node =>
    simp only [descriptorStep] at hs
    split at hs
    next ht =>
      cases Option.some.inj hs
      exact h.own ht (h.counted.sysPipe (h.low t ht)) h.marks.sysPipe fun v e hv => Files.sysPipe_others hv
    next => cases hs
  | fork t mem =>
    simp only [descriptorStep] at hs
    split at hs
    next ht =>
      cases Option.some.inj hs
      exact h.fork ht
    next => cases hs
  | execve t =>
    simp only [descriptorStep] at hs
    split at hs
    next ht =>
      obtain ⟨f, hf, rfl⟩ := Option.map_eq_some_iff.mp hs
      obtain ⟨f', hf', hc, hm, hother⟩ := Files.closeMarked_spec h.counted h.marks (h.low t ht)
      rw [hf] at hf'
      cases Option.some.inj hf'
      exact h.own ht hc hm hother
    next => cases hs
  | exit t orphan =>
    simp only [descriptorStep] at hs
    split at hs
    next ht =>
      obtain ⟨f, hf, rfl⟩ := Option.map_eq_some_iff.mp hs
      obtain ⟨f', hf', hc, hm, hother, hnone⟩ := Files.closeAll_spec h.counted h.marks (h.low t ht.1)
      rw [hf] at hf'
      cases Option.some.inj hf'
      have hown := h.own ht.1 hc hm hother
      refine ⟨hc, hm, fun v hv => ?_, fun v hv e => ?_⟩
      · have hvt : v ≠ t := by
          rintro rfl
          change Function.update s.slot v _ v = _ at hv
          rw [Function.update_self] at hv
          cases orphan <;> cases hv
        exact h.low v ((Function.update_of_ne hvt _ _).symm.trans hv)
      · by_cases hvt : v = t
        · rw [hvt]
          exact hnone e
        · exact hown.gone v (fun hl => hv ((Function.update_of_ne hvt _ _).trans hl)) e
    next => cases hs
  | release t =>
    simp only [descriptorStep] at hs
    split at hs
    next ht =>
      cases Option.some.inj hs
      refine ⟨h.counted, h.marks, fun v hv => ?_, fun v hv e => ?_⟩
      · have hvt : v ≠ t := by
          rintro rfl
          change Function.update s.slot v _ v = _ at hv
          rw [Function.update_self] at hv
          cases hv
        exact h.low v ((Function.update_of_ne hvt _ _).symm.trans hv)
      · by_cases hvt : v = t
        · rw [hvt]
          exact h.gone t (by rw [ht]; exact nofun) e
        · exact h.gone v (fun hl => hv ((Function.update_of_ne hvt _ _).trans hl)) e
    next => cases hs

end TaskFiles

/-- Between system calls every `f_count` is the number of descriptors of all tasks that refer to the entry, which an
`unsigned short` can hold, slots without a live task hold no descriptors, and a close-on-exec bit is set only for an open
descriptor; no close finds a count of zero. -/
theorem descriptor_accounting {inode : Nat → Option FileInode} {cred : Nat → Cred} {s : TaskFiles}
    (h : Machine.Reach descriptorStep (fun _ _ => True) (descriptorInit inode cred) s) :
    (∀ j, (s.files.file j).count = s.files.refs j ∧ s.files.refs j < 2 ^ 16) ∧
      (∀ t fd, s.files.closeOnExec t fd = true → s.files.filp t fd ≠ none) ∧
      (∀ t, s.slot t ≠ .live → ∀ fd, s.files.filp t fd = none) ∧ ∀ t fd, (s.files.sysClose t fd).isSome := by
  have hI : s.Accounts := by
    refine h.invariant ?_ fun _ _ _ hI _ hs => hI.step hs
    refine ⟨⟨fun j => ?_, fun _ _ _ hj => nomatch hj⟩, fun _ _ hb => (nomatch hb), fun t ht => ?_, fun _ _ _ => rfl⟩
    · change 0 = _
      unfold Files.refs Files.rowRefs
      simp [descriptorInit, fileInit]
    · change (if t = 0 then TaskSlot.live else .free) = .live at ht
      split at ht
      next h0 => rw [h0]; decide
      next => cases ht
  refine ⟨fun j => ⟨hI.counted.count j, ?_⟩, hI.marks, hI.gone, fun t fd => ?_⟩
  · have hle := @Files.Counted.count_le s.files j hI.counted
    rw [hI.counted.count] at hle
    unfold nrTasks nrOpen at hle
    omega
  · obtain ⟨x, hx⟩ := @Files.Counted.sysClose_isSome s.files t fd hI.counted
    rw [hx]
    rfl

/-- A pipe whose ends are shared with a child. -/
theorem descriptor_accounting_forked :
    ∃ s, Machine.exec descriptorStep (descriptorInit (fun _ => none) fun _ => ⟨0, 0, 0, 0, 0, false, -1, 0⟩)
      [.sysPipe 0 (some 0), .fork 0 true] = some s ∧ (s.files.file 1).count = 2 ∧ s.files.refs 1 = 2 := by
  obtain ⟨s, hs, hcount⟩ : ∃ s, Machine.exec descriptorStep (descriptorInit (fun _ => none) fun _ => ⟨0, 0, 0, 0, 0, false, -1, 0⟩)
      [.sysPipe 0 (some 0), .fork 0 true] = some s ∧ (s.files.file 1).count = 2 :=
    Option.map_eq_some_iff.mp (show (Machine.exec descriptorStep
      (descriptorInit (fun _ => none) fun _ => ⟨0, 0, 0, 0, 0, false, -1, 0⟩)
      [.sysPipe 0 (some 0), .fork 0 true]).map (fun s => (s.files.file 1).count) = some 2 by decide +kernel)
  have hreach := @Machine.Reach.exec _ _ _ (fun _ _ => True) _ _ _ _ .start (fun _ _ _ => trivial) hs
  have hrefs := ((descriptor_accounting hreach).1 1).1
  exact ⟨s, hs, hcount, hrefs.symm.trans hcount⟩

end RheeKernel
