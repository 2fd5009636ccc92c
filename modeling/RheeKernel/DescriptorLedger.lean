import RheeKernel.NameLedger

open Finset

namespace RheeKernel

namespace Files

variable {s : Files} {t fd j n : Nat}

theorem inherit_mode : ((s.inherit t n).file j).mode = (s.file j).mode := by
  induction n with
  | zero => rfl
  | succ n ih =>
    unfold inherit
    dsimp only
    split
    next => exact ih
    next i _ =>
      by_cases hj : j = i
      · rw [hj] at ih ⊢
        rw [setFile_self]
        exact ih
      · rw [setFile_other hj]
        exact ih

/-- `sys_close` lets go of at most one entry. -/
theorem sysClose_file {x : Files × Int} (hx : s.sysClose t fd = some x) :
    (x.1.file = s.file ∧ (nrOpen ≤ fd ∨ s.filp t fd = none)) ∨
      ∃ j, fd < nrOpen ∧ s.filp t fd = some j ∧ x.1.file = Function.update s.file j { s.file j with count := (s.file j).count - 1 } := by
  unfold Files.sysClose at hx
  split at hx
  next hfd =>
    cases Option.some.inj hx
    exact .inl ⟨rfl, .inl hfd⟩
  next hfd =>
    dsimp only at hx
    split at hx
    next hnone =>
      cases Option.some.inj hx
      exact .inl ⟨rfl, .inr hnone⟩
    next j hj =>
      split at hx
      next => cases hx
      next =>
        cases Option.some.inj hx
        exact .inr ⟨j, by omega, hj, rfl⟩

end Files

namespace Vfs

open Triples

variable {s s' s₁ t' : Vfs} {held held' : List Nat} {me t u k j fd n : Nat} {f : Files} {file : OpenFile} {p : FsTask} {mode : BitVec 32}
  {filename : List UInt8}

/-- A call on descriptors changes neither inodes nor what the processes stand in. -/
structure OnFiles (s s' : Vfs) : Prop where
  slot : s'.slot = s.slot
  isup : s'.isup = s.isup
  imount : s'.imount = s.imount
  stand : ∀ t, (s'.task t).pwd = (s.task t).pwd ∧ (s'.task t).root = (s.task t).root ∧ (s'.task t).live = (s.task t).live

theorem onFiles_withFiles : OnFiles s (s.withFiles f) := ⟨rfl, rfl, rfl, fun _ => ⟨rfl, rfl, rfl⟩⟩

theorem OnFiles.stands (h : OnFiles s s') : ∑ t ∈ range nrTasks, stands k (s'.task t) = ∑ t ∈ range nrTasks, stands k (s.task t) := by
  refine sum_congr rfl fun t _ => ?_
  unfold Vfs.stands
  rw [(h.stand t).1, (h.stand t).2.1]

theorem OnFiles.refs (h : OnFiles s s') (hj : j < nrFile) (hfile : s'.file = Function.update s.file j file) :
    s'.refs k + uses k (s.file j) = s.refs k + uses k file := by
  have hsum := Counting.sum_update_add (mem_range.mpr hj) (uses k) s.file file
  unfold Vfs.refs
  rw [h.stands, hfile, h.isup, h.imount]
  omega

theorem OnFiles.refs_same (h : OnFiles s s') (hfile : ∀ j, uses k (s'.file j) = uses k (s.file j)) : s'.refs k = s.refs k := by
  unfold Vfs.refs
  rw [h.stands, sum_congr rfl fun j _ => hfile j, h.isup, h.imount]

/-- No entry comes to refer to a pipe. -/
theorem Tidy.onFiles (h : s.Tidy) (ho : OnFiles s s') (hc : s'.files.Counted)
    (hlow : ∀ t fd j, (s'.task t).filp fd = some j → j < nrFile)
    (hgone : ∀ t, (s.task t).live = false → ∀ fd, (s'.task t).filp fd = none)
    (hsub : ∀ j, 0 < (s'.file j).count → (s.slot (s'.file j).inode).pipe = true →
      0 < (s.file j).count ∧ (s'.file j).inode = (s.file j).inode ∧ (s'.file j).mode = (s.file j).mode) : s'.Tidy := by
  have hend : ∀ k m j, (s.slot k).pipe = true → s'.EndOf k m j → s.EndOf k m j := by
    intro k m j hk ⟨hj, hcount, hinode, hmode⟩
    rw [← hinode] at hk
    obtain ⟨hcount', hinode', hmode'⟩ := hsub j hcount hk
    exact ⟨hj, hcount', hinode' ▸ hinode, hmode' ▸ hmode⟩
  refine ⟨fun k hk => ?_, fun t k hk => ?_, fun k hk => ?_, fun j hj hp => ?_, fun k m i j hk hi hj => ?_, hc, hlow,
    fun t ht => ?_, fun t ht => ?_⟩
  · rw [ho.slot] at hk ⊢
    exact h.named k hk
  · rw [(ho.stand t).1, (ho.stand t).2.1] at hk
    rw [ho.slot]
    exact h.dirs t k hk
  · rw [ho.isup, ho.imount] at hk
    rw [ho.slot]
    exact h.super k hk
  · rw [ho.slot] at hp
    obtain ⟨hcount, hinode, hmode⟩ := hsub j hj hp
    rw [hmode]
    rw [hinode] at hp
    exact h.ends j hcount hp
  · rw [ho.slot] at hk
    exact h.one k m i j hk (hend k m i hk hi) (hend k m j hk hj)
  · rw [(ho.stand t).2.2] at ht
    exact h.few t ht
  · rw [(ho.stand t).2.2] at ht
    obtain ⟨hpwd, hroot, _⟩ := h.gone t ht
    rw [(ho.stand t).1, (ho.stand t).2.1]
    exact ⟨hpwd, hroot, hgone t ht⟩

/-- One process gets other directories, or comes up, or is gone. -/
theorem Balanced.repoint (h : s.Balanced held) (ht : t < nrTasks) (htask : s'.task = Function.update s.task t p)
    (hfile : s'.file = s.file) (hslot : s'.slot = s.slot) (hisup : s'.isup = s.isup) (himount : s'.imount = s.imount)
    (hfilp : p.filp = (s.task t).filp) (hgone : p.live = false → p.pwd = none ∧ p.root = none ∧ ∀ fd, p.filp fd = none)
    (hcount : ∀ k, stands k p + held'.count k = stands k (s.task t) + held.count k)
    (hdirs : ∀ k, p.pwd = some k ∨ p.root = some k → (s.slot k).pipe = false) (hhand : ∀ k ∈ held', (s.slot k).pipe = false) :
    s'.Balanced held' := by
  have hself : s'.task t = p := by rw [htask, Function.update_self]
  have hother : ∀ v, v ≠ t → s'.task v = s.task v := fun v hv => by rw [htask, Function.update_of_ne hv]
  have hrow : ∀ v, (s'.task v).filp = (s.task v).filp := by
    intro v
    by_cases hv : v = t
    · rw [hv, hself, hfilp]
    · rw [hother v hv]
  refine ⟨⟨fun k hk => ?_, fun v k hk => ?_, fun k hk => ?_, fun j hj hp => ?_, fun k m i j hk hi hj => ?_, ?_, fun v fd j hj => ?_,
    fun v hv => ?_, fun v hv => ?_⟩, fun k => ?_, fun k hk => ?_⟩
  · rw [hslot] at hk ⊢
    exact h.named k hk
  · rw [hslot]
    by_cases hv : v = t
    · rw [hv, hself] at hk
      exact hdirs k hk
    · rw [hother v hv] at hk
      exact h.dirs v k hk
  · rw [hisup, himount] at hk
    rw [hslot]
    exact h.super k hk
  · rw [hfile] at hj hp ⊢
    rw [hslot] at hp
    exact h.ends j hj hp
  · rw [hslot] at hk
    unfold EndOf at hi hj
    rw [hfile] at hi hj
    exact h.one k m i j hk hi hj
  · refine h.fds.of_eq (fun j => ?_) (funext hrow)
    exact congrArg OpenFile.count (congrFun hfile j)
  · rw [hrow] at hj
    exact h.low v fd j hj
  · by_cases hvt : v = t
    · rw [hvt]
      exact ht
    · rw [hother v hvt] at hv
      exact h.few v hv
  · by_cases hvt : v = t
    · rw [hvt, hself] at hv ⊢
      exact hgone hv
    · rw [hother v hvt] at hv ⊢
      exact h.gone v hv
  · have hsum := Counting.sum_update_add (mem_range.mpr ht) (stands k) s.task p
    have hk := h.counts k
    have hc := hcount k
    unfold Vfs.refs at hk ⊢
    rw [hslot, hfile, htask, hisup, himount]
    omega
  · rw [hslot]
    exact hhand k hk

/-- A process in a call keeps its descriptors and stays alive. -/
theorem Owes.repoint (h : s.Owes me held) (ht : t < nrTasks) (htask : s'.task = Function.update s.task t p)
    (hfile : s'.file = s.file) (hslot : s'.slot = s.slot) (hisup : s'.isup = s.isup) (himount : s'.imount = s.imount)
    (hfilp : p.filp = (s.task t).filp) (hlive : p.live = true)
    (hcount : ∀ k, stands k p + held'.count k = stands k (s.task t) + held.count k)
    (hdirs : ∀ k, p.pwd = some k ∨ p.root = some k → (s.slot k).pipe = false) (hhand : ∀ k ∈ held', (s.slot k).pipe = false) :
    s'.Owes me held' := by
  refine ⟨h.toBalanced.repoint ht htask hfile hslot hisup himount hfilp (fun hc => ?_) hcount hdirs hhand, ?_⟩
  · rw [hlive] at hc
    cases hc
  · rw [htask]
    by_cases hmt : me = t
    · rw [hmt, Function.update_self]
      exact hlive
    · rw [Function.update_of_ne hmt]
      exact h.alive

theorem Dropped.beside (hd : Dropped k s t') (hb : Beside s₁ s') (hslot : s₁.slot = s.slot) (hslot' : s'.slot = t'.slot) :
    Dropped k s₁ s' := by
  refine ⟨hb, ?_, ?_, ?_⟩
  · rw [hslot, hslot']
    exact hd.count
  · rw [hslot, hslot']
    exact hd.pipe
  · rw [hslot, hslot']
    exact hd.others

/-- A process gives up a directory, and is about to point elsewhere. -/
theorem giveBack_repoint (held : List Nat) {g : FsTask → FsTask} {o : Option Nat} (ht : t < nrTasks) (hfilp : (g (s.task t)).filp = (s.task t).filp)
    (hgone : (g (s.task t)).live = false → (g (s.task t)).pwd = none ∧ (g (s.task t)).root = none ∧ ∀ fd, (g (s.task t)).filp fd = none)
    (hcount : ∀ k, stands k (g (s.task t)) + (withSlot o held).count k = stands k (s.task t) + held'.count k)
    (hdirs : ∀ k, (g (s.task t)).pwd = some k ∨ (g (s.task t)).root = some k → (s.slot k).pipe = false)
    (hhand : ∀ k ∈ withSlot o held, (s.slot k).pipe = false) :
    Triple (fun u => u = s ∧ u.Balanced held') (giveBack o) fun _ u =>
      u.task = s.task ∧ Balanced held { u with task := Function.update u.task t (g (u.task t)) } := by
  intro u hu b v hv
  obtain ⟨rfl, hu⟩ := hu
  have hpoint : Balanced (withSlot o held) { u with task := Function.update u.task t (g (u.task t)) } :=
    hu.repoint ht rfl rfl rfl rfl rfl hfilp hgone hcount hdirs hhand
  cases o with
  | none =>
    cases Option.some.inj hv
    exact ⟨rfl, hpoint⟩
  | some k =>
    have hdrop := iput_drops u rfl _ _ hv
    refine ⟨hdrop.task, hpoint.dropped (hdrop.beside ⟨hdrop.file, ?_, hdrop.isup, hdrop.imount⟩ rfl rfl)⟩
    dsimp only
    rw [hdrop.task]

theorem count_withSlot {o : Option Nat} : (withSlot o held).count k = held.count k + if o = some k then 1 else 0 := by
  cases o with
  | none =>
    rw [if_neg (by simp)]
    rfl
  | some j =>
    refine List.count_cons.trans ?_
    by_cases hj : j = k
    · rw [if_pos (beq_iff_eq.mpr hj), if_pos (congrArg some hj)]
    · rw [if_neg (fun hc => hj (beq_iff_eq.mp hc)), if_neg fun hc => hj (Option.some.inj hc)]

theorem mem_withSlot {o : Option Nat} (h : k ∈ withSlot o held) : o = some k ∨ k ∈ held := by
  cases o with
  | none => exact .inr h
  | some j =>
    rcases List.mem_cons.mp h with rfl | h
    · exact .inl rfl
    · exact .inr h

/-- A process leaves a directory for the one that the call has in hand. -/
theorem moveTo_owes {g : FsTask → FsTask} {o : Option Nat} (ht : me < nrTasks) (hfilp : (g (s.task me)).filp = (s.task me).filp)
    (hlive : (g (s.task me)).live = (s.task me).live)
    (hcount : ∀ j, stands j (g (s.task me)) + (if o = some j then 1 else 0) = stands j (s.task me) + if some k = some j then 1 else 0)
    (hold : ∀ j, o = some j → (s.task me).pwd = some j ∨ (s.task me).root = some j)
    (hnew : ∀ j, (g (s.task me)).pwd = some j ∨ (g (s.task me)).root = some j → j = k ∨ (s.task me).pwd = some j ∨ (s.task me).root = some j) :
    Triple (fun u => u = s ∧ u.Owes me (k :: held)) (do giveBack o; editTask me g; return (0 : Int)) fun _ => Owes me held := by
  refine .pre (.fact fun hs => ?_) (P := fun u => s.Owes me (k :: held) ∧ u = s ∧ u.Balanced (k :: held))
    fun u hu => ⟨hu.1 ▸ hu.2, hu.1, hu.2.toBalanced⟩
  have halive := hlive.trans hs.alive
  refine .bind (giveBack_repoint held ht hfilp (fun hc => ?_) (fun j => ?_) (fun j hj => ?_) fun j hj => ?_) fun _ =>
    .bind (Q := fun _ => Owes me held) (.modify fun u hu => ⟨hu.2, ?_⟩) fun _ => .pure fun _ hu => hu
  · rw [halive] at hc
    cases hc
  · have hj := hcount j
    rw [count_withSlot, show (k :: held).count j = (withSlot (some k) held).count j from rfl, count_withSlot]
    omega
  · rcases hnew j hj with rfl | hj
    · exact hs.hand j List.mem_cons_self
    · exact hs.dirs me j hj
  · rcases mem_withSlot hj with hj | hj
    · exact hs.dirs me j (hold j hj)
    · exact hs.hand j (List.mem_cons_of_mem _ hj)
  · dsimp only
    rw [Function.update_self, hu.1]
    exact halive

theorem sysChdir_owes (ht : me < nrTasks) : Triple (Owes me held) (sysChdir me filename) fun _ => Owes me held := by
  refine .bind namei_owes fun found => ?_
  cases found with
  | none => exact .pure fun _ hs => hs
  | some k =>
    show Triple (Owes me (k :: held)) _ _
    refine .bind Quiet.inode.owes fun i => .ite (fun _ => back_owes) fun _ => .get fun s => ?_
    refine moveTo_owes ht rfl rfl (fun j => ?_) (fun j hj => .inl hj) fun j hj => ?_
    · unfold stands
      dsimp only
      omega
    · rcases hj with hj | hj
      · exact .inl (Option.some.inj hj).symm
      · exact .inr (.inr hj)

theorem sysChroot_owes (ht : me < nrTasks) : Triple (Owes me held) (sysChroot me filename) fun _ => Owes me held := by
  refine .bind namei_owes fun found => ?_
  cases found with
  | none => exact .pure fun _ hs => hs
  | some k =>
    show Triple (Owes me (k :: held)) _ _
    refine .bind Quiet.inode.owes fun i => .ite (fun _ => back_owes) fun _ => .get fun s => ?_
    refine moveTo_owes ht rfl rfl (fun j => ?_) (fun j hj => .inr hj) fun j hj => ?_
    · unfold stands
      dsimp only
      omega
    · rcases hj with hj | hj
      · exact .inr (.inl hj)
      · exact .inl (Option.some.inj hj).symm

/-- A call on descriptors that keeps what the entries in use refer to. -/
theorem Owes.onFiles (h : s.Owes me held) (ho : OnFiles s s') (hc : s'.files.Counted)
    (hlow : ∀ t fd j, (s'.task t).filp fd = some j → j < nrFile)
    (hgone : ∀ t, (s.task t).live = false → ∀ fd, (s'.task t).filp fd = none)
    (hsub : ∀ j, 0 < (s'.file j).count → (s.slot (s'.file j).inode).pipe = true →
      0 < (s.file j).count ∧ (s'.file j).inode = (s.file j).inode ∧ (s'.file j).mode = (s.file j).mode)
    (hcount : ∀ k, s'.refs k + held'.count k = s.refs k + held.count k) (hhand : ∀ k ∈ held', (s.slot k).pipe = false) :
    s'.Owes me held' := by
  refine ⟨⟨h.toTidy.onFiles ho hc hlow hgone hsub, fun k => ?_, fun k hk => ?_⟩, ?_⟩
  · have hk := h.counts k
    have hk' := hcount k
    rw [ho.slot]
    omega
  · rw [ho.slot]
    exact hhand k hk
  · rw [(ho.stand me).2.2]
    exact h.alive

/-- The close-on-exec bits, and what a process is, count for nothing. -/
theorem Owes.bits (h : s.Owes me held) (hfile : f.file = s.file) (hfilp : f.filp = s.files.filp) : (s.withFiles f).Owes me held := by
  have hf : ∀ j, (s.withFiles f).file j = s.file j := congrFun hfile
  refine h.onFiles onFiles_withFiles ?_ (fun t fd j hj => ?_) (fun t ht fd => ?_) (fun j hj _ => ?_) (fun k => ?_) h.hand
  · exact h.fds.of_eq (fun j => congrArg OpenFile.count (hf j)) hfilp
  · exact h.low t fd j ((congrFun (congrFun hfilp t) fd).symm.trans hj)
  · exact (congrFun (congrFun hfilp t) fd).trans ((h.gone t ht).2.2 fd)
  · rw [hf] at hj ⊢
    exact ⟨hj, rfl, rfl⟩
  · rw [onFiles_withFiles.refs_same fun j => by rw [hf]]

theorem claimTty_owes : Triple (Owes me held) (claimTty t k) fun _ => Owes me held := by
  refine .bind Quiet.inode.owes fun i => .bind Quiet.cred.owes fun c => .ite (fun _ => .modify fun s hs => ?_) fun _ => .pure fun _ hs => hs
  exact hs.bits rfl rfl

/-- The new descriptor takes over the reference to an inode that is no pipe. -/
theorem Owes.install {file : OpenFile} (h : s.Owes me (k :: held)) (hme : me < nrTasks) (hfd : fd < nrOpen) (hj : j < nrFile)
    (hfree : (s.task me).filp fd = none) (hzero : (s.file j).count = 0) (hone : file.count = 1) (hinode : file.inode = k) :
    (s.withFiles ((s.files.setFile j file).setFilp me fd (some j))).Owes me held := by
  have hself : (Function.update s.file j file) j = file := Function.update_self _ _ _
  have hother : ∀ i, i ≠ j → (Function.update s.file j file) i = s.file i := fun i hi => Function.update_of_ne hi _ _
  have hfilp : ∀ v e, ((s.files.setFile j file).setFilp me fd (some j)).filp v e = if v = me ∧ e = fd then some j else (s.task v).filp e := by
    intro v e
    by_cases hv : v = me ∧ e = fd
    · rw [if_pos hv, hv.1, hv.2, Files.setFilp_self]
    · rw [if_neg hv, Files.setFilp_other (by omega)]
      rfl
  refine h.onFiles onFiles_withFiles ?_ (fun v e i hi => ?_) (fun v hv e => ?_) (fun i hi hp => ?_) (fun i => ?_)
    fun i hi => h.hand i (List.mem_cons_of_mem _ hi)
  · refine h.fds.change hme hfd (o := some j) rfl fun i => ?_
    change (Function.update s.file j file i).count + (if (s.task me).filp fd = some i then 1 else 0) = (s.file i).count + _
    rw [hfree, if_neg (by simp)]
    by_cases hi : i = j
    · rw [hi, hself, hone, hzero, if_pos rfl]
    · rw [hother i hi, if_neg fun hc => hi (Option.some.inj hc).symm]
  · have hi := (hfilp v e).symm.trans hi
    split at hi
    next =>
      cases Option.some.inj hi
      exact hj
    next => exact h.low v e i hi
  · refine (hfilp v e).trans ?_
    rw [if_neg]
    · exact (h.gone v hv).2.2 e
    · rintro ⟨rfl, _⟩
      rw [h.alive] at hv
      cases hv
  · change 0 < (Function.update s.file j file i).count at hi
    change (s.slot (Function.update s.file j file i).inode).pipe = true at hp
    by_cases hij : i = j
    · rw [hij, hself, hinode, h.hand k List.mem_cons_self] at hp
      cases hp
    · rw [hother i hij] at hi
      exact ⟨hi, congrArg OpenFile.inode (hother i hij), congrArg OpenFile.mode (hother i hij)⟩
  · have hrefs := onFiles_withFiles.refs (k := i) hj (show (s.withFiles ((s.files.setFile j file).setFilp me fd (some j))).file = _ from rfl)
    have hold : uses i (s.file j) = 0 := if_neg fun hc => by omega
    have hnew : uses i file + held.count i = (k :: held).count i := by
      refine Eq.trans ?_ (count_withSlot (o := some k)).symm
      unfold uses
      rw [hone, hinode, Nat.add_comm]
      by_cases hki : k = i
      · rw [if_pos ⟨Nat.one_pos, hki⟩, if_pos (congrArg some hki)]
      · rw [if_neg fun hc => hki hc.2, if_neg fun hc => hki (Option.some.inj hc)]
    omega

/-- Descriptor `fd` of process `me` and file entry `j` are free. -/
def Free (me fd j : Nat) (s : Vfs) : Prop := (s.task me).filp fd = none ∧ (s.file j).count = 0

theorem Free.beside (h : s.Free me fd j) (hb : Beside s s') : s'.Free me fd j := by
  unfold Free
  rw [hb.task, hb.file]
  exact h

theorem claimTty_free : Triple (Free me fd j) (claimTty t k) fun _ => Free me fd j := by
  have hkeep : ∀ {α : Type} {x : Call α}, Quiet x → Triple (Free me fd j) x fun _ => Free me fd j :=
    fun hx => hx.triple fun _ _ h hs => h.beside hs.toBeside
  exact .bind (hkeep .inode) fun i => .bind (hkeep .cred) fun c => .ite (fun _ => .modify fun s hs => hs) fun _ => .pure fun _ hs => hs

theorem sysOpen_owes {flag : BitVec 32} (hme : me < nrTasks) : Triple (Owes me held) (sysOpen me filename flag mode) fun _ => Owes me held := by
  refine .get fun s => ?_
  split
  next => exact .pure fun _ hs => hs.2
  next fd hfd =>
    obtain ⟨_, hlt, hnone⟩ := Files.firstIndex_spec hfd
    refine .bind (Q := fun _ u => u.Owes me held ∧ (u.task me).filp fd = none ∧ u.file = s.file) (.modify fun u hu => ?_) fun _ => ?_
    · obtain ⟨rfl, hu⟩ := hu
      exact ⟨hu.bits rfl rfl, Option.isNone_iff_eq_none.mp hnone, rfl⟩
    · split
      next => exact .pure fun _ hs => hs.1
      next j hj =>
        obtain ⟨_, hjlt, hzero⟩ := Files.firstIndex_spec hj
        rw [beq_iff_eq] at hzero
        refine .pre ?_ (P := fun u => u.Owes me held ∧ u.Free me fd j) fun u hu => ⟨hu.1, hu.2.1, hu.2.2 ▸ hzero⟩
        have hkeep : ∀ {α : Type} {x : Call α} {Q : α → Vfs → Prop}, Triple (Owes me held) x Q → Apart x →
            Triple (fun u => u.Owes me held ∧ u.Free me fd j) x fun a u => Q a u ∧ u.Free me fd j :=
          fun hx ha => hx.and (ha.triple fun _ _ h hb => h.beside hb)
        refine .bind (hkeep Quiet.cred.owes Quiet.cred.apart) fun c => .bind (hkeep openNamei_owes openNamei_apart) fun opened => ?_
        cases opened with
        | error e => exact .pure fun _ hs => hs.1
        | ok k =>
          show Triple (fun u => Owes me (k :: held) u ∧ u.Free me fd j) _ _
          refine .bind (Q := fun _ u => Owes me (k :: held) u ∧ u.Free me fd j) (.get fun _ => .pure fun _ hs => hs.2) fun i => ?_
          refine .ite (fun _ => back_owes.pre fun _ hs => hs.1) fun _ => .bind (claimTty_owes.and claimTty_free) fun _ => ?_
          refine .bind (Q := fun _ => Owes me held) (.modify fun u hu => ?_) fun _ => .pure fun _ hs => hs
          exact hu.1.install hme (by omega) (by omega) hu.2.1 hu.2.2 rfl rfl

end Vfs

end RheeKernel
