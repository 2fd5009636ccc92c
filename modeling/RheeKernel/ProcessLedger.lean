import RheeKernel.DescriptorLedger

open Finset

namespace RheeKernel

namespace Vfs

open Triples

variable {s s' : Vfs} {held : List Nat} {me t u k j fd n : Nat} {f : Files} {x : Files × Int} {filename : List UInt8}

/-- The inode that loses its last descriptor when `fd` is closed. -/
def lastInode (s : Vfs) (t fd : Nat) : Option Nat :=
  (s.openEntry t fd).bind fun j => if (s.file j).count = 1 then some (s.file j).inode else none

/-- The books when nothing refers any more to an inode that is still counted, be it a pipe. -/
structure Loose (me : Nat) (o : Option Nat) (held : List Nat) (s : Vfs) : Prop extends Tidy s where
  alive : (s.task me).live = true
  counts : ∀ k, (s.slot k).count = s.refs k + (withSlot o held).count k
  hand : ∀ k ∈ held, (s.slot k).pipe = false

theorem Loose.owes (h : s.Loose me none held) : s.Owes me held := ⟨⟨h.toTidy, h.counts, h.hand⟩, h.alive⟩

theorem iput_loose : Triple (Loose me (some k) held) (iput k) fun _ => Owes me held :=
  fun s hs a s' ha =>
    have hd := iput_drops s rfl a s' ha
    ⟨hd.balanced hs.toTidy hs.counts hs.hand, hd.task ▸ hs.alive⟩

theorem points_none : (if (none : Option Nat) = some k then 1 else 0) = 0 := if_neg (Option.some_ne_none k).symm

/-- An entry that is used once less. -/
theorem uses_less {f f' : OpenFile} (hpos : 0 < f.count) (hcount : f'.count = f.count - 1) (hinode : f'.inode = f.inode) :
    uses k f' + (if (if f.count = 1 then some f.inode else none) = some k then 1 else 0) = uses k f := by
  unfold uses
  rw [hcount, hinode]
  by_cases hone : f.count = 1
  · rw [hone, if_pos rfl, if_neg fun hc => absurd hc.1 (by decide), Nat.zero_add]
    by_cases hk : f.inode = k
    · rw [if_pos (congrArg some hk), if_pos ⟨Nat.one_pos, hk⟩]
    · rw [if_neg fun hc => hk (Option.some.inj hc), if_neg fun hc => hk hc.2]
  · rw [if_neg hone, points_none, Nat.add_zero]
    by_cases hk : f.inode = k
    · rw [if_pos ⟨by omega, hk⟩, if_pos ⟨hpos, hk⟩]
    · rw [if_neg fun hc => hk hc.2, if_neg fun hc => hk hc.2]

theorem Owes.closed (h : s.Owes me held) (hme : me < nrTasks) (hx : s.files.sysClose me fd = some x) :
    (s.withFiles x.1).Loose me (s.lastInode me fd) held := by
  have hc := h.fds.sysClose hme hx
  obtain ⟨hsame, hclosed⟩ := Files.sysClose_filp hx
  have hsub : ∀ v e i, x.1.filp v e = some i → (s.task v).filp e = some i := by
    intro v e i hi
    by_cases hat : v = me ∧ e = fd
    · have hlt := (hc.low v e i hi).2
      rw [hat.1, hat.2, hclosed (hat.2 ▸ hlt)] at hi
      cases hi
    · exact (hsame v e hat).symm.trans hi
  have hgone : ∀ v, (s.task v).live = false → ∀ e, x.1.filp v e = none := by
    intro v hv e
    cases hi : x.1.filp v e with
    | none => rfl
    | some i =>
      have := hsub v e i hi
      rw [(h.gone v hv).2.2 e] at this
      cases this
  have hfiles : ∀ i, (x.1.file i).inode = (s.file i).inode ∧ (x.1.file i).mode = (s.file i).mode ∧ (x.1.file i).count ≤ (s.file i).count := by
    intro i
    rcases Files.sysClose_file hx with ⟨hfile, _⟩ | ⟨j, _, _, hfile⟩
    · rw [hfile]
      exact ⟨rfl, rfl, Nat.le_refl _⟩
    · rw [hfile]
      by_cases hij : i = j
      · rw [hij, Function.update_self]
        exact ⟨rfl, rfl, Nat.sub_le ..⟩
      · rw [Function.update_of_ne hij]
        exact ⟨rfl, rfl, Nat.le_refl _⟩
  refine ⟨h.toTidy.onFiles onFiles_withFiles (hc.of_eq (fun _ => rfl) rfl) (fun v e i hi => h.low v e i (hsub v e i hi)) hgone fun i hi _ => ?_, h.alive, fun i => ?_,
    h.hand⟩
  · obtain ⟨hinode, hmode, hle⟩ := hfiles i
    exact ⟨Nat.lt_of_lt_of_le hi hle, hinode, hmode⟩
  · have hold := h.counts i
    change (s.slot i).count = _
    rw [count_withSlot]
    unfold lastInode openEntry
    rcases Files.sysClose_file hx with ⟨hfile, hnone⟩ | ⟨j, hfd, hj, hfile⟩
    · have hempty : (if nrOpen ≤ fd then none else (s.task me).filp fd) = none := by
        rcases hnone with hnone | hnone
        · rw [if_pos hnone]
        · change (s.task me).filp fd = none at hnone
          rw [hnone, ite_self]
      rw [hempty, Option.bind_none, if_neg (show ¬ (none : Option Nat) = some i from nofun), onFiles_withFiles.refs_same fun i => congrArg (uses _) (congrFun hfile i)]
      exact hold
    · generalize hnew : ({ s.files.file j with count := (s.files.file j).count - 1 } : OpenFile) = new at hfile
      have hrefs := onFiles_withFiles.refs (k := i) (h.low me fd j hj) (show (s.withFiles x.1).file = Function.update s.file j new from hfile)
      have hpos : 0 < (s.file j).count := h.fds.ref_pos hj
      have hless := uses_less (k := i) hpos (show new.count = (s.file j).count - 1 by rw [← hnew]; rfl)
        (show new.inode = (s.file j).inode by rw [← hnew]; rfl)
      rw [if_neg (Nat.not_le.mpr hfd), show (s.task me).filp fd = some j from hj, Option.bind_some]
      omega

theorem sysClose_owes (hme : me < nrTasks) : Triple (Owes me held) (sysClose me fd) fun _ => Owes me held := by
  refine .get fun s => ?_
  split
  next => exact .failure
  next f r hx =>
    refine .bind (Q := fun _ => Loose me (s.lastInode me fd) held) (.modify fun u hu => ?_) fun _ => ?_
    · obtain ⟨rfl, hu⟩ := hu
      exact hu.closed hme hx
    · unfold lastInode
      cases s.openEntry me fd with
      | none => exact .pure fun _ hs => hs.owes
      | some j =>
        refine .ite (fun hone => ?_) fun hmany => .pure fun u hu => ?_
        · refine .bind (Q := fun _ => Owes me held) (.pre iput_loose fun u hu => ?_) fun _ => .pure fun _ hs => hs
          rw [Option.bind_some, if_pos hone] at hu
          exact hu
        · rw [Option.bind_some, if_neg hmany] at hu
          exact hu.owes

/-- What closing descriptor `fd` does to the descriptors of the process. -/
def Shut (t fd : Nat) (s s' : Vfs) : Prop :=
  (∀ e, e ≠ fd → (s'.task t).filp e = (s.task t).filp e) ∧ (fd < nrOpen → (s'.task t).filp fd = none)

theorem sysClose_shuts : Triple (fun u => u = s) (sysClose t fd) fun _ u => Shut t fd s u := by
  refine .get fun v => ?_
  split
  next => exact .failure
  next f r hx =>
    obtain ⟨hsame, hclosed⟩ := Files.sysClose_filp hx
    refine .bind (Q := fun _ => Shut t fd s) (.modify fun u hu => ?_) fun _ => ?_
    · obtain ⟨rfl, rfl⟩ := hu
      exact ⟨fun e he => hsame t e fun hat => he hat.2, hclosed⟩
    · have hkeep : ∀ {x : Call Int}, Apart x → Triple (Shut t fd s) x fun _ => Shut t fd s := by
        refine fun hx => hx.triple fun u u' hu hb => ?_
        unfold Shut
        rw [hb.task]
        exact hu
      cases v.openEntry t fd with
      | none => exact hkeep .pure
      | some j => exact hkeep (.ite (.bind Apart.iput fun _ => .pure) .pure)

theorem closeEach_owes {p : FsTask → Nat → Bool} (hme : me < nrTasks) :
    Triple (Owes me held) (closeEach me p n) fun _ => Owes me held := by
  induction n with
  | zero => exact .pure fun _ hs => hs
  | succ n ih =>
    refine .bind ih fun _ => .get fun s => .pre ?_ (P := Owes me held) fun _ hs => hs.2
    exact .ite (fun _ => .bind (sysClose_owes hme) fun _ => .pure fun _ hs => hs) fun _ => .pure fun _ hs => hs

theorem doExecve_owes {args loads : Bool} (hme : me < nrTasks) : Triple (Owes me held) (doExecve me filename args loads) fun _ => Owes me held := by
  refine .bind namei_owes fun found => ?_
  cases found with
  | none => exact .pure fun _ hs => hs
  | some k =>
    show Triple (Owes me (k :: held)) _ _
    refine .bind Quiet.inode.owes fun i => .bind Quiet.cred.owes fun c => .ite (fun _ => back_owes) fun _ => .ite (fun _ => back_owes) fun _ => ?_
    refine .bind Quiet.answer.owes fun bh => .ite (fun _ => back_owes) fun _ => .ite (fun _ => back_owes) fun _ => ?_
    refine .bind (closeEach_owes hme) fun _ => .bind (Q := fun _ => Owes me (k :: held)) (.modify fun s hs => ?_) fun _ => back_owes
    exact hs.repoint hme rfl rfl rfl rfl rfl rfl hs.alive (fun _ => rfl) (hs.dirs me) hs.hand

theorem sysWrite_owes {count : Nat} : Triple (Owes me held) (sysWrite t fd count) fun _ => Owes me held := by
  refine .get fun s => .pre ?_ (P := Owes me held) fun _ hs => hs.2
  refine .ite (fun _ => .pure fun _ hs => hs) fun _ => ?_
  split
  next => exact .pure fun _ hs => hs
  next j _ =>
    refine .ite (fun _ => .pure fun _ hs => hs) fun _ => .ite (fun _ => .pure fun _ hs => hs) fun _ => .bind Quiet.fileWrite.owes fun pos => ?_
    refine .ite (fun _ => .pure fun _ hs => hs) fun _ => .bind (Q := fun _ => Owes me held) (.modify fun u hu => ?_) fun _ => .pure fun _ hs => hs
    -- Only the position of the entry is new.
    have hsame : ∀ i, (Function.update u.file j { u.file j with pos := pos } i).count = (u.file i).count ∧
        (Function.update u.file j { u.file j with pos := pos } i).inode = (u.file i).inode ∧
        (Function.update u.file j { u.file j with pos := pos } i).mode = (u.file i).mode := by
      intro i
      by_cases hij : i = j
      · rw [hij, Function.update_self]
        exact ⟨rfl, rfl, rfl⟩
      · rw [Function.update_of_ne hij]
        exact ⟨rfl, rfl, rfl⟩
    have ho : OnFiles u { u with file := Function.update u.file j { u.file j with pos := pos } } := ⟨rfl, rfl, rfl, fun _ => ⟨rfl, rfl, rfl⟩⟩
    refine hu.onFiles ho (hu.fds.of_eq (fun i => (hsame i).1) rfl) hu.low (fun v hv => (hu.gone v hv).2.2) (fun i hi _ => ?_) (fun k => ?_) hu.hand
    · exact ⟨(hsame i).1 ▸ hi, (hsame i).2⟩
    · rw [ho.refs_same fun i => ?_]
      unfold uses
      rw [(hsame i).1, (hsame i).2.1]

/-- A directory that a child will stand in is counted once more. -/
theorem hold_owes {o : Option Nat} (ho : ∀ k, o = some k → (s.task me).pwd = some k ∨ (s.task me).root = some k) :
    Triple (fun u => u.Owes me held ∧ u.task = s.task) (hold o) fun _ u => u.Owes me (withSlot o held) ∧ u.task = s.task := by
  cases o with
  | none => exact .pure fun _ hs => hs
  | some k =>
    refine .modify fun u hu => ⟨hu.1.taken (s := u) ⟨rfl, rfl, rfl, rfl⟩ rfl rfl ?_, hu.2⟩
    refine hu.1.dirs me k ?_
    rw [hu.2]
    exact ho k rfl

/-- No entry comes up by inheritance, and what it is stays. -/
theorem forkFiles_file (h : s.files.Counted) :
    (0 < ((s.files.forkFiles t u).file j).count → 0 < (s.file j).count) ∧
      ((s.files.forkFiles t u).file j).inode = (s.file j).inode ∧ ((s.files.forkFiles t u).file j).mode = (s.file j).mode ∧
        uses k ((s.files.forkFiles t u).file j) = uses k (s.file j) := by
  obtain ⟨_, _, _, hfile⟩ := @Files.inherit_spec s.files t nrOpen
  have hcount : ((s.files.forkFiles t u).file j).count = (s.file j).count + ∑ fd ∈ range nrOpen, if s.files.filp t fd = some j then 1 else 0 :=
    (hfile j).1
  have hinode : ((s.files.forkFiles t u).file j).inode = (s.file j).inode := (hfile j).2.2
  have hback : 0 < ((s.files.forkFiles t u).file j).count → 0 < (s.file j).count := by
    intro hpos
    by_contra hzero
    have hnone : ∑ fd ∈ range nrOpen, (if s.files.filp t fd = some j then 1 else 0) = 0 :=
      sum_eq_zero fun fd _ => if_neg fun hj => hzero (h.ref_pos hj)
    omega
  refine ⟨hback, hinode, Files.inherit_mode, ?_⟩
  unfold uses
  rw [hinode]
  by_cases hk : 0 < (s.file j).count ∧ (s.file j).inode = k
  · rw [if_pos hk, if_pos ⟨by omega, hk.2⟩]
  · rw [if_neg hk, if_neg fun hc => hk ⟨hback hc.1, hc.2⟩]

/-- Process `p` comes up where its parent stands. -/
def standLike (parent p : FsTask) : FsTask := { p with live := true, pwd := parent.pwd, root := parent.root }

/-- The child comes up, and gets its descriptors. -/
theorem Owes.forked (h : s.Owes me (withSlot (s.task me).root (withSlot (s.task me).pwd held))) (hme : me < nrTasks) (hu : u < nrTasks)
    (hfree : (s.task u).live = false) :
    Owes me held ({ s with task := Function.update s.task u (standLike (s.task me) (s.task u)) }.withFiles (s.files.forkFiles me u)) := by
  obtain ⟨hpwd, hroot, hfilp⟩ := h.gone u hfree
  have hup : Owes me held { s with task := Function.update s.task u (standLike (s.task me) (s.task u)) } := by
    refine h.repoint hu rfl rfl rfl rfl rfl rfl rfl (fun k => ?_) (fun k hk => h.dirs me k hk) fun k hk => ?_
    · rw [count_withSlot, count_withSlot]
      unfold stands standLike
      dsimp only
      rw [hpwd, hroot, points_none]
      omega
    · refine h.hand k ?_
      have hmem : 0 < (withSlot (s.task me).root (withSlot (s.task me).pwd held)).count k := by
        rw [count_withSlot, count_withSlot]
        have := List.count_pos_iff.mpr hk
        omega
      exact List.count_pos_iff.mp hmem
  have hfd : (s.files.forkFiles me u).filp = Function.update (fun t => (s.task t).filp) u (s.task me).filp := by
    change Function.update (s.files.inherit me nrOpen).filp u ((s.files.inherit me nrOpen).filp me) = _
    rw [(@Files.inherit_spec s.files me nrOpen).1]
    rfl
  have hfrom : ∀ v e i, (s.files.forkFiles me u).filp v e = some i → (s.task v).filp e = some i ∨ (s.task me).filp e = some i := by
    intro v e i hi
    rw [hfd] at hi
    by_cases hv : v = u
    · rw [hv, Function.update_self] at hi
      exact .inr hi
    · rw [Function.update_of_ne hv] at hi
      exact .inl hi
  have hcounted : (s.files.forkFiles me u).Counted := h.fds.forkFiles hu fun fd _ => hfilp fd
  refine hup.onFiles onFiles_withFiles (hcounted.of_eq (fun _ => rfl) rfl) (fun v e i hi => ?_) (fun v hv e => ?_) (fun i hi _ => ?_)
    (fun k => ?_) hup.hand
  · rcases hfrom v e i hi with hi | hi
    · exact h.low v e i hi
    · exact h.low me e i hi
  · have hvu : v ≠ u := by
      rintro rfl
      dsimp only at hv
      rw [Function.update_self] at hv
      cases hv
    dsimp only at hv
    rw [Function.update_of_ne hvu] at hv
    change (s.files.forkFiles me u).filp v e = none
    rw [hfd, Function.update_of_ne hvu]
    exact (h.gone v hv).2.2 e
  · obtain ⟨hback, hinode, hmode, _⟩ := forkFiles_file (t := me) (u := u) (j := i) (k := 0) h.fds
    exact ⟨hback hi, hinode, hmode⟩
  · rw [onFiles_withFiles.refs_same fun i => ?_]
    exact (forkFiles_file (t := me) (u := u) (j := i) (k := k) h.fds).2.2.2

theorem copyProcess_owes {memory : Bool} (hme : me < nrTasks) (hu : u < nrTasks) :
    Triple (fun s => s.Owes me held ∧ (s.task u).live = false) (copyProcess me u memory) fun _ => Owes me held := by
  refine .ite (fun _ => .pure fun _ hs => hs.1) fun _ => .get fun s => ?_
  refine .pre (.fact fun hfree => ?_) (P := fun v => (s.task u).live = false ∧ v.Owes me held ∧ v.task = s.task)
    fun v hv => ⟨hv.1 ▸ hv.2.2, hv.2.1, by rw [hv.1]⟩
  refine .bind (hold_owes fun k hk => .inl hk) fun _ => .bind (hold_owes fun k hk => .inr hk) fun _ => ?_
  refine .bind (Q := fun _ v => Owes me held { v with task := Function.update v.task u (standLike (s.task me) (v.task u)) })
    (.modify fun v hv => ?_) fun _ => .bind (Q := fun _ => Owes me held) (.modify fun v hv => hv) fun _ => .pure fun _ hs => hs
  obtain ⟨hv, htask⟩ := hv
  rw [← htask] at hfree hv ⊢
  refine cast (congrArg (Owes me held) ?_) (hv.forked hme hu hfree)
  -- It does not matter whether the child comes up before or after it has its descriptors.
  have hcomm : ∀ w, ({ v with task := Function.update v.task u (standLike (v.task me) (v.task u)) }.withFiles (v.files.forkFiles me u)).task w =
      Function.update (v.withFiles (v.files.forkFiles me u)).task u
        (standLike (v.task me) ((v.withFiles (v.files.forkFiles me u)).task u)) w := by
    intro w
    by_cases hw : w = u
    · rw [hw, Function.update_self]
      unfold withFiles
      dsimp only
      rw [Function.update_self]
      rfl
    · rw [Function.update_of_ne hw]
      unfold withFiles
      dsimp only
      rw [Function.update_of_ne hw]
  unfold withFiles at hcomm ⊢
  dsimp only at hcomm ⊢
  rw [Vfs.mk.injEq]
  exact ⟨rfl, rfl, rfl, rfl, rfl, rfl, rfl, rfl, rfl, rfl, funext hcomm, rfl, rfl⟩

theorem closeEach_none (hn : n ≤ nrOpen) :
    Triple (fun _ => True) (closeEach t (fun p fd => (p.filp fd).isSome) n) fun _ u => ∀ e < n, (u.task t).filp e = none := by
  induction n with
  | zero => exact .pure fun _ _ e he => absurd he (Nat.not_lt_zero e)
  | succ n ih =>
    refine .bind (ih (by omega)) fun _ => .get fun s => .pre (.fact fun hbelow => ?_) (P := fun u => (∀ e < n, (s.task t).filp e = none) ∧ u = s)
      fun u hu => ⟨hu.1 ▸ hu.2, hu.1⟩
    refine .ite (fun _ => ?_) fun hopen => .pure fun u hu e he => ?_
    · refine .bind sysClose_shuts fun _ => .pure fun u hu e he => ?_
      by_cases hen : e = n
      · rw [hen]
        exact hu.2 (by omega)
      · rw [hu.1 e hen]
        exact hbelow e (by omega)
    · rw [hu]
      by_cases hen : e = n
      · rw [hen]
        exact Option.not_isSome_iff_eq_none.mp hopen
      · exact hbelow e (by omega)

theorem stands_leavePwd {p : FsTask} : stands k { p with pwd := none } + (withSlot p.pwd held).count k = stands k p + held.count k := by
  rw [count_withSlot]
  unfold stands
  dsimp only
  rw [points_none]
  omega

theorem stands_leaveRoot {p : FsTask} :
    stands k { p with root := none, live := false } + (withSlot p.root held).count k = stands k p + held.count k := by
  rw [count_withSlot]
  unfold stands
  dsimp only
  rw [points_none]
  omega

theorem doExit_balanced (hme : me < nrTasks) : Triple (Owes me []) (doExit me) fun _ => Balanced [] := by
  refine .bind (Q := fun _ s => s.Owes me [] ∧ ∀ e, (s.task me).filp e = none) ?_ fun _ => ?_
  · refine .post (.pre (.and (closeEach_owes hme) (closeEach_none (Nat.le_refl _))) fun s hs => ⟨hs, trivial⟩) fun _ s hs => ⟨hs.1, fun e => ?_⟩
    cases he : (s.task me).filp e with
    | none => rfl
    | some j =>
      have hnone := hs.2 e (hs.1.fds.low me e j he).2
      rw [he] at hnone
      cases hnone
  · refine .get fun s => .pre (.fact fun hs => ?_) (P := fun u => (s.Owes me [] ∧ ∀ e, (s.task me).filp e = none) ∧ u = s ∧ u.Balanced [])
      fun u hu => ⟨hu.1 ▸ hu.2, hu.1, hu.2.1.toBalanced⟩
    obtain ⟨hs, hshut⟩ := hs
    -- First the working directory goes, then the root.
    refine .bind (giveBack_repoint [] (g := fun p => { p with pwd := none }) hme rfl (fun hc => ?_) (fun k => stands_leavePwd) (fun k hk => ?_) fun k hk => ?_) fun _ =>
      .bind (Q := fun _ u => u.Balanced [] ∧ (u.task me).pwd = none ∧ ∀ e, (u.task me).filp e = none) (.modify fun u hu => ?_) fun _ => ?_
    · rw [show (s.task me).live = true from hs.alive] at hc
      cases hc
    · rcases hk with hk | hk
      · cases hk
      · exact hs.dirs me k (.inr hk)
    · rcases mem_withSlot hk with hk | hk
      · exact hs.dirs me k (.inl hk)
      · cases hk
    · refine ⟨hu.2, ?_, ?_⟩
      · dsimp only
        rw [Function.update_self]
      · dsimp only
        rw [Function.update_self, hu.1]
        exact hshut
    · refine .get fun s => .pre (.fact fun hs => ?_) (P := fun u => (s.Balanced [] ∧ (s.task me).pwd = none ∧ ∀ e, (s.task me).filp e = none) ∧
        u = s ∧ u.Balanced []) fun u hu => ⟨hu.1 ▸ hu.2, hu.1, hu.2.1⟩
      obtain ⟨hs, hpwd, hshut⟩ := hs
      refine .bind (giveBack_repoint [] (g := fun p => { p with root := none, live := false }) hme rfl (fun _ => ⟨hpwd, rfl, hshut⟩) (fun k => stands_leaveRoot)
        (fun k hk => ?_) fun k hk => ?_) fun _ => .bind (Q := fun _ => Balanced []) (.modify fun u hu => hu.2) fun _ => .pure fun _ hs => hs
      · rcases hk with hk | hk
        · exact hs.dirs me k (.inl hk)
        · cases hk
      · rcases mem_withSlot hk with hk | hk
        · exact hs.dirs me k (.inr hk)
        · cases hk

end Vfs

end RheeKernel
