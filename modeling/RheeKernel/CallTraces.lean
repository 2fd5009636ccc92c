import RheeKernel.InodeAccounts

namespace RheeKernel

namespace Vfs

open Triples

variable {c : Prop} {s₀ s s' : Vfs} {held : List Nat} {me t u k j fd n : Nat} {e : VfsEvent} {filename : List UInt8} {mode : BitVec 32}
  {call : Call Int} {o : Option Nat} {α : Type}

/-- A piece of code that is a run of inode operations from any state. -/
abbrev Runs (c : Prop) (x : Call α) : Prop := Moves (Ran c) x

namespace Runs

theorem triple {x : Call α} (h : Runs c x) : Triple (Ran c s₀) x fun _ => Ran c s₀ := Moves.triple h fun _ _ hs hr => hs.trans hr

theorem idle {x : Call α} (h : Idle x) : Runs c x := h.mono fun _ _ ha => ha.toSameTable.ran

theorem aside {g : Vfs → Vfs} (h : ∀ s, SameTable s (g s)) : Runs c (modify g) := .modify fun s => (h s).ran

theorem files {g : Vfs → Files} : Runs c (modify fun s => s.withFiles (g s)) := aside fun _ => ⟨rfl, rfl, rfl, rfl, rfl, rfl⟩

theorem editTask {g : FsTask → FsTask} : Runs c (editTask t g) := aside fun _ => ⟨rfl, rfl, rfl, rfl, rfl, rfl⟩

theorem iput : Runs c (iput k) := moves_ran (f := .iput k) (fun _ => .inl trivial) fun _ => rfl

theorem giveBack : Runs c (giveBack o) := by
  cases o with
  | none => exact .pure
  | some k => exact iput

theorem claimTty : Runs c (claimTty t k) := .bind (idle Idle.inode) fun _ => .bind (idle Idle.cred) fun _ => .ite files .pure

theorem sysClose : Runs c (sysClose t fd) := by
  refine .get fun s => ?_
  split
  next => exact .failure
  next f r _ =>
    refine .bind files fun _ => ?_
    cases s.openEntry t fd with
    | none => exact .pure
    | some j => exact .ite (.bind iput fun _ => .pure) .pure

theorem closeEach {p : FsTask → Nat → Bool} : Runs c (closeEach t p n) := by
  induction n with
  | zero => exact .pure
  | succ n ih => exact .bind ih fun _ => .get fun _ => .ite (.bind sysClose fun _ => .pure) .pure

theorem doExit : Runs c (doExit t) :=
  .bind closeEach fun _ => .get fun _ => .bind giveBack fun _ => .bind editTask fun _ => .get fun _ =>
    .bind giveBack fun _ => .bind editTask fun _ => .pure

theorem sysPipe : Runs c (sysPipe t) := by
  refine .get fun s => ?_
  split
  next => exact .bind (moves_ran (f := .getPipeInode) (fun _ => .inl trivial) fun _ => rfl) fun _ => .bind files fun _ => .pure
  next => exact .pure

end Runs

/-- Once the name is looked up, what is left needs no books. -/
theorem ran_of_logged {β : Type} {x : Call α} {f : α → Call β} {q : α → List Nat}
    (hx : Triple (Logged c s₀ me held) x fun a => Logged c s₀ me (q a)) (hf : ∀ a, Runs c (f a)) :
    Triple (Logged c s₀ me held) (x >>= f) fun _ => Ran c s₀ :=
  .bind hx fun a => (hf a).triple.pre fun _ hs => hs.ran

theorem sysChdir_ran : Triple (Logged c s₀ me held) (sysChdir t filename) fun _ => Ran c s₀ := by
  refine ran_of_logged namei_logged fun found => ?_
  cases found with
  | none => exact Moves.pure
  | some k =>
    refine .bind (Runs.idle Idle.inode) fun _ => .ite (.bind Runs.iput fun _ => .pure) (.get fun _ => ?_)
    exact .bind Runs.giveBack fun _ => .bind Runs.editTask fun _ => .pure

theorem sysChroot_ran : Triple (Logged c s₀ me held) (sysChroot t filename) fun _ => Ran c s₀ := by
  refine ran_of_logged namei_logged fun found => ?_
  cases found with
  | none => exact Moves.pure
  | some k =>
    refine .bind (Runs.idle Idle.inode) fun _ => .ite (.bind Runs.iput fun _ => .pure) (.get fun _ => ?_)
    exact .bind Runs.giveBack fun _ => .bind Runs.editTask fun _ => .pure

theorem doExecve_ran {args loads : Bool} : Triple (Logged c s₀ me held) (doExecve t filename args loads) fun _ => Ran c s₀ := by
  refine ran_of_logged namei_logged fun found => ?_
  cases found with
  | none => exact Moves.pure
  | some k =>
    have hback : ∀ {r : Int}, Runs c (do iput k; return r) := fun {r} => .bind Runs.iput fun _ => .pure
    refine .bind (Runs.idle Idle.inode) fun i => .bind (Runs.idle Idle.cred) fun _ => .ite hback (.ite hback ?_)
    refine .bind (Runs.idle Idle.answer) fun bh => .ite hback (.ite hback ?_)
    exact .bind Runs.closeEach fun _ => .bind Runs.editTask fun _ => hback

theorem sysOpen_ran {flag : BitVec 32} (hc : checkedFlag flag &&& oCreat = 0 ∨ c) : Triple (Logged c s₀ me held) (sysOpen t filename flag mode) fun _ => Ran c s₀ := by
  refine .get fun s => ?_
  split
  next => exact .pure fun _ hs => hs.2.ran
  next fd _ =>
    refine .bind (Q := fun _ => Logged c s₀ me held) (.modify fun u hu => ?_) fun _ => ?_
    · obtain ⟨rfl, hu⟩ := hu
      exact ⟨hu.toOwes.bits rfl rfl, hu.ran.trans (SameTable.ran ⟨rfl, rfl, rfl, rfl, rfl, rfl⟩)⟩
    · split
      next => exact .pure fun _ hs => hs.ran
      next j _ =>
        refine .bind Idle.cred.logged fun _ => ran_of_logged (openNamei_logged hc) fun opened => ?_
        cases opened with
        | error e => exact Moves.pure
        | ok k =>
          refine .bind (Runs.idle Idle.inode) fun i => .ite (.bind Runs.iput fun _ => .pure) (.bind Runs.claimTty fun _ => ?_)
          exact .bind Runs.files fun _ => .pure

/-- An open file's inode is in use. -/
theorem Owes.fileUses (h : s.Owes me held) (hj : (s.task t).filp fd = some j) (hpipe : (s.slot (s.file j).inode).pipe = false) :
    s.InUse (s.file j).inode := by
  have hlow := h.low t fd j hj
  have hle := uses_le (s := s) (k := (s.file j).inode) hlow
  have hpos : 0 < (s.file j).count := h.fds.ref_pos hj
  have hcount := h.counts (s.file j).inode
  unfold uses at hle
  rw [if_pos ⟨hpos, rfl⟩] at hle
  exact ⟨by omega, hpipe⟩

theorem sysWrite_ran {count : Nat} (hc : (∀ j, (s.task t).filp fd = some j → (s.slot (s.file j).inode).dirt = true) ∨ c) :
    Triple (fun u => u = s ∧ Logged c s₀ me held u) (sysWrite t fd count) fun _ => Ran c s₀ := by
  refine .get fun v => .pre (.fact fun hv => ?_) (P := fun u => v = s ∧ u = s ∧ Logged c s₀ me held u) fun u hu => ⟨hu.1 ▸ hu.2.1, hu.2⟩
  subst hv
  have hstay : ∀ {r : Int}, Triple (fun u => u = v ∧ Logged c s₀ me held u) (return r) fun _ => Ran c s₀ := .pure fun _ hs => hs.2.ran
  refine .ite (fun _ => hstay) fun _ => ?_
  split
  next => exact hstay
  next j hj =>
    refine .ite (fun _ => hstay) fun _ => .ite (fun _ => hstay) fun hreg => ?_
    refine .bind ((fileWrite_using (.imp_left (fun hd => ⟨rfl, hd j hj⟩) hc)).pre
      (P := Using c s₀ (v.file j).inode fun i => i = (v.file j).inode ∧ (v.slot i).dirt = true) fun u hu => ?_) fun pos => ?_
    · obtain ⟨rfl, hu⟩ := hu
      exact ⟨hu.ran, hu.toOwes.fileUses hj (Bool.eq_false_iff.mpr fun hp => hreg (.inl hp)), fun _ hd => hd.2⟩
    · have hrest : Runs c (editFile j fun f => { f with pos := pos }) := Runs.aside fun _ => ⟨rfl, rfl, rfl, rfl, rfl, rfl⟩
      refine .pre ?_ (P := Ran c s₀) fun _ hs => hs.ran
      exact .ite (fun _ => .pure fun _ hs => hs) fun _ => .bind hrest.triple fun _ => .pure fun _ hs => hs

/-- A directory of a live process is in use. -/
theorem Owes.stands_count (h : s.Owes me held) (hk : (s.task me).pwd = some k ∨ (s.task me).root = some k) : 0 < (s.slot k).count := by
  have hle := stands_le (s := s) (k := k) (h.few me h.alive)
  have hpos := stands_pos hk
  have hcount := h.counts k
  omega

/-- The directories `o` of the parent are in use, after a run from `s₀`. -/
theorem hold_ran {P : Nat → Prop} (ho : ∀ k, o = some k → P k) :
    Triple (fun u => Ran c s₀ u ∧ ∀ k, P k → 0 < (u.slot k).count) (hold o) fun _ u => Ran c s₀ u ∧ ∀ k, P k → 0 < (u.slot k).count := by
  cases o with
  | none => exact .pure fun _ hs => hs
  | some k =>
    refine .modify fun u hu => ⟨hu.1.trans (.step (.hold k 1) (.inl trivial) (if_pos (hu.2 k (ho k rfl)))), fun i hi => ?_⟩
    dsimp only
    rw [Function.update_apply]
    split
    next => exact Nat.succ_pos _
    next => exact hu.2 i hi

theorem copyProcess_ran {memory : Bool} : Triple (Logged c s₀ me held) (copyProcess me u memory) fun _ => Ran c s₀ := by
  refine .ite (fun _ => .pure fun _ hs => hs.ran) fun _ => .get fun s => ?_
  refine .pre ?_ (P := fun v => Ran c s₀ v ∧ ∀ k, (s.task me).pwd = some k ∨ (s.task me).root = some k → 0 < (v.slot k).count) fun v hv => ?_
  · refine .bind (hold_ran fun k hk => .inl hk) fun _ => .bind (hold_ran fun k hk => .inr hk) fun _ => .pre ?_ (P := Ran c s₀) fun _ hs => hs.1
    exact .bind Runs.files.triple fun _ => .bind Runs.editTask.triple fun _ => .pure fun _ hs => hs
  · obtain ⟨rfl, hv⟩ := hv
    exact ⟨hv.ran, fun k hk => hv.toOwes.stands_count hk⟩

theorem mountRoot_ran : Triple (fun u => u = s ∧ u.Booted t) (mountRoot t) fun _ => Ran c s := by
  refine .bind (Q := fun _ => Logged c s t []) (.modify fun u hu => ?_) fun _ => .get fun v => .pre ?_ (P := Logged c s t []) fun _ hs => hs.2
  · obtain ⟨rfl, hu⟩ := hu
    have hclear : Booted t { u with file := fun j => { u.file j with count := 0 } } := ⟨hu.live, hu.few, hu.task, hu.slot, hu.super⟩
    exact ⟨hclear.owes fun _ => rfl, SameTable.ran ⟨rfl, rfl, rfl, rfl, rfl, rfl⟩⟩
  · refine .bind iget_logged fun k => .bind (Q := fun _ => Ran c s) (.modify fun u hu => ?_) fun _ => ?_
    · exact hu.ran.trans (.step (.hold k 3) (.inl trivial) (if_pos (hu.toOwes.inUse List.mem_cons_self).1))
    · exact .bind (Runs.triple (Runs.aside fun _ => ⟨rfl, rfl, rfl, rfl, rfl, rfl⟩)) fun _ => Runs.editTask.triple

/-- A call that makes no inode and enters no name, and writes to no inode that is clean. -/
def Harmless (s : Vfs) : VfsEvent → Prop
  | .sysOpen _ _ flag _ => checkedFlag flag &&& oCreat = 0
  | .sysMkdir .. => False
  | .sysLink .. => False
  | .sysWrite t fd _ => ∀ j, (s.task t).filp fd = some j → (s.slot (s.file j).inode).dirt = true
  | _ => True

theorem code_ran (he : code e = some (t, call)) (hc : Harmless s e ∨ c) :
    Triple (fun u => u = s ∧ Logged c s₀ t [] u) call fun _ => Ran c s₀ := by
  have hplain : ∀ {t} {x : Call Int}, Triple (Logged c s₀ t []) x (fun _ => Ran c s₀) →
      Triple (fun u => u = s ∧ Logged c s₀ t [] u) x fun _ => Ran c s₀ := fun hx => hx.pre fun _ hu => hu.2
  have hlogged : ∀ {t} {x : Call Int}, Triple (Logged c s₀ t []) x (fun _ => Logged c s₀ t []) →
      Triple (fun u => u = s ∧ Logged c s₀ t [] u) x fun _ => Ran c s₀ := fun hx => hplain (hx.post fun _ _ hs => hs.ran)
  have hruns : ∀ {t} {x : Call Int}, Runs c x → Triple (fun u => u = s ∧ Logged c s₀ t [] u) x fun _ => Ran c s₀ :=
    fun hx => hx.triple.pre fun _ hs => hs.2.ran
  cases e with
  | sysOpen => cases Option.some.inj he; exact hplain (sysOpen_ran hc)
  | sysClose => cases Option.some.inj he; exact hruns Runs.sysClose
  | sysPipe => cases Option.some.inj he; exact hruns Runs.sysPipe
  | sysChdir => cases Option.some.inj he; exact hplain sysChdir_ran
  | sysChroot => cases Option.some.inj he; exact hplain sysChroot_ran
  | sysStat => cases Option.some.inj he; exact hlogged sysStat_logged
  | sysAccess => cases Option.some.inj he; exact hlogged sysAccess_logged
  | sysChmod => cases Option.some.inj he; exact hlogged sysChmod_logged
  | sysChown => cases Option.some.inj he; exact hlogged sysChown_logged
  | sysUtime => cases Option.some.inj he; exact hlogged sysUtime_logged
  | sysMkdir => cases Option.some.inj he; exact hlogged (sysMkdir_logged (hc.resolve_left id))
  | sysRmdir => cases Option.some.inj he; exact hlogged sysRmdir_logged
  | sysUnlink => cases Option.some.inj he; exact hlogged sysUnlink_logged
  | sysLink => cases Option.some.inj he; exact hlogged (sysLink_logged (hc.resolve_left id))
  | sysWrite => cases Option.some.inj he; exact sysWrite_ran hc
  | execve => cases Option.some.inj he; exact hplain doExecve_ran
  | fork => cases he
  | exit => cases Option.some.inj he; exact hruns Runs.doExit
  | world => cases he

/-- A system call is a run of inode operations, and of careful ones if it is harmless. -/
theorem Balanced.ran (h : s.Balanced []) (hc : Harmless s e ∨ c) (hs : vfsStep s e = some s') : Ran c s s' := by
  rcases vfsStep_some hs with ⟨now, answers, rfl⟩ | ⟨t, u, memory, r, ht, hlive, hu, hfree, hr⟩ | ⟨t, call, r, hcall, ht, hlive, hr⟩
  · exact SameTable.ran ⟨rfl, rfl, rfl, rfl, rfl, rfl⟩
  · exact copyProcess_ran s ⟨⟨h, hlive⟩, .refl⟩ r s' hr
  · exact code_ran hcall hc s ⟨rfl, ⟨h, hlive⟩, .refl⟩ r s' hr

theorem Booted.balanced {s₁ : Vfs} (hboot : s₀.Booted t) (ht : t < nrTasks) (hmount : mountRoot t s₀ = some ((), s₁))
    (h : Machine.Reach vfsStep (fun _ _ => True) s₁ s) : s.Balanced [] :=
  h.invariant (mountRoot_owes ht s₀ hboot () s₁ hmount).toBalanced fun _ _ _ hI _ hs => hI.step hs

/-- From `mount_root` on, the system calls do to the inode table what runs of inode operations do. -/
theorem calls_ran {s₁ : Vfs} (hboot : s₀.Booted t) (ht : t < nrTasks) (hmount : mountRoot t s₀ = some ((), s₁))
    (h : Machine.Reach vfsStep (fun _ _ => True) s₁ s) : Ran True s₀ s := by
  induction h with
  | start => exact mountRoot_ran s₀ ⟨rfl, hboot⟩ () s₁ hmount
  | next hreach _ hs ih => exact ih.trans ((hboot.balanced ht hmount hreach).ran (.inr trivial) hs)

end Vfs

end RheeKernel
