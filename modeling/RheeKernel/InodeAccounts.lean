import RheeKernel.PipeLedger
import RheeKernel.Machine

open Finset

namespace RheeKernel

namespace Vfs

open Triples

variable {s s' : Vfs} {held : List Nat} {me t k : Nat} {call : Call Int} {e : VfsEvent}

/-- Before `mount_root`: no inode is in memory, and no process has a directory or a descriptor. -/
structure Booted (t : Nat) (s : Vfs) : Prop where
  live : (s.task t).live = true
  few : ∀ u, (s.task u).live = true → u < nrTasks
  task : ∀ u, (s.task u).pwd = none ∧ (s.task u).root = none ∧ ∀ fd, (s.task u).filp fd = none
  slot : ∀ k, s.slot k = {}
  super : s.isup = none ∧ s.imount = none

theorem refs_eq_zero (hfile : ∀ j, (s.file j).count = 0) (htask : ∀ t, (s.task t).pwd = none ∧ (s.task t).root = none)
    (hsuper : s.isup = none ∧ s.imount = none) : s.refs k = 0 := by
  have huses : ∀ j, uses k (s.file j) = 0 := fun j => if_neg fun hc => by
    rw [hfile] at hc
    exact absurd hc.1 (Nat.lt_irrefl 0)
  have hstands : ∀ t, stands k (s.task t) = 0 := by
    intro t
    unfold stands
    rw [(htask t).1, (htask t).2]
    rfl
  unfold refs
  rw [sum_eq_zero fun j _ => huses j, sum_eq_zero fun t _ => hstands t, hsuper.1, hsuper.2]
  rfl

theorem Booted.owes (h : s.Booted t) (hfile : ∀ j, (s.file j).count = 0) : s.Owes t [] := by
  refine ⟨⟨⟨fun k hk => ?_, fun u k hk => ?_, fun k hk => ?_, fun j hj => ?_, fun k m i j hk => ?_, ⟨fun j => ?_, fun u fd j hj => ?_⟩,
    fun u fd j hj => ?_, h.few, fun u _ => h.task u⟩, fun k => ?_, fun k hk => ?_⟩, h.live⟩
  · rw [h.slot] at hk
    cases hk
  · rw [h.slot]
  · rw [h.slot]
  · rw [hfile] at hj
    exact absurd hj (Nat.lt_irrefl 0)
  · rw [h.slot] at hk
    cases hk
  · refine (hfile j).trans (sum_eq_zero fun u _ => sum_eq_zero fun fd _ => if_neg fun hc => ?_).symm
    change (s.task u).filp fd = some j at hc
    rw [(h.task u).2.2 fd] at hc
    cases hc
  · change (s.task u).filp fd = some j at hj
    rw [(h.task u).2.2 fd] at hj
    cases hj
  · rw [(h.task u).2.2 fd] at hj
    cases hj
  · rw [h.slot, refs_eq_zero hfile (fun u => ⟨(h.task u).1, (h.task u).2.1⟩) h.super]
    rfl
  · cases hk

/-- The super block takes two of the references to the root inode. -/
theorem Owes.mounted (h : s.Owes me (k :: k :: held)) (hsuper : s.isup = none ∧ s.imount = none) :
    Owes me held { s with isup := some k, imount := some k } := by
  refine ⟨⟨⟨h.named, h.dirs, fun i hi => ?_, h.ends, h.one, h.fds, h.low, h.few, h.gone⟩, fun i => ?_,
    fun i hi => h.hand i (List.mem_cons_of_mem _ (List.mem_cons_of_mem _ hi))⟩, h.alive⟩
  · refine h.hand i (List.mem_cons.mpr (.inl ?_))
    rcases hi with hi | hi
    · exact (Option.some.inj hi).symm
    · exact (Option.some.inj hi).symm
  · have hold := h.counts i
    unfold refs at hold ⊢
    rw [List.count_cons, List.count_cons, hsuper.1, hsuper.2, if_neg (show ¬ (none : Option Nat) = some i from nofun)] at hold
    dsimp only
    by_cases hik : k = i
    · rw [if_pos (beq_iff_eq.mpr hik)] at hold
      rw [if_pos (congrArg some hik)]
      omega
    · rw [if_neg fun hc => hik (beq_iff_eq.mp hc)] at hold
      rw [if_neg fun hc => hik (Option.some.inj hc)]
      exact hold

theorem mountRoot_owes (ht : t < nrTasks) : Triple (Booted t) (mountRoot t) fun _ => Owes t [] := by
  refine .bind (Q := fun _ u => u.Owes t [] ∧ (u.isup = none ∧ u.imount = none) ∧ ∀ v, (u.task v).pwd = none ∧ (u.task v).root = none)
    (.modify fun u hu => ?_) fun _ => .get fun s => ?_
  · have hclear : Booted t { u with file := fun j => { u.file j with count := 0 } } := ⟨hu.live, hu.few, hu.task, hu.slot, hu.super⟩
    exact ⟨hclear.owes fun _ => rfl, hu.super, fun v => ⟨(hu.task v).1, (hu.task v).2.1⟩⟩
  · refine .bind (Q := fun k u => u.Owes t [k] ∧ (u.isup = none ∧ u.imount = none) ∧ ∀ v, (u.task v).pwd = none ∧ (u.task v).root = none)
      (.pre (.and (Q := fun k => Owes t [k]) iget_owes (Apart.iget.triple fun u v hu hb => ?_)) fun u hu => hu.2) fun k => ?_
    · rw [hb.isup, hb.imount, hb.task]
      exact hu
    · refine .bind (Q := fun _ u => u.Owes t [k, k, k, k] ∧ (u.isup = none ∧ u.imount = none) ∧
        ∀ v, (u.task v).pwd = none ∧ (u.task v).root = none) (.modify fun u hu => ⟨?_, hu.2⟩) fun _ => ?_
      · have hother : ∀ i, i ≠ k → Function.update u.slot k { u.slot k with count := (u.slot k).count + 3 } i = u.slot i :=
          fun i hi => Function.update_of_ne hi _ _
        have hpipe : ∀ i, (Function.update u.slot k { u.slot k with count := (u.slot k).count + 3 } i).pipe = (u.slot i).pipe ∧
            (Function.update u.slot k { u.slot k with count := (u.slot k).count + 3 } i).dev = (u.slot i).dev := by
          intro i
          by_cases hik : i = k
          · rw [hik, Function.update_self]
            exact ⟨rfl, rfl⟩
          · rw [hother i hik]
            exact ⟨rfl, rfl⟩
        refine hu.1.beside ⟨rfl, rfl, rfl, rfl⟩ (fun i => ?_) (fun i hi => ⟨(hpipe i).1.symm.trans hi, (hpipe i).2⟩) fun i hi => ?_
        · by_cases hik : i = k
          · rw [hik]
            dsimp only
            rw [Function.update_self]
            simp only [List.count_cons_self]
            omega
          · dsimp only
            rw [hother i hik]
            simp only [List.count_cons_of_ne (Ne.symm hik)]
        · refine (hpipe i).1.trans (hu.1.hand i ?_)
          simpa using hi
      · refine .bind (Q := fun _ u => u.Owes t [k, k] ∧ ∀ v, (u.task v).pwd = none ∧ (u.task v).root = none)
          (.modify fun u hu => ⟨hu.1.mounted hu.2.1, hu.2.2⟩) fun _ => .modify fun u hu => ?_
        obtain ⟨hu, hnone⟩ := hu
        refine hu.repoint ht rfl rfl rfl rfl rfl rfl hu.alive (fun i => ?_) (fun i hi => hu.hand i ?_) fun i hi => nomatch hi
        · unfold stands
          dsimp only
          rw [(hnone t).1, (hnone t).2, if_neg (show ¬ (none : Option Nat) = some i from nofun)]
          by_cases hki : k = i
          · rw [if_pos (congrArg some hki), hki, List.count_cons_self, List.count_cons_self]
            rfl
          · rw [if_neg fun hc => hki (Option.some.inj hc), List.count_cons_of_ne hki, List.count_cons_of_ne hki]
        · rcases hi with hi | hi
          · exact List.mem_cons.mpr (.inl (Option.some.inj hi).symm)
          · exact List.mem_cons.mpr (.inl (Option.some.inj hi).symm)

theorem code_owes (he : code e = some (t, call)) (ht : t < nrTasks) : Triple (Owes t []) call fun _ => Balanced [] := by
  have hcall : ∀ {t} {c : Call Int}, Triple (Owes t []) c (fun _ => Owes t []) → Triple (Owes t []) c fun _ => Balanced [] :=
    fun hc => hc.post fun _ _ hs => hs.toBalanced
  have hlogged : ∀ {t} {c : Call Int}, (∀ s₀, Triple (Logged True s₀ t []) c fun _ => Logged True s₀ t []) → Triple (Owes t []) c fun _ => Balanced [] :=
    fun hc => hcall (owes_of_logged hc)
  cases e with
  | sysOpen => cases Option.some.inj he; exact hcall (sysOpen_owes ht)
  | sysClose => cases Option.some.inj he; exact hcall (sysClose_owes ht)
  | sysPipe => cases Option.some.inj he; exact hcall (sysPipe_owes ht)
  | sysChdir => cases Option.some.inj he; exact hcall (sysChdir_owes ht)
  | sysChroot => cases Option.some.inj he; exact hcall (sysChroot_owes ht)
  | sysStat => cases Option.some.inj he; exact hlogged fun _ => sysStat_logged
  | sysAccess => cases Option.some.inj he; exact hlogged fun _ => sysAccess_logged
  | sysChmod => cases Option.some.inj he; exact hlogged fun _ => sysChmod_logged
  | sysChown => cases Option.some.inj he; exact hlogged fun _ => sysChown_logged
  | sysUtime => cases Option.some.inj he; exact hlogged fun _ => sysUtime_logged
  | sysMkdir => cases Option.some.inj he; exact hlogged fun _ => sysMkdir_logged trivial
  | sysRmdir => cases Option.some.inj he; exact hlogged fun _ => sysRmdir_logged
  | sysUnlink => cases Option.some.inj he; exact hlogged fun _ => sysUnlink_logged
  | sysLink => cases Option.some.inj he; exact hlogged fun _ => sysLink_logged trivial
  | sysWrite => cases Option.some.inj he; exact hcall sysWrite_owes
  | execve => cases Option.some.inj he; exact hcall (doExecve_owes ht)
  | fork => cases he
  | exit => cases Option.some.inj he; exact doExit_balanced ht
  | world => cases he

/-- What a step is: time and the disk, a fork, or the code of a call. -/
theorem vfsStep_some (hs : vfsStep s e = some s') :
    (∃ now answers, s' = { s with now := now, answers := answers }) ∨
      (∃ t u memory r, t < nrTasks ∧ (s.task t).live = true ∧ u < nrTasks ∧ (s.task u).live = false ∧
        copyProcess t u memory s = some (r, s')) ∨
      ∃ t call r, code e = some (t, call) ∧ t < nrTasks ∧ (s.task t).live = true ∧ call s = some (r, s') := by
  unfold vfsStep at hs
  split at hs
  next now answers =>
    cases Option.some.inj hs
    exact .inl ⟨now, answers, rfl⟩
  next t u memory =>
    split at hs
    next hok =>
      obtain ⟨⟨r, v⟩, hr, rfl⟩ := Option.map_eq_some_iff.mp hs
      exact .inr (.inl ⟨t, u, memory, r, hok.1, hok.2.1, hok.2.2.2.1, hok.2.2.2.2, hr⟩)
    next => cases hs
  next =>
    obtain ⟨⟨t, call⟩, hcall, hs⟩ := Option.bind_eq_some_iff.mp hs
    dsimp only at hs
    split at hs
    next ht =>
      obtain ⟨⟨r, u⟩, hr, rfl⟩ := Option.map_eq_some_iff.mp hs
      exact .inr (.inr ⟨t, call, r, hcall, ht.1, ht.2, hr⟩)
    next => cases hs

theorem Balanced.step (h : s.Balanced []) (hs : vfsStep s e = some s') : s'.Balanced [] := by
  rcases vfsStep_some hs with ⟨now, answers, rfl⟩ | ⟨t, u, memory, r, ht, hlive, hu, hfree, hr⟩ | ⟨t, call, r, hcall, ht, hlive, hr⟩
  · exact ⟨⟨h.named, h.dirs, h.super, h.ends, h.one, h.fds, h.low, h.few, h.gone⟩, h.counts, h.hand⟩
  · exact (copyProcess_owes ht hu s ⟨⟨h, hlive⟩, hfree⟩ r s' hr).toBalanced
  · exact code_owes hcall ht s ⟨h, hlive⟩ r s' hr

open Classical in
/-- At most one entry is an end of the pipe with this mode. -/
theorem Tidy.sum_ends (h : s.Tidy) (hk : (s.slot k).pipe = true) (m : BitVec 16) :
    ∑ j ∈ range nrFile, (if s.EndOf k m j then 1 else 0) = if ∃ j, s.EndOf k m j then 1 else 0 := by
  by_cases hex : ∃ j, s.EndOf k m j
  · obtain ⟨j, hj⟩ := hex
    rw [if_pos ⟨j, hj⟩, sum_eq_single_of_mem j (mem_range.mpr hj.1) fun i _ hij => if_neg fun hi => hij (h.one k m i j hk hi hj), if_pos hj]
  · rw [if_neg hex]
    exact sum_eq_zero fun j _ => if_neg fun hj => hex ⟨j, hj⟩

open Classical in
/-- A pipe is referred to by its open ends and by nothing else. -/
theorem Tidy.pipe_refs (h : s.Tidy) (hk : (s.slot k).pipe = true) :
    s.refs k = (if ∃ i, s.EndOf k 1 i then 1 else 0) + if ∃ j, s.EndOf k 2 j then 1 else 0 := by
  have hdir : ∀ o, (∀ i, o = some i → (s.slot i).pipe = false) → ¬ o = some k := by
    intro o ho hc
    rw [ho k hc] at hk
    cases hk
  have hstands : ∑ t ∈ range nrTasks, stands k (s.task t) = 0 := by
    refine sum_eq_zero fun t _ => ?_
    unfold stands
    rw [if_neg (hdir _ fun i hi => h.dirs t i (.inl hi)), if_neg (hdir _ fun i hi => h.dirs t i (.inr hi)), Nat.add_zero]
  have huses : ∀ j ∈ range nrFile, uses k (s.file j) = (if s.EndOf k 1 j then 1 else 0) + if s.EndOf k 2 j then 1 else 0 := by
    intro j hj
    unfold uses EndOf
    by_cases hu : 0 < (s.file j).count ∧ (s.file j).inode = k
    · rw [if_pos hu]
      rcases h.ends j hu.1 (by rw [hu.2]; exact hk) with hm | hm
      · rw [if_pos ⟨mem_range.mp hj, hu.1, hu.2, hm⟩, if_neg fun hc => absurd (hm.symm.trans hc.2.2.2) (by decide)]
      · rw [if_neg fun hc => absurd (hm.symm.trans hc.2.2.2) (by decide), if_pos ⟨mem_range.mp hj, hu.1, hu.2, hm⟩]
    · rw [if_neg hu, if_neg fun hc => hu ⟨hc.2.1, hc.2.2.1⟩, if_neg fun hc => hu ⟨hc.2.1, hc.2.2.1⟩]
  unfold refs
  rw [hstands, sum_congr rfl huses, sum_add_distrib, h.sum_ends hk, h.sum_ends hk, if_neg (hdir _ fun i hi => h.super i (.inl hi)),
    if_neg (hdir _ fun i hi => h.super i (.inr hi)), Nat.add_zero]

theorem refs_le : s.refs k ≤ 194 := by
  have hfiles : ∑ j ∈ range nrFile, uses k (s.file j) ≤ ∑ _j ∈ range nrFile, 1 := by
    refine sum_le_sum fun j _ => ?_
    unfold uses
    split
    next => exact Nat.le_refl 1
    next => exact Nat.zero_le 1
  have htasks : ∑ t ∈ range nrTasks, stands k (s.task t) ≤ ∑ _t ∈ range nrTasks, 2 := by
    refine sum_le_sum fun t _ => ?_
    unfold stands
    split <;> split <;> omega
  rw [sum_const, card_range, Nat.nsmul_eq_mul] at hfiles htasks
  unfold nrFile at hfiles
  unfold nrTasks at htasks
  unfold refs nrFile nrTasks
  split <;> split <;> omega

end Vfs

/-- Between system calls, from `mount_root` on, every `i_count` is the number of open files, directories of processes and pointers of
the super block that refer to the inode, which an `unsigned short` can hold; a pipe counts 2 while both of its ends are open. -/
theorem inode_accounting {t : Nat} {s₀ s₁ s : Vfs} (hboot : s₀.Booted t) (ht : t < nrTasks) (hmount : Vfs.mountRoot t s₀ = some ((), s₁))
    (h : Machine.Reach vfsStep (fun _ _ => True) s₁ s) :
    (∀ k, (s.slot k).count = s.refs k ∧ (s.slot k).count < 2 ^ 16) ∧
      ∀ k, (s.slot k).pipe = true → ((s.slot k).count = 2 ↔ (∃ i, s.EndOf k 1 i) ∧ ∃ j, s.EndOf k 2 j) := by
  have hbase : s₁.Balanced [] := by
    have howes := Vfs.mountRoot_owes ht s₀ hboot () s₁ hmount
    exact howes.toBalanced
  have hI : s.Balanced [] := h.invariant hbase fun _ _ _ hI _ hs => hI.step hs
  have hcount : ∀ k, (s.slot k).count = s.refs k := by
    intro k
    rw [hI.counts, List.count_nil, Nat.add_zero]
  refine ⟨fun k => ⟨hcount k, ?_⟩, fun k hk => ?_⟩
  · have hle := @Vfs.refs_le s k
    rw [hcount]
    omega
  · rw [hcount, hI.pipe_refs hk]
    constructor
    · intro htwo
      split at htwo
      next hr =>
        split at htwo
        next hw => exact ⟨hr, hw⟩
        next => omega
      next => split at htwo <;> omega
    · rintro ⟨hr, hw⟩
      rw [if_pos hr, if_pos hw]

/-- A disk with nothing but an empty root directory, and process 1 alone. -/
def bootedVfs : Vfs where
  dev := 0x301
  ninodes := 8
  imap := fun n => n < 2
  isup := none
  imount := none
  disk := fun n => if n = 1 then { mode := 0o40755, size := 32, nlinks := 2, zone := fun z => if z = 0 then 9 else 0 } else {}
  dir := fun _ e => if e = 0 then ⟨1, padName dotName⟩ else ⟨1, padName dotdotName⟩
  slot := fun _ => {}
  last := 0
  file := fun _ => ⟨0, 0, 0, 0, 0⟩
  task := fun t => { live := t = 1, cred := ⟨0, 0, 0, 0, 0, false, -1, 0⟩ }
  now := 0
  answers := [0x5000]

theorem bootedVfs_booted : bootedVfs.Booted 1 :=
  ⟨rfl, fun u hu => by rw [of_decide_eq_true hu]; decide, fun _ => ⟨rfl, rfl, fun _ => rfl⟩, fun _ => rfl, rfl, rfl⟩

/-- A pipe that a child shares: 2 is for its ends, not for the processes. -/
theorem inode_accounting_pipe : ∃ s₁ s, Vfs.mountRoot 1 bootedVfs = some ((), s₁) ∧
    Machine.exec vfsStep s₁ [.sysPipe 1, .fork 1 2 true, .sysClose 1 0] = some s ∧ (s.slot 1).pipe = true ∧ (s.slot 1).count = 2 ∧
      s.refs 1 = 2 ∧ (∃ i, s.EndOf 1 1 i) ∧ ∃ j, s.EndOf 1 2 j := by
  have hrun : ((Vfs.mountRoot 1 bootedVfs).bind fun x => (Machine.exec vfsStep x.2 [.sysPipe 1, .fork 1 2 true, .sysClose 1 0]).map
      fun s => ((s.slot 1).pipe, (s.slot 1).count)) = some (true, 2) := by decide +kernel
  obtain ⟨⟨⟨⟩, s₁⟩, hmount, hrun⟩ := Option.bind_eq_some_iff.mp hrun
  obtain ⟨s, hs, hslot⟩ := Option.map_eq_some_iff.mp hrun
  obtain ⟨hpipe, hcount⟩ := Prod.mk.inj hslot
  obtain ⟨hcounts, hends⟩ := inode_accounting bootedVfs_booted (by decide) hmount (.exec .start (fun _ _ _ => trivial) hs)
  exact ⟨s₁, s, hmount, hs, hpipe, hcount, (hcounts 1).1.symm.trans hcount, (hends 1 hpipe).mp hcount⟩

end RheeKernel
