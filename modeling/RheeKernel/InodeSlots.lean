import RheeKernel.CallTraces

namespace RheeKernel

namespace Vfs

open Triples

variable {s₀ s₁ s s' : Vfs} {t me : Nat} {e : VfsEvent}

/-- Some slot of `inode_table` is not in use. -/
def HasEmpty (s : Vfs) : Prop := ∃ k < nrInode, (s.slot k).count = 0

instance : Decidable s.HasEmpty := inferInstanceAs (Decidable (∃ k < nrInode, _))

theorem mountRoot_dev (h : mountRoot t s₀ = some ((), s₁)) : s₀.dev ≠ 0 := by
  intro hdev
  change (iget s₀.dev 1 { s₀ with file := fun j => { s₀.file j with count := 0 } }).bind _ = _ at h
  unfold iget at h
  rw [if_pos hdev] at h
  cases h

theorem Booted.table (h : s₀.Booted t) (hmount : mountRoot t s₀ = some ((), s₁)) : s₀.Table := by
  have hfits : ∀ k, s₀.Fits (s₀.slot k) := fun k => by
    rw [h.slot]
    exact .empty
  exact ⟨mountRoot_dev hmount, fun k _ => h.slot k, fun k => (hfits k).home, fun k => (hfits k).pipes,
    fun k hk => (hfits k).named hk.1 hk.2, fun k => (hfits k).dirty⟩

theorem Table.run {ok : Vfs → InodeOp → Prop} (h : s.Table) (hr : Machine.Reach opStep ok s s') : s'.Table :=
  hr.invariant h fun _ _ _ hI _ hs => hI.step hs

/-- A pipe with descriptors and entries to spare needs nothing but a slot. -/
theorem sysPipe_isSome (h : s.Table)
    (hroom : (Files.firstTwo (fun j => (s.file j).count == 0) nrFile).isSome ∧
      (Files.firstTwo (fun fd => (s.files.filp t fd).isNone) nrOpen).isSome) :
    (sysPipe t s).isSome ↔ s.HasEmpty := by
  obtain ⟨x, hx⟩ := Option.isSome_iff_exists.mp hroom.1
  obtain ⟨y, hy⟩ := Option.isSome_iff_exists.mp hroom.2
  refine Iff.trans ?_ (getPipeInode_isSome h)
  unfold sysPipe
  rw [get_bind, hx, hy]
  change ((getPipeInode s).bind _).isSome ↔ _
  cases getPipeInode s with
  | none => exact Iff.rfl
  | some z => exact ⟨fun _ => rfl, fun _ => rfl⟩

end Vfs

/-- In every run of system calls from `mount_root` on, and at every point of a run of inode operations such as the calls consist of,
`iget` of an inode, in the table or not, `new_inode` and `get_pipe_inode` come back if and only if a slot of the table is not in use;
otherwise they panic, and so does `sys_pipe`, whatever descriptors and entries are left. -/
theorem inode_slots_iff {t : Nat} {s₀ s₁ s : Vfs} (hboot : s₀.Booted t) (ht : t < nrTasks) (hmount : Vfs.mountRoot t s₀ = some ((), s₁))
    (h : Machine.Reach vfsStep (fun _ _ => True) s₁ s) :
    (∀ e s', vfsStep s e = some s' → Machine.Reach opStep (fun _ _ => True) s s') ∧
      (∀ u, Machine.Reach opStep (fun _ _ => True) s u → (∀ nr, (Vfs.iget u.dev nr u).isSome ↔ u.HasEmpty) ∧ ((Vfs.newInode u.dev u).isSome ↔ u.HasEmpty) ∧
        ((Vfs.getPipeInode u).isSome ↔ u.HasEmpty)) ∧
      ∀ me < nrTasks, (s.task me).live = true → (Files.firstTwo (fun j => (s.file j).count == 0) nrFile).isSome →
        (Files.firstTwo (fun fd => (s.files.filp me fd).isNone) nrOpen).isSome → ((vfsStep s (.sysPipe me)).isSome ↔ s.HasEmpty) := by
  have htable : s.Table := (hboot.table hmount).run (Vfs.calls_ran hboot ht hmount h)
  refine ⟨fun e s' hs => ((hboot.balanced ht hmount h).ran (.inr trivial) hs).reach, fun u hu => ?_, fun me hme hlive hfile hfd => ?_⟩
  · have hu : u.Table := htable.run hu
    exact ⟨fun nr => Vfs.iget_isSome hu, Vfs.newInode_isSome hu, Vfs.getPipeInode_isSome hu⟩
  · refine Iff.trans ?_ (Vfs.sysPipe_isSome htable ⟨hfile, hfd⟩)
    change (if me < nrTasks ∧ (s.task me).live = true then (Vfs.sysPipe me s).map Prod.snd else none).isSome ↔ _
    rw [if_pos ⟨hme, hlive⟩, Option.isSome_map]

/-- Right after `mount_root` there is room. -/
theorem inode_slots_iff_mounted : ∃ s₁, Vfs.mountRoot 1 bootedVfs = some ((), s₁) ∧ s₁.HasEmpty ∧ (Vfs.iget s₁.dev 1 s₁).isSome := by
  have hrun : (Vfs.mountRoot 1 bootedVfs).map (fun x => decide x.2.HasEmpty) = some true := by decide +kernel
  obtain ⟨⟨⟨⟩, s₁⟩, hmount, hempty⟩ := Option.map_eq_some_iff.mp hrun
  have hempty := of_decide_eq_true hempty
  obtain ⟨_, hslots, _⟩ := inode_slots_iff bootedVfs_booted (by decide) hmount .start
  exact ⟨s₁, hmount, hempty, ((hslots s₁ .start).1 1).mpr hempty⟩

/-- Process `t` makes `n` pipes, and there is a page for each. -/
def pipes (t n : Nat) : List VfsEvent := (List.replicate n [.world 0 [0x5000], .sysPipe t]).flatten

/-- Four processes with 31 pipes, each within its 20 descriptors: the table is full. -/
def fullTable : List VfsEvent :=
  [.fork 1 2 true, .fork 1 3 true, .fork 1 4 true] ++ pipes 1 10 ++ pipes 2 10 ++ pipes 3 10 ++ pipes 4 1

/-- With the table full, process 4, which has 18 descriptors left, panics in `sys_pipe`, and in `sys_stat` of a directory that is in
the table. -/
theorem inode_slots_panic : ∃ s₁ s, Vfs.mountRoot 1 bootedVfs = some ((), s₁) ∧ Machine.exec vfsStep s₁ fullTable = some s ∧
    (∀ k < nrInode, (s.slot k).count ≠ 0) ∧ (s.task 4).live = true ∧ (∀ fd < nrOpen, 2 ≤ fd → (s.task 4).filp fd = none) ∧
      (s.file 62).count = 0 ∧ (s.file 63).count = 0 ∧ vfsStep s (.sysPipe 4) = none ∧ (s.slot 0).dev = s.dev ∧ (s.slot 0).num = 1 ∧
        Vfs.iget s.dev 1 s = none ∧ vfsStep s (.sysStat 4 [47, 46]) = none := by
  have hrun : ((Vfs.mountRoot 1 bootedVfs).bind fun x => (Machine.exec vfsStep x.2 fullTable).map fun s =>
      ([decide (∀ k < nrInode, (s.slot k).count ≠ 0), (s.task 4).live, decide (∀ fd < nrOpen, 2 ≤ fd → (s.task 4).filp fd = none),
        (vfsStep s (.sysPipe 4)).isNone, decide ((s.slot 0).dev = s.dev), (Vfs.iget s.dev 1 s).isNone,
        (vfsStep s (.sysStat 4 [47, 46])).isNone], [(s.file 62).count, (s.file 63).count, (s.slot 0).num])) =
      some ([true, true, true, true, true, true, true], [0, 0, 1]) := by decide +kernel
  obtain ⟨⟨⟨⟩, s₁⟩, hmount, hrun⟩ := Option.bind_eq_some_iff.mp hrun
  obtain ⟨s, hs, hend⟩ := Option.map_eq_some_iff.mp hrun
  simp only [Prod.mk.injEq, List.cons.injEq, decide_eq_true_eq, Option.isNone_iff_eq_none, and_true] at hend
  obtain ⟨⟨hfull, hlive, hfds, hpipe, hdev, hget, hstat⟩, hlast, hlast', hnum⟩ := hend
  exact ⟨s₁, s, hmount, hs, hfull, hlive, hfds, hlast, hlast', hpipe, hdev, hnum, hget, hstat⟩

end RheeKernel
