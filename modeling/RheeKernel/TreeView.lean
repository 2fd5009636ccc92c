import RheeKernel.CurrentInodes
import RheeKernel.DirTable
import RheeKernel.NameCalls

namespace RheeKernel

/-- An inode of a directory tree, as device `dev` has it. A directory without its first block has no entries. -/
structure SameInode (dev : Nat) (ip : FileInode) (d : DiskInode) : Prop where
  dev : ip.dev = dev
  mode : ip.mode = d.mode.setWidth 32
  uid : ip.uid = d.uid
  gid : ip.gid = d.gid
  nlinks : ip.nlinks = d.nlinks
  size : ip.size = d.size
  block : d.zone 0 = 0 → ∀ i, i < ip.entries → (ip.entry i).inode = 0

/-- In a directory tree every entry that can be looked up names an inode with links. -/
def NameSpace.Linked (T : NameSpace) : Prop :=
  ∀ i name j, T.searchable i = true → T.lookup i name = some j → ∃ ip, T.inode j = some ip ∧ ip.nlinks ≠ 0

namespace Vfs

/-- The inode table, the inode blocks and the directories show the tree: what is in the table is in it once, and what is on disk is
current where the table has no changes to it. -/
structure Shows (T : NameSpace) (s : Vfs) : Prop extends Table s where
  unique : ∀ j k, (s.slot j).dev ≠ 0 → (s.slot j).dev = (s.slot k).dev → (s.slot j).num = (s.slot k).num → j = k
  table : ∀ k, (s.slot k).dev ≠ 0 → ∃ ip, T.inode (s.slot k).num = some ip ∧ SameInode s.dev ip (s.slot k).toDiskInode
  disk : ∀ n ip, T.inode n = some ip → (∀ k, (s.slot k).dev = s.dev → (s.slot k).num = n → (s.slot k).dirt = false) →
    SameInode s.dev ip (s.disk n)
  entries : ∀ n ip, T.inode n = some ip → ip.isDir = true → ∀ i, i < ip.entries → s.dir n i = ip.entry i

/-- The inode of number `n` is in slot `k` and in use. -/
structure At (s : Vfs) (k n : Nat) : Prop where
  used : 0 < (s.slot k).count
  dev : (s.slot k).dev = s.dev
  num : (s.slot k).num = n

/-- Task `t` is the process of the tree. -/
structure Stands (T : NameSpace) (t : Nat) (s : Vfs) : Prop where
  cred : (s.task t).cred = T.proc.cred
  root : ∃ k, (s.task t).root = some k ∧ s.At k T.proc.root
  pwd : ∃ k, (s.task t).pwd = some k ∧ s.At k T.proc.pwd

/-- From `s` on nothing has changed in the counts of the inodes but one use more of the inode in slot `o`. -/
structure Kept (s u : Vfs) (o : Option Nat) : Prop where
  dev : u.dev = s.dev
  task : u.task = s.task
  dir : u.dir = s.dir
  count : ∀ j, (u.slot j).count = (s.slot j).count + if o = some j then 1 else 0
  same : ∀ j, 0 < (s.slot j).count → (u.slot j).dev = (s.slot j).dev ∧ (u.slot j).num = (s.slot j).num

variable {T : NameSpace} {s s' u v : Vfs} {k e n nr t : Nat} {i : CoreInode} {ip : FileInode} {name : List UInt8}

/-- Inode `n` is in the tree, as `d` on device `dev`. -/
def TreeNode (T : NameSpace) (dev n : Nat) (d : DiskInode) : Prop := ∃ ip, T.inode n = some ip ∧ SameInode dev ip d

theorem Shows.current (h : s.Shows T) : s.Current (fun n => (T.inode n).isSome) (TreeNode T s.dev) := by
  refine ⟨h.toTable, h.unique, ?_, ?_⟩
  · intro k real
    obtain ⟨ip, hip, hsame⟩ := h.table k real
    exact ⟨Option.isSome_of_eq_some hip, ip, hip, hsame⟩
  · intro n known clean
    obtain ⟨ip, hip⟩ := Option.isSome_iff_exists.mp known
    exact ⟨ip, hip, h.disk n ip hip clean⟩

/-- What is current and has the directories of before shows the tree. -/
theorem Shows.follow (h : s.Shows T) (hc : s'.Current (fun n => (T.inode n).isSome) (TreeNode T s.dev)) (hdev : s'.dev = s.dev)
    (hdir : s'.dir = s.dir) : s'.Shows T := by
  rw [← hdev] at hc
  refine ⟨hc.toTable, hc.unique, fun k real => (hc.table k real).2, ?_, hdir ▸ h.entries⟩
  intro n ip hip clean
  obtain ⟨ip', hip', hsame⟩ := hc.disk n (Option.isSome_of_eq_some hip) clean
  cases Option.some.inj (hip.symm.trans hip')
  exact hsame

/-- Another count for an inode. -/
theorem Shows.recount (h : s.Shows T) (hk : k < nrInode) (hdev : (s.slot k).dev = s.dev) :
    (s.setSlot k { s.slot k with count := n }).Shows T := h.follow (h.current.recount hk hdev) rfl rfl

/-- `namei` stamps the inode that it has found. -/
theorem Shows.touch (h : s.Shows T) (hk : k < nrInode) (hdev : (s.slot k).dev = s.dev) :
    (s.setSlot k { s.slot k with dirt := true }).Shows T := h.follow (h.current.mark hk hdev) rfl rfl

/-- The inode in slot `k` is written and used once less. -/
theorem Shows.clean (h : s.Shows T) (hk : k < nrInode) (hdirt : (s.slot k).dirt = true) : (s.cleaned k).Shows T :=
  h.follow (h.current.clean hk hdirt) rfl rfl

/-- A slot is emptied. -/
theorem Shows.clear (h : s.Shows T) (hk : k < nrInode) : (s.emptied k {}).Shows T := h.follow (h.current.clear hk) rfl rfl

/-- An inode of the tree that the table does not have is read. -/
theorem Shows.load (h : s.Shows T) (hk : k < nrInode) (hnr : T.inode nr = some ip)
    (hnone : ∀ j, j < nrInode → j ≠ k → ¬ ((s.slot j).dev = s.dev ∧ (s.slot j).num = nr)) : (s.loaded k s.dev nr).Shows T :=
  h.follow (h.current.load hk (Option.isSome_of_eq_some hnr) hnone) rfl rfl

theorem Kept.refl : Kept s s none := ⟨rfl, rfl, rfl, fun _ => rfl, fun _ _ => ⟨rfl, rfl⟩⟩

theorem At.bound (h : s.Shows T) (hat : s.At k n) : k < nrInode := h.toTable.bound hat.used

theorem At.here (h : s.Shows T) (hat : s.At k n) : ∃ ip, T.inode n = some ip ∧ SameInode s.dev ip (s.slot k).toDiskInode := by
  obtain ⟨ip, hip, hsame⟩ := h.table k (hat.dev ▸ h.mounted)
  rw [hat.num] at hip
  exact ⟨ip, hip, hsame⟩

theorem At.of_slot (hself : u.slot k = i) (hused : 0 < i.count) (hdev : i.dev = u.dev) (hnum : i.num = n) : u.At k n := by
  subst hself
  exact ⟨hused, hdev, hnum⟩

/-- A slot with one use more. -/
theorem Kept.take (h : Kept s u none) (hdev : v.dev = u.dev) (htask : v.task = u.task) (hdir : v.dir = u.dir)
    (hself : (v.slot k).count = (u.slot k).count + 1) (hother : ∀ j, j ≠ k → (v.slot j).count = (u.slot j).count)
    (hsame : ∀ j, 0 < (u.slot j).count → (v.slot j).dev = (u.slot j).dev ∧ (v.slot j).num = (u.slot j).num) : Kept s v (some k) := by
  have hcount : ∀ j, (u.slot j).count = (s.slot j).count := h.count
  refine ⟨hdev.trans h.dev, htask.trans h.task, hdir.trans h.dir, fun j => ?_, fun j hj => ?_⟩
  · by_cases hjk : j = k
    · rw [hjk, hself, hcount, if_pos rfl]
    · rw [hother j hjk, hcount, if_neg fun heq => hjk (Option.some.inj heq).symm]
      rfl
  · obtain ⟨hjdev, hjnum⟩ := hsame j (hcount j ▸ hj)
    obtain ⟨hjdev', hjnum'⟩ := h.same j hj
    exact ⟨hjdev.trans hjdev', hjnum.trans hjnum'⟩

/-- One use more of the inode in slot `k`. -/
theorem Kept.hold (h : u.Shows T) (hat : u.At k n) : (u.setSlot k { u.slot k with count := (u.slot k).count + 1 }).Shows T ∧
    Kept u (u.setSlot k { u.slot k with count := (u.slot k).count + 1 }) (some k) ∧
    (u.setSlot k { u.slot k with count := (u.slot k).count + 1 }).At k n := by
  have hself : (u.setSlot k { u.slot k with count := (u.slot k).count + 1 }).slot k = { u.slot k with count := (u.slot k).count + 1 } :=
    Function.update_self _ _ _
  have hother : ∀ j, j ≠ k → (u.setSlot k { u.slot k with count := (u.slot k).count + 1 }).slot j = u.slot j :=
    fun j hj => Function.update_of_ne hj _ _
  refine ⟨h.recount (hat.bound h) hat.dev, Kept.refl.take rfl rfl rfl (congrArg CoreInode.count hself) (fun j hj => ?_) (fun j _ => ?_),
    .of_slot hself (Nat.succ_pos _) hat.dev hat.num⟩
  · rw [hother j hj]
  · by_cases hj : j = k
    · rw [hj, hself]
      exact ⟨rfl, rfl⟩
    · rw [hother j hj]
      exact ⟨rfl, rfl⟩

/-- A slot with one use less. -/
theorem Kept.drop (h : Kept s u (some k)) (hdev : v.dev = u.dev) (htask : v.task = u.task) (hdir : v.dir = u.dir)
    (hother : ∀ j, j ≠ k → v.slot j = u.slot j)
    (hself : (v.slot k).count = (u.slot k).count - 1 ∧ (v.slot k).dev = (u.slot k).dev ∧ (v.slot k).num = (u.slot k).num) : Kept s v none := by
  obtain ⟨hcount, hselfdev, hselfnum⟩ := hself
  refine ⟨hdev.trans h.dev, htask.trans h.task, hdir.trans h.dir, fun j => ?_, fun j hj => ?_⟩
  · have hj := h.count j
    by_cases hjk : j = k
    · subst hjk
      rw [if_pos rfl] at hj
      rw [hcount, hj, if_neg nofun]
      omega
    · rw [if_neg fun heq => hjk (Option.some.inj heq).symm] at hj
      rw [hother j hjk, hj, if_neg nofun]
  · have hsame := h.same j hj
    by_cases hjk : j = k
    · subst hjk
      rw [hselfdev, hselfnum]
      exact hsame
    · rw [hother j hjk]
      exact hsame

/-- `iput` of a directory that somebody else uses, or that has links, writes it at most. -/
theorem iput_kept (h : u.Shows T) (hkept : Kept s u (some k)) (hat : u.At k n)
    (hlinks : 0 < (s.slot k).count ∨ (u.slot k).nlinks ≠ 0) : ∃ v, iput k u = some ((), v) ∧ v.Shows T ∧ Kept s v none := by
  have hzero : (u.slot k).count ≠ 0 := Nat.ne_of_gt hat.used
  have hpipe : (u.slot k).pipe ≠ true := fun hp => h.mounted (hat.dev.symm.trans (h.pipes k hp))
  have hdev : (u.slot k).dev ≠ 0 := hat.dev ▸ h.mounted
  have hrelease : (u.released k).Shows T ∧ Kept s (u.released k) none := by
    have hself : (u.released k).slot k = { u.slot k with count := (u.slot k).count - 1 } := Function.update_self _ _ _
    refine ⟨h.recount (hat.bound h) hat.dev, hkept.drop rfl rfl rfl (fun j hj => Function.update_of_ne hj _ _) ?_⟩
    rw [hself]
    exact ⟨rfl, rfl, rfl⟩
  rw [iput_eq, if_neg hzero, if_neg hpipe]
  by_cases hmany : (u.slot k).dev = 0 ∨ 1 < (u.slot k).count
  · rw [if_pos hmany]
    exact ⟨_, rfl, hrelease⟩
  · have hone : (s.slot k).count = 0 := by
      have hcount := hkept.count k
      rw [if_pos rfl] at hcount
      omega
    rw [if_neg hmany, if_neg (hlinks.resolve_left (by omega))]
    split
    next hdirt =>
      have hself : (u.cleaned k).slot k = { u.slot k with count := (u.slot k).count - 1, dirt := false } := Function.update_self _ _ _
      rw [if_pos hat.dev]
      refine ⟨_, rfl, h.clean (hat.bound h) hdirt, hkept.drop rfl rfl rfl (fun j hj => Function.update_of_ne hj _ _) ?_⟩
      rw [hself]
      exact ⟨rfl, rfl, rfl⟩
    next => exact ⟨_, rfl, hrelease⟩

/-- A slot of the inode table is free. -/
def FreeSlot (s : Vfs) : Prop := ∃ k < nrInode, (s.slot k).count = 0

/-- `iget` of an inode that the table has: the empty slot that was found for it is put back. -/
theorem Kept.share (h : v.Shows T) (hkept : Kept s v none) (he : e < nrInode ∧ (v.slot e).count = 0) (hne : k ≠ e) (hk : k < nrInode)
    (hdev : (v.slot k).dev = v.dev) (hnum : (v.slot k).num = nr) : (v.shared e k).Shows T ∧ Kept s (v.shared e k) (some k) ∧ (v.shared e k).At k nr := by
  obtain ⟨he, hezero⟩ := he
  have hsame : (v.emptied e {}).slot k = v.slot k := Function.update_of_ne hne _ _
  have hself : (v.shared e k).slot k = { v.slot k with count := (v.slot k).count + 1 } := Function.update_self _ _ _
  have hempty : (v.shared e k).slot e = {} := (Function.update_of_ne (Ne.symm hne) _ _).trans (Function.update_self _ _ _)
  have hother : ∀ j, j ≠ k → j ≠ e → (v.shared e k).slot j = v.slot j :=
    fun j hj hje => (Function.update_of_ne hj _ _).trans (Function.update_of_ne hje _ _)
  have hshared := (h.clear he).recount (n := (v.slot k).count + 1) hk (hsame ▸ hdev)
  rw [hsame] at hshared
  refine ⟨hshared, hkept.take rfl rfl rfl (congrArg CoreInode.count hself) (fun j hj => ?_) (fun j hj => ?_),
    .of_slot hself (Nat.succ_pos _) hdev hnum⟩
  · by_cases hje : j = e
    · rw [hje, hempty, hezero]
    · rw [hother j hj hje]
  · by_cases hjk : j = k
    · rw [hjk, hself]
      exact ⟨rfl, rfl⟩
    · have hje : j ≠ e := by
        rintro rfl
        exact absurd hezero (Nat.ne_of_gt hj)
      rw [hother j hjk hje]
      exact ⟨rfl, rfl⟩

/-- `iget` of an inode that is read from the disk. -/
theorem Kept.load (h : v.Shows T) (hkept : Kept s v none) (hk : k < nrInode ∧ (v.slot k).count = 0) (hnr : T.inode nr = some ip)
    (hnone : ∀ j < nrInode, j ≠ k → ¬ ((v.slot j).dev = v.dev ∧ (v.slot j).num = nr)) :
    (v.loaded k v.dev nr).Shows T ∧ Kept s (v.loaded k v.dev nr) (some k) ∧ (v.loaded k v.dev nr).At k nr := by
  obtain ⟨hk, hzero⟩ := hk
  have hself : (v.loaded k v.dev nr).slot k = { v.written k nr with dev := v.dev, num := nr, count := 1 } := Function.update_self _ _ _
  have hother : ∀ j, j ≠ k → (v.loaded k v.dev nr).slot j = v.slot j := fun j hj => Function.update_of_ne hj _ _
  refine ⟨h.load hk hnr hnone, hkept.take rfl rfl rfl ?_ (fun j hj => by rw [hother j hj]) (fun j hj => ?_), .of_slot hself Nat.one_pos rfl rfl⟩
  · rw [hself, hzero]
  · have hjk : j ≠ k := by
      rintro rfl
      exact absurd hzero (Nat.ne_of_gt hj)
    rw [hother j hjk]
    exact ⟨rfl, rfl⟩

/-- `iget` of an inode of the tree: it is used once more, and for that there must be a free slot, needed or not. -/
theorem iget_kept (h : v.Shows T) (hkept : Kept s v none) (hnr : T.inode nr = some ip) :
    (s.FreeSlot → ∃ k w, iget v.dev nr v = some (k, w) ∧ w.Shows T ∧ Kept s w (some k) ∧ w.At k nr) ∧ (¬ s.FreeSlot → iget v.dev nr v = none) := by
  have hcount : ∀ j, (v.slot j).count = (s.slot j).count := hkept.count
  have hfree : s.FreeSlot ↔ (iget v.dev nr v).isSome := by
    rw [iget_isSome h.toTable]
    unfold FreeSlot
    simp only [hcount]
  refine ⟨fun hs => ?_, fun hs => Option.not_isSome_iff_eq_none.mp fun hsome => hs (hfree.mpr hsome)⟩
  obtain ⟨⟨k, w⟩, hget⟩ := Option.isSome_iff_exists.mp (hfree.mp hs)
  obtain ⟨_, e, he, _, ⟨hne, hk, hkdev, hknum, rfl⟩ | ⟨rfl, _, hnone, rfl⟩⟩ := iget_some hget
  · exact ⟨k, _, hget, Kept.share h hkept (emptySlot_some he) hne hk hkdev hknum⟩
  · exact ⟨k, _, hget, Kept.load h hkept (emptySlot_some he) hnr hnone⟩

end Vfs

end RheeKernel
