import RheeKernel.InodeLedger
import RheeKernel.Machine

namespace RheeKernel

/-- What the system calls do to the inode table, piece by piece: `assign` sets fields of an inode together with `i_dirt`, `stamp`
sets `i_mtime` alone, as `add_entry` does for an entry it takes again and `file_write` at its end, and `sync` is `sync_inodes` at one
slot. `beside` stands for everything else. -/
inductive InodeOp
  | iget (dev nr : Nat)
  | newInode (dev : Nat)
  | getPipeInode
  | iput (k : Nat)
  | hold (k n : Nat)
  | assign (k : Nat) (d : DiskInode)
  | stamp (k : Nat)
  | sync (k : Nat)
  | beside (t : Vfs)

namespace Vfs

/-- The inode in slot `k` is in use and has a place on disk. -/
def InUse (s : Vfs) (k : Nat) : Prop := 0 < (s.slot k).count ∧ (s.slot k).pipe = false

instance {s : Vfs} {k : Nat} : Decidable (s.InUse k) := inferInstanceAs (Decidable (_ ∧ _))

def setSlot (s : Vfs) (k : Nat) (i : CoreInode) : Vfs := { s with slot := Function.update s.slot k i }

end Vfs

/-- `none` is a panic, or a slot that nobody uses. -/
def opStep (s : Vfs) : InodeOp → Option Vfs
  | .iget dev nr => (Vfs.iget dev nr s).map Prod.snd
  | .newInode dev => (Vfs.newInode dev s).map Prod.snd
  | .getPipeInode => (Vfs.getPipeInode s).map Prod.snd
  | .iput k => (Vfs.iput k s).map Prod.snd
  | .hold k n => if 0 < (s.slot k).count then some (s.setSlot k { s.slot k with count := (s.slot k).count + n }) else none
  | .assign k d => if s.InUse k then some (s.setSlot k { s.slot k with toDiskInode := d, dirt := true }) else none
  | .stamp k => if s.InUse k then some (s.setSlot k { s.slot k with mtime := s.now }) else none
  | .sync k => if (s.slot k).dirt = true ∧ (s.slot k).pipe = false then (Vfs.writeInode k s).map Prod.snd else none
  | .beside t =>
    some { s with file := t.file, task := t.task, isup := t.isup, imount := t.imount, dir := t.dir, now := t.now, answers := t.answers }

namespace Vfs

open Triples

/-- The table as the calls keep it: the inodes in use are pipes or of the mounted device, and so is what is dirty. -/
structure Table (s : Vfs) : Prop where
  mounted : s.dev ≠ 0
  far : ∀ k, nrInode ≤ k → s.slot k = {}
  home : ∀ k, (s.slot k).dev = 0 ∨ (s.slot k).dev = s.dev
  pipes : ∀ k, (s.slot k).pipe = true → (s.slot k).dev = 0
  named : ∀ k, s.InUse k → (s.slot k).dev = s.dev
  dirty : ∀ k, (s.slot k).dirt = true → (s.slot k).dev = s.dev

/-- The scan of `get_empty_inode`. -/
def emptySlot (s : Vfs) : Option Nat :=
  ((List.range nrInode).map fun i => (s.last + i) % nrInode).find? fun k => (s.slot k).count == 0

/-- The disk, once `get_empty_inode` has written what slot `k` holds. -/
def written (s : Vfs) (k : Nat) : Nat → DiskInode :=
  if (s.slot k).dirt then Function.update s.disk (s.slot k).num (s.slot k).toDiskInode else s.disk

/-- The state with slot `k` emptied and taken. -/
def emptied (s : Vfs) (k : Nat) (i : CoreInode) : Vfs :=
  { s with last := k, disk := s.written k, slot := Function.update s.slot k i }

variable {s s' : Vfs} {op : InodeOp} {dev nr k e n : Nat} {o : Option Nat}

theorem emptySlot_some (h : s.emptySlot = some k) : k < nrInode ∧ (s.slot k).count = 0 := by
  have hmem := List.mem_of_find?_eq_some h
  have hcount := List.find?_some h
  rw [beq_iff_eq] at hcount
  obtain ⟨i, _, rfl⟩ := List.mem_map.mp hmem
  exact ⟨Nat.mod_lt _ (by decide), hcount⟩

/-- The scan goes round the whole table. -/
theorem emptySlot_isSome : s.emptySlot.isSome ↔ ∃ k < nrInode, (s.slot k).count = 0 := by
  constructor
  · intro h
    obtain ⟨k, hk⟩ := Option.isSome_iff_exists.mp h
    exact ⟨k, emptySlot_some hk⟩
  · intro ⟨k, hk, hcount⟩
    unfold emptySlot
    rw [List.find?_isSome]
    refine ⟨k, List.mem_map.mpr ⟨(k + nrInode - s.last % nrInode) % nrInode, ?_, ?_⟩, by rw [hcount]; rfl⟩
    · exact List.mem_range.mpr (Nat.mod_lt _ (by decide))
    · unfold nrInode at *
      omega

theorem writeInode_eq : writeInode k s = if (s.slot k).dev = s.dev then
    some ((), { s with
      disk := Function.update s.disk (s.slot k).num (s.slot k).toDiskInode
      slot := Function.update s.slot k { s.slot k with dirt := false } }) else none := by
  change (if (s.slot k).dev ≠ s.dev then (failure : Call Unit) else _) s = _
  by_cases hdev : (s.slot k).dev = s.dev
  · rw [if_neg (not_not_intro hdev), if_pos hdev]
    rfl
  · rw [if_pos hdev, if_neg hdev]
    rfl

theorem getEmptyInode_eq : getEmptyInode s = s.emptySlot.bind fun k =>
    if (s.slot k).dirt = true → (s.slot k).dev = s.dev then some (k, s.emptied k { count := 1 }) else none := by
  unfold getEmptyInode emptySlot emptied written
  simp only [bind, StateT.bind, get, getThe, MonadStateOf.get, StateT.get, pure, Option.bind_some]
  cases ((List.range nrInode).map fun i => (s.last + i) % nrInode).find? fun k => (s.slot k).count == 0 with
  | none => rfl
  | some k =>
    rw [Option.bind_some]
    by_cases hd : (s.slot k).dirt = true
    · simp only [hd, if_true, forall_const]
      change ((writeInode k { s with last := k }).bind fun x =>
        some (k, ({ x.2 with slot := Function.update x.2.slot k { count := 1 } } : Vfs))) = _
      rw [writeInode_eq]
      dsimp only
      by_cases hdev : (s.slot k).dev = s.dev
      · rw [if_pos hdev, if_pos hdev, Option.bind_some]
        simp only [Function.update_idem]
      · rw [if_neg hdev, if_neg hdev]
        rfl
    · rw [if_pos fun hc => absurd hc hd]
      simp only [hd]
      rfl

theorem readInode_eq : readInode k s = if (s.slot k).dev = s.dev then
    some ((), s.setSlot k { s.slot k with toDiskInode := s.disk (s.slot k).num }) else none := by
  change (if (s.slot k).dev ≠ s.dev then (failure : Call Unit) else _) s = _
  by_cases hdev : (s.slot k).dev = s.dev
  · rw [if_neg (not_not_intro hdev), if_pos hdev]
    rfl
  · rw [if_pos hdev, if_neg hdev]
    rfl

theorem readInode_named : readInode e (s.setSlot e { s.slot e with dev := dev, num := nr }) = if dev = s.dev then
    some ((), s.setSlot e { s.slot e with toDiskInode := s.disk nr, dev := dev, num := nr }) else none := by
  rw [readInode_eq]
  unfold setSlot
  simp only [Function.update_self, Function.update_idem]

/-- An empty slot that was taken goes back. -/
theorem iput_empty (h : s.slot e = { count := 1 }) : iput e s = some ((), s.setSlot e {}) := by
  unfold iput
  change (if (s.slot e).count = 0 then (failure : Call Unit) else _) s = _
  rw [h]
  change some ((), ({ s with slot := Function.update s.slot e { s.slot e with count := (s.slot e).count - 1 } } : Vfs)) = _
  rw [h]
  rfl

/-- The search of `iget`. -/
def findSlot (s : Vfs) (dev nr : Nat) : Option Nat :=
  (List.range nrInode).find? fun k => (s.slot k).dev == dev && (s.slot k).num == nr

theorem findSlot_some (h : s.findSlot dev nr = some k) : k < nrInode ∧ (s.slot k).dev = dev ∧ (s.slot k).num = nr := by
  have hmem := List.mem_of_find?_eq_some h
  have hp := List.find?_some h
  simp only [Bool.and_eq_true, beq_iff_eq] at hp
  exact ⟨List.mem_range.mp hmem, hp⟩

theorem findSlot_none (h : s.findSlot dev nr = none) (hk : k < nrInode) : ¬ ((s.slot k).dev = dev ∧ (s.slot k).num = nr) := by
  intro hc
  have hp := List.find?_eq_none.mp h k (List.mem_range.mpr hk)
  simp [hc.1, hc.2] at hp

/-- The state with slot `e` emptied and the inode in slot `k` used once more. -/
def shared (s : Vfs) (e k : Nat) : Vfs :=
  (s.emptied e {}).setSlot k { s.slot k with count := (s.slot k).count + 1 }

/-- The state with the inode read into slot `e`. -/
def loaded (s : Vfs) (e dev nr : Nat) : Vfs :=
  s.emptied e { s.written e nr with dev := dev, num := nr, count := 1 }

/-- `iget` once it has its empty slot. -/
theorem iget_eq (hdev : dev ≠ 0) : iget dev nr s = (getEmptyInode s).bind fun (e, t) =>
    match t.findSlot dev nr with
    | some k => (iput e (t.setSlot k { t.slot k with count := (t.slot k).count + 1 })).map fun x => (k, x.2)
    | none => if dev = t.dev then
        some (e, t.setSlot e { t.slot e with toDiskInode := t.disk nr, dev := dev, num := nr })
      else none := by
  unfold iget findSlot
  rw [if_neg hdev]
  simp only [bind, StateT.bind]
  refine congrArg (Option.bind (getEmptyInode s)) (funext fun x => ?_)
  obtain ⟨e, t⟩ := x
  simp only [get, getThe, MonadStateOf.get, StateT.get, pure, Option.bind_some]
  cases (List.range nrInode).find? fun k => (t.slot k).dev == dev && (t.slot k).num == nr with
  | some k =>
    have hmap : ∀ r : Option (Unit × Vfs), (r.bind fun x => some (k, x.2)) = r.map fun x => (k, x.2) := fun r => by cases r <;> rfl
    exact hmap (iput e (t.setSlot k { t.slot k with count := (t.slot k).count + 1 }))
  | none =>
    change ((readInode e (t.setSlot e { t.slot e with dev := dev, num := nr })).bind fun x => some (e, x.2)) = _
    rw [readInode_named]
    split
    next => rfl
    next => rfl

/-- Slot `k` gets the inode `i`; what it held before may have been written. -/
structure Replaces (k : Nat) (i : CoreInode) (s s' : Vfs) : Prop where
  dev : s'.dev = s.dev
  slot : s'.slot = Function.update s.slot k i
  disk : s'.disk = s.disk ∨ s'.disk = s.written k ∧ ((s.slot k).dirt = true → (s.slot k).dev = s.dev)

/-- An inode that may stand in the table. -/
structure Fits (s : Vfs) (i : CoreInode) : Prop where
  home : i.dev = 0 ∨ i.dev = s.dev
  pipes : i.pipe = true → i.dev = 0
  named : 0 < i.count → i.pipe = false → i.dev = s.dev
  dirty : i.dirt = true → i.dev = s.dev

theorem Replaces.at {i : CoreInode} (h : Replaces k i s s') (j : Nat) : s'.slot j = if j = k then i else s.slot j := by
  rw [h.slot, Function.update_apply]

theorem Table.fits (h : s.Table) (k : Nat) : s.Fits (s.slot k) :=
  ⟨h.home k, h.pipes k, fun hc hp => h.named k ⟨hc, hp⟩, h.dirty k⟩

theorem Fits.empty : s.Fits {} := ⟨.inl rfl, fun _ => rfl, fun hc => absurd hc (Nat.lt_irrefl 0), fun hd => nomatch hd⟩

theorem Table.replace {i : CoreInode} (h : s.Table) (hk : k < nrInode) (hr : Replaces k i s s') (hi : s.Fits i) : s'.Table := by
  have hfits : ∀ j, s'.Fits (s'.slot j) := by
    intro j
    have hf : s.Fits (s'.slot j) := by
      rw [hr.at]
      split
      next => exact hi
      next => exact h.fits j
    exact ⟨hr.dev ▸ hf.home, hf.pipes, hr.dev ▸ hf.named, hr.dev ▸ hf.dirty⟩
  refine ⟨hr.dev ▸ h.mounted, fun j hj => ?_, fun j => (hfits j).home, fun j => (hfits j).pipes, fun j hj => (hfits j).named hj.1 hj.2,
    fun j => (hfits j).dirty⟩
  rw [hr.at, if_neg]
  · exact h.far j hj
  · omega

theorem Table.bound (h : s.Table) (hk : 0 < (s.slot k).count) : k < nrInode := by
  by_contra hge
  rw [h.far k (by omega)] at hk
  exact absurd hk (Nat.lt_irrefl 0)

/-- What `get_empty_inode` does, whatever becomes of the slot. -/
theorem emptied_replaces {i : CoreInode} (hdev : (s.slot e).dirt = true → (s.slot e).dev = s.dev) :
    Replaces e i s (s.emptied e i) :=
  ⟨rfl, rfl, .inr ⟨rfl, hdev⟩⟩

theorem getEmptyInode_some {t : Vfs} (h : getEmptyInode s = some (e, t)) :
    s.emptySlot = some e ∧ ((s.slot e).dirt = true → (s.slot e).dev = s.dev) ∧ t = s.emptied e { count := 1 } := by
  rw [getEmptyInode_eq] at h
  obtain ⟨k, hk, h⟩ := Option.bind_eq_some_iff.mp h
  split at h
  next hdev =>
    cases Option.some.inj h
    exact ⟨hk, hdev, rfl⟩
  next => cases h

theorem getEmptyInode_isSome (h : s.Table) : (getEmptyInode s).isSome ↔ ∃ k < nrInode, (s.slot k).count = 0 := by
  rw [getEmptyInode_eq, ← emptySlot_isSome]
  cases s.emptySlot with
  | none => exact Iff.rfl
  | some k =>
    rw [Option.bind_some, if_pos (h.dirty k)]
    exact Iff.rfl

/-- The two ways of `iget`: the inode is in the table, or it is read into the empty slot. -/
theorem iget_ways (nr : Nat) (hdev : dev ≠ 0) {t : Vfs} (he : getEmptyInode s = some (e, t)) :
    (∃ k, k ≠ e ∧ k < nrInode ∧ (s.slot k).dev = dev ∧ (s.slot k).num = nr ∧ iget dev nr s = some (k, s.shared e k)) ∨
    ((∀ k < nrInode, k ≠ e → ¬ ((s.slot k).dev = dev ∧ (s.slot k).num = nr)) ∧
      iget dev nr s = if dev = s.dev then some (e, s.loaded e dev nr) else none) := by
  obtain ⟨_, _, rfl⟩ := getEmptyInode_some he
  have hself : (s.emptied e { count := 1 }).slot e = { count := 1 } := Function.update_self _ _ _
  have hother : ∀ k, k ≠ e → (s.emptied e { count := 1 }).slot k = s.slot k := fun k hk => Function.update_of_ne hk _ _
  rw [iget_eq hdev, he, Option.bind_some]
  dsimp only
  cases hfind : (s.emptied e { count := 1 }).findSlot dev nr with
  | some k =>
    obtain ⟨hk, hkd, hkn⟩ := findSlot_some hfind
    have hne : k ≠ e := by
      rintro rfl
      rw [hself] at hkd
      exact hdev hkd.symm
    rw [hother k hne] at hkd hkn
    refine .inl ⟨k, hne, hk, hkd, hkn, ?_⟩
    dsimp only
    rw [iput_empty]
    · rw [hother k hne]
      unfold shared setSlot emptied
      simp only [Option.map_some, Function.update_comm hne, Function.update_idem]
    · exact (Function.update_of_ne (Ne.symm hne) _ _).trans hself
  | none =>
    refine .inr ⟨fun k hk hne hc => ?_, ?_⟩
    · refine findSlot_none hfind hk ?_
      rw [hother k hne]
      exact hc
    · dsimp only
      rw [hself]
      unfold loaded setSlot emptied
      simp only [Function.update_idem]

theorem iget_isSome (h : s.Table) : (iget s.dev nr s).isSome ↔ ∃ k < nrInode, (s.slot k).count = 0 := by
  rw [← getEmptyInode_isSome h]
  cases he : getEmptyInode s with
  | none =>
    rw [iget_eq h.mounted, he]
    exact Iff.rfl
  | some x =>
    obtain ⟨e, t⟩ := x
    rcases iget_ways nr h.mounted he with ⟨k, _, _, _, _, hget⟩ | ⟨_, hget⟩
    · rw [hget]
      exact ⟨fun _ => rfl, fun _ => rfl⟩
    · rw [hget, if_pos rfl]
      exact ⟨fun _ => rfl, fun _ => rfl⟩

/-- The state with a new inode, number `n`, in slot `e`. -/
def numbered (s : Vfs) (e dev n : Nat) : Vfs :=
  { s.emptied e { count := 1, nlinks := 1, dev := dev, dirt := true, num := n, mtime := s.now } with imap := Function.update s.imap n true }

theorem newInode_eq {t : Vfs} (he : getEmptyInode s = some (e, t)) : newInode dev s = if dev = s.dev then
    some (match s.freeNumber with
      | none => (none, s.emptied e {})
      | some n => (some e, s.numbered e dev n)) else none := by
  obtain ⟨_, _, rfl⟩ := getEmptyInode_some he
  change (getEmptyInode s).bind _ = _
  rw [he, Option.bind_some]
  change (if dev ≠ s.dev then (failure : Call (Option Nat)) else _) _ = _
  by_cases hdev : dev = s.dev
  · rw [if_neg (not_not_intro hdev), if_pos hdev]
    change (match s.freeNumber with
      | none => (do iput e; return none : Call (Option Nat))
      | some n => _) (s.emptied e { count := 1 }) = _
    cases s.freeNumber with
    | none =>
      change (iput e (s.emptied e { count := 1 })).bind _ = _
      rw [iput_empty (Function.update_self _ _ _)]
      unfold setSlot emptied
      simp only [Function.update_idem]
      rfl
    | some n =>
      unfold numbered emptied
      change some (some e, _) = _
      simp only [Function.update_self, Function.update_idem]
  · rw [if_pos hdev, if_neg hdev]
    rfl

/-- The state with a pipe in slot `e`, or with nothing in it if there is no page. -/
def piped (s : Vfs) (e : Nat) : Vfs :=
  { s.emptied e (if s.answers.headD 0 = 0 then {} else { count := 2, size := s.answers.headD 0, pipe := true }) with answers := s.answers.tail }

theorem answer_run : answer s = some (s.answers.headD 0, { s with answers := s.answers.tail }) := by
  unfold answer
  rw [get_bind]
  cases s with
  | mk dev ninodes imap isup imount disk dir slot last file task now answers =>
    cases answers with
    | nil => rfl
    | cons a as => rfl

theorem getPipeInode_eq {t : Vfs} (he : getEmptyInode s = some (e, t)) :
    getPipeInode s = some (if s.answers.headD 0 = 0 then none else some e, s.piped e) := by
  obtain ⟨_, _, rfl⟩ := getEmptyInode_some he
  change (getEmptyInode s).bind _ = _
  rw [he, Option.bind_some]
  change (answer (s.emptied e { count := 1 })).bind _ = _
  rw [answer_run, Option.bind_some]
  change (if s.answers.headD 0 = 0 then (_ : Call (Option Nat)) else _) _ = _
  unfold piped emptied
  by_cases hpage : s.answers.headD 0 = 0
  · simp only [hpage, if_true]
    change some (none, _) = _
    simp only [Function.update_self, Function.update_idem]
  · simp only [hpage, if_false]
    change some (some e, _) = _
    simp only [Function.update_self, Function.update_idem]

theorem newInode_isSome (h : s.Table) : (newInode s.dev s).isSome ↔ ∃ k < nrInode, (s.slot k).count = 0 := by
  rw [← getEmptyInode_isSome h]
  cases he : getEmptyInode s with
  | none =>
    change ((getEmptyInode s).bind _).isSome ↔ _
    rw [he]
    exact Iff.rfl
  | some x =>
    rw [newInode_eq he, if_pos rfl]
    exact ⟨fun _ => rfl, fun _ => rfl⟩

theorem getPipeInode_isSome (h : s.Table) : (getPipeInode s).isSome ↔ ∃ k < nrInode, (s.slot k).count = 0 := by
  rw [← getEmptyInode_isSome h]
  cases he : getEmptyInode s with
  | none =>
    change ((getEmptyInode s).bind _).isSome ↔ _
    rw [he]
    exact Iff.rfl
  | some x =>
    rw [getPipeInode_eq he]
    exact ⟨fun _ => rfl, fun _ => rfl⟩

/-- What `iput` leaves in slot `k`: the inode with one use less, perhaps written, an unused pipe, or nothing. -/
structure PutBack (k : Nat) (i : CoreInode) (s s' : Vfs) : Prop extends Replaces k i s s' where
  used : 0 < (s.slot k).count
  left : i = { s.slot k with count := (s.slot k).count - 1 } ∨
    (s.slot k).pipe = true ∧ i = { s.slot k with count := 0, dirt := false, pipe := false } ∨ i = {} ∨
    (s.slot k).dirt = true ∧ i = { s.slot k with count := (s.slot k).count - 1, dirt := false } ∧ s'.disk = s.written k

/-- The table changes in slot `k` alone, and the disk does not. -/
structure OnlyAt (k : Nat) (s s' : Vfs) : Prop where
  dev : s'.dev = s.dev
  disk : s'.disk = s.disk
  others : ∀ j, j ≠ k → s'.slot j = s.slot j

theorem OnlyAt.refl : OnlyAt k s s := ⟨rfl, rfl, fun _ _ => rfl⟩

theorem OnlyAt.trans {t : Vfs} (h : OnlyAt k s t) (h' : OnlyAt k t s') : OnlyAt k s s' :=
  ⟨h'.dev.trans h.dev, h'.disk.trans h.disk, fun j hj => (h'.others j hj).trans (h.others j hj)⟩

instance : Std.Refl (OnlyAt k) := ⟨fun _ => .refl⟩

instance : IsTrans Vfs (OnlyAt k) := ⟨fun _ _ _ h h' => h.trans h'⟩

theorem OnlyAt.edit {g : CoreInode → CoreInode} : Moves (OnlyAt k) (edit k g) :=
  .modify fun _ => ⟨rfl, rfl, fun _ hj => Function.update_of_ne hj _ _⟩

theorem OnlyAt.replaces (h : OnlyAt k s s') : Replaces k (s'.slot k) s s' := by
  refine ⟨h.dev, funext fun j => ?_, .inl h.disk⟩
  rw [Function.update_apply]
  split
  next hj => rw [hj]
  next hj => exact h.others j hj

theorem truncate_at : Moves (OnlyAt k) (truncate k) :=
  .get fun _ => .ite (.bind (.modify fun _ => ⟨rfl, rfl, fun _ _ => rfl⟩) fun _ => .get fun _ => OnlyAt.edit) .pure

theorem freeInode_at : Triple (OnlyAt k s) (freeInode k) fun _ s' => OnlyAt k s s' ∧ s'.slot k = {} := by
  have hlast : ∀ g : CoreInode → CoreInode, (∀ i, g i = {}) →
      Triple (OnlyAt k s) (edit k g) fun _ s' => OnlyAt k s s' ∧ s'.slot k = {} := by
    intro g hg
    refine .modify fun t ht => ⟨ht.trans ⟨rfl, rfl, fun _ hj => Function.update_of_ne hj _ _⟩, ?_⟩
    dsimp only
    rw [Function.update_self, hg]
  refine .get fun t => .pre ?_ (P := OnlyAt k s) fun _ hu => hu.2
  refine .ite (fun _ => hlast _ fun _ => rfl) fun _ => .ite (fun _ => .failure) fun _ => ?_
  exact .bind (Q := fun _ => OnlyAt k s) (.modify fun _ hu => hu.trans ⟨rfl, rfl, fun _ _ => rfl⟩) fun _ => hlast _ fun _ => rfl

/-- The state with the inode in slot `k` used once less. -/
def released (s : Vfs) (k : Nat) : Vfs := s.setSlot k { s.slot k with count := (s.slot k).count - 1 }

/-- The state with the inode in slot `k` written and used once less. -/
def cleaned (s : Vfs) (k : Nat) : Vfs :=
  { s.setSlot k { s.slot k with count := (s.slot k).count - 1, dirt := false } with
    disk := Function.update s.disk (s.slot k).num (s.slot k).toDiskInode }

theorem iput_eq : iput k s =
    if (s.slot k).count = 0 then none
    else if (s.slot k).pipe = true then
      some ((), if (s.slot k).count = 1 then s.setSlot k { s.slot k with count := 0, dirt := false, pipe := false } else s.released k)
    else if (s.slot k).dev = 0 ∨ 1 < (s.slot k).count then some ((), s.released k)
    else if (s.slot k).nlinks = 0 then (truncate k s).bind fun x => freeInode k x.2
    else if (s.slot k).dirt = true then if (s.slot k).dev = s.dev then some ((), s.cleaned k) else none
    else some ((), s.released k) := by
  change (if (s.slot k).count = 0 then (failure : Call Unit)
    else if (s.slot k).pipe = true then
      if (s.slot k).count = 1 then edit k fun i => { i with count := 0, dirt := false, pipe := false }
      else edit k fun i => { i with count := i.count - 1 }
    else if (s.slot k).dev = 0 ∨ 1 < (s.slot k).count then edit k fun i => { i with count := i.count - 1 }
    else if (s.slot k).nlinks = 0 then do
      truncate k
      freeInode k
    else if (s.slot k).dirt = true then do
      writeInode k
      edit k fun i => { i with count := i.count - 1 }
    else edit k fun i => { i with count := i.count - 1 }) s = _
  by_cases hzero : (s.slot k).count = 0
  · rw [if_pos hzero, if_pos hzero]
    rfl
  · rw [if_neg hzero, if_neg hzero]
    by_cases hpipe : (s.slot k).pipe = true
    · rw [if_pos hpipe, if_pos hpipe]
      by_cases hone : (s.slot k).count = 1
      · rw [if_pos hone, if_pos hone]
        rfl
      · rw [if_neg hone, if_neg hone]
        rfl
    · rw [if_neg hpipe, if_neg hpipe]
      by_cases hmany : (s.slot k).dev = 0 ∨ 1 < (s.slot k).count
      · rw [if_pos hmany, if_pos hmany]
        rfl
      · rw [if_neg hmany, if_neg hmany]
        by_cases hlast : (s.slot k).nlinks = 0
        · rw [if_pos hlast, if_pos hlast]
          rfl
        · rw [if_neg hlast, if_neg hlast]
          by_cases hdirt : (s.slot k).dirt = true
          · rw [if_pos hdirt, if_pos hdirt]
            change (writeInode k s).bind _ = _
            rw [writeInode_eq]
            by_cases hdev : (s.slot k).dev = s.dev
            · rw [if_pos hdev, if_pos hdev, Option.bind_some]
              change some ((), _) = _
              unfold cleaned setSlot
              simp only [Function.update_self, Function.update_idem]
            · rw [if_neg hdev, if_neg hdev]
              rfl
          · rw [if_neg hdirt, if_neg hdirt]
            rfl

theorem released_putBack (h : (s.slot k).count ≠ 0) : ∃ i, PutBack k i s (s.released k) :=
  ⟨_, ⟨rfl, rfl, .inl rfl⟩, by omega, .inl rfl⟩

theorem iput_some {x : Unit × Vfs} (h : iput k s = some x) : ∃ i, PutBack k i s x.2 := by
  rw [iput_eq] at h
  split at h
  next => cases h
  next hzero =>
    have hpos : 0 < (s.slot k).count := by omega
    split at h
    next hpipe =>
      cases Option.some.inj h
      dsimp only
      split
      next hone => exact ⟨_, ⟨rfl, rfl, .inl rfl⟩, hpos, .inr (.inl ⟨hpipe, rfl⟩)⟩
      next => exact released_putBack hzero
    next =>
      split at h
      next =>
        cases Option.some.inj h
        exact released_putBack hzero
      next =>
        split at h
        next =>
          obtain ⟨⟨⟨⟩, t⟩, ht, h⟩ := Option.bind_eq_some_iff.mp h
          obtain ⟨hat, hempty⟩ := freeInode_at t (truncate_at s _ _ ht) _ _ h
          refine ⟨{}, ⟨?_, hpos, .inr (.inr (.inl rfl))⟩⟩
          rw [← hempty]
          exact hat.replaces
        next =>
          split at h
          next hdirt =>
            split at h
            next hdev =>
              cases Option.some.inj h
              have hdisk : (s.cleaned k).disk = s.written k := by
                unfold written
                rw [if_pos hdirt]
                rfl
              exact ⟨_, ⟨rfl, rfl, .inr ⟨hdisk, fun _ => hdev⟩⟩, hpos, .inr (.inr (.inr ⟨hdirt, rfl, hdisk⟩))⟩
            next => cases h
          next =>
            cases Option.some.inj h
            exact released_putBack hzero

/-- What goes on with an empty slot has found one. -/
theorem getEmptyInode_bind {α : Type} {f : Nat × Vfs → Option α} {a : α} (h : (getEmptyInode s).bind f = some a) :
    ∃ e, s.emptySlot = some e ∧ ((s.slot e).dirt = true → (s.slot e).dev = s.dev) ∧
      getEmptyInode s = some (e, s.emptied e { count := 1 }) := by
  obtain ⟨⟨e, t⟩, he, _⟩ := Option.bind_eq_some_iff.mp h
  obtain ⟨hempty, hdirt, rfl⟩ := getEmptyInode_some he
  exact ⟨e, hempty, hdirt, he⟩

theorem iget_some (h : iget dev nr s = some (k, s')) : dev ≠ 0 ∧ ∃ e, s.emptySlot = some e ∧
    ((s.slot e).dirt = true → (s.slot e).dev = s.dev) ∧
    (k ≠ e ∧ k < nrInode ∧ (s.slot k).dev = dev ∧ (s.slot k).num = nr ∧ s' = s.shared e k ∨
      k = e ∧ dev = s.dev ∧ (∀ j < nrInode, j ≠ e → ¬ ((s.slot j).dev = dev ∧ (s.slot j).num = nr)) ∧ s' = s.loaded e dev nr) := by
  by_cases hdev : dev = 0
  · unfold iget at h
    rw [if_pos hdev] at h
    cases h
  · rw [iget_eq hdev] at h
    obtain ⟨e, hempty, hdirt, he⟩ := getEmptyInode_bind h
    rw [← iget_eq hdev] at h
    refine ⟨hdev, e, hempty, hdirt, ?_⟩
    rcases iget_ways nr hdev he with ⟨j, hne, hj, hjd, hjn, hget⟩ | ⟨hnone, hget⟩
    · rw [hget] at h
      cases Option.some.inj h
      exact .inl ⟨hne, hj, hjd, hjn, rfl⟩
    · rw [hget] at h
      split at h
      next hhome =>
        cases Option.some.inj h
        exact .inr ⟨rfl, hhome, hnone, rfl⟩
      next => cases h

theorem newInode_some (h : newInode dev s = some (o, s')) : ∃ e, s.emptySlot = some e ∧ ((s.slot e).dirt = true → (s.slot e).dev = s.dev) ∧
    dev = s.dev ∧ (o = none ∧ s.freeNumber = none ∧ s' = s.emptied e {} ∨ ∃ n, s.freeNumber = some n ∧ o = some e ∧ s' = s.numbered e dev n) := by
  obtain ⟨e, hempty, hdirt, he⟩ := getEmptyInode_bind h
  refine ⟨e, hempty, hdirt, ?_⟩
  rw [newInode_eq he] at h
  split at h
  next hdev =>
    refine ⟨hdev, ?_⟩
    cases hn : s.freeNumber with
    | none =>
      rw [hn] at h
      cases Option.some.inj h
      exact .inl ⟨rfl, rfl, rfl⟩
    | some n =>
      rw [hn] at h
      cases Option.some.inj h
      exact .inr ⟨n, rfl, rfl, rfl⟩
  next => cases h

theorem getPipeInode_some (h : getPipeInode s = some (o, s')) : ∃ e, s.emptySlot = some e ∧
    ((s.slot e).dirt = true → (s.slot e).dev = s.dev) ∧ s' = s.piped e := by
  obtain ⟨e, hempty, hdirt, he⟩ := getEmptyInode_bind h
  rw [getPipeInode_eq he] at h
  cases Option.some.inj h
  exact ⟨e, hempty, hdirt, rfl⟩

theorem Table.unchanged (h : s.Table) (hdev : s'.dev = s.dev) (hslot : s'.slot = s.slot) : s'.Table := by
  refine ⟨hdev ▸ h.mounted, hslot ▸ h.far, ?_, hslot ▸ h.pipes, ?_, ?_⟩
  · rw [hslot, hdev]
    exact h.home
  · unfold InUse
    rw [hslot, hdev]
    exact h.named
  · rw [hslot, hdev]
    exact h.dirty

/-- Another count for an inode in use. -/
theorem Fits.count (h : s.Table) (hpos : 0 < (s.slot k).count) : s.Fits { s.slot k with count := n } :=
  ⟨h.home k, h.pipes k, fun _ hp => h.named k ⟨hpos, hp⟩, h.dirty k⟩

theorem PutBack.fits {i : CoreInode} (hp : PutBack k i s s') (h : s.Table) : s.Fits i := by
  rcases hp.left with rfl | ⟨hpipe, rfl⟩ | rfl | ⟨_, rfl, _⟩
  · exact .count h hp.used
  · exact ⟨h.home k, fun _ => h.pipes k hpipe, fun hc => absurd hc (Nat.lt_irrefl 0), (fun hd => nomatch hd)⟩
  · exact .empty
  · exact ⟨h.home k, h.pipes k, fun _ hq => h.named k ⟨hp.used, hq⟩, fun hd => nomatch hd⟩

/-- The inode is written where it is. -/
theorem writeInode_replaces {x : Unit × Vfs} (hdirt : (s.slot k).dirt = true) (h : writeInode k s = some x) :
    Replaces k { s.slot k with dirt := false } s x.2 ∧ x.2.disk = s.written k := by
  rw [writeInode_eq] at h
  split at h
  next hdev =>
    cases Option.some.inj h
    have hdisk : Function.update s.disk (s.slot k).num (s.slot k).toDiskInode = s.written k := by
      unfold written
      rw [if_pos hdirt]
    exact ⟨⟨rfl, rfl, .inr ⟨hdisk, fun _ => hdev⟩⟩, hdisk⟩
  next => cases h

/-- A slot changes by itself. -/
theorem setSlot_replaces {i : CoreInode} : Replaces k i s (s.setSlot k i) := ⟨rfl, rfl, .inl rfl⟩

theorem Table.bound_dirty (h : s.Table) (hdirt : (s.slot k).dirt = true) : k < nrInode := by
  by_contra hge
  rw [h.far k (by omega)] at hdirt
  cases hdirt

theorem hold_some (hs : opStep s (.hold k n) = some s') :
    0 < (s.slot k).count ∧ s' = s.setSlot k { s.slot k with count := (s.slot k).count + n } := by
  obtain ⟨hpos, hs⟩ := Option.ite_none_right_eq_some.mp hs
  exact ⟨hpos, (Option.some.inj hs).symm⟩

theorem assign_some {d : DiskInode} (hs : opStep s (.assign k d) = some s') :
    s.InUse k ∧ s' = s.setSlot k { s.slot k with toDiskInode := d, dirt := true } := by
  obtain ⟨hu, hs⟩ := Option.ite_none_right_eq_some.mp hs
  exact ⟨hu, (Option.some.inj hs).symm⟩

theorem stamp_some (hs : opStep s (.stamp k) = some s') : s.InUse k ∧ s' = s.setSlot k { s.slot k with mtime := s.now } := by
  obtain ⟨hu, hs⟩ := Option.ite_none_right_eq_some.mp hs
  exact ⟨hu, (Option.some.inj hs).symm⟩

theorem sync_some (hs : opStep s (.sync k) = some s') :
    (s.slot k).dirt = true ∧ Replaces k { s.slot k with dirt := false } s s' ∧ s'.disk = s.written k := by
  obtain ⟨hd, hs⟩ := Option.ite_none_right_eq_some.mp hs
  obtain ⟨x, hw, rfl⟩ := Option.map_eq_some_iff.mp hs
  exact ⟨hd.1, writeInode_replaces hd.1 hw⟩

/-- An inode that `iget` finds is taken while the empty slot stays empty. -/
theorem shared_replaces (hdirt : (s.slot e).dirt = true → (s.slot e).dev = s.dev) :
    Replaces e {} s (s.emptied e {}) ∧ Replaces k { s.slot k with count := (s.slot k).count + 1 } (s.emptied e {}) (s.shared e k) :=
  ⟨emptied_replaces hdirt, setSlot_replaces⟩

theorem Table.step (h : s.Table) (hs : opStep s op = some s') : s'.Table := by
  cases op with
  | iget dev nr =>
    obtain ⟨⟨k, _⟩, hget, rfl⟩ := Option.map_eq_some_iff.mp hs
    obtain ⟨hdev, e, he, hdirt, ⟨hne, hk, hkd, _, rfl⟩ | ⟨rfl, hhome, _, rfl⟩⟩ := iget_some hget
    · have hmine : (s.slot k).dev = s.dev := (h.home k).resolve_left (hkd ▸ hdev)
      obtain ⟨hempty, hshared⟩ := shared_replaces (k := k) hdirt
      exact (h.replace (emptySlot_some he).1 hempty .empty).replace hk hshared ⟨h.home k, h.pipes k, fun _ _ => hmine, h.dirty k⟩
    · exact h.replace (emptySlot_some he).1 (emptied_replaces hdirt) ⟨.inr hhome, (fun hp => nomatch hp), fun _ _ => hhome, fun _ => hhome⟩
  | newInode dev =>
    obtain ⟨⟨o, _⟩, hnew, rfl⟩ := Option.map_eq_some_iff.mp hs
    obtain ⟨e, he, hdirt, hdev, ⟨_, _, rfl⟩ | ⟨n, _, _, rfl⟩⟩ := newInode_some hnew
    · exact h.replace (emptySlot_some he).1 (emptied_replaces hdirt) .empty
    · refine (h.replace (emptySlot_some he).1 (emptied_replaces hdirt) ?_).unchanged rfl rfl
      exact ⟨.inr hdev, (fun hp => nomatch hp), fun _ _ => hdev, fun _ => hdev⟩
  | getPipeInode =>
    obtain ⟨⟨o, _⟩, hpipe, rfl⟩ := Option.map_eq_some_iff.mp hs
    obtain ⟨e, he, hdirt, rfl⟩ := getPipeInode_some hpipe
    refine (h.replace (emptySlot_some he).1 (emptied_replaces hdirt) ?_).unchanged rfl rfl
    split
    next => exact .empty
    next => exact ⟨.inl rfl, fun _ => rfl, (fun _ hp => nomatch hp), fun hd => nomatch hd⟩
  | iput k =>
    obtain ⟨x, hput, rfl⟩ := Option.map_eq_some_iff.mp hs
    obtain ⟨i, hi⟩ := iput_some hput
    exact h.replace (h.bound hi.used) hi.toReplaces (hi.fits h)
  | hold k n =>
    obtain ⟨hpos, rfl⟩ := hold_some hs
    exact h.replace (h.bound hpos) setSlot_replaces (.count h hpos)
  | assign k d =>
    obtain ⟨hu, rfl⟩ := assign_some hs
    exact h.replace (h.bound hu.1) setSlot_replaces ⟨h.home k, h.pipes k, fun _ _ => h.named k hu, fun _ => h.named k hu⟩
  | stamp k =>
    obtain ⟨hu, rfl⟩ := stamp_some hs
    exact h.replace (h.bound hu.1) setSlot_replaces ⟨h.home k, h.pipes k, fun _ _ => h.named k hu, h.dirty k⟩
  | sync k =>
    obtain ⟨hdirt, hr, _⟩ := sync_some hs
    exact h.replace (h.bound_dirty hdirt) hr ⟨h.home k, h.pipes k, fun hc hp => h.named k ⟨hc, hp⟩, fun hd => nomatch hd⟩
  | beside t =>
    cases Option.some.inj hs
    exact h.unchanged rfl rfl

end Vfs

/-- An operation that leaves no change behind in a clean inode: the number that `new_inode` gives is not that of another inode in the
table, and `i_mtime` is assigned alone only in an inode that is dirty already, or where it does not change. -/
def Careful (s : Vfs) : InodeOp → Prop
  | .newInode _ => ∀ n, s.freeNumber = some n → ∀ k, (s.slot k).dev = s.dev → (s.slot k).num = n → s.emptySlot = some k
  | .stamp k => (s.slot k).dirt = true ∨ (s.slot k).mtime = s.now
  | _ => True

end RheeKernel
