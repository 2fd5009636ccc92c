import RheeKernel.InodeOps

namespace RheeKernel

namespace Vfs

open Triples

/-- The inode table and what is behind it are as before. -/
structure SameTable (s s' : Vfs) : Prop where
  dev : s'.dev = s.dev
  ninodes : s'.ninodes = s.ninodes
  imap : s'.imap = s.imap
  disk : s'.disk = s.disk
  slot : s'.slot = s.slot
  last : s'.last = s.last

/-- Nothing changes but directories, the time and the disk's answers. -/
structure Aside (s s' : Vfs) : Prop extends SameTable s s', Beside s s'

/-- `s` is what a run of inode operations makes of `s₀`; unless `c` they are all careful. -/
def Ran (c : Prop) (s₀ s : Vfs) : Prop := Machine.Reach opStep (fun s op => Careful s op ∨ c) s₀ s

/-- The books in a call of process `me`, which has come from `s₀` by inode operations. -/
structure Logged (c : Prop) (s₀ : Vfs) (me : Nat) (held : List Nat) (s : Vfs) : Prop extends Owes me held s where
  ran : Ran c s₀ s

variable {c : Prop} {s₀ s s' t : Vfs} {held held' : List Nat} {me k j n i dev nr : Nat} {α β : Type}

theorem Ran.refl : Ran c s s := .start

theorem Ran.step (op : InodeOp) (hok : Careful s op ∨ c) (h : opStep s op = some s') : Ran c s s' := .next .start hok h

theorem Ran.trans (h : Ran c s t) (h' : Ran c t s') : Ran c s s' := by
  induction h' with
  | start => exact h
  | next _ hok hs ih => exact .next ih hok hs

theorem Ran.reach (h : Ran c s s') : Machine.Reach opStep (fun _ _ => True) s s' := h.mono fun _ _ _ => trivial

instance : Std.Refl (Ran c) := ⟨fun _ => .refl⟩

instance : IsTrans Vfs (Ran c) := ⟨fun _ _ _ h h' => h.trans h'⟩

theorem SameTable.refl : SameTable s s := ⟨rfl, rfl, rfl, rfl, rfl, rfl⟩

theorem SameTable.ran (h : SameTable s s') : Ran c s s' := by
  refine .step (.beside s') (.inl trivial) (congrArg some ?_)
  obtain ⟨hdev, hninodes, himap, hdisk, hslot, hlast⟩ := h
  cases s'
  dsimp only at hdev hninodes himap hdisk hslot hlast ⊢
  rw [hdev, hninodes, himap, hdisk, hslot, hlast]

theorem SameTable.trans (h : SameTable s t) (h' : SameTable t s') : SameTable s s' :=
  ⟨h'.dev.trans h.dev, h'.ninodes.trans h.ninodes, h'.imap.trans h.imap, h'.disk.trans h.disk, h'.slot.trans h.slot, h'.last.trans h.last⟩

theorem Aside.refl : Aside s s := ⟨.refl, .refl⟩

theorem Aside.trans (h : Aside s t) (h' : Aside t s') : Aside s s' :=
  ⟨h.toSameTable.trans h'.toSameTable, h.toBeside.trans h'.toBeside⟩

instance : Std.Refl Aside := ⟨fun _ => .refl⟩

instance : IsTrans Vfs Aside := ⟨fun _ _ _ h h' => h.trans h'⟩

theorem Aside.steady (h : Aside s s') : Steady s s' := .slots h.file h.task h.isup h.imount h.slot

/-- What holds of all books that come with a run holds of the books. -/
theorem owes_of_logged {x : Call α} {q : α → List Nat} (h : ∀ s₀, Triple (Logged True s₀ me held) x fun a => Logged True s₀ me (q a)) :
    Triple (Owes me held) x fun a => Owes me (q a) :=
  fun s hs a s' ha => (h s s ⟨hs, .refl⟩ a s' ha).toOwes

/-- A piece of code that needs no books to be a run. -/
theorem logged_of_moves {x : Call α} {q : α → List Nat} (h : Triple (Owes me held) x fun a => Owes me (q a)) (hx : Moves (Ran c) x) :
    Triple (Logged c s₀ me held) x fun a => Logged c s₀ me (q a) :=
  fun s hs a s' ha => ⟨h s hs.toOwes a s' ha, hs.ran.trans (hx s a s' ha)⟩

theorem moves_ran {x : Call α} {f : InodeOp} (hok : ∀ s, Careful s f ∨ c) (h : ∀ s, opStep s f = (x s).map Prod.snd) : Moves (Ran c) x :=
  fun s _ _ ha => .step f (hok s) ((h s).trans (congrArg (Option.map Prod.snd) ha))

theorem Logged.perm (h : Logged c s₀ me held s) (hp : held.Perm held') : Logged c s₀ me held' s := ⟨h.toOwes.perm hp, h.ran⟩

theorem Owes.inUse (h : s.Owes me held) (hk : k ∈ held) : s.InUse k := by
  refine ⟨?_, h.hand k hk⟩
  have hcount := h.counts k
  have hpos := List.count_pos_iff.mpr hk
  omega

/-- A piece of code beside the inode table. -/
abbrev Idle (x : Call α) : Prop := Moves Aside x

namespace Idle

theorem logged {x : Call α} (h : Idle x) : Triple (Logged c s₀ me held) x fun _ => Logged c s₀ me held :=
  h.triple fun _ _ hs ha => ⟨hs.toOwes.steady ha.steady, hs.ran.trans ha.toSameTable.ran⟩

theorem inode : Idle (inode k) := .get fun _ => .pure

theorem permission {mask : BitVec 32} : Idle (permission n k mask) := .get fun _ => .pure

theorem cred : Idle (cred n) := .get fun _ => .pure

theorem findEntry {name : List UInt8} : Idle (findEntry k name) := .get fun _ => .ite .pure .pure

theorem entryInode : Idle (entryInode k n) := .get fun _ => .pure

theorem emptyDir : Idle (emptyDir k) := .get fun _ => .pure

theorem putEntry {g : NameEntry → NameEntry} : Idle (putEntry k n g) := .modify fun _ => ⟨⟨rfl, rfl, rfl, rfl, rfl, rfl⟩, ⟨rfl, rfl, rfl, rfl⟩⟩

theorem answer : Idle answer := by
  refine .get fun s => ?_
  cases s.answers with
  | nil => exact .pure
  | cons a as => exact .bind (.modify fun _ => ⟨⟨rfl, rfl, rfl, rfl, rfl, rfl⟩, ⟨rfl, rfl, rfl, rfl⟩⟩) fun _ => .pure

end Idle

/-- The inode in slot `k` is in use, and those in `D` are dirty, after a run from `s₀`. -/
structure Using (c : Prop) (s₀ : Vfs) (k : Nat) (D : Nat → Prop) (s : Vfs) : Prop where
  ran : Ran c s₀ s
  inUse : s.InUse k
  dirty : ∀ j, D j → (s.slot j).dirt = true

/-- Fields of the inode `i` are assigned together with `i_dirt`. -/
structure Assigned (i i' : CoreInode) : Prop where
  count : i'.count = i.count
  pipe : i'.pipe = i.pipe
  dev : i'.dev = i.dev
  num : i'.num = i.num
  dirt : i'.dirt = true

variable {D : Nat → Prop} {i' : CoreInode} {g : CoreInode → CoreInode}

theorem Assigned.eq {i : CoreInode} (h : Assigned i i') : { i with toDiskInode := i'.toDiskInode, dirt := true } = i' := by
  obtain ⟨hcount, hpipe, hdev, hnum, hdirt⟩ := h
  cases i'
  dsimp only at hcount hpipe hdev hnum hdirt ⊢
  rw [hcount, hpipe, hdev, hnum, hdirt]

theorem Assigned.ran (h : Assigned (s.slot k) i') (hu : s.InUse k) : Ran c s (s.setSlot k i') := by
  refine .step (.assign k i'.toDiskInode) (.inl trivial) ((if_pos hu).trans ?_)
  rw [h.eq]

theorem stamp_ran (hok : Careful s (.stamp k) ∨ c) (hu : s.InUse k) : Ran c s (s.setSlot k { s.slot k with mtime := s.now }) :=
  .step (.stamp k) hok (if_pos hu)

theorem setSlot_at {i : CoreInode} : (s.setSlot k i).slot j = if j = k then i else s.slot j := Function.update_apply ..

theorem Using.setSlot {i : CoreInode} (h : Using c s₀ k D s) (hr : Ran c s (s.setSlot k i)) (hcount : i.count = (s.slot k).count)
    (hpipe : i.pipe = (s.slot k).pipe) (hdirt : (s.slot k).dirt = true → i.dirt = true) : Using c s₀ k D (s.setSlot k i) := by
  refine ⟨h.ran.trans hr, ?_, fun j hj => ?_⟩
  · unfold InUse
    rw [setSlot_at, if_pos rfl, hcount, hpipe]
    exact h.inUse
  · rw [setSlot_at]
    split
    next hjk => exact hdirt (hjk ▸ h.dirty j hj)
    next => exact h.dirty j hj

theorem assign_using : Triple (fun s => Using c s₀ k D s ∧ Assigned (s.slot k) (g (s.slot k))) (edit k g) fun _ => Using c s₀ k D :=
  .modify fun _ hs => hs.1.setSlot (hs.2.ran hs.1.inUse) hs.2.count hs.2.pipe fun _ => hs.2.dirt

/-- An assignment of `i_mtime` alone. -/
theorem stamp_using (hc : D k ∨ c) : Triple (fun u => u = s ∧ Using c s₀ k D u) (edit k fun i => { i with mtime := s.now }) fun _ => Using c s₀ k D := by
  refine .modify fun u hu => ?_
  obtain ⟨rfl, hu⟩ := hu
  exact hu.setSlot (stamp_ran (hc.imp_left fun hk => .inl (hu.dirty k hk)) hu.inUse) rfl rfl fun hd => hd

theorem Idle.using {x : Call α} (h : Idle x) : Triple (Using c s₀ k D) x fun _ => Using c s₀ k D := by
  refine h.triple fun s s' hs ha => ⟨hs.ran.trans ha.toSameTable.ran, ?_, ?_⟩
  · unfold InUse
    rw [ha.slot]
    exact hs.inUse
  · rw [ha.slot]
    exact hs.dirty

theorem truncate_using : Triple (Using c s₀ k D) (truncate k) fun _ => Using c s₀ k D := by
  refine .bind Idle.inode.using fun i => .ite (fun _ => ?_) fun _ => .pure fun _ hs => hs
  refine .bind (Q := fun _ => Using c s₀ k D) (.modify fun s hs => ?_) fun _ =>
    .get fun s => assign_using.pre fun u hu => ⟨hu.2, ⟨rfl, rfl, rfl, rfl, rfl⟩⟩
  exact ⟨hs.ran.trans (SameTable.ran ⟨rfl, rfl, rfl, rfl, rfl, rfl⟩), hs.inUse, hs.dirty⟩

theorem createBlock_using : Triple (Using c s₀ k D) (createBlock k n) fun _ => Using c s₀ k D := by
  have hset : ∀ (z : Fin 9) v, Triple (Using c s₀ k D) (edit k fun i => { i with zone := Function.update i.zone z v, dirt := true }) fun _ => Using c s₀ k D :=
    fun z v => assign_using.pre fun _ hu => ⟨hu, ⟨rfl, rfl, rfl, rfl, rfl⟩⟩
  have hinner : Triple (Using c s₀ k D) (do return (← answer) ≠ 0 : Call Bool) fun _ => Using c s₀ k D :=
    .bind Idle.answer.using fun _ => .pure fun _ hs => hs
  refine .bind Idle.inode.using fun i => ?_
  split
  next =>
    refine .ite (fun _ => ?_) fun _ => .pure fun _ hs => hs
    exact .bind Idle.answer.using fun _ => .ite (fun _ => .pure fun _ hs => hs) fun _ => .bind (hset _ _) fun _ => .pure fun _ hs => hs
  next =>
    refine .ite (fun _ => .failure) fun _ => .ite (fun _ => ?_) fun _ => hinner
    exact .bind Idle.answer.using fun _ => .ite (fun _ => .pure fun _ hs => hs) fun _ => .bind (hset _ _) fun _ => hinner

theorem takeEntry_using {name : List UInt8} (hc : D k ∨ c) : Triple (Using c s₀ k D) (takeEntry k name n) fun _ => Using c s₀ k D := by
  refine .get fun s => .ite (fun _ => ?_) fun _ => .ite (fun _ => ?_) fun _ => .pure fun _ hu => hu.2
  · exact .bind (assign_using.pre fun u hu => ⟨hu.2, ⟨rfl, rfl, rfl, rfl, rfl⟩⟩) fun _ => .bind Idle.putEntry.using fun _ => .pure fun _ hs => hs
  · exact .bind (stamp_using hc) fun _ => .bind Idle.putEntry.using fun _ => .pure fun _ hs => hs

theorem addEntryFrom_using {name : List UInt8} (hc : D k ∨ c) : Triple (Using c s₀ k D) (addEntryFrom k name n i) fun _ => Using c s₀ k D := by
  induction n generalizing i with
  | zero => exact .pure fun _ hs => hs
  | succ n ih =>
    unfold addEntryFrom
    have hroom : Triple (Using c s₀ k D) (roomAt k i) fun _ => Using c s₀ k D := .ite (fun _ => createBlock_using) fun _ => .pure fun _ hs => hs
    refine .bind hroom fun room => .ite (fun _ => .bind (takeEntry_using hc) fun taken => ?_) fun _ => .pure fun _ hs => hs
    exact .ite (fun _ => .pure fun _ hs => hs) fun _ => ih

theorem addEntry_using {name : List UInt8} (hc : D k ∨ c) : Triple (Using c s₀ k D) (addEntry k name) fun _ => Using c s₀ k D :=
  .bind Idle.inode.using fun _ => .ite (fun _ => .pure fun _ hs => hs) fun _ => addEntryFrom_using hc

theorem writeBlock_using {pos left : Nat} : Triple (Using c s₀ k D) (writeBlock k pos left) fun _ => Using c s₀ k D := by
  refine .bind createBlock_using fun _ => .ite (fun _ => .bind Idle.inode.using fun _ => ?_) fun _ => .pure fun _ hs => hs
  refine .ite (fun _ => .bind (assign_using.pre fun u hu => ⟨hu, ⟨rfl, rfl, rfl, rfl, rfl⟩⟩) fun _ => ?_) fun _ => .pure fun _ hs => hs
  exact .pure fun _ hs => hs

theorem writeFrom_using {pos left : Nat} : Triple (Using c s₀ k D) (writeFrom k n pos left) fun _ => Using c s₀ k D := by
  induction n generalizing pos left with
  | zero => exact .pure fun _ hs => hs
  | succ n ih =>
    unfold writeFrom
    refine .ite (fun _ => .pure fun _ hs => hs) fun _ => .bind writeBlock_using fun c => ?_
    exact .ite (fun _ => .pure fun _ hs => hs) fun _ => ih

theorem fileWrite_using {pos count : Nat} (hc : D k ∨ c) : Triple (Using c s₀ k D) (fileWrite k pos count) fun _ => Using c s₀ k D :=
  .bind writeFrom_using fun _ => .bind (.get fun _ => stamp_using hc) fun _ => .pure fun _ hs => hs

/-- Work on an inode in hand. -/
theorem logged_of_using {x : Call α} (hk : k ∈ held) (hq : Quiet x)
    (hx : Triple (Using c s₀ k fun _ => False) x fun _ => Using c s₀ k fun _ => False) :
    Triple (Logged c s₀ me held) x fun _ => Logged c s₀ me held :=
  fun s hs a s' ha => ⟨hq.owes s hs.toOwes a s' ha, (hx s ⟨hs.ran, hs.toOwes.inUse hk, fun _ hf => hf.elim⟩ a s' ha).ran⟩

theorem truncate_logged : Triple (Logged c s₀ me (k :: held)) (truncate k) fun _ => Logged c s₀ me (k :: held) :=
  logged_of_using List.mem_cons_self Quiet.truncate truncate_using

theorem addEntry_logged {name : List UInt8} (hc : c) (hk : k ∈ held) : Triple (Logged c s₀ me held) (addEntry k name) fun _ => Logged c s₀ me held :=
  logged_of_using hk Quiet.addEntry (addEntry_using (.inr hc))

theorem Assigned.steady (h : Assigned (s.slot k) i') : Steady s (s.setSlot k i') := by
  have hkeep : ∀ j, ((s.setSlot k i').slot j).count = (s.slot j).count ∧ ((s.setSlot k i').slot j).pipe = (s.slot j).pipe ∧
      ((s.setSlot k i').slot j).dev = (s.slot j).dev := by
    intro j
    rw [setSlot_at]
    split
    next hj =>
      rw [hj]
      exact ⟨h.count, h.pipe, h.dev⟩
    next => exact ⟨rfl, rfl, rfl⟩
  exact ⟨⟨rfl, rfl, rfl, rfl⟩, fun j => (hkeep j).1, fun j => (hkeep j).2.1, fun j => (hkeep j).2.2⟩

theorem Logged.assigned (h : Logged c s₀ me held s) (hk : k ∈ held) (ha : Assigned (s.slot k) i') : Logged c s₀ me held (s.setSlot k i') :=
  ⟨h.toOwes.steady ha.steady, h.ran.trans (ha.ran (h.toOwes.inUse hk))⟩

/-- Assignments to an inode in hand. -/
theorem assign_logged (hk : k ∈ held) (hg : ∀ i, Assigned i (g i)) : Triple (Logged c s₀ me held) (edit k g) fun _ => Logged c s₀ me held :=
  .modify fun _ hs => hs.assigned hk (hg _)

theorem iput_logged : Triple (Logged c s₀ me (k :: held)) (iput k) fun _ => Logged c s₀ me held :=
  logged_of_moves iput_owes (moves_ran (f := .iput k) (fun _ => .inl trivial) fun _ => rfl)

theorem iget_logged : Triple (Logged c s₀ me held) (iget dev nr) fun k => Logged c s₀ me (k :: held) :=
  logged_of_moves iget_owes (moves_ran (f := .iget dev nr) (fun _ => .inl trivial) fun _ => rfl)

/-- The inode in slot `k` is the call's own, and dirty. -/
structure Own (c : Prop) (s₀ : Vfs) (me : Nat) (held : List Nat) (k : Nat) (s : Vfs) : Prop extends Logged c s₀ me (k :: held) s where
  alone : (s.slot k).count = 1
  dirt : (s.slot k).dirt = true

/-- The books after `new_inode`. -/
def AfterNew (c : Prop) (s₀ : Vfs) (me : Nat) (held : List Nat) (o : Option Nat) (s : Vfs) : Prop :=
  match o with
  | none => Logged c s₀ me held s
  | some k => Own c s₀ me held k s

theorem newInode_logged (hc : c) : Triple (Logged c s₀ me held) (newInode dev) (AfterNew c s₀ me held) := by
  intro s hs o s' ho
  have hlog := logged_of_moves newInode_owes (moves_ran (f := .newInode dev) (fun _ => .inr hc) fun _ => rfl) s hs o s' ho
  obtain ⟨e, _, _, _, ⟨rfl, _, rfl⟩ | ⟨n, _, rfl, rfl⟩⟩ := newInode_some ho
  · exact hlog
  · have hself : (s.numbered e dev n).slot e = { count := 1, nlinks := 1, dev := dev, dirt := true, num := n, mtime := s.now } :=
      Function.update_self ..
    exact ⟨hlog, by rw [hself], by rw [hself]⟩

/-- Nothing else in hand is the inode that is the call's own. -/
theorem Own.ne (h : Own c s₀ me held k s) (hj : j ∈ held) : j ≠ k := by
  rintro rfl
  have hcount := h.counts j
  have hpos := List.count_pos_iff.mpr hj
  rw [h.alone, List.count_cons_self] at hcount
  omega

theorem Idle.own {x : Call α} (h : Idle x) : Triple (Own c s₀ me held k) x fun _ => Own c s₀ me held k := by
  intro s hs a s' ha
  have hslot := (h s a s' ha).slot
  exact ⟨h.logged s hs.toLogged a s' ha, by rw [hslot]; exact hs.alone, by rw [hslot]; exact hs.dirt⟩

theorem assign_own (hg : ∀ i, Assigned i (g i)) : Triple (Own c s₀ me held k) (edit k g) fun _ => Own c s₀ me held k := by
  refine .modify fun s hs => ?_
  have hself : (s.setSlot k (g (s.slot k))).slot k = g (s.slot k) := Function.update_self ..
  exact ⟨hs.toLogged.assigned List.mem_cons_self (hg _), (congrArg CoreInode.count hself).trans ((hg _).count.trans hs.alone),
    (congrArg CoreInode.dirt hself).trans (hg _).dirt⟩

theorem addEntry_own {name : List UInt8} (hc : c) (hj : j ∈ held) : Triple (Own c s₀ me held k) (addEntry j name) fun _ => Own c s₀ me held k := by
  intro s hs a s' ha
  have hused := addEntry_using (D := fun i => i = k) (.inr hc) s
    ⟨hs.ran, hs.toOwes.inUse (List.mem_cons_of_mem _ hj), fun i hi => hi ▸ hs.dirt⟩ a s' ha
  have hsteady := Quiet.addEntry _ _ _ ha
  exact ⟨⟨hs.toOwes.steady hsteady, hused.ran⟩, (hsteady.counts k).trans hs.alone, hused.dirty k rfl⟩

theorem iput_own (hj : j ∈ held) : Triple (Own c s₀ me held k) (iput j) fun _ => Own c s₀ me (held.erase j) k := by
  intro s hs a s' ha
  have hne := hs.ne hj
  have hlog : Logged c s₀ me (j :: k :: held.erase j) s :=
    hs.toLogged.perm (((List.perm_cons_erase hj).cons k).trans (.swap ..))
  obtain ⟨i, hi⟩ := iput_some ha
  have hslot : s'.slot k = s.slot k := (hi.toReplaces.at k).trans (if_neg hne.symm)
  exact ⟨iput_logged s hlog a s' ha, by rw [hslot]; exact hs.alone, by rw [hslot]; exact hs.dirt⟩

/-- The links of an inode that is the call's own are counted down without `i_dirt`. -/
theorem discard_own : Triple (Own c s₀ me held k) (edit k fun i => { i with nlinks := (i.nlinks + 255) % 256 }) fun _ => Logged c s₀ me (k :: held) :=
  .modify fun _ hs => hs.toLogged.assigned List.mem_cons_self ⟨rfl, rfl, rfl, rfl, hs.dirt⟩

end Vfs

end RheeKernel
