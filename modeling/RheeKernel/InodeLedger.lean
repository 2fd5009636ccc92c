import RheeKernel.NameCalls
import RheeKernel.Triples
import RheeKernel.Counting

open Finset

namespace RheeKernel

namespace Vfs

/-- Entry `f` of the file table is in use for the inode in slot `k`. -/
def uses (k : Nat) (f : OpenFile) : Nat := if 0 < f.count ∧ f.inode = k then 1 else 0

/-- What a process stands on of the inode in slot `k`. -/
def stands (k : Nat) (p : FsTask) : Nat := (if p.pwd = some k then 1 else 0) + if p.root = some k then 1 else 0

/-- The references that are written down: open files, the directories of the processes and the super block. -/
def refs (s : Vfs) (k : Nat) : Nat :=
  (∑ j ∈ range nrFile, uses k (s.file j)) + (∑ t ∈ range nrTasks, stands k (s.task t)) +
    ((if s.isup = some k then 1 else 0) + if s.imount = some k then 1 else 0)

/-- File entry `j` is an end of the pipe in slot `k`. -/
def EndOf (s : Vfs) (k : Nat) (mode : BitVec 16) (j : Nat) : Prop :=
  j < nrFile ∧ 0 < (s.file j).count ∧ (s.file j).inode = k ∧ (s.file j).mode = mode

/-- Nothing but its two ends refers to a pipe; the descriptors are counted, and a place in the task table that is free refers to nothing. -/
structure Tidy (s : Vfs) : Prop where
  named : ∀ k, (s.slot k).pipe = true → (s.slot k).dev = 0
  dirs : ∀ t k, (s.task t).pwd = some k ∨ (s.task t).root = some k → (s.slot k).pipe = false
  super : ∀ k, s.isup = some k ∨ s.imount = some k → (s.slot k).pipe = false
  ends : ∀ j, 0 < (s.file j).count → (s.slot (s.file j).inode).pipe = true → (s.file j).mode = 1 ∨ (s.file j).mode = 2
  one : ∀ k m i j, (s.slot k).pipe = true → s.EndOf k m i → s.EndOf k m j → i = j
  fds : s.files.Counted
  low : ∀ t fd j, (s.task t).filp fd = some j → j < nrFile
  few : ∀ t, (s.task t).live = true → t < nrTasks
  gone : ∀ t, (s.task t).live = false → (s.task t).pwd = none ∧ (s.task t).root = none ∧ ∀ fd, (s.task t).filp fd = none

/-- Every `i_count` is the number of references that are written down and of those in `held`, which a call has in hand. -/
structure Balanced (held : List Nat) (s : Vfs) : Prop extends Tidy s where
  counts : ∀ k, (s.slot k).count = s.refs k + held.count k
  hand : ∀ k ∈ held, (s.slot k).pipe = false

/-- The books in a call of process `me`. -/
structure Owes (me : Nat) (held : List Nat) (s : Vfs) : Prop extends Balanced held s where
  alive : (s.task me).live = true

/-- All but inodes, directories and bitmap is as before. -/
structure Beside (s s' : Vfs) : Prop where
  file : s'.file = s.file
  task : s'.task = s.task
  isup : s'.isup = s.isup
  imount : s'.imount = s.imount

/-- No count changes, and no pipe. -/
structure Steady (s s' : Vfs) : Prop extends Beside s s' where
  counts : ∀ k, (s'.slot k).count = (s.slot k).count
  pipes : ∀ k, (s'.slot k).pipe = (s.slot k).pipe
  devs : ∀ k, (s'.slot k).dev = (s.slot k).dev

/-- `iput` on slot `k`. -/
structure Dropped (k : Nat) (s s' : Vfs) : Prop extends Beside s s' where
  count : (s'.slot k).count + 1 = (s.slot k).count
  pipe : (s'.slot k).pipe = true → (s.slot k).pipe = true ∧ (s'.slot k).dev = (s.slot k).dev
  others : ∀ j, j ≠ k → (s'.slot j).count = (s.slot j).count ∧ (s'.slot j).pipe = (s.slot j).pipe ∧ (s'.slot j).dev = (s.slot j).dev

variable {s s' t : Vfs} {held held' : List Nat} {me k j n i : Nat} {α β : Type}

open Triples

theorem Beside.refs (h : Beside s s') : s'.refs k = s.refs k := by
  unfold Vfs.refs
  rw [h.file, h.task, h.isup, h.imount]

theorem Beside.endOf {m : BitVec 16} (h : Beside s s') : s'.EndOf k m j ↔ s.EndOf k m j := by
  unfold EndOf
  rw [h.file]

theorem Beside.refl : Beside s s := ⟨rfl, rfl, rfl, rfl⟩

theorem Beside.trans (h : Beside s t) (h' : Beside t s') : Beside s s' :=
  ⟨h'.file.trans h.file, h'.task.trans h.task, h'.isup.trans h.isup, h'.imount.trans h.imount⟩

theorem Beside.counted (h : Beside s s') (hc : s.files.Counted) : s'.files.Counted := by
  refine hc.of_eq (fun j => ?_) ?_
  · unfold files
    rw [h.file]
  · unfold files
    rw [h.task]

theorem Owes.perm (h : s.Owes me held) (hp : held.Perm held') : s.Owes me held' := by
  refine ⟨⟨h.toTidy, fun k => ?_, fun k hk => h.hand k (hp.mem_iff.mpr hk)⟩, h.alive⟩
  rw [← hp.count_eq]
  exact h.counts k

/-- The inode table changes, and no pipe comes up in it. -/
theorem Tidy.beside (h : s.Tidy) (hb : Beside s s')
    (hpipe : ∀ k, (s'.slot k).pipe = true → (s.slot k).pipe = true ∧ (s'.slot k).dev = (s.slot k).dev) : s'.Tidy := by
  have hplain : ∀ k, (s.slot k).pipe = false → (s'.slot k).pipe = false := by
    intro k hk
    by_contra hne
    rw [Bool.not_eq_false] at hne
    rw [(hpipe k hne).1] at hk
    cases hk
  refine ⟨fun k hk => ?_, fun t k hk => ?_, fun k hk => ?_, fun j hj hp => ?_, fun k m i j hk hi hj => ?_, hb.counted h.fds,
    fun t fd j hj => ?_, fun t ht => ?_, fun t ht => ?_⟩
  · obtain ⟨hold, hdev⟩ := hpipe k hk
    rw [hdev]
    exact h.named k hold
  · rw [hb.task] at hk
    exact hplain k (h.dirs t k hk)
  · rw [hb.isup, hb.imount] at hk
    exact hplain k (h.super k hk)
  · rw [hb.file] at hj hp ⊢
    exact h.ends j hj (hpipe _ hp).1
  · exact h.one k m i j (hpipe k hk).1 (hb.endOf.mp hi) (hb.endOf.mp hj)
  · rw [hb.task] at hj
    exact h.low t fd j hj
  · rw [hb.task] at ht
    exact h.few t ht
  · rw [hb.task] at ht ⊢
    exact h.gone t ht

theorem Owes.beside (h : s.Owes me held) (hb : Beside s s') (hcount : ∀ k, (s'.slot k).count + held.count k = (s.slot k).count + held'.count k)
    (hpipe : ∀ k, (s'.slot k).pipe = true → (s.slot k).pipe = true ∧ (s'.slot k).dev = (s.slot k).dev)
    (hhand : ∀ k ∈ held', (s'.slot k).pipe = false) : s'.Owes me held' := by
  refine ⟨⟨h.toTidy.beside hb hpipe, fun k => ?_, hhand⟩, hb.task ▸ h.alive⟩
  have hk := h.counts k
  have hk' := hcount k
  rw [hb.refs]
  omega

theorem Owes.steady (h : s.Owes me held) (hs : Steady s s') : s'.Owes me held := by
  refine h.beside hs.toBeside (fun k => by rw [hs.counts]) (fun k hk => ?_) fun k hk => ?_
  · rw [hs.pipes] at hk
    exact ⟨hk, hs.devs k⟩
  · rw [hs.pipes]
    exact h.hand k hk

/-- `iput` gives up a reference, be it to a pipe. -/
theorem Dropped.balanced (hd : Dropped k s s') (h : s.Tidy) (hcounts : ∀ j, (s.slot j).count = s.refs j + (k :: held).count j)
    (hhand : ∀ j ∈ held, (s.slot j).pipe = false) : s'.Balanced held := by
  have hpipe : ∀ j, (s'.slot j).pipe = true → (s.slot j).pipe = true ∧ (s'.slot j).dev = (s.slot j).dev := by
    intro j hj
    by_cases hjk : j = k
    · subst hjk
      exact hd.pipe hj
    · obtain ⟨_, hpipe, hdev⟩ := hd.others j hjk
      rw [hpipe] at hj
      exact ⟨hj, hdev⟩
  refine ⟨h.beside hd.toBeside hpipe, fun j => ?_, fun j hj => ?_⟩
  · have hold := hcounts j
    rw [hd.toBeside.refs]
    rw [List.count_cons] at hold
    by_cases hjk : j = k
    · subst hjk
      have := hd.count
      rw [if_pos (beq_self_eq_true _)] at hold
      omega
    · rw [if_neg (fun hc => hjk (beq_iff_eq.mp hc).symm)] at hold
      rw [(hd.others j hjk).1]
      exact hold
  · by_contra hne
    rw [Bool.not_eq_false] at hne
    have hold := hhand j hj
    rw [(hpipe j hne).1] at hold
    cases hold

theorem Balanced.dropped (h : s.Balanced (k :: held)) (hd : Dropped k s s') : s'.Balanced held :=
  hd.balanced h.toTidy h.counts fun j hj => h.hand j (List.mem_cons_of_mem _ hj)

theorem Owes.dropped (h : s.Owes me (k :: held)) (hd : Dropped k s s') : s'.Owes me held :=
  ⟨h.toBalanced.dropped hd, hd.task ▸ h.alive⟩

theorem Steady.refl : Steady s s := ⟨.refl, fun _ => rfl, fun _ => rfl, fun _ => rfl⟩

theorem Steady.slots (hfile : s'.file = s.file) (htask : s'.task = s.task) (hisup : s'.isup = s.isup) (himount : s'.imount = s.imount)
    (hslot : s'.slot = s.slot) : Steady s s' := by
  refine ⟨⟨hfile, htask, hisup, himount⟩, fun k => ?_, fun k => ?_, fun k => ?_⟩
  · rw [hslot]
  · rw [hslot]
  · rw [hslot]

theorem Steady.trans (h : Steady s t) (h' : Steady t s') : Steady s s' :=
  ⟨h.toBeside.trans h'.toBeside, fun k => (h'.counts k).trans (h.counts k), fun k => (h'.pipes k).trans (h.pipes k),
    fun k => (h'.devs k).trans (h.devs k)⟩

instance : Std.Refl Beside := ⟨fun _ => .refl⟩

instance : IsTrans Vfs Beside := ⟨fun _ _ _ h h' => h.trans h'⟩

instance : Std.Refl Steady := ⟨fun _ => .refl⟩

instance : IsTrans Vfs Steady := ⟨fun _ _ _ h h' => h.trans h'⟩

/-- A piece of code that changes no count. -/
abbrev Quiet (x : Call α) : Prop := Moves Steady x

namespace Quiet

theorem owes {x : Call α} (h : Quiet x) : Triple (Owes me held) x fun _ => Owes me held := h.triple fun _ _ hs => hs.steady

theorem inode : Quiet (inode k) := .get fun _ => .pure

theorem edit {g : CoreInode → CoreInode} (h : ∀ i, (g i).count = i.count ∧ (g i).pipe = i.pipe ∧ (g i).dev = i.dev) :
    Quiet (edit k g) := by
  refine .modify fun s => ?_
  have hkeep : ∀ j, (Function.update s.slot k (g (s.slot k)) j).count = (s.slot j).count ∧
      (Function.update s.slot k (g (s.slot k)) j).pipe = (s.slot j).pipe ∧
      (Function.update s.slot k (g (s.slot k)) j).dev = (s.slot j).dev := by
    intro j
    by_cases hj : j = k
    · rw [hj, Function.update_self]
      exact h _
    · rw [Function.update_of_ne hj]
      exact ⟨rfl, rfl, rfl⟩
  exact ⟨⟨rfl, rfl, rfl, rfl⟩, fun j => (hkeep j).1, fun j => (hkeep j).2.1, fun j => (hkeep j).2.2⟩

theorem answer : Quiet answer := by
  refine .get fun s => ?_
  cases s.answers with
  | nil => exact .pure
  | cons a as => exact .bind (.modify fun _ => .slots rfl rfl rfl rfl rfl) fun _ => .pure

theorem writeInode : Quiet (writeInode k) := by
  refine .get fun _ => .ite .failure (.bind (.modify fun _ => ?_) fun _ => edit fun _ => ⟨rfl, rfl, rfl⟩)
  exact .slots rfl rfl rfl rfl rfl

theorem readInode : Quiet (readInode k) :=
  .get fun _ => .ite .failure (edit fun _ => ⟨rfl, rfl, rfl⟩)

theorem truncate : Quiet (truncate k) := by
  refine .bind inode fun _ => .ite (.bind (.modify fun _ => ?_) fun _ => .get fun _ => edit fun _ => ?_) .pure
  · exact .slots rfl rfl rfl rfl rfl
  · exact ⟨rfl, rfl, rfl⟩

theorem createBlock : Quiet (createBlock k n) := by
  have hset : ∀ (z : Fin 9) v, Quiet (Vfs.edit k fun i => { i with zone := Function.update i.zone z v, dirt := true }) :=
    fun z v => edit fun _ => ⟨rfl, rfl, rfl⟩
  have hinner : Quiet (do return (← Vfs.answer) ≠ 0 : Call Bool) := .bind answer fun _ => .pure
  refine .bind inode fun i => ?_
  split
  · exact .ite (.bind answer fun _ => .ite .pure (.bind (hset _ _) fun _ => .pure)) .pure
  · exact .ite .failure (.ite (.bind answer fun _ => .ite .pure (.bind (hset _ _) fun _ => hinner)) hinner)

theorem findEntry {name : List UInt8} : Quiet (findEntry k name) := .get fun _ => .ite .pure .pure

theorem putEntry {g : NameEntry → NameEntry} : Quiet (putEntry k n g) :=
  .modify fun _ => .slots rfl rfl rfl rfl rfl

theorem takeEntry {name : List UInt8} : Quiet (takeEntry k name n) := by
  refine .get fun s => .ite (.bind (edit fun _ => ?_) fun _ => .bind putEntry fun _ => .pure)
    (.ite (.bind (edit fun _ => ?_) fun _ => .bind putEntry fun _ => .pure) .pure)
  · exact ⟨rfl, rfl, rfl⟩
  · exact ⟨rfl, rfl, rfl⟩

theorem addEntryFrom {name : List UInt8} : Quiet (addEntryFrom k name n i) := by
  induction n generalizing i with
  | zero => exact .pure
  | succ n ih =>
    unfold Vfs.addEntryFrom
    refine .bind (show Quiet (roomAt k i) from .ite createBlock .pure) fun room => .ite (.bind takeEntry fun taken => ?_) .pure
    exact .ite .pure ih

theorem addEntry {name : List UInt8} : Quiet (addEntry k name) := .bind inode fun _ => .ite .pure addEntryFrom

theorem permission {t : Nat} {mask : BitVec 32} : Quiet (permission t k mask) := .get fun _ => .pure

theorem cred {t : Nat} : Quiet (cred t) := .get fun _ => .pure

theorem entryInode : Quiet (entryInode k n) := .get fun _ => .pure

theorem writeBlock {pos left : Nat} : Quiet (writeBlock k pos left) :=
  .bind createBlock fun _ => .ite (.bind inode fun _ => .ite (.bind (edit fun _ => ⟨rfl, rfl, rfl⟩) fun _ => .pure) .pure) .pure

theorem writeFrom {pos left : Nat} : Quiet (writeFrom k n pos left) := by
  induction n generalizing pos left with
  | zero => exact .pure
  | succ n ih =>
    unfold Vfs.writeFrom
    exact .ite .pure (.bind writeBlock fun _ => .ite .pure ih)

theorem fileWrite {pos count : Nat} : Quiet (fileWrite k pos count) :=
  .bind writeFrom fun _ => .bind (.get fun _ => edit fun _ => ⟨rfl, rfl, rfl⟩) fun _ => .pure

end Quiet

/-- The slots of `held` and the one that `o` has found. -/
def withSlot (o : Option Nat) (held : List Nat) : List Nat := o.elim held fun k => k :: held

theorem Dropped.after (h : Steady s t) (hd : Dropped k t s') : Dropped k s s' := by
  refine ⟨h.toBeside.trans hd.toBeside, ?_, fun hp => ?_, fun j hj => ?_⟩
  · rw [hd.count, h.counts]
  · obtain ⟨hold, hdev⟩ := hd.pipe hp
    rw [h.pipes] at hold
    rw [h.devs] at hdev
    exact ⟨hold, hdev⟩
  · rw [← h.counts, ← h.pipes, ← h.devs]
    exact hd.others j hj

/-- The count goes down by one. -/
theorem Dropped.less {i : CoreInode} (hpos : 0 < (s.slot k).count) (hb : Beside s s') (hslot : s'.slot = Function.update s.slot k i)
    (hcount : i.count = (s.slot k).count - 1) (hpipe : i.pipe = true → (s.slot k).pipe = true ∧ i.dev = (s.slot k).dev) :
    Dropped k s s' := by
  refine ⟨hb, ?_, fun hp => ?_, fun j hj => ?_⟩
  · rw [hslot, Function.update_self, hcount]
    omega
  · rw [hslot, Function.update_self] at hp ⊢
    exact hpipe hp
  · rw [hslot, Function.update_of_ne hj]
    exact ⟨rfl, rfl, rfl⟩

/-- An assignment that lowers the count. -/
theorem edit_drops {g : CoreInode → CoreInode}
    (hg : ∀ i, (g i).count = i.count - 1 ∧ ((g i).pipe = true → i.pipe = true ∧ (g i).dev = i.dev)) :
    Triple (fun t => Steady s t ∧ 0 < (t.slot k).count) (edit k g) fun _ s' => Dropped k s s' :=
  .modify fun _ ht => .after ht.1 (.less ht.2 ⟨rfl, rfl, rfl, rfl⟩ rfl (hg _).1 (hg _).2)

theorem freeInode_drops (hone : (s.slot k).count = 1) :
    Triple (Steady s) (freeInode k) fun _ s' => Dropped k s s' := by
  refine .get fun _ => ?_
  have hlast : ∀ g : CoreInode → CoreInode, (∀ i, g i = {}) →
      Triple (Steady s) (edit k g) fun _ s' => Dropped k s s' := by
    intro g hg
    refine .modify fun t ht => .after ht (.less ?_ ⟨rfl, rfl, rfl, rfl⟩ rfl ?_ fun hp => ?_)
    · rw [ht.counts, hone]
      exact Nat.one_pos
    · rw [hg, ht.counts, hone]
    · rw [hg] at hp
      cases hp
  refine .pre (.ite (fun _ => hlast _ fun _ => rfl) fun _ => .ite (fun _ => .failure) fun _ => ?_) fun _ ht => ht.2
  refine .bind (Q := fun _ t => Steady s t) (.modify fun _ ht => ht.trans (.slots rfl rfl rfl rfl rfl)) fun _ => hlast _ fun _ => rfl

/-- `iput` lowers the count of the slot. -/
theorem iput_drops : Triple (fun t => t = s) (iput k) fun _ s' => Dropped k s s' := by
  have hplain : Triple (fun t => Steady s t ∧ 0 < (t.slot k).count) (edit k fun i => { i with count := i.count - 1 }) fun _ s' => Dropped k s s' :=
    edit_drops fun i => ⟨rfl, fun hp => ⟨hp, rfl⟩⟩
  refine .bind (Q := fun i t => t = s ∧ i = s.slot k) (.get fun u => .pure fun t ht => ?_) fun i => ?_
  · obtain ⟨rfl, rfl⟩ := ht
    exact ⟨rfl, rfl⟩
  · refine .ite (fun _ => .failure) fun hzero => .pre ?_ (P := fun t => i = s.slot k ∧ t = s) fun t ht => ⟨ht.2, ht.1⟩
    refine .fact fun hi => ?_
    subst hi
    have hpos : 0 < (s.slot k).count := by omega
    have hstart : ∀ t, t = s → Steady s t ∧ 0 < (t.slot k).count := by
      rintro t rfl
      exact ⟨.refl, hpos⟩
    refine .ite (fun hpipe => .ite (fun hone => ?_) fun _ => hplain.pre hstart) fun _ => .ite (fun _ => hplain.pre hstart) fun hmany =>
      .ite (fun _ => ?_) fun _ => .ite (fun _ => ?_) fun _ => hplain.pre hstart
    · refine .modify fun t ht => ?_
      subst ht
      exact .less hpos ⟨rfl, rfl, rfl, rfl⟩ rfl (by rw [hone]) fun hp => by cases hp
    · have hone : (s.slot k).count = 1 := by omega
      refine .bind (Q := fun _ t => Steady s t) (fun t ht a s' ha => ?_) fun _ => freeInode_drops hone
      subst ht
      exact Quiet.truncate _ _ _ ha
    · refine .bind (Q := fun _ t => Steady s t ∧ 0 < (t.slot k).count) (fun t ht a s' ha => ?_) fun _ => hplain
      subst ht
      have hst := Quiet.writeInode _ _ _ ha
      exact ⟨hst, by rw [hst.counts]; exact hpos⟩

theorem iput_owes : Triple (Owes me (k :: held)) (iput k) fun _ => Owes me held :=
  fun s hs a s' ha => hs.dropped (iput_drops s rfl a s' ha)

/-- A slot is counted once more. -/
theorem Owes.taken {i : CoreInode} (h : s.Owes me held) (hb : Beside s s') (hslot : s'.slot = Function.update s.slot k i)
    (hcount : i.count = (s.slot k).count + 1) (hpipe : i.pipe = false) : s'.Owes me (k :: held) := by
  have hself : s'.slot k = i := by rw [hslot, Function.update_self]
  have hother : ∀ j, j ≠ k → s'.slot j = s.slot j := fun j hj => by rw [hslot, Function.update_of_ne hj]
  refine h.beside hb (fun j => ?_) (fun j hj => ?_) fun j hj => ?_
  · rw [List.count_cons]
    by_cases hjk : j = k
    · rw [hjk, hself, hcount, if_pos (beq_self_eq_true _)]
      omega
    · rw [hother j hjk, if_neg (fun hc => hjk (beq_iff_eq.mp hc).symm)]
      rfl
  · by_cases hjk : j = k
    · rw [hjk, hself, hpipe] at hj
      cases hj
    · rw [hother j hjk] at hj ⊢
      exact ⟨hj, rfl⟩
  · by_cases hjk : j = k
    · rw [hjk, hself]
      exact hpipe
    · rw [hother j hjk]
      exact h.hand j ((List.mem_cons.mp hj).resolve_left hjk)

/-- An assignment that counts a slot once more. -/
theorem edit_takes {g : CoreInode → CoreInode} :
    Triple (fun t => t.Owes me held ∧ (g (t.slot k)).count = (t.slot k).count + 1 ∧ (g (t.slot k)).pipe = false) (edit k g)
      fun _ t => t.Owes me (k :: held) :=
  .modify fun t ht => ht.1.taken (s := t) ⟨rfl, rfl, rfl, rfl⟩ rfl ht.2.1 ht.2.2

/-- Assignments to a slot in hand that keep its count. -/
theorem edit_keeps {g : CoreInode → CoreInode} :
    Triple (fun t => t.Owes me (k :: held) ∧ (g (t.slot k)).count = (t.slot k).count ∧ (g (t.slot k)).pipe = (t.slot k).pipe) (edit k g)
      fun _ => Owes me (k :: held) := by
  refine .modify fun t ht => ?_
  obtain ⟨ht, hcount, hflag⟩ := ht
  have hself : Function.update t.slot k (g (t.slot k)) k = g (t.slot k) := Function.update_self _ _ _
  have hother : ∀ j, j ≠ k → Function.update t.slot k (g (t.slot k)) j = t.slot j := fun j hj => Function.update_of_ne hj _ _
  have hpipe : ∀ j, (Function.update t.slot k (g (t.slot k)) j).pipe = (t.slot j).pipe := by
    intro j
    by_cases hjk : j = k
    · rw [hjk, hself, hflag]
    · rw [hother j hjk]
  refine ht.beside ⟨rfl, rfl, rfl, rfl⟩ (fun j => ?_) (fun j hj => ?_) fun j hj => (hpipe j).trans (ht.hand j hj)
  · by_cases hjk : j = k
    · rw [hjk]
      dsimp only
      rw [hself, hcount]
    · dsimp only
      rw [hother j hjk]
  · dsimp only at hj ⊢
    by_cases hjk : j = k
    · rw [hpipe, hjk, ht.hand k List.mem_cons_self] at hj
      cases hj
    · rw [hother j hjk] at hj ⊢
      exact ⟨hj, rfl⟩

theorem getEmptyInode_owes : Triple (Owes me held) getEmptyInode fun k t => t.Owes me (k :: held) ∧ t.slot k = { count := 1 } := by
  refine .get fun s => ?_
  split
  next => exact .failure
  next k hfound =>
    have hzero := List.find?_some hfound
    rw [beq_iff_eq] at hzero
    have hfresh : Triple (fun t => t.Owes me held ∧ (t.slot k).count = 0) (do edit k fun _ => { count := 1 }; return k)
        fun k t => t.Owes me (k :: held) ∧ t.slot k = { count := 1 } := by
      refine .bind (Q := fun _ t => t.Owes me (k :: held) ∧ t.slot k = { count := 1 }) (.modify fun t ht => ⟨?_, ?_⟩) fun _ => .pure fun _ hs => hs
      · exact ht.1.taken (s := t) ⟨rfl, rfl, rfl, rfl⟩ rfl (by rw [ht.2]) rfl
      · dsimp only
        rw [Function.update_self]
    refine .bind (Q := fun _ t => t.Owes me held ∧ (t.slot k).count = 0) (.modify fun t ht => ?_) fun _ => ?_
    · obtain ⟨rfl, ht⟩ := ht
      exact ⟨ht.steady (.slots rfl rfl rfl rfl rfl), hzero⟩
    · refine .ite (fun _ => .bind (Q := fun _ t => t.Owes me held ∧ (t.slot k).count = 0) (fun t ht a t' ha => ?_) fun _ => hfresh) fun _ => hfresh
      have hst := Quiet.writeInode _ _ _ ha
      exact ⟨ht.1.steady hst, by rw [hst.counts]; exact ht.2⟩

theorem iget_owes {dev nr : Nat} : Triple (Owes me held) (iget dev nr) fun k => Owes me (k :: held) := by
  refine .ite (fun _ => .failure) fun hdev => .bind getEmptyInode_owes fun empty => .get fun s => ?_
  split
  next k hfound =>
    have hid := List.find?_some hfound
    rw [Bool.and_eq_true, beq_iff_eq] at hid
    refine .bind (Q := fun _ => Owes me (empty :: k :: held)) ?_ fun _ => .bind iput_owes fun _ => .pure fun _ hs => hs
    refine .post (edit_takes.pre fun t ht => ?_) fun _ t ht => ht.perm (.swap ..)
    obtain ⟨rfl, ht, _⟩ := ht
    refine ⟨ht, rfl, ?_⟩
    by_contra hne
    rw [Bool.not_eq_false] at hne
    exact hdev (hid.1.symm.trans (ht.named k hne))
  next =>
    refine .bind (Q := fun _ => Owes me (empty :: held)) (.pre edit_keeps fun t ht => ⟨ht.2.1, rfl, rfl⟩) fun _ => ?_
    exact .bind Quiet.readInode.owes fun _ => .pure fun _ hs => hs

theorem newInode_owes {dev : Nat} : Triple (Owes me held) (newInode dev) fun o => Owes me (withSlot o held) := by
  refine .bind getEmptyInode_owes fun k => .get fun s => ?_
  refine .ite (fun _ => .failure) fun _ => ?_
  split
  next => exact .bind (iput_owes.pre fun t ht => ht.2.1) fun _ => .pure fun _ hs => hs
  next n _ =>
    refine .bind (Q := fun _ t => t.Owes me (k :: held) ∧ t.slot k = { count := 1 }) (.modify fun t ht => ?_) fun _ => ?_
    · exact ⟨ht.2.1.steady (.slots rfl rfl rfl rfl rfl), ht.2.2⟩
    · exact .bind (edit_keeps.pre fun t ht => ⟨ht.1, by rw [ht.2], rfl⟩) fun _ => .pure fun _ hs => hs

/-- A piece of code that leaves files and processes alone. -/
abbrev Apart (x : Call α) : Prop := Moves Beside x

theorem Quiet.apart {x : Call α} (h : Quiet x) : Apart x := h.mono fun _ _ hs => hs.toBeside

namespace Apart

theorem edit {g : CoreInode → CoreInode} : Apart (edit k g) := .modify fun _ => ⟨rfl, rfl, rfl, rfl⟩

theorem iput : Apart (iput k) := fun s a s' ha => (iput_drops s rfl a s' ha).toBeside

theorem getEmptyInode : Apart getEmptyInode := by
  refine .get fun s => ?_
  split
  next => exact .failure
  next k _ =>
    refine .bind (.modify fun _ => ⟨rfl, rfl, rfl, rfl⟩) fun _ => .ite (.bind Quiet.writeInode.apart fun _ => ?_) ?_
    · exact .bind edit fun _ => .pure
    · exact .bind edit fun _ => .pure

theorem iget {dev nr : Nat} : Apart (iget dev nr) := by
  refine .ite .failure (.bind getEmptyInode fun empty => .get fun s => ?_)
  split
  next => exact .bind edit fun _ => .bind iput fun _ => .pure
  next => exact .bind edit fun _ => .bind Quiet.readInode.apart fun _ => .pure

theorem newInode {dev : Nat} : Apart (newInode dev) := by
  refine .bind getEmptyInode fun k => .get fun s => .ite .failure ?_
  split
  next => exact .bind iput fun _ => .pure
  next => exact .bind (.modify fun _ => ⟨rfl, rfl, rfl, rfl⟩) fun _ => .bind edit fun _ => .pure

theorem getDirFrom {t : Nat} {names : List (List UInt8)} : Apart (getDirFrom t k names) := by
  have hgone : ∀ {k}, Apart (do Vfs.iput k; return none : Call (Option (Nat × List UInt8))) := fun {k} => .bind iput fun _ => .pure
  induction names generalizing k with
  | nil => exact hgone
  | cons name names ih =>
    refine .bind Quiet.inode.apart fun i => .bind Quiet.permission.apart fun exec => .ite hgone (.ite .pure ?_)
    refine .bind Quiet.findEntry.apart fun de => ?_
    cases de with
    | none => exact hgone
    | some e => exact .bind Quiet.entryInode.apart fun _ => .bind iput fun _ => .bind iget fun _ => ih

end Apart

end Vfs

end RheeKernel
