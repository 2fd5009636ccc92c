import RheeKernel.InodeCache

open Triples

namespace RheeKernel

namespace Vfs

/-- The inode belongs to the superuser and its group. -/
def RootOwned (i : CoreInode) : Prop := i.uid = 0 ∧ i.gid = 0

/-- What belongs to the superuser still does. -/
def Stays (s s' : Vfs) : Prop := ∀ k, RootOwned (s.slot k) → RootOwned (s'.slot k)

instance : Std.Refl Stays := ⟨fun _ _ h => h⟩

instance : IsTrans Vfs Stays := ⟨fun _ _ _ h h' k hk => h' k (h k hk)⟩

section Stays

variable {α : Type} {k n i : Nat} {name : List UInt8} {s s' : Vfs}

theorem stays_slots (h : s'.slot = s.slot) : Stays s s' := fun _ hk => h ▸ hk

theorem edit_stays {g : CoreInode → CoreInode} (h : ∀ i, RootOwned i → RootOwned (g i)) : Moves Stays (edit k g) := by
  refine .modify fun s j hj => ?_
  change RootOwned (Function.update s.slot k (g (s.slot k)) j)
  by_cases hjk : j = k
  · subst hjk
    rw [Function.update_self]
    exact h _ hj
  · rwa [Function.update_of_ne hjk]

theorem inode_stays : Moves Stays (inode k) := .get fun _ => .pure

theorem answer_stays : Moves Stays answer := by
  refine .get fun s => ?_
  cases s.answers with
  | nil => exact .pure
  | cons a as => exact .bind (.modify fun _ => stays_slots rfl) fun _ => .pure

theorem writeInode_stays : Moves Stays (writeInode k) :=
  .get fun _ => .ite .failure (.bind (.modify fun _ => stays_slots rfl) fun _ => edit_stays fun _ h => h)

theorem truncate_stays : Moves Stays (truncate k) :=
  .bind inode_stays fun _ => .ite (.bind (.modify fun _ => stays_slots rfl) fun _ => .get fun _ => edit_stays fun _ h => h) .pure

theorem freeInode_stays : Moves Stays (freeInode k) :=
  .get fun _ => .ite (edit_stays fun _ _ => ⟨rfl, rfl⟩)
    (.ite .failure (.bind (.modify fun _ => stays_slots rfl) fun _ => edit_stays fun _ _ => ⟨rfl, rfl⟩))

theorem iput_stays : Moves Stays (iput k) := by
  have hless : ∀ g : CoreInode → CoreInode, (∀ i, (g i).uid = i.uid ∧ (g i).gid = i.gid) → Moves Stays (edit k g) := by
    intro g hg
    refine edit_stays fun i hi => ?_
    obtain ⟨huid, hgid⟩ := hg i
    exact ⟨huid.trans hi.1, hgid.trans hi.2⟩
  refine .bind inode_stays fun i => .ite .failure (.ite (.ite (hless _ fun _ => ⟨rfl, rfl⟩) (hless _ fun _ => ⟨rfl, rfl⟩)) ?_)
  refine .ite (hless _ fun _ => ⟨rfl, rfl⟩) (.ite (.bind truncate_stays fun _ => freeInode_stays) ?_)
  exact .ite (.bind writeInode_stays fun _ => hless _ fun _ => ⟨rfl, rfl⟩) (hless _ fun _ => ⟨rfl, rfl⟩)

theorem createBlock_stays : Moves Stays (createBlock k n) := by
  have hset : ∀ (z : Fin 9) v, Moves Stays (edit k fun i => { i with zone := Function.update i.zone z v, dirt := true }) :=
    fun z v => edit_stays fun _ h => h
  have hinner : Moves Stays (do return (← answer) ≠ 0 : Call Bool) := .bind answer_stays fun _ => .pure
  refine .bind inode_stays fun i => ?_
  split
  · exact .ite (.bind answer_stays fun _ => .ite .pure (.bind (hset _ _) fun _ => .pure)) .pure
  · exact .ite .failure (.ite (.bind answer_stays fun _ => .ite .pure (.bind (hset _ _) fun _ => hinner)) hinner)

theorem putEntry_stays {g : NameEntry → NameEntry} : Moves Stays (putEntry k n g) := .modify fun _ => stays_slots rfl

theorem takeEntry_stays : Moves Stays (takeEntry k name n) :=
  .get fun _ => .ite (.bind (edit_stays fun _ h => h) fun _ => .bind putEntry_stays fun _ => .pure)
    (.ite (.bind (edit_stays fun _ h => h) fun _ => .bind putEntry_stays fun _ => .pure) .pure)

theorem addEntryFrom_stays : Moves Stays (addEntryFrom k name n i) := by
  induction n generalizing i with
  | zero => exact .pure
  | succ n ih =>
    unfold addEntryFrom
    refine .bind (show Moves Stays (roomAt k i) from .ite createBlock_stays .pure) fun room => .ite (.bind takeEntry_stays fun taken => ?_) .pure
    exact .ite .pure ih

theorem addEntry_stays : Moves Stays (addEntry k name) := .bind inode_stays fun _ => .ite .pure addEntryFrom_stays

end Stays

variable {α : Type} {t k dir : Nat} {path basename : List UInt8} {flag mode : BitVec 32}

/-- The slot of a new inode belongs to the superuser. -/
theorem newInode_owned {dev : Nat} : Triple (fun _ => True) (newInode dev) fun o s => ∀ k, o = some k → RootOwned (s.slot k) := by
  intro s _ o s' ho k hk
  obtain ⟨e, _, _, _, ⟨hnone, _⟩ | ⟨n, _, hsome, rfl⟩⟩ := newInode_some ho
  · rw [hnone] at hk
    cases hk
  · rw [hsome] at hk
    cases hk
    change RootOwned (Function.update s.slot k _ k)
    rw [Function.update_self]
    exact ⟨rfl, rfl⟩

theorem stays_owned {x : Call α} (h : Moves Stays x) : Triple (fun s => RootOwned (s.slot k)) x fun _ s => RootOwned (s.slot k) :=
  h.triple fun _ _ hk hs => hs k hk

theorem any {x : Call α} : Triple (fun _ => True) x fun _ _ => True := fun _ _ _ _ _ => trivial

/-- An error, or the slot of an inode that belongs to the superuser. -/
def MadeForRoot : Except Int Nat → Vfs → Prop
  | .error e, _ => e < 0
  | .ok k, s => RootOwned (s.slot k)

/-- A file that `open_namei` makes belongs to the superuser. -/
theorem createEntry_owned : Triple (fun _ => True) (createEntry t dir basename mode) MadeForRoot := by
  have herror : ∀ {P : Vfs → Prop} {e : Int}, e < 0 → Triple P (pure (.error e) : Call (Except Int Nat)) MadeForRoot :=
    fun he => .pure fun _ _ => he
  refine .bind any fun write => .ite (fun _ => .bind any fun _ => herror (by decide)) fun _ => ?_
  refine .bind any fun d => .bind newInode_owned fun new => ?_
  cases new with
  | none => exact .bind (Q := fun _ _ => True) (fun _ _ _ _ _ => trivial) fun _ => herror (by decide)
  | some k =>
    refine .pre ?_ (P := fun s => RootOwned (s.slot k)) fun s hs => hs k rfl
    refine .bind (stays_owned (edit_stays fun _ h => h)) fun _ => .bind (stays_owned addEntry_stays) fun de => ?_
    cases de with
    | none =>
      refine .bind (stays_owned (edit_stays fun _ h => h)) fun _ => .bind (stays_owned iput_stays) fun _ => ?_
      exact .bind (stays_owned iput_stays) fun _ => herror (by decide)
    | some e =>
      refine .bind (stays_owned inode_stays) fun i => .bind (stays_owned putEntry_stays) fun _ => ?_
      exact .bind (stays_owned iput_stays) fun _ => .pure fun _ hs => hs

/-- The directory of the path is there, and has no entry of the last name. -/
def Absent (t : Nat) (path : List UInt8) (s : Vfs) : Prop :=
  ∃ dir basename s₁ s₂, dirNamei t path s = some (some (dir, basename), s₁) ∧ basename ≠ [] ∧ findEntry dir basename s₁ = some (none, s₂)

/-- The path leads to the inode in slot `k`, which the look-up takes. -/
def Finds (t : Nat) (path : List UInt8) (s : Vfs) (k : Nat) (s' : Vfs) : Prop :=
  ∃ dir basename s₁ e s₂, dirNamei t path s = some (some (dir, basename), s₁) ∧ basename ≠ [] ∧
    findEntry dir basename s₁ = some (some e, s₂) ∧ enter dir e s₂ = some (k, s')

/-- `open_namei` for a name that is not there. -/
theorem openNamei_absent {s : Vfs} (h : Absent t path s) : ∃ dir basename s₂, openNamei t path flag mode s =
    (if checkedFlag flag &&& oCreat = 0 then (do iput dir; return .error (-2) : Call (Except Int Nat))
    else createEntry t dir basename (mode &&& 0o777 &&& ~~~(s.task t).cred.umask ||| ifreg)) s₂ := by
  obtain ⟨dir, basename, s₁, s₂, hdir, hname, hfind⟩ := h
  refine ⟨dir, basename, s₂, ?_⟩
  change (dirNamei t path s).bind _ = _
  rw [hdir, Option.bind_some]
  dsimp only
  rw [if_neg hname]
  change (findEntry dir basename s₁).bind _ = _
  rw [hfind]
  rfl

theorem openNamei_owned {s s' : Vfs} {r : Except Int Nat} (h : Absent t path s) (hr : openNamei t path flag mode s = some (r, s')) :
    MadeForRoot r s' := by
  obtain ⟨dir, basename, s₂, hrun⟩ := @openNamei_absent t path flag mode s h
  rw [hrun] at hr
  split at hr
  next =>
    obtain ⟨_, _, hr⟩ := Option.bind_eq_some_iff.mp hr
    cases Option.some.inj hr
    exact (by decide : (-2 : Int) < 0)
  next => exact createEntry_owned s₂ trivial r s' hr

theorem claimTty_stays : Moves Stays (claimTty t k) :=
  .bind inode_stays fun _ => .bind (.get fun _ => .pure) fun _ => .ite (.modify fun _ => stays_slots rfl) .pure

/-- The first descriptor of a task that is free. -/
def freeDescriptor (s : Vfs) (t : Nat) : Option Nat := Files.firstIndex (fun fd => (s.files.filp t fd).isNone) nrOpen 0

/-- The first entry of `file_table` that is free. -/
def freeFile (s : Vfs) : Option Nat := Files.firstIndex (fun j => (s.file j).count == 0) nrFile 0

/-- The state in which `sys_open` looks the path up. -/
def reserved (s : Vfs) (t fd : Nat) : Vfs := s.withFiles (s.files.setCloseOnExec t fd false)

/-- The inode of a successful `sys_open`, where the path led to nothing before. -/
theorem sysOpen_owned {s s' : Vfs} {r : Int} {fd j : Nat} (h : sysOpen t path flag mode s = some (r, s')) (hr : 0 ≤ r)
    (hfd : s.freeDescriptor t = some fd) (habsent : Absent t path (s.reserved t fd)) (hfilp : (s'.task t).filp fd = some j) :
    RootOwned (s'.slot (s'.file j).inode) := by
  unfold sysOpen at h
  have hfd' : Files.firstIndex (fun fd => (s.files.filp t fd).isNone) nrOpen 0 = some fd := hfd
  rw [get_bind, hfd'] at h
  cases hentry : Files.firstIndex (fun j => (s.file j).count == 0) nrFile 0 with
  | none =>
    rw [hentry] at h
    cases h
    omega
  | some n =>
    rw [hentry] at h
    obtain ⟨⟨opened, u⟩, hopen, h⟩ := Option.bind_eq_some_iff.mp h
    have hmade := openNamei_owned habsent hopen
    cases opened with
    | error e =>
      obtain ⟨he, _⟩ := Prod.mk.inj (Option.some.inj h)
      have hneg : e < 0 := hmade
      have hre : e = r := he
      omega
    | ok k =>
      change (if (u.slot k).isChr ∧ (u.slot k).zone 0 / 256 = 5 ∧ (s.task t).cred.tty < 0 then (do iput k; return -1)
        else _ : Call Int) u = _ at h
      split at h
      next =>
        obtain ⟨_, _, h⟩ := Option.bind_eq_some_iff.mp h
        cases Option.some.inj h
        omega
      next =>
        obtain ⟨⟨_, v⟩, hclaim, h⟩ := Option.bind_eq_some_iff.mp h
        obtain ⟨_, hs⟩ := Prod.mk.inj (Option.some.inj h)
        have hslot := claimTty_stays u _ v hclaim k hmade
        have hslots : s'.slot = v.slot := hs ▸ rfl
        have hnew : (s'.task t).filp fd = some n := by
          rw [← hs]
          exact Files.setFilp_self
        have hj : j = n := Option.some.inj (hfilp.symm.trans hnew)
        have hfile : (s'.file j).inode = k := by
          rw [← hs, hj]
          exact congrArg OpenFile.inode (Files.setFile_self (s := v.files))
        rw [hfile, hslots]
        exact hslot

/-- `sys_mkdir`, which comes back with the slot of the new inode. -/
def newDirectory (t : Nat) (pathname : List UInt8) (mode : BitVec 32) : Call (Except Int Nat) := do
  let c ← cred t
  if c.euid ≠ 0 ∧ c.uid ≠ 0 then return .error (-1)
  else
    let found ← dirNamei t pathname
    match found with
    | none => return .error (-2)
    | some (dir, basename) =>
      if basename = [] then
        iput dir
        return .error (-2)
      else
        let write ← permission t dir mayWrite
        if write = 0 then
          iput dir
          return .error (-1)
        else
          let de ← findEntry dir basename
          match de with
          | some _ =>
            iput dir
            return .error (-17)
          | none =>
            let d ← inode dir
            let new ← newInode d.dev
            match new with
            | none =>
              iput dir
              return .error (-28)
            | some k =>
              let s ← get
              edit k fun i => { i with size := 32, dirt := true, mtime := s.now }
              let block ← newBlock
              if block = 0 then
                iput dir
                edit k fun i => { i with nlinks := (i.nlinks + 255) % 256 }
                iput k
                return .error (-28)
              else
                edit k fun i => { i with zone := Function.update i.zone 0 block, dirt := true }
                let bh ← answer
                if bh = 0 then
                  iput dir
                  edit k fun i => { i with nlinks := (i.nlinks + 255) % 256 }
                  iput k
                  return .error (-99)
                else
                  let i ← inode k
                  putEntry k 0 fun _ => ⟨i.num, padName dotName⟩
                  putEntry k 1 fun _ => ⟨d.num, padName dotdotName⟩
                  edit k fun i => { i with
                    nlinks := 2, mode := (ifdir ||| (mode &&& 0o777 &&& ~~~c.umask)).truncate 16, dirt := true }
                  let de ← addEntry dir basename
                  match de with
                  | none => failure
                  | some e =>
                    putEntry dir e fun de => { de with inode := i.num }
                    edit dir fun i => { i with nlinks := (i.nlinks + 1) % 256, dirt := true }
                    iput dir
                    iput k
                    return .ok k

/-- The value that a call returns: 0 where there is a new inode. -/
def resultCode : Except Int Nat → Int
  | .error e => e
  | .ok _ => 0

theorem if_congr_call {c : Prop} [Decidable c] {x x' y y' : Call α} (hx : x = x') (hy : y = y') :
    (if c then x else y) = if c then x' else y' := by rw [hx, hy]

theorem sysMkdir_eq : sysMkdir t path mode = resultCode <$> newDirectory t path mode := by
  have hite : ∀ {c : Prop} [Decidable c] {x y : Call (Except Int Nat)}, resultCode <$> (if c then x else y) =
      if c then resultCode <$> x else resultCode <$> y := fun {c} _ {x y} => apply_ite (resultCode <$> ·) c x y
  unfold sysMkdir newDirectory
  simp only [map_bind, hite, map_pure]
  refine bind_congr fun c => if_congr_call rfl ?_
  refine bind_congr fun found => ?_
  rcases found with _ | ⟨dir, basename⟩
  · rfl
  · dsimp only
    simp only [map_bind, hite, map_pure]
    refine if_congr_call rfl (bind_congr fun write => if_congr_call rfl (bind_congr fun de => ?_))
    cases de with
    | some _ =>
      simp only [map_bind, map_pure]
      rfl
    | none =>
      simp only [map_bind]
      refine bind_congr fun d => bind_congr fun new => ?_
      cases new with
      | none =>
        simp only [map_bind, map_pure]
        rfl
      | some k =>
        simp only [map_bind, hite, map_pure]
        refine bind_congr fun s => bind_congr fun _ => bind_congr fun block => if_congr_call rfl ?_
        refine bind_congr fun _ => bind_congr fun bh => if_congr_call rfl ?_
        refine bind_congr fun i => bind_congr fun _ => bind_congr fun _ => bind_congr fun _ => bind_congr fun de => ?_
        cases de with
        | none => rfl
        | some e =>
          simp only [map_bind, map_pure]
          rfl

/-- The slot of a directory that `sys_mkdir` makes. -/
theorem newDirectory_owned : Triple (fun _ => True) (newDirectory t path mode) fun r s => ∀ k, r = .ok k → RootOwned (s.slot k) := by
  have herror : ∀ {P : Vfs → Prop} {e : Int}, Triple P (pure (.error e) : Call (Except Int Nat)) fun r s => ∀ k, r = .ok k → RootOwned (s.slot k) :=
    .pure fun _ _ k hk => nomatch hk
  unfold newDirectory
  refine .bind any fun c => .ite (fun _ => herror) fun _ => .bind any fun found => ?_
  rcases found with _ | ⟨dir, basename⟩
  · exact herror
  · refine .ite (fun _ => .bind any fun _ => herror) fun _ => .bind any fun write => .ite (fun _ => .bind any fun _ => herror) fun _ => ?_
    refine .bind any fun de => ?_
    cases de with
    | some _ => exact .bind any fun _ => herror
    | none =>
      refine .bind any fun d => .bind newInode_owned fun new => ?_
      cases new with
      | none => exact .bind (Q := fun _ _ => True) (fun _ _ _ _ _ => trivial) fun _ => herror
      | some k =>
        refine .pre ?_ (P := fun s => RootOwned (s.slot k)) fun s hs => hs k rfl
        have hedit : ∀ {j : Nat} {g : CoreInode → CoreInode}, (∀ i, RootOwned i → RootOwned (g i)) →
            Triple (fun s => RootOwned (s.slot k)) (edit j g) fun _ s => RootOwned (s.slot k) := fun hg => stays_owned (edit_stays hg)
        have hput : ∀ {j : Nat}, Triple (fun s => RootOwned (s.slot k)) (iput j) fun _ s => RootOwned (s.slot k) := stays_owned iput_stays
        refine .get fun s => .pre ?_ (P := fun s => RootOwned (s.slot k)) fun u hu => hu.2
        refine .bind (hedit fun _ h => h) fun _ => .bind (stays_owned answer_stays) fun block => ?_
        refine .ite (fun _ => .bind hput fun _ => .bind (hedit fun _ h => h) fun _ => .bind hput fun _ => herror) fun _ => ?_
        refine .bind (hedit fun _ h => h) fun _ => .bind (stays_owned answer_stays) fun bh => ?_
        refine .ite (fun _ => .bind hput fun _ => .bind (hedit fun _ h => h) fun _ => .bind hput fun _ => herror) fun _ => ?_
        refine .bind (stays_owned inode_stays) fun i => .bind (stays_owned putEntry_stays) fun _ => .bind (stays_owned putEntry_stays) fun _ => ?_
        refine .bind (hedit fun _ h => h) fun _ => .bind (stays_owned addEntry_stays) fun de => ?_
        cases de with
        | none => exact .failure
        | some e =>
          refine .bind (stays_owned putEntry_stays) fun _ => .bind (hedit fun _ h => h) fun _ => .bind hput fun _ => .bind hput fun _ => ?_
          refine .pure fun u hu j hj => ?_
          cases hj
          exact hu

end Vfs

section CreatedOwners

variable {t : Nat} {path : List UInt8} {mode : BitVec 32} {s : Vfs} {i : CoreInode}

/-- The bits of the mode that a file gets for its owner. -/
def ownerBits (c : Cred) (mode : BitVec 32) : BitVec 32 := (mode &&& 0o777 &&& ~~~c.umask) >>> 6 &&& 7

/-- The inode that a successful `sys_open` or `sys_mkdir` makes for the path. -/
inductive Created (t : Nat) (path : List UInt8) (mode : BitVec 32) (s : Vfs) : CoreInode → Prop
  | opened (flag : BitVec 32) {r : Int} {s' : Vfs} {fd j : Nat} (run : Vfs.sysOpen t path flag mode s = some (r, s')) (success : 0 ≤ r)
    (free : s.freeDescriptor t = some fd) (absent : Vfs.Absent t path (s.reserved t fd)) (entry : (s'.task t).filp fd = some j) :
    Created t path mode s (s'.slot (s'.file j).inode)
  | made {s' : Vfs} {k : Nat} (run : Vfs.newDirectory t path mode s = some (.ok k, s')) : Created t path mode s (s'.slot k)

/-- A later `sys_open` that finds the inode: a file, or a directory to be read, is opened by what the bits allow. -/
def Reopens (t : Nat) (path : List UInt8) (c : Cred) (bits : BitVec 32) (i : CoreInode) : Prop :=
  ∀ (u : Vfs) (fd k : Nat) (v : Vfs) (flag m : BitVec 32) (r : Int) (w : Vfs),
    (u.task t).cred.uid = c.uid → (u.task t).cred.euid = c.euid → (u.task t).cred.gid = c.gid → (u.task t).cred.egid = c.egid →
    u.freeDescriptor t = some fd → u.freeFile.isSome → Vfs.Finds t path (u.reserved t fd) k v →
    (v.slot k).dev = i.dev → (v.slot k).num = i.num → (v.slot k).mode = i.mode → (v.slot k).uid = i.uid → (v.slot k).gid = i.gid →
    (v.slot k).nlinks ≠ 0 → flag &&& oExcl = 0 → Vfs.sysOpen t path flag m u = some (r, w) →
    (0 ≤ r ↔ ¬ (i.isDir = true ∧ checkedFlag flag &&& oAccmode ≠ 0) ∧ bits &&& accMode (checkedFlag flag) = accMode (checkedFlag flag))

/-- The inode belongs to its creator, whom the owner's bits bind unless it is the superuser. -/
structure OwnedBy (t : Nat) (path : List UInt8) (c : Cred) (mode : BitVec 32) (i : CoreInode) : Prop where
  uid : i.uid = c.euid
  gid : i.gid = c.egid % 256
  reopens : c.uid ≠ 0 → c.euid ≠ 0 → Reopens t path c (ownerBits c mode) i

theorem Created.root (h : Created t path mode s i) : Vfs.RootOwned i := by
  cases h with
  | opened flag run success free absent entry => exact Vfs.sysOpen_owned run success free absent entry
  | made run => exact Vfs.newDirectory_owned s trivial _ _ run _ rfl

/-- Only what the superuser creates belongs to its creator. -/
theorem created_owner_iff (h : Created t path mode s i) :
    OwnedBy t path (s.task t).cred mode i ↔ (s.task t).cred.euid = 0 ∧ (s.task t).cred.egid % 256 = 0 := by
  obtain ⟨huid, hgid⟩ := h.root
  constructor
  · intro howned
    exact ⟨howned.uid.symm.trans huid, howned.gid.symm.trans hgid⟩
  · intro ⟨heuid, hegid⟩
    exact ⟨huid.trans heuid.symm, hgid.trans hegid.symm, fun _ hne => absurd heuid hne⟩

/-- The path `/a` is free, and a file is made there. -/
def made (v : Vfs) : Option (Vfs × Vfs × Vfs) := do
  let (_, s) ← Vfs.mountRoot 1 v
  let (found, s₁) ← Vfs.dirNamei 1 [47, 97] (s.reserved 1 0)
  let (dir, name) ← found
  let (de, _) ← Vfs.findEntry dir name s₁
  let (r, s') ← Vfs.sysOpen 1 [47, 97] 0o102 0o600 s
  let (_, u) ← Vfs.sysClose 1 0 s'
  if name ≠ [] ∧ de = none ∧ r = 0 ∧ s.freeDescriptor 1 = some 0 ∧ (s'.task 1).filp 0 = some 0 then some (s, s', u) else none

theorem made_created {v s' u : Vfs} (h : made v = some (s, s', u)) : Vfs.sysOpen 1 [47, 97] 0o102 0o600 s = some (0, s') ∧
    Created 1 [47, 97] 0o600 s (s'.slot (s'.file 0).inode) ∧ ∃ r, Vfs.sysClose 1 0 s' = some (r, u) := by
  obtain ⟨⟨_, s₀⟩, _, h⟩ := Option.bind_eq_some_iff.mp h
  obtain ⟨⟨found, s₁⟩, hdir, h⟩ := Option.bind_eq_some_iff.mp h
  obtain ⟨⟨dir, name⟩, hfound, h⟩ := Option.bind_eq_some_iff.mp h
  obtain ⟨⟨de, s₂⟩, hfind, h⟩ := Option.bind_eq_some_iff.mp h
  obtain ⟨⟨r, s₃⟩, hopen, h⟩ := Option.bind_eq_some_iff.mp h
  obtain ⟨⟨r', u'⟩, hclose, h⟩ := Option.bind_eq_some_iff.mp h
  dsimp only at hdir hfound hfind hopen hclose h
  split at h
  next hall =>
    obtain ⟨hname, hde, hr, hfree, hfilp⟩ := hall
    cases h
    subst hfound hde hr
    exact ⟨hopen, .opened 0o102 hopen (by decide) hfree ⟨dir, name, s₁, s₂, hdir, hname, hfind⟩ hfilp, r', hclose⟩
  next => cases h

/-- A world-writable root directory, and process 1 of the user with the ids `uid` and `gid`. -/
def userVfs (uid gid : Nat) : Vfs :=
  { bootedVfs with
    disk := fun n => if n = 1 then { mode := 0o40777, size := 32, nlinks := 2, zone := fun z => if z = 0 then 9 else 0 } else {}
    task := fun t => { live := t = 1, cred := ⟨uid, uid, gid, gid, 0, false, -1, 0⟩ } }

theorem created_owner_iff_root : ∃ s i, (s.task 1).cred.euid = 0 ∧ (s.task 1).cred.egid = 0 ∧ Created 1 [47, 97] 0o600 s i ∧
    OwnedBy 1 [47, 97] (s.task 1).cred 0o600 i := by
  have hrun : (made (userVfs 0 0)).map (fun x => ((x.1.task 1).cred.euid, (x.1.task 1).cred.egid)) = some (0, 0) := by decide +kernel
  obtain ⟨⟨s, s', u⟩, hs, hend⟩ := Option.map_eq_some_iff.mp hrun
  obtain ⟨heuid, hegid⟩ := Prod.mk.inj hend
  obtain ⟨_, hmade, _⟩ := made_created hs
  exact ⟨s, _, heuid, hegid, hmade, (created_owner_iff hmade).mpr ⟨heuid, congrArg (· % 256) hegid⟩⟩

/-- User 10 makes a file of mode 0600, and cannot open it again. -/
theorem created_owner_fails : ∃ s i s' u w, (s.task 1).cred.uid = 10 ∧ (s.task 1).cred.euid = 10 ∧ (s.task 1).cred.umask = 0 ∧
    Vfs.sysOpen 1 [47, 97] 0o102 0o600 s = some (0, s') ∧ Created 1 [47, 97] 0o600 s i ∧ i.uid = 0 ∧ i.gid = 0 ∧
    ¬ OwnedBy 1 [47, 97] (s.task 1).cred 0o600 i ∧ (∃ r, Vfs.sysClose 1 0 s' = some (r, u)) ∧
    Vfs.sysOpen 1 [47, 97] 0 0 u = some (-1, w) ∧ ownerBits (s.task 1).cred 0o600 &&& accMode 0 = accMode 0 := by
  have hrun : (made (userVfs 10 3)).bind (fun x => (Vfs.sysOpen 1 [47, 97] 0 0 x.2.2).map fun y =>
      ([(x.1.task 1).cred.uid, (x.1.task 1).cred.euid], (x.1.task 1).cred.umask, y.1)) = some ([10, 10], 0, -1) := by decide +kernel
  obtain ⟨⟨s, s', u⟩, hs, hrun⟩ := Option.bind_eq_some_iff.mp hrun
  obtain ⟨⟨r, w⟩, hreopen, hend⟩ := Option.map_eq_some_iff.mp hrun
  simp only [Prod.mk.injEq, List.cons.injEq, and_true] at hend
  obtain ⟨⟨hid, heuid⟩, humask, rfl⟩ := hend
  obtain ⟨hopen, hmade, hclose⟩ := made_created hs
  obtain ⟨huid, hgid⟩ := hmade.root
  refine ⟨s, _, s', u, w, hid, heuid, humask, hopen, hmade, huid, hgid, fun howned => ?_, hclose, hreopen, ?_⟩
  · have heq := heuid.symm.trans (howned.uid.symm.trans huid)
    exact absurd heq (by decide)
  · unfold ownerBits
    rw [humask]
    decide

end CreatedOwners

end RheeKernel
