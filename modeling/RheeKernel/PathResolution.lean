import RheeKernel.PathBytes
import RheeKernel.TreeView

namespace RheeKernel

namespace NameSpace

/-- From directory `i` the names lead to `j`, and the process may search every directory on the way, `j` included. -/
inductive Leads (T : NameSpace) : Nat → List (List UInt8) → Nat → Prop
  | here {i : Nat} : T.searchable i = true → Leads T i [] i
  | step {i j k : Nat} {name : List UInt8} {names : List (List UInt8)} : T.searchable i = true → T.lookup i name = some j →
      Leads T j names k → Leads T i (name :: names) k

/-- The path names `base` in the directory `j`: all components but the last lead there. -/
def Resolves (T : NameSpace) (path : List UInt8) (j : Nat) (base : List UInt8) : Prop :=
  ∃ i names, T.startOf path = some (i, names ++ [base]) ∧ T.Leads i names j

/-- The first of several components is there. -/
def Enters (T : NameSpace) (i : Nat) : List (List UInt8) → Prop
  | name :: _ :: _ => T.searchable i = true ∧ (T.lookup i name).isSome
  | _ => False

/-- `dir_namei` comes to an `iget`. -/
def DirEnters (T : NameSpace) (path : List UInt8) : Prop := ∃ i names, T.startOf path = some (i, names) ∧ T.Enters i names

/-- `namei` comes to an `iget`. -/
def NameEnters (T : NameSpace) (path : List UInt8) : Prop :=
  ∃ i name names, T.startOf path = some (i, name :: names) ∧ T.searchable i = true ∧ (T.lookup i name).isSome

variable {T : NameSpace} {i j : Nat} {base name path : List UInt8} {names : List (List UInt8)}

theorem getDirFrom_iff : T.getDirFrom i names = some (j, base) ↔ ∃ inner, names = inner ++ [base] ∧ T.Leads i inner j := by
  induction names generalizing i with
  | nil =>
    constructor
    · intro h
      cases h
    · rintro ⟨inner, h, _⟩
      exact absurd h.symm (List.append_ne_nil_of_right_ne_nil _ (List.cons_ne_nil _ _))
  | cons name names ih =>
    cases names with
    | nil =>
      unfold getDirFrom
      constructor
      · intro h
        split at h
        next hs =>
          cases h
          exact ⟨[], rfl, .here hs⟩
        next => cases h
      · rintro ⟨inner, h, hlead⟩
        cases inner with
        | nil =>
          cases h
          cases hlead with
          | here hs => exact if_pos hs
        | cons a inner =>
          exact absurd (List.cons.inj h).2.symm (List.append_ne_nil_of_right_ne_nil _ (List.cons_ne_nil _ _))
    | cons name' names =>
      unfold getDirFrom
      constructor
      · intro h
        split at h
        next hs =>
          obtain ⟨m, hm, h⟩ := Option.bind_eq_some_iff.mp h
          obtain ⟨inner, hinner, hlead⟩ := ih.mp h
          exact ⟨name :: inner, congrArg (name :: ·) hinner, .step hs hm hlead⟩
        next => cases h
      · rintro ⟨inner, h, hlead⟩
        cases inner with
        | nil => cases h
        | cons a inner =>
          obtain ⟨rfl, htail⟩ := List.cons.inj h
          cases hlead with
          | step hs hm hlead =>
            rw [if_pos hs, hm]
            exact ih.mpr ⟨inner, htail, hlead⟩

theorem dirNamei_iff : T.dirNamei path = some (j, base) ↔ T.Resolves path j base := by
  unfold dirNamei Resolves
  constructor
  · intro h
    obtain ⟨⟨i, names⟩, hstart, h⟩ := Option.bind_eq_some_iff.mp h
    obtain ⟨inner, rfl, hlead⟩ := getDirFrom_iff.mp h
    exact ⟨i, inner, hstart, hlead⟩
  · rintro ⟨i, inner, hstart, hlead⟩
    rw [hstart]
    exact getDirFrom_iff.mpr ⟨inner, rfl, hlead⟩

/-- There is no entry with an empty name. -/
theorem lookup_nil : T.lookup i [] = none := by
  unfold lookup
  cases T.inode i with
  | none => rfl
  | some ip => rfl

theorem Leads.last (h : T.Leads i names j) : T.searchable j = true := by
  induction h with
  | here hs => exact hs
  | step _ _ _ ih => exact ih

theorem searchable_of_dirNamei (h : T.dirNamei path = some (j, base)) : T.searchable j = true := by
  obtain ⟨_, _, _, hlead⟩ := dirNamei_iff.mp h
  exact hlead.last

/-- `namei` comes to an `iget` in `dir_namei`, or for the last component. -/
theorem nameEnters_iff : T.NameEnters path ↔
    T.DirEnters path ∨ ∃ j base, T.dirNamei path = some (j, base) ∧ (T.lookup j base).isSome := by
  constructor
  · rintro ⟨i, name, names, hstart, hs, hlook⟩
    cases names with
    | nil =>
      refine .inr ⟨i, name, ?_, hlook⟩
      unfold dirNamei
      rw [hstart]
      exact if_pos hs
    | cons name' names => exact .inl ⟨i, _, hstart, hs, hlook⟩
  · rintro (⟨i, names, hstart, henters⟩ | ⟨j, base, hdir, hlook⟩)
    · rcases names with _ | ⟨name, _ | ⟨name', names⟩⟩
      · exact absurd henters id
      · exact absurd henters id
      · exact ⟨i, name, _, hstart, henters⟩
    · obtain ⟨⟨i, names⟩, hstart, hdir⟩ := Option.bind_eq_some_iff.mp hdir
      change T.getDirFrom i names = _ at hdir
      rcases names with _ | ⟨name, _ | ⟨name', names⟩⟩
      · cases hdir
      · unfold getDirFrom at hdir
        split at hdir
        next hs =>
          cases hdir
          exact ⟨_, _, _, hstart, hs, hlook⟩
        next => cases hdir
      · unfold getDirFrom at hdir
        split at hdir
        next hs =>
          obtain ⟨m, hm, _⟩ := Option.bind_eq_some_iff.mp hdir
          exact ⟨i, name, _, hstart, hs, by rw [hm]; rfl⟩
        next => cases hdir

end NameSpace

namespace Vfs

/-- The entry that `find_entry` finds. -/
def foundEntry (s : Vfs) (k : Nat) (name : List UInt8) : Option Nat :=
  if (s.slot k).zone 0 = 0 then none else RheeKernel.findEntry (s.dir (s.slot k).num) ((s.slot k).size / direntSize) name

variable {T : NameSpace} {s u v : Vfs} {k n t : Nat} {name path : List UInt8} {names : List (List UInt8)} {f g : Nat → NameEntry}

theorem findEntry_run : findEntry k name s = some (s.foundEntry k name, s) := by
  unfold foundEntry
  change (if (s.slot k).zone 0 = 0 then (pure none : Call (Option Nat)) else _) s = _
  split <;> rfl

theorem findEntry_lt {m e : Nat} (h : RheeKernel.findEntry f m name = some e) : e < m := by
  unfold RheeKernel.findEntry at h
  dsimp only at h
  split at h
  next => cases h
  next =>
    obtain ⟨_, hlt, _⟩ := Files.firstIndex_spec h
    omega

theorem findEntry_congr {m : Nat} (h : ∀ i, i < m → f i = g i) : RheeKernel.findEntry f m name = RheeKernel.findEntry g m name := by
  unfold RheeKernel.findEntry
  dsimp only
  split
  next => rfl
  next =>
    apply firstIndex_congr
    intro j
    constructor
    · rintro ⟨hj, hp⟩
      exact ⟨hj, h j hj ▸ hp⟩
    · rintro ⟨hj, hp⟩
      exact ⟨hj, (h j hj).symm ▸ hp⟩

theorem findEntry_unused {m : Nat} (h : ∀ i, i < m → (f i).inode = 0) : RheeKernel.findEntry f m name = none := by
  unfold RheeKernel.findEntry
  dsimp only
  split
  next => rfl
  next =>
    apply firstIndex_eq_none
    intro j hj
    unfold matchName
    rw [if_pos (.inl (h j hj))]

/-- The tests of `get_dir` on the directory in slot `k`. -/
def refuses (s : Vfs) (t k : Nat) : Prop :=
  (s.slot k).isDir = false ∨ RheeKernel.permission (s.task t).cred (s.slot k).view mayExec = 0

theorem SameInode.permission {ip : FileInode} {c : CoreInode} {cred : Cred} {mask : BitVec 32} (h : SameInode c.dev ip c.toDiskInode) :
    RheeKernel.permission cred ip mask = RheeKernel.permission cred c.view mask := by
  unfold RheeKernel.permission CoreInode.view
  rw [h.dev, h.nlinks, h.uid, h.gid, h.mode]

theorem Shows.searchable (h : u.Shows T) (hat : u.At k n) (hcred : (u.task t).cred = T.proc.cred) :
    T.searchable n = true ↔ ¬ u.refuses t k := by
  obtain ⟨ip, hip, hsame⟩ := hat.here h
  rw [← hat.dev] at hsame
  have hdir : ip.isDir = (u.slot k).isDir := congrArg (fun m => m &&& ifmt == ifdir) hsame.mode
  unfold NameSpace.searchable refuses
  rw [hip, hcred, ← SameInode.permission hsame, ← hdir]
  simp

theorem Shows.lookup (h : u.Shows T) (hat : u.At k n) (hs : T.searchable n = true) :
    T.lookup n name = (u.foundEntry k name).map fun e => (u.dir (u.slot k).num e).inode := by
  obtain ⟨ip, hip, hsame⟩ := hat.here h
  have hdir : ip.isDir = true := by
    unfold NameSpace.searchable at hs
    rw [hip] at hs
    exact (Bool.and_eq_true_iff.mp hs).1
  have hentries : (u.slot k).size / direntSize = ip.entries := congrArg (· / direntSize) hsame.size.symm
  unfold NameSpace.lookup foundEntry
  rw [hip, hat.num, hentries, Option.bind_some]
  split
  next hzone =>
    rw [findEntry_unused (hsame.block hzone)]
    rfl
  next =>
    rw [findEntry_congr (h.entries n ip hip hdir)]
    cases hfound : RheeKernel.findEntry ip.entry ip.entries name with
    | none => rfl
    | some e => exact congrArg (fun de => some de.inode) (h.entries n ip hip hdir e (findEntry_lt hfound)).symm

theorem getDirFrom_refused (h : u.refuses t k) : getDirFrom t k (name :: names) u = (iput k u).map fun x => (none, x.2) := by
  unfold refuses at h
  change (if (u.slot k).isDir = false ∨ RheeKernel.permission (u.task t).cred (u.slot k).view mayExec = 0 then
    (do iput k; return none : Call (Option (Nat × List UInt8))) else _) u = _
  rw [if_pos h]
  change (iput k u).bind _ = _
  cases iput k u with
  | none => rfl
  | some x => rfl

theorem getDirFrom_last (h : ¬ u.refuses t k) : getDirFrom t k [name] u = some (some (k, name), u) := by
  unfold refuses at h
  change (if (u.slot k).isDir = false ∨ RheeKernel.permission (u.task t).cred (u.slot k).view mayExec = 0 then
    (_ : Call (Option (Nat × List UInt8))) else _) u = _
  rw [if_neg h]
  rfl

theorem getDirFrom_looks (h : ¬ u.refuses t k) (hnames : names ≠ []) : getDirFrom t k (name :: names) u =
    match u.foundEntry k name with
    | none => (iput k u).map fun x => (none, x.2)
    | some e => (iput k u).bind fun x =>
      (iget (u.slot k).dev (u.dir (u.slot k).num e).inode x.2).bind fun y => getDirFrom t y.1 names y.2 := by
  unfold refuses at h
  change (if (u.slot k).isDir = false ∨ RheeKernel.permission (u.task t).cred (u.slot k).view mayExec = 0 then
    (_ : Call (Option (Nat × List UInt8))) else _) u = _
  rw [if_neg h, if_neg hnames]
  change (findEntry k name u).bind _ = _
  rw [findEntry_run, Option.bind_some]
  cases u.foundEntry k name with
  | none =>
    change (iput k u).bind _ = _
    cases iput k u with
    | none => rfl
    | some x => rfl
  | some e => rfl

/-- What a look-up ends with: the table shows the tree as before, and slot `o` has the inode of number `r`, used once more. -/
structure Found (T : NameSpace) (s v : Vfs) (o r : Option Nat) : Prop where
  shows : v.Shows T
  kept : Kept s v o
  place : Option.Rel v.At o r

/-- An inode that a directory names has links as long as it is in the tree. -/
theorem Shows.links (h : u.Shows T) (hT : T.Linked) {i j : Nat} (hs : T.searchable i = true) (hj : T.lookup i name = some j)
    (hat : u.At k j) : (u.slot k).nlinks ≠ 0 := by
  obtain ⟨ip, hip, hlinks⟩ := hT i name j hs hj
  obtain ⟨ip', hip', hsame⟩ := hat.here h
  cases Option.some.inj (hip.symm.trans hip')
  exact hsame.nlinks ▸ hlinks

theorem Found.none (h : v.Shows T) (hkept : Kept s v none) : Found T s v none none := ⟨h, hkept, .none⟩

/-- A step of a look-up: the directory goes back, and what the entry names is taken if there is a free slot. -/
theorem Kept.enter (h : u.Shows T) (hkept : Kept s u (some k)) (hat : u.At k n) (hlinks : 0 < (s.slot k).count ∨ (u.slot k).nlinks ≠ 0)
    (hT : T.Linked) (hs : T.searchable n = true) (name : List UInt8) : ∃ v, iput k u = some ((), v) ∧ v.Shows T ∧ Kept s v none ∧
      (u.foundEntry k name = none ∧ T.lookup n name = none ∨ ∃ e j, u.foundEntry k name = some e ∧ (u.dir (u.slot k).num e).inode = j ∧
        T.lookup n name = some j ∧ (s.FreeSlot → ∃ m w, iget (u.slot k).dev j v = some (m, w) ∧ w.Shows T ∧ Kept s w (some m) ∧ w.At m j) ∧
        (¬ s.FreeSlot → iget (u.slot k).dev j v = none)) := by
  obtain ⟨v, hput, hv, hkept'⟩ := iput_kept h hkept hat hlinks
  refine ⟨v, hput, hv, hkept', ?_⟩
  have hlook := @Shows.lookup T u k n name h hat hs
  cases hfound : u.foundEntry k name with
  | none =>
    rw [hfound] at hlook
    exact .inl ⟨rfl, hlook⟩
  | some e =>
    rw [hfound] at hlook
    obtain ⟨ip, hip, _⟩ := hT n name _ hs hlook
    have hdev : (u.slot k).dev = v.dev := (hat.dev.trans hkept.dev).trans hkept'.dev.symm
    rw [hdev]
    exact .inr ⟨e, _, rfl, rfl, hlook, iget_kept hv hkept' hip⟩

/-- The loop of `get_dir` finds in the table what the tree has, and needs a free slot if it looks something up. -/
theorem getDirFrom_tree (h : u.Shows T) (hkept : Kept s u (some k)) (hat : u.At k n)
    (hlinks : 0 < (s.slot k).count ∨ (u.slot k).nlinks ≠ 0) (hT : T.Linked) (hcred : (s.task t).cred = T.proc.cred) :
    (s.FreeSlot ∨ ¬ T.Enters n names → ∃ r v, getDirFrom t k names u = some (r, v) ∧
      Found T s v (r.map Prod.fst) ((T.getDirFrom n names).map Prod.fst) ∧ r.map Prod.snd = (T.getDirFrom n names).map Prod.snd) ∧
    (¬ s.FreeSlot → T.Enters n names → getDirFrom t k names u = none) := by
  induction names generalizing u k n with
  | nil =>
    refine ⟨fun _ => ?_, fun _ hc => absurd hc id⟩
    obtain ⟨v, hput, hv, hkept'⟩ := iput_kept h hkept hat hlinks
    refine ⟨none, v, ?_, .none hv hkept', rfl⟩
    change (iput k u).bind _ = _
    rw [hput]
    rfl
  | cons name names ih =>
    have hcred' : (u.task t).cred = T.proc.cred := hkept.task ▸ hcred
    by_cases hs : T.searchable n = true
    · have hr := (h.searchable hat hcred').mp hs
      cases names with
      | nil =>
        have hT : T.getDirFrom n [name] = some (n, name) := if_pos hs
        refine ⟨fun _ => ⟨some (k, name), u, getDirFrom_last hr, ?_, ?_⟩, fun _ hc => absurd hc id⟩
        · rw [hT]
          exact ⟨h, hkept, .some hat⟩
        · rw [hT]
          rfl
      | cons name' names =>
        have hT' : T.getDirFrom n (name :: name' :: names) = (T.lookup n name).bind fun j => T.getDirFrom j (name' :: names) := if_pos hs
        obtain ⟨v, hput, hv, hkept', ⟨hfound, hlook⟩ | ⟨e, j, hfound, hj, hlook, hget, hfull⟩⟩ := hkept.enter h hat hlinks hT hs name
        · rw [getDirFrom_looks hr (List.cons_ne_nil _ _), hT', hput, hfound, hlook]
          refine ⟨fun _ => ⟨none, v, rfl, .none hv hkept', rfl⟩, fun _ hc => ?_⟩
          have hsome := hc.2
          rw [hlook] at hsome
          cases hsome
        · have henters : T.Enters n (name :: name' :: names) := ⟨hs, by rw [hlook]; rfl⟩
          rw [getDirFrom_looks hr (List.cons_ne_nil _ _), hT', hput, hfound, hlook]
          dsimp only
          rw [Option.bind_some, hj]
          refine ⟨fun hfree => ?_, fun hnone _ => ?_⟩
          · have hslot := hfree.resolve_right (not_not.mpr henters)
            obtain ⟨m, w, hget, hw, hkeptw, hatw⟩ := hget hslot
            have hlinksw := hw.links hT hs hlook hatw
            obtain ⟨r, x, hrun, hres⟩ := (ih hw hkeptw hatw (.inr hlinksw)).1 (.inl hslot)
            refine ⟨r, x, ?_, hres⟩
            rw [hget]
            exact hrun
          · rw [hfull hnone]
            rfl
    · obtain ⟨v, hput, hv, hkept'⟩ := iput_kept h hkept hat hlinks
      have hr : u.refuses t k := by
        by_contra hno
        exact hs ((h.searchable hat hcred').mpr hno)
      have hT' : T.getDirFrom n (name :: names) = none := by
        cases names with
        | nil => exact if_neg hs
        | cons name' names => exact if_neg hs
      refine ⟨fun _ => ⟨none, v, ?_, ?_, ?_⟩, fun _ hc => ?_⟩
      · rw [getDirFrom_refused hr, hput]
        rfl
      · rw [hT']
        exact .none hv hkept'
      · rw [hT']
      · cases names with
        | nil => exact absurd hc id
        | cons name' names => exact absurd hc.1 hs

/-- `get_dir` sets out from the root or from the working directory. -/
theorem dirNamei_run {root pwd : Nat} (hroot : (s.task t).root = some root) (hpwd : (s.task t).pwd = some pwd)
    (hcounts : ¬ ((s.slot root).count = 0 ∨ (s.slot pwd).count = 0)) :
    dirNamei t path s = (match path with
      | [] => (pure none : Call (Option (Nat × List UInt8)))
      | c :: cs =>
        if c = 0 then pure none
        else if c = 47 then do
          edit root fun i => { i with count := i.count + 1 }
          getDirFrom t root (components cs)
        else do
          edit pwd fun i => { i with count := i.count + 1 }
          getDirFrom t pwd (components (c :: cs))) s := by
  unfold dirNamei
  rw [get_bind, hroot, hpwd]
  exact congrFun (if_neg hcounts) s

theorem dirNamei_start (hst : s.Stands T t) : (T.startOf path = none ∧ dirNamei t path s = some (none, s)) ∨
    ∃ k n names, T.startOf path = some (n, names) ∧ s.At k n ∧
      dirNamei t path s = getDirFrom t k names (s.setSlot k { s.slot k with count := (s.slot k).count + 1 }) := by
  obtain ⟨root, hroot, hatroot⟩ := hst.root
  obtain ⟨pwd, hpwd, hatpwd⟩ := hst.pwd
  have hcounts : ¬ ((s.slot root).count = 0 ∨ (s.slot pwd).count = 0) := by
    have h := hatroot.used
    have h' := hatpwd.used
    omega
  have hrun := @dirNamei_run s t path root pwd hroot hpwd hcounts
  cases path with
  | nil => exact .inl ⟨rfl, hrun⟩
  | cons c cs =>
    dsimp only at hrun
    have hstart : T.startOf (c :: cs) = if c = 0 then none else if c = 47 then some (T.proc.root, components cs) else
        some (T.proc.pwd, components (c :: cs)) := rfl
    rw [hstart]
    split
    next hzero =>
      rw [if_pos hzero] at hrun
      exact .inl ⟨rfl, hrun⟩
    next hzero =>
      rw [if_neg hzero] at hrun
      split
      next hslash =>
        rw [if_pos hslash] at hrun
        exact .inr ⟨root, _, _, rfl, hatroot, hrun⟩
      next hslash =>
        rw [if_neg hslash] at hrun
        exact .inr ⟨pwd, _, _, rfl, hatpwd, hrun⟩

/-- `dir_namei` over the components of the path. -/
theorem dirNamei_tree (h : s.Shows T) (hst : s.Stands T t) (hT : T.Linked) :
    (s.FreeSlot ∨ ¬ T.DirEnters path → ∃ r v, dirNamei t path s = some (r, v) ∧
      Found T s v (r.map Prod.fst) ((T.dirNamei path).map Prod.fst) ∧ r.map Prod.snd = (T.dirNamei path).map Prod.snd) ∧
    (¬ s.FreeSlot → T.DirEnters path → dirNamei t path s = none) := by
  rcases @dirNamei_start T s t path hst with ⟨hstart, hrun⟩ | ⟨k, n, names, hstart, hat, hrun⟩
  · have hT' : T.dirNamei path = none := by
      unfold NameSpace.dirNamei
      rw [hstart]
      rfl
    refine ⟨fun _ => ⟨none, s, hrun, ?_, ?_⟩, fun _ ⟨_, _, hc, _⟩ => ?_⟩
    · rw [hT']
      exact .none h .refl
    · rw [hT']
    · rw [hstart] at hc
      cases hc
  · have hT' : T.dirNamei path = T.getDirFrom n names := by
      unfold NameSpace.dirNamei
      rw [hstart]
      rfl
    have henters : T.DirEnters path ↔ T.Enters n names := by
      constructor
      · rintro ⟨_, _, hc, henters⟩
        rw [hstart] at hc
        cases hc
        exact henters
      · exact fun henters => ⟨n, names, hstart, henters⟩
    obtain ⟨hhold, hkept, hat'⟩ := Kept.hold h hat
    rw [hrun, hT', henters]
    exact getDirFrom_tree hhold hkept hat' (.inl hat.used) hT hst.cred

/-- A directory that may be searched has links. -/
theorem Shows.searched_links (h : u.Shows T) (hat : u.At k n) (hs : T.searchable n = true) : (u.slot k).nlinks ≠ 0 := by
  intro hzero
  obtain ⟨ip, hip, hsame⟩ := hat.here h
  unfold NameSpace.searchable at hs
  rw [hip] at hs
  have hperm : RheeKernel.permission T.proc.cred ip mayExec = 0 := by
    unfold RheeKernel.permission
    rw [if_pos ⟨hsame.dev ▸ h.mounted, hsame.nlinks.trans hzero⟩]
  have hexec := (Bool.and_eq_true_iff.mp hs).2
  rw [hperm] at hexec
  exact absurd hexec (by decide)

/-- `namei`, once `dir_namei` is back. -/
theorem namei_run {x : Option (Nat × List UInt8) × Vfs} (h : dirNamei t path s = some x) : namei t path s =
    match x.1 with
    | none => some (none, x.2)
    | some (k, base) =>
      if base = [] then some (some k, x.2)
      else
        match x.2.foundEntry k base with
        | none => (iput k x.2).map fun y => (none, y.2)
        | some e => (iput k x.2).bind fun y => (iget (x.2.slot k).dev (x.2.dir (x.2.slot k).num e).inode y.2).map fun z =>
          (some z.1, z.2.setSlot z.1 { z.2.slot z.1 with dirt := true }) := by
  obtain ⟨r, u⟩ := x
  change (dirNamei t path s).bind _ = _
  rw [h, Option.bind_some]
  cases r with
  | none => rfl
  | some r =>
    obtain ⟨k, base⟩ := r
    change (if base = [] then pure (some k) else (_ : Call (Option Nat))) u = _
    dsimp only
    split
    next => rfl
    next =>
      change (findEntry k base u).bind _ = _
      rw [findEntry_run, Option.bind_some]
      cases u.foundEntry k base with
      | none =>
        change (iput k u).bind _ = _
        cases iput k u with
        | none => rfl
        | some y => rfl
      | some e =>
        change ((iput k u).bind fun y => iget (u.slot k).dev (u.dir (u.slot k).num e).inode y.2).bind _ = _
        cases iput k u with
        | none => rfl
        | some y =>
          dsimp only [Option.bind_some]
          cases iget (u.slot k).dev (u.dir (u.slot k).num e).inode y.2 with
          | none => rfl
          | some z => rfl

/-- The inode that `namei` has found is marked. -/
theorem Found.touch (h : v.Shows T) (hkept : Kept s v (some k)) (hat : v.At k n) :
    Found T s (v.setSlot k { v.slot k with dirt := true }) (some k) (some n) := by
  have hself : (v.setSlot k { v.slot k with dirt := true }).slot k = { v.slot k with dirt := true } := Function.update_self _ _ _
  have hother : ∀ j, j ≠ k → (v.setSlot k { v.slot k with dirt := true }).slot j = v.slot j := fun j hj => Function.update_of_ne hj _ _
  refine ⟨h.touch (hat.bound h) hat.dev, ⟨hkept.dev, hkept.task, hkept.dir, fun j => ?_, fun j hj => ?_⟩, .some ?_⟩
  · have hcount := hkept.count j
    by_cases hjk : j = k
    · rw [hjk] at hcount ⊢
      rw [hself]
      exact hcount
    · rw [hother j hjk]
      exact hcount
  · have hsame := hkept.same j hj
    by_cases hjk : j = k
    · rw [hjk] at hsame ⊢
      rw [hself]
      exact hsame
    · rw [hother j hjk]
      exact hsame
  · constructor
    · rw [hself]
      exact hat.used
    · rw [hself]
      exact hat.dev
    · rw [hself]
      exact hat.num

theorem namei_tree (h : s.Shows T) (hst : s.Stands T t) (hT : T.Linked) :
    (s.FreeSlot ∨ ¬ T.NameEnters path → ∃ r v, namei t path s = some (r, v) ∧ Found T s v r (T.namei path)) ∧
    (¬ s.FreeSlot → T.NameEnters path → namei t path s = none) := by
  obtain ⟨hmeets, hfull⟩ := @dirNamei_tree T s t path h hst hT
  by_cases hdir : s.FreeSlot ∨ ¬ T.DirEnters path
  · obtain ⟨r, v, hrun, hfound, hname⟩ := hmeets hdir
    cases hTd : T.dirNamei path with
    | none =>
      rw [hTd] at hfound hname
      obtain rfl : r = none := Option.map_eq_none_iff.mp hname
      have hT' : T.namei path = none := by
        unfold NameSpace.namei
        rw [hTd]
        rfl
      rw [namei_run hrun, hT']
      refine ⟨fun _ => ⟨none, v, rfl, hfound⟩, fun hfree henters => ?_⟩
      rcases NameSpace.nameEnters_iff.mp henters with hd | ⟨j, base, hj, _⟩
      · exact absurd hd (hdir.resolve_left hfree)
      · rw [hTd] at hj
        cases hj
    | some d =>
      obtain ⟨n, base⟩ := d
      rw [hTd] at hfound hname
      obtain ⟨⟨k, base'⟩, rfl, hbase⟩ := Option.map_eq_some_iff.mp hname
      obtain rfl : base' = base := hbase
      obtain ⟨hv, hkept, hplace⟩ := hfound
      obtain ⟨hat⟩ : Option.Rel v.At (some k) (some n) := hplace
      have hs := NameSpace.searchable_of_dirNamei hTd
      have hT' : T.namei path = if base' = [] then some n else T.lookup n base' := by
        unfold NameSpace.namei
        rw [hTd]
        rfl
      have henters : T.NameEnters path → ¬ s.FreeSlot → (T.lookup n base').isSome := by
        intro henters hfree
        rcases NameSpace.nameEnters_iff.mp henters with hd | ⟨j, b, hj, hlook⟩
        · exact absurd hd (hdir.resolve_left hfree)
        · rw [hTd] at hj
          cases hj
          exact hlook
      rw [namei_run hrun, hT']
      dsimp only
      by_cases hnil : base' = []
      · rw [if_pos hnil, if_pos hnil]
        refine ⟨fun _ => ⟨_, v, rfl, hv, hkept, .some hat⟩, fun hfree hn => ?_⟩
        have hlook := henters hn hfree
        rw [hnil, NameSpace.lookup_nil] at hlook
        cases hlook
      · rw [if_neg hnil, if_neg hnil]
        obtain ⟨w, hput, hw, hkept', ⟨hfe, hlook⟩ | ⟨e, j, hfe, hj, hlook, hget, hnone⟩⟩ :=
          hkept.enter hv hat (.inr (hv.searched_links hat hs)) hT hs base'
        · rw [hput, hfe, hlook]
          refine ⟨fun _ => ⟨none, w, rfl, .none hw hkept'⟩, fun hfree hn => ?_⟩
          have hsome := henters hn hfree
          rw [hlook] at hsome
          cases hsome
        · rw [hput, hfe, hlook]
          dsimp only
          rw [Option.bind_some, hj]
          refine ⟨fun hfree => ?_, fun hfree _ => ?_⟩
          · have hslot : s.FreeSlot := by
              rcases hfree with hfree | hno
              · exact hfree
              · exact absurd (NameSpace.nameEnters_iff.mpr (.inr ⟨n, base', hTd, by rw [hlook]; rfl⟩)) hno
            obtain ⟨m, x, hget, hx, hkeptx, hatx⟩ := hget hslot
            rw [hget]
            exact ⟨_, _, rfl, .touch hx hkeptx hatx⟩
          · rw [hnone hfree]
            rfl
  · push Not at hdir
    obtain ⟨hfree, hd⟩ := hdir
    have hnone : namei t path s = none := by
      change (dirNamei t path s).bind _ = _
      rw [hfull hfree hd]
      rfl
    refine ⟨fun hor => ?_, fun _ _ => hnone⟩
    exact absurd (NameSpace.nameEnters_iff.mpr (.inl hd)) (hor.resolve_left hfree)

namespace PathBytes

/-- What `dir_namei` comes back with is the directory and the name: its slot, `namelen`, and the place of the name in the path. -/
def Named (v : Vfs) (path : List UInt8) (d : Nat × Nat × Nat) (e : Nat × List UInt8) : Prop :=
  v.At d.1 e.1 ∧ part path d.2.2 d.2.1 = e.2 ∧ d.2.1 = e.2.length

/-- `dir_namei` comes back with what the tree has for the path, and uses that directory once more. -/
def DirNameiMeets (T : NameSpace) (t : Nat) (s : Vfs) (path : List UInt8) : Prop :=
  ∃ r v, dirNamei t path s = some (r, v) ∧ v.Shows T ∧ Kept s v (r.map Prod.fst) ∧ Option.Rel (Named v path) r (T.dirNamei path)

/-- `namei` comes back with what the tree has for the path, and uses that inode once more. -/
def NameiMeets (T : NameSpace) (t : Nat) (s : Vfs) (path : List UInt8) : Prop :=
  ∃ r v, namei t path s = some (r, v) ∧ v.Shows T ∧ Kept s v r ∧ Option.Rel v.At r (T.namei path)

theorem map_run {α β : Type} {x : Call α} {f : α → β} : (f <$> x) s = (x s).map fun r => (f r.1, r.2) := by
  change (x s).bind _ = _
  cases x s with
  | none => rfl
  | some r => rfl

theorem dirNamei_spec (h : s.Shows T) (hst : s.Stands T t) (hT : T.Linked) :
    (s.FreeSlot ∨ ¬ T.DirEnters path → DirNameiMeets T t s path) ∧ (¬ s.FreeSlot → T.DirEnters path → dirNamei t path s = none) := by
  obtain ⟨hmeets, hfull⟩ := @dirNamei_tree T s t path h hst hT
  have hrun : Vfs.dirNamei t path s = (dirNamei t path s).map fun r => (r.1.map fun d => (d.1, part path d.2.2 d.2.1), r.2) := by
    rw [dirNamei_components, map_run]
  constructor
  · intro hfree
    obtain ⟨r, v, hr, ⟨hv, hkept, hplace⟩, hname⟩ := hmeets hfree
    rw [hrun] at hr
    obtain ⟨⟨d, v'⟩, hd, heq⟩ := Option.map_eq_some_iff.mp hr
    obtain ⟨rfl, rfl⟩ := Prod.mk.inj heq
    have hlen : ∀ x, d = some x → x.2.1 = (part path x.2.2 x.2.1).length := by
      rintro x rfl
      unfold dirNamei at hd
      obtain ⟨⟨o, w⟩, _, hd⟩ := Option.bind_eq_some_iff.mp hd
      cases o with
      | none => cases hd
      | some dir =>
        cases hd
        dsimp only
        rw [scanBase_last.1]
        exact scanBase_last.2
    refine ⟨d, v', hd, hv, ?_, ?_⟩
    · rw [Option.map_map] at hkept
      exact hkept
    · rw [Option.map_map] at hplace hname
      cases d with
      | none =>
        have hnone : T.dirNamei path = none := Option.map_eq_none_iff.mp hname.symm
        rw [hnone]
        exact .none
      | some x =>
        obtain ⟨e, he, hbase⟩ := Option.map_eq_some_iff.mp hname.symm
        rw [he] at hplace ⊢
        obtain ⟨hat⟩ : Option.Rel v'.At (some x.1) (some e.1) := hplace
        refine .some ⟨hat, hbase.symm, ?_⟩
        rw [hbase]
        exact hlen x rfl
  · intro hfree henters
    have hnone := hfull hfree henters
    rw [hrun] at hnone
    exact Option.map_eq_none_iff.mp hnone

/-- `dir_namei` and `namei` come back with what the path names in the tree, component by component, or the kernel panics: if they come
to an `iget` and no slot of the inode table is free. -/
theorem path_resolution (h : s.Shows T) (hst : s.Stands T t) (hT : T.Linked) :
    (∀ j base, T.dirNamei path = some (j, base) ↔ T.Resolves path j base) ∧
    (DirNameiMeets T t s path ↔ s.FreeSlot ∨ ¬ T.DirEnters path) ∧ (dirNamei t path s = none ↔ ¬ s.FreeSlot ∧ T.DirEnters path) ∧
    (NameiMeets T t s path ↔ s.FreeSlot ∨ ¬ T.NameEnters path) ∧ (namei t path s = none ↔ ¬ s.FreeSlot ∧ T.NameEnters path) := by
  obtain ⟨hdir, hdirFull⟩ := @dirNamei_spec T s t path h hst hT
  obtain ⟨hname, hnameFull⟩ := @namei_tree T s t path h hst hT
  rw [namei_components] at hname hnameFull
  have hboth : ∀ {α : Type} {run : Option (α × Vfs)} {P Q : Prop}, (s.FreeSlot ∨ ¬ Q → P) → (P → run ≠ none) →
      (¬ s.FreeSlot → Q → run = none) → (P ↔ s.FreeSlot ∨ ¬ Q) ∧ (run = none ↔ ¬ s.FreeSlot ∧ Q) := by
    intro α run P Q hmeets hruns hfull
    by_cases hok : s.FreeSlot ∨ ¬ Q
    · have hP := hmeets hok
      refine ⟨⟨fun _ => hok, hmeets⟩, fun hnone => absurd hnone (hruns hP), fun ⟨hfree, hq⟩ => ?_⟩
      exact absurd hq (hok.resolve_left hfree)
    · push Not at hok
      have hnone := hfull hok.1 hok.2
      exact ⟨⟨fun hP => absurd hnone (hruns hP), hmeets⟩, fun _ => hok, fun _ => hnone⟩
  obtain ⟨hd, hdn⟩ := hboth hdir (fun ⟨_, _, hrun, _⟩ hnone => nomatch hrun.symm.trans hnone) hdirFull
  have hmeets : s.FreeSlot ∨ ¬ T.NameEnters path → NameiMeets T t s path := by
    intro hfree
    obtain ⟨r, v, hrun, hv, hkept, hplace⟩ := hname hfree
    exact ⟨r, v, hrun, hv, hkept, hplace⟩
  obtain ⟨hn, hnn⟩ := hboth hmeets (fun ⟨_, _, hrun, _⟩ hnone => nomatch hrun.symm.trans hnone) hnameFull
  exact ⟨fun _ _ => NameSpace.dirNamei_iff, hd, hdn, hn, hnn⟩

def dirNode : FileInode where
  mode := ifdir ||| 0o755
  uid := 0
  gid := 0
  dev := 1
  nlinks := 2
  rdev := 1
  pipe := false
  size := direntSize
  byte := fun o => if o = 0 then 2 else if o = 2 then 97 else 0

def fileNode : FileInode where
  mode := ifreg ||| 0o644
  uid := 0
  gid := 0
  dev := 1
  nlinks := 1
  rdev := 1
  pipe := false
  size := 0
  byte := fun _ => 0

/-- Directory 1 is the root, with the entry `a` for inode 2; everything else is a file. -/
def smallTree : NameSpace where
  inode := fun n => some (if n = 1 then dirNode else fileNode)
  proc := ⟨⟨0, 0, 0, 0, 0, false, -1, 0⟩, 1, 1⟩

def smallDisk (n : Nat) : DiskInode :=
  if n = 1 then { mode := 0o40755, size := direntSize, nlinks := 2, zone := fun _ => 1 } else { mode := 0o100644, nlinks := 1, zone := fun _ => 1 }

/-- The tree with the inodes 1 to `m` in use. -/
def crowded (m : Nat) : Vfs where
  dev := 1
  ninodes := 64
  imap := fun _ => true
  isup := none
  imount := none
  disk := smallDisk
  dir := fun n => (if n = 1 then dirNode else fileNode).entry
  slot := fun k => if k < m then { smallDisk (k + 1) with dev := 1, num := k + 1, count := 1 } else {}
  last := 0
  file := fun _ => ⟨0, 0, 0, 0, 0⟩
  task := fun _ => { live := true, cred := ⟨0, 0, 0, 0, 0, false, -1, 0⟩, pwd := some 0, root := some 0 }
  now := 0
  answers := []

theorem smallDisk_same (n : Nat) : SameInode 1 (if n = 1 then dirNode else fileNode) (smallDisk n) := by
  unfold smallDisk
  split
  next => exact ⟨rfl, by decide, rfl, rfl, rfl, rfl, fun hz => absurd hz (by decide)⟩
  next => exact ⟨rfl, by decide, rfl, rfl, rfl, rfl, fun hz => absurd hz (by decide)⟩

theorem crowded_slot (m k : Nat) : (crowded m).slot k = { smallDisk (k + 1) with dev := 1, num := k + 1, count := 1 } ∧ k < m ∨
    (crowded m).slot k = {} ∧ m ≤ k := by
  by_cases h : k < m
  · exact .inl ⟨if_pos h, h⟩
  · exact .inr ⟨if_neg h, Nat.not_lt.mp h⟩

theorem crowded_shows {m : Nat} (hm : m ≤ nrInode) : (crowded m).Shows smallTree := by
  have hslot := crowded_slot m
  refine ⟨⟨Nat.one_ne_zero, fun k hk => ?_, fun k => ?_, fun k hp => ?_, fun k hu => ?_, fun k hd => ?_⟩, fun j k hj hdev hnum => ?_, fun k hk => ?_,
    fun n ip hip _ => ?_, fun n ip hip _ i _ => ?_⟩
  · exact if_neg (by omega)
  · rcases hslot k with ⟨h, _⟩ | ⟨h, _⟩
    · exact .inr (congrArg CoreInode.dev h)
    · exact .inl (congrArg CoreInode.dev h)
  · rcases hslot k with ⟨h, _⟩ | ⟨h, _⟩ <;> rw [h] at hp <;> cases hp
  · rcases hslot k with ⟨h, _⟩ | ⟨h, _⟩
    · exact congrArg CoreInode.dev h
    · have hcount := hu.1
      rw [h] at hcount
      exact absurd hcount (Nat.lt_irrefl 0)
  · rcases hslot k with ⟨h, _⟩ | ⟨h, _⟩ <;> rw [h] at hd <;> cases hd
  · rcases hslot j with ⟨h, _⟩ | ⟨h, _⟩
    · rcases hslot k with ⟨h', _⟩ | ⟨h', _⟩
      · rw [h, h'] at hnum
        exact Nat.succ.inj hnum
      · rw [h, h'] at hdev
        cases hdev
    · rw [h] at hj
      exact absurd rfl hj
  · rcases hslot k with ⟨h, _⟩ | ⟨h, _⟩
    · rw [h]
      exact ⟨_, rfl, smallDisk_same (k + 1)⟩
    · rw [h] at hk
      exact absurd rfl hk
  · cases Option.some.inj hip
    exact smallDisk_same n
  · cases Option.some.inj hip
    rfl

theorem crowded_stands {m : Nat} (hm : 1 ≤ m) : (crowded m).Stands smallTree 0 := by
  have hslot : (crowded m).slot 0 = { smallDisk 1 with dev := 1, num := 1, count := 1 } := if_pos hm
  have hat : (crowded m).At 0 1 := by
    constructor
    · rw [hslot]
      exact Nat.one_pos
    · rw [hslot]
      rfl
    · rw [hslot]
  exact ⟨rfl, ⟨0, rfl, hat⟩, ⟨0, rfl, hat⟩⟩

theorem smallTree_linked : smallTree.Linked := by
  intro i name j _ _
  refine ⟨_, rfl, ?_⟩
  split
  next => decide
  next => decide

/-- `/a/` with two inodes in use: the file is looked up, but is no directory. -/
theorem path_resolution_small : (crowded 2).Shows smallTree ∧ (crowded 2).Stands smallTree 0 ∧ smallTree.Linked ∧
    DirNameiMeets smallTree 0 (crowded 2) [47, 97, 47] ∧ NameiMeets smallTree 0 (crowded 2) [47, 97] := by
  have hfree : (crowded 2).FreeSlot := ⟨2, by decide, rfl⟩
  obtain ⟨_, hdir, _, _, _⟩ := @path_resolution smallTree (crowded 2) 0 [47, 97, 47] (crowded_shows (by decide)) (crowded_stands (by decide))
    smallTree_linked
  obtain ⟨_, _, _, hname, _⟩ := @path_resolution smallTree (crowded 2) 0 [47, 97] (crowded_shows (by decide)) (crowded_stands (by decide))
    smallTree_linked
  exact ⟨crowded_shows (by decide), crowded_stands (by decide), smallTree_linked, hdir.mpr (.inl hfree), hname.mpr (.inl hfree)⟩

/-- `/a` with all slots of the inode table in use is a panic, even as inode 2 is in the table. -/
theorem path_resolution_full : ¬ ∀ T t s path, s.Shows T → s.Stands T t → T.Linked → DirNameiMeets T t s path ∧ NameiMeets T t s path := by
  intro hall
  have hfull : ¬ (crowded nrInode).FreeSlot := by
    rintro ⟨k, hk, hcount⟩
    have hslot : (crowded nrInode).slot k = { smallDisk (k + 1) with dev := 1, num := k + 1, count := 1 } := if_pos hk
    rw [hslot] at hcount
    cases hcount
  have henters : smallTree.NameEnters [47, 97] := ⟨1, [97], [], rfl, by decide, by decide⟩
  obtain ⟨_, _, _, hrun, _⟩ := hall smallTree 0 (crowded nrInode) [47, 97] (crowded_shows (Nat.le_refl _)) (crowded_stands (by decide))
    smallTree_linked
  have hnone := (@namei_tree smallTree (crowded nrInode) 0 [47, 97] (crowded_shows (Nat.le_refl _)) (crowded_stands (by decide))
    smallTree_linked).2 hfull henters
  rw [namei_components, hrun] at hnone
  cases hnone

end PathBytes

end Vfs

end RheeKernel
