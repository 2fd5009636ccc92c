import RheeKernel.PathWalk
import RheeKernel.FileCounts
import RheeKernel.ParentTree

namespace RheeKernel

variable {inode : Nat → Option FileInode} {root d r x : Nat} {parent : Nat → Nat} {e : NameEntry}

def IsDirectory (inode : Nat → Option FileInode) (i : Nat) : Prop := ∃ ip, inode i = some ip ∧ ip.isDir = true

/-- Directory `d` has the live entry `e`. -/
def HasEntry (inode : Nat → Option FileInode) (d : Nat) (e : NameEntry) : Prop :=
  ∃ ip k, inode d = some ip ∧ ip.isDir = true ∧ k < ip.entries ∧ ip.entry k = e ∧ e.inode ≠ 0

/-- The directories are a tree: `.` is the directory itself, `..` its parent, and a directory under any other name is a
child. Files may have any number of names. -/
structure DirTree (inode : Nat → Option FileInode) (root : Nat) (parent : Nat → Nat) : Prop where
  rootDir : IsDirectory inode root
  rootParent : parent root = root
  below : ∀ d, IsDirectory inode d → ParentTree.Below parent root d
  parentDir : ∀ d, IsDirectory inode d → IsDirectory inode (parent d)
  dot : ∀ d e, HasEntry inode d e → matchName dotName e = true → e.inode = d
  dotdot : ∀ d e, HasEntry inode d e → matchName dotdotName e = true → e.inode = parent d
  hasDotdot : ∀ d, IsDirectory inode d → ∃ e, HasEntry inode d e ∧ matchName dotdotName e = true
  child : ∀ d e, HasEntry inode d e → ¬ matchName dotName e = true → ¬ matchName dotdotName e = true →
    IsDirectory inode e.inode → parent e.inode = d

/-- Inode `x` lies in the subtree of directory `r`: a directory below it, or a file with a name in one. -/
def Inside (inode : Nat → Option FileInode) (parent : Nat → Nat) (r x : Nat) : Prop :=
  (IsDirectory inode x ∧ ParentTree.Below parent r x) ∨
    ¬ IsDirectory inode x ∧ ∃ d e, ParentTree.Below parent r d ∧ HasEntry inode d e ∧ e.inode = x

namespace NameSpace

/-- On its way through the names from inode `i` on, the process looks up `..` while it stands at `r`. -/
def ClimbsFrom (s : NameSpace) (r i : Nat) : List (List UInt8) → Prop
  | [] => False
  | name :: names => s.searchable i = true ∧ ((i = r ∧ name = dotdotName) ∨ ∃ j, s.lookup i name = some j ∧ ClimbsFrom s r j names)

/-- A path name has a `..` that the process comes to at its own root. -/
def Climbs (s : NameSpace) (pathname : List UInt8) : Prop :=
  ∃ i names, s.startOf pathname = some (i, names) ∧ s.ClimbsFrom s.proc.root i names

variable {s : NameSpace} {i j : Nat} {name path : List UInt8} {names : List (List UInt8)}

theorem searchable_dir (h : s.searchable i = true) : IsDirectory s.inode i := by
  unfold searchable at h
  unfold IsDirectory
  cases hip : s.inode i with
  | none =>
    rw [hip] at h
    cases h
  | some ip =>
    rw [hip] at h
    exact ⟨ip, rfl, (Bool.and_eq_true_iff.mp h).1⟩

/-- A name that is found is that of a live entry. -/
theorem lookup_entry (hdir : IsDirectory s.inode i) (h : s.lookup i name = some j) :
    ∃ e, HasEntry s.inode i e ∧ matchName (name.take nameLen) e = true ∧ e.inode = j := by
  obtain ⟨ip, hip, h⟩ := Option.bind_eq_some_iff.mp h
  obtain ⟨k, hk, rfl⟩ := Option.map_eq_some_iff.mp h
  obtain ⟨ip', hip', hd⟩ := hdir
  rw [hip] at hip'
  cases Option.some.inj hip'
  unfold findEntry at hk
  dsimp only at hk
  split at hk
  next => cases hk
  next =>
    obtain ⟨_, hlt, hmatch⟩ := Files.firstIndex_spec hk
    exact ⟨ip.entry k, ⟨ip, k, hip, hd, by omega, rfl, (matchName_iff.mp hmatch).1⟩, hmatch, rfl⟩

/-- `..` is found in every directory of a tree. -/
theorem lookup_dotdot (ht : DirTree s.inode root parent) (hdir : IsDirectory s.inode i) :
    s.lookup i dotdotName = some (parent i) := by
  obtain ⟨e, he, hmatch⟩ := ht.hasDotdot i hdir
  obtain ⟨ip, k, hip, _, hk, hentry, _⟩ := he
  cases hfind : Files.firstIndex (fun k => matchName dotdotName (ip.entry k)) ip.entries 0 with
  | none =>
    have hall := Files.firstIndex_none hfind (Nat.zero_le k) (by omega)
    rw [hentry, hmatch] at hall
    cases hall
  | some m =>
    have hlook : s.lookup i dotdotName = some (ip.entry m).inode := by
      unfold lookup
      rw [hip, Option.bind_some]
      change Option.map _ (Files.firstIndex (fun k => matchName dotdotName (ip.entry k)) ip.entries 0) = _
      rw [hfind, Option.map_some]
    obtain ⟨e', he', hmatch', hinode⟩ := lookup_entry hdir hlook
    rw [hlook, ← hinode, ht.dotdot i e' he' hmatch']

/-- One look-up of a process that stands inside the subtree of its root: it stays there, or it goes up from that root. -/
theorem lookup_inside (ht : DirTree s.inode root parent) (hdir : IsDirectory s.inode i) (hi : ParentTree.Below parent r i)
    (hz : ∀ c ∈ name, c ≠ 0) (hstay : r = root ∨ ¬ (i = r ∧ name = dotdotName)) (h : s.lookup i name = some j) :
    Inside s.inode parent r j := by
  obtain ⟨e, he, hmatch, rfl⟩ := lookup_entry hdir h
  by_cases hjdir : IsDirectory s.inode e.inode
  · refine .inl ⟨hjdir, ?_⟩
    by_cases hdot : matchName dotName e = true
    · rw [ht.dot i e he hdot]
      exact hi
    · by_cases hdotdot : matchName dotdotName e = true
      · rw [ht.dotdot i e he hdotdot]
        have hname : name.take nameLen = dotdotName :=
          matchName_unique (fun c hc => hz c (List.mem_of_mem_take hc)) (by simp [dotdotName]) hmatch hdotdot
        have hshort : name = dotdotName := by
          rw [← hname]
          refine (List.take_of_length_le ?_).symm
          have hlen := congrArg List.length hname
          rw [List.length_take] at hlen
          change min nameLen _ = 2 at hlen
          unfold nameLen at *
          omega
        by_cases hir : i = r
        · -- Only the root of the tree has itself above.
          have hroot : r = root := hstay.resolve_right fun hno => hno ⟨hir, hshort⟩
          rw [hir, hroot, ht.rootParent]
          exact ParentTree.Below.refl
        · exact hi.up hir
      · exact hi.child (ht.child i e he hdot hdotdot hjdir)
  · exact .inr ⟨hjdir, i, e, hi, he, rfl⟩

/-- A walk that does not climb stays inside the subtree. -/
theorem held_inside (ht : DirTree s.inode root parent) (hdir : IsDirectory s.inode i) (hi : ParentTree.Below parent r i)
    (hz : ∀ name ∈ names, ∀ c ∈ name, c ≠ 0) (hstay : r = root ∨ ¬ s.ClimbsFrom r i names) :
    ∀ x ∈ s.held i names, Inside s.inode parent r x := by
  induction names generalizing i with
  | nil =>
    intro x hx
    cases List.mem_singleton.mp hx
    exact .inl ⟨hdir, hi⟩
  | cons name names ih =>
    intro x hx
    unfold held at hx
    rcases List.mem_cons.mp hx with rfl | hx
    · exact .inl ⟨hdir, hi⟩
    · split at hx
      next hs =>
        cases hj : s.lookup i name with
        | none =>
          rw [hj] at hx
          cases hx
        | some j =>
          rw [hj] at hx
          have hin := lookup_inside ht hdir hi (hz name List.mem_cons_self) (hstay.imp_right fun hno hup => hno ⟨hs, .inl hup⟩) hj
          rcases hin with ⟨hjdir, hjin⟩ | hfile
          · exact ih hjdir hjin (fun n hn => hz n (List.mem_cons_of_mem _ hn))
              (hstay.imp_right fun hno hc => hno ⟨hs, .inr ⟨j, hj, hc⟩⟩) x hx
          · -- A file ends the walk.
            have hstop : s.held j names = [j] := by
              cases names with
              | nil => rfl
              | cons name' names =>
                unfold held
                rw [if_neg fun hs => hfile.1 (searchable_dir hs)]
            change x ∈ s.held j names at hx
            rw [hstop] at hx
            cases List.mem_singleton.mp hx
            exact .inr hfile
      next => cases hx

/-- A walk that climbs leaves the subtree. -/
theorem held_outside (ht : DirTree s.inode root parent) (hne : r ≠ root) (hclimb : s.ClimbsFrom r i names) :
    ∃ x ∈ s.held i names, ¬ Inside s.inode parent r x := by
  induction names generalizing i with
  | nil => exact hclimb.elim
  | cons name names ih =>
    obtain ⟨hs, hclimb⟩ := hclimb
    unfold held
    rw [if_pos hs]
    rcases hclimb with ⟨rfl, rfl⟩ | ⟨j, hj, hclimb⟩
    · have hdir := searchable_dir hs
      rw [lookup_dotdot ht hdir]
      refine ⟨parent i, List.mem_cons_of_mem _ held_head, fun hin => ?_⟩
      rcases hin with ⟨_, hbelow⟩ | ⟨hno, _⟩
      · exact ParentTree.not_below_parent ht.rootParent (ht.below i hdir) hne hbelow
      · exact hno (ht.parentDir i hdir)
    · rw [hj]
      obtain ⟨x, hx, hout⟩ := ih hclimb
      exact ⟨x, List.mem_cons_of_mem _ hx, hout⟩

theorem climbsFrom_searchable (h : s.ClimbsFrom r i names) : s.searchable r = true := by
  induction names generalizing i with
  | nil => exact h.elim
  | cons name names ih =>
    obtain ⟨hs, ⟨rfl, _⟩ | ⟨j, _, h⟩⟩ := h
    · exact hs
    · exact ih h

theorem startOf_ne_zero (h : s.startOf path = some (i, names)) :
    (i = s.proc.root ∨ i = s.proc.pwd) ∧ ∀ name ∈ names, ∀ c ∈ name, c ≠ 0 := by
  cases path with
  | nil => cases h
  | cons c cs =>
    simp only [startOf] at h
    split at h
    next => cases h
    next =>
      split at h
      next =>
        cases Option.some.inj h
        exact ⟨.inl rfl, fun name hn => components_ne_zero hn⟩
      next =>
        cases Option.some.inj h
        exact ⟨.inr rfl, fun name hn => components_ne_zero hn⟩

/-- The path name `/..` -/
def upPath : List UInt8 := 47 :: dotdotName

theorem namei_upPath (ht : DirTree s.inode root parent) (hs : s.searchable s.proc.root = true) :
    s.namei upPath = some (parent s.proc.root) := by
  have hstart : s.startOf upPath = some (s.proc.root, [dotdotName]) := rfl
  unfold namei dirNamei
  rw [hstart, Option.bind_some]
  dsimp only
  unfold getDirFrom
  rw [if_pos hs, Option.bind_some]
  dsimp only
  rw [if_neg (by decide), lookup_dotdot ht (searchable_dir hs)]

end NameSpace

/-- A process whose root is below the root of the tree keeps to the subtree on all path names but those with a `..` that it
comes to at its root; all path names together keep it there only if it may not search its root, or if that is the tree's. -/
theorem chroot_confined_iff {s : NameSpace} (ht : DirTree s.inode root parent) (hroot : IsDirectory s.inode s.proc.root)
    (hpwd : IsDirectory s.inode s.proc.pwd) (hin : ParentTree.Below parent s.proc.root s.proc.pwd) :
    (∀ path, (∀ x ∈ s.heldBy path, Inside s.inode parent s.proc.root x) ↔ s.proc.root = root ∨ ¬ s.Climbs path) ∧
    ((∀ path, (∀ x, s.namei path = some x → Inside s.inode parent s.proc.root x) ∧
        ∀ x base, s.dirNamei path = some (x, base) → Inside s.inode parent s.proc.root x) ↔
      s.proc.root = root ∨ s.searchable s.proc.root = false) := by
  have hpath : ∀ path, s.proc.root = root ∨ ¬ s.Climbs path → ∀ x ∈ s.heldBy path, Inside s.inode parent s.proc.root x := by
    intro path hstay x hx
    unfold NameSpace.heldBy at hx
    cases hstart : s.startOf path with
    | none =>
      rw [hstart] at hx
      cases hx
    | some start =>
      obtain ⟨i, names⟩ := start
      rw [hstart] at hx
      obtain ⟨hi, hz⟩ := NameSpace.startOf_ne_zero hstart
      have hfrom : IsDirectory s.inode i ∧ ParentTree.Below parent s.proc.root i := by
        rcases hi with rfl | rfl
        · exact ⟨hroot, ParentTree.Below.refl⟩
        · exact ⟨hpwd, hin⟩
      exact NameSpace.held_inside ht hfrom.1 hfrom.2 hz (hstay.imp_right fun hno hc => hno ⟨i, names, hstart, hc⟩) x hx
  refine ⟨fun path => ⟨fun hall => ?_, hpath path⟩, fun hall => ?_, fun hstay path => ?_⟩
  · by_contra hno
    obtain ⟨hne, hclimb⟩ := not_or.mp hno
    obtain ⟨i, names, hstart, hclimb⟩ := not_not.mp hclimb
    obtain ⟨x, hx, hout⟩ := NameSpace.held_outside ht hne hclimb
    refine hout (hall x ?_)
    unfold NameSpace.heldBy
    rw [hstart]
    exact hx
  · by_contra hno
    obtain ⟨hne, hs⟩ := not_or.mp hno
    have hs := Bool.eq_true_of_not_eq_false hs
    rcases (hall NameSpace.upPath).1 _ (NameSpace.namei_upPath ht hs) with ⟨_, hbelow⟩ | ⟨hfile, _⟩
    · exact ParentTree.not_below_parent ht.rootParent (ht.below _ hroot) hne hbelow
    · exact hfile (ht.parentDir _ hroot)
  · have hheld := hpath path (hstay.imp_right fun hs hc => by
      obtain ⟨i, names, _, hc⟩ := hc
      rw [NameSpace.climbsFrom_searchable hc] at hs
      cases hs)
    exact ⟨fun x hx => hheld x (NameSpace.namei_held hx), fun x base hx => hheld x (NameSpace.dirNamei_held hx).1⟩

/-- A directory with the given entries, open to all. -/
def sampleDir (entries : List (Nat × List UInt8)) : FileInode where
  mode := ifdir ||| 0o755
  uid := 0
  gid := 0
  dev := 1
  nlinks := 2
  rdev := 0
  pipe := false
  size := direntSize * entries.length
  byte := fun o => (entries[o / direntSize]?).elim 0 fun (inode, name) =>
    if o % direntSize = 0 then .ofNat inode
    else if o % direntSize = 1 then .ofNat (inode / 256)
    else (name[o % direntSize - 2]?).getD 0

/-- Directory 2 is `/a`; the process has it as its root. -/
def jailed : NameSpace where
  inode := fun i =>
    if i = 1 then some (sampleDir [(1, dotName), (1, dotdotName), (2, [97])])
    else if i = 2 then some (sampleDir [(2, dotName), (1, dotdotName)])
    else none
  proc := ⟨⟨0, 0, 0, 0, 0, false, -1, 0⟩, 2, 2⟩

theorem jailed_entry {d : Nat} {e : NameEntry} (h : HasEntry jailed.inode d e) :
    (d = 1 ∧ ∃ k < 3, e = (sampleDir [(1, dotName), (1, dotdotName), (2, [97])]).entry k) ∨
      d = 2 ∧ ∃ k < 2, e = (sampleDir [(2, dotName), (1, dotdotName)]).entry k := by
  obtain ⟨ip, k, hip, _, hk, rfl, _⟩ := h
  unfold jailed at hip
  dsimp only at hip
  split at hip
  next hd =>
    cases Option.some.inj hip
    exact .inl ⟨hd, k, hk, rfl⟩
  next =>
    split at hip
    next hd =>
      cases Option.some.inj hip
      exact .inr ⟨hd, k, hk, rfl⟩
    next => cases hip

theorem jailed_dir {d : Nat} (h : IsDirectory jailed.inode d) : d = 1 ∨ d = 2 := by
  obtain ⟨ip, hip, _⟩ := h
  unfold jailed at hip
  dsimp only at hip
  split at hip
  next hd => exact .inl hd
  next =>
    split at hip
    next hd => exact .inr hd
    next => cases hip

theorem jailed_tree : DirTree jailed.inode 1 fun _ => 1 := by
  have hone : IsDirectory jailed.inode 1 := ⟨_, rfl, by decide⟩
  refine ⟨hone, rfl, fun d _ => ⟨1, rfl⟩, fun d _ => hone, fun d e he hm => ?_, fun d e he hm => ?_, fun d hd => ?_,
    fun d e he hdot hdotdot hdir => ?_⟩
  · rcases jailed_entry he with ⟨rfl, k, hk, rfl⟩ | ⟨rfl, k, hk, rfl⟩ <;> clear he <;> revert k <;> decide
  · rcases jailed_entry he with ⟨rfl, k, hk, rfl⟩ | ⟨rfl, k, hk, rfl⟩ <;> clear he <;> revert k <;> decide
  · rcases jailed_dir hd with rfl | rfl
    · exact ⟨_, ⟨_, 1, rfl, by decide, by decide, rfl, by decide⟩, by decide⟩
    · exact ⟨_, ⟨_, 1, rfl, by decide, by decide, rfl, by decide⟩, by decide⟩
  · rcases jailed_entry he with ⟨rfl, k, hk, rfl⟩ | ⟨rfl, k, hk, rfl⟩
    · rfl
    · -- Directory 2 has no third entry.
      exfalso
      clear he hdir
      revert k
      decide

theorem jailed_root : IsDirectory jailed.inode jailed.proc.root := ⟨_, rfl, by decide⟩

theorem chroot_confined_sample :
    jailed.heldBy [47, 46, 47, 97] ≠ [] ∧ ∀ x ∈ jailed.heldBy [47, 46, 47, 97], Inside jailed.inode (fun _ => 1) 2 x := by
  refine ⟨by decide, ((chroot_confined_iff jailed_tree jailed_root jailed_root ParentTree.Below.refl).1 _).mpr (.inr ?_)⟩
  intro ⟨i, names, hstart, hclimb⟩
  cases Option.some.inj hstart
  obtain ⟨_, ⟨_, hname⟩ | ⟨j, _, _, ⟨_, hname⟩ | ⟨_, _, hnone⟩⟩⟩ := hclimb
  · exact absurd hname (by decide)
  · exact absurd hname (by decide)
  · exact hnone

/-- `/..` leads out of the subtree. -/
theorem chroot_confined_fails :
    ¬ ∀ (s : NameSpace) (root : Nat) (parent : Nat → Nat), DirTree s.inode root parent → IsDirectory s.inode s.proc.root →
      IsDirectory s.inode s.proc.pwd → ParentTree.Below parent s.proc.root s.proc.pwd →
        ∀ path x, s.namei path = some x → Inside s.inode parent s.proc.root x := by
  intro hall
  have hnamei : jailed.namei [47, 46, 46] = some 1 := by decide
  rcases hall jailed 1 _ jailed_tree jailed_root jailed_root ParentTree.Below.refl [47, 46, 46] 1 hnamei with ⟨_, n, hn⟩ | ⟨hfile, _⟩
  · rw [ParentTree.iterate_root rfl] at hn
    cases hn
  · exact hfile ⟨_, rfl, by decide⟩

end RheeKernel
