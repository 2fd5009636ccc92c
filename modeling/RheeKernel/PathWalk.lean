import RheeKernel.Directory

namespace RheeKernel

def mayExec : BitVec 32 := 1

/-- The components of a path, which ends at its first zero byte: what stands before, between and after the slashes. -/
def components : List UInt8 → List (List UInt8)
  | [] => [[]]
  | c :: cs =>
    if c = 0 then [[]]
    else if c = 47 then [] :: components cs
    else
      match components cs with
      | [] => [[c]]
      | name :: names => (c :: name) :: names

/-- A process that looks up names: its ids, its `root` and its `pwd`. -/
structure Walker where
  cred : Cred
  root : Nat
  pwd : Nat

/-- The inodes of the device, by number, and the process. -/
structure NameSpace where
  inode : Nat → Option FileInode
  proc : Walker

namespace NameSpace

/-- What the loop of `get_dir` asks of the directory it stands in. -/
def searchable (s : NameSpace) (i : Nat) : Bool :=
  (s.inode i).any fun ip => ip.isDir && permission s.proc.cred ip mayExec != 0

/-- `find_entry`, and `iget` of the inode number that the entry carries. -/
def lookup (s : NameSpace) (i : Nat) (name : List UInt8) : Option Nat :=
  (s.inode i).bind fun ip => (findEntry ip.entry ip.entries name).map fun k => (ip.entry k).inode

/-- The loop of `get_dir` from inode `i` on: it looks up all components but the last, with which it returns. -/
def getDirFrom (s : NameSpace) (i : Nat) : List (List UInt8) → Option (Nat × List UInt8)
  | [] => none
  | [name] => if s.searchable i then some (i, name) else none
  | name :: names => if s.searchable i then (s.lookup i name).bind fun j => getDirFrom s j names else none

/-- The inode that `get_dir` begins with and the components that it goes through. -/
def startOf (s : NameSpace) : List UInt8 → Option (Nat × List (List UInt8))
  | [] => none
  | c :: cs => if c = 0 then none else if c = 47 then some (s.proc.root, components cs) else some (s.proc.pwd, components (c :: cs))

def dirNamei (s : NameSpace) (pathname : List UInt8) : Option (Nat × List UInt8) :=
  (s.startOf pathname).bind fun (i, names) => s.getDirFrom i names

def namei (s : NameSpace) (pathname : List UInt8) : Option Nat :=
  (s.dirNamei pathname).bind fun (dir, basename) => if basename = [] then some dir else s.lookup dir basename

/-- The inodes that `namei` holds one after the other from `i` on, its result included. -/
def held (s : NameSpace) (i : Nat) : List (List UInt8) → List Nat
  | [] => [i]
  | name :: names => i :: if s.searchable i then (s.lookup i name).elim [] fun j => held s j names else []

/-- All inodes that a path name makes a process hold. -/
def heldBy (s : NameSpace) (pathname : List UInt8) : List Nat := (s.startOf pathname).elim [] fun (i, names) => s.held i names

variable {s : NameSpace} {i j : Nat} {name base path : List UInt8} {names : List (List UInt8)}

theorem held_head : i ∈ s.held i names := by
  cases names with
  | nil => exact List.mem_singleton.mpr rfl
  | cons name names => exact List.mem_cons_self

theorem getDirFrom_held (h : s.getDirFrom i names = some (j, base)) :
    j ∈ s.held i names ∧ ∀ k, s.lookup j base = some k → k ∈ s.held i names := by
  induction names generalizing i with
  | nil => cases h
  | cons name names ih =>
    cases names with
    | nil =>
      unfold getDirFrom at h
      split at h
      next hs =>
        cases Option.some.inj h
        refine ⟨held_head, fun k hk => ?_⟩
        unfold held
        rw [if_pos hs, hk]
        exact List.mem_cons_of_mem _ held_head
      next => cases h
    | cons name' names =>
      unfold getDirFrom at h
      split at h
      next hs =>
        obtain ⟨m, hm, h⟩ := Option.bind_eq_some_iff.mp h
        obtain ⟨hdir, hlast⟩ := ih h
        have hsub : ∀ x, x ∈ s.held m (name' :: names) → x ∈ s.held i (name :: name' :: names) := by
          intro x hx
          unfold held
          rw [if_pos hs, hm]
          exact List.mem_cons_of_mem _ hx
        exact ⟨hsub j hdir, fun k hk => hsub k (hlast k hk)⟩
      next => cases h

theorem dirNamei_held (h : s.dirNamei path = some (j, base)) :
    j ∈ s.heldBy path ∧ ∀ k, s.lookup j base = some k → k ∈ s.heldBy path := by
  obtain ⟨⟨i, names⟩, hstart, h⟩ := Option.bind_eq_some_iff.mp h
  unfold heldBy
  rw [hstart]
  exact getDirFrom_held h

/-- What `namei` returns it has held. -/
theorem namei_held (h : s.namei path = some j) : j ∈ s.heldBy path := by
  obtain ⟨⟨dir, base⟩, hdir, h⟩ := Option.bind_eq_some_iff.mp h
  obtain ⟨hin, hlast⟩ := dirNamei_held hdir
  dsimp only at h
  split at h
  next =>
    cases Option.some.inj h
    exact hin
  next => exact hlast j h

end NameSpace

/-- No component holds a zero byte. -/
theorem components_ne_zero {path name : List UInt8} (h : name ∈ components path) : ∀ c ∈ name, c ≠ 0 := by
  induction path generalizing name with
  | nil =>
    cases List.mem_singleton.mp h
    exact nofun
  | cons b cs ih =>
    unfold components at h
    split at h
    next =>
      cases List.mem_singleton.mp h
      exact nofun
    next hb =>
      split at h
      next =>
        rcases List.mem_cons.mp h with rfl | h
        · exact nofun
        · exact ih h
      next =>
        split at h
        next hnil =>
          cases List.mem_singleton.mp h
          intro c hc
          cases List.mem_singleton.mp hc
          exact hb
        next first rest heq =>
          rw [heq] at ih
          rcases List.mem_cons.mp h with rfl | h
          · intro c hc
            rcases List.mem_cons.mp hc with rfl | hc
            · exact hb
            · exact ih List.mem_cons_self c hc
          · exact ih (List.mem_cons_of_mem _ h)

end RheeKernel
