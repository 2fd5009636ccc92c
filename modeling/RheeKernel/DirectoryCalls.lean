import RheeKernel.Directory
import RheeKernel.Machine

namespace RheeKernel

def dirEntriesPerBlock : Nat := 64

/-- The call that a process is in, with the last component of its path: `open_namei` with `O_CREAT`, `sys_mkdir`, `sys_link` of
the inode `old`, `sys_unlink` and `sys_rmdir`. -/
inductive DirCall
  | create (name : List UInt8)
  | mkdir (name : List UInt8)
  | link (old : Nat) (name : List UInt8)
  | unlink (name : List UInt8)
  | rmdir (name : List UInt8)
deriving DecidableEq

def DirCall.name : DirCall → List UInt8
  | .create name => name
  | .mkdir name => name
  | .link _ name => name
  | .unlink name => name
  | .rmdir name => name

def DirCall.creates : DirCall → Bool
  | .create _ => true
  | .mkdir _ => true
  | .link _ _ => true
  | _ => false

/-- Where a process sleeps: in `find_entry` before the block of entry `i`, after a search that has found nothing (`new_inode`,
`new_block` or `bread`), in `add_entry` before the block of entry `i`, in the last `iput` of `sys_link`, or in `iget` or
`empty_dir` with a pointer to entry `k` and inode `n`. -/
inductive DirPc
  | idle
  | finding (c : DirCall) (entries i : Nat)
  | absent (c : DirCall)
  | adding (c : DirCall) (num i : Nat)
  | linking (num : Nat)
  | removing (c : DirCall) (k n : Nat)
deriving DecidableEq

/-- A directory whose inode is `self`, the link counts of the inodes, and what each process does. -/
structure DirSys where
  self : Nat
  entry : Nat → NameEntry
  size : Nat
  links : Nat → Nat
  pc : Nat → DirPc

/-- `de->name` as `add_entry` fills it. -/
def padName (name : List UInt8) : Fin 14 → UInt8 := fun k => (name.take nameLen).getD k 0

/-- The first entry after the block of entry `i`. -/
def blockEnd (i : Nat) : Nat := (i / dirEntriesPerBlock + 1) * dirEntriesPerBlock

namespace DirSys

def setPc (s : DirSys) (p : Nat) (c : DirPc) : DirSys := { s with pc := Function.update s.pc p c }

def setLinks (s : DirSys) (n v : Nat) : DirSys := { s with links := Function.update s.links n v }

def setEntry (s : DirSys) (k : Nat) (de : NameEntry) : DirSys := { s with entry := Function.update s.entry k de }

/-- The loop of `find_entry` within one block. -/
def findIn (s : DirSys) (name : List UInt8) (entries i : Nat) : Option Nat :=
  Files.firstIndex (fun k => matchName (name.take nameLen) (s.entry k)) (min entries (blockEnd i) - i) i

/-- The loop of `add_entry` within one block. -/
def freeIn (s : DirSys) (i : Nat) : Option Nat :=
  Files.firstIndex (fun k => s.size ≤ direntSize * k || (s.entry k).inode == 0) (blockEnd i - i) i

/-- `find_entry` has found entry `k`. -/
def found (s : DirSys) (p : Nat) (c : DirCall) (k : Nat) : DirSys :=
  if c.creates then s.setPc p .idle else s.setPc p (.removing c k (s.entry k).inode)

/-- `find_entry` returns without an entry. -/
def missing (s : DirSys) (p : Nat) (c : DirCall) : DirSys :=
  if c.creates then s.setPc p (.absent c) else s.setPc p .idle

/-- The end of `add_entry` at entry `k`, and what the caller does up to its next sleep. -/
def enter (s : DirSys) (p : Nat) (c : DirCall) (num k : Nat) : DirSys :=
  let s := { s.setEntry k ⟨num, padName c.name⟩ with size := if s.size ≤ direntSize * k then direntSize * (k + 1) else s.size }
  match c with
  | .link _ _ => s.setPc p (.linking num)
  | .mkdir _ => (s.setLinks s.self ((s.links s.self + 1) % 256)).setPc p .idle
  | _ => s.setPc p .idle

/-- `de->inode = 0` and the link counts. -/
def removed (s : DirSys) (c : DirCall) (k n : Nat) : DirSys :=
  let s := s.setEntry k { s.entry k with inode := 0 }
  match c with
  | .rmdir _ => (s.setLinks n 0).setLinks s.self (((s.setLinks n 0).links s.self + 255) % 256)
  | _ => s.setLinks n ((if s.links n = 0 then 1 else s.links n) - 1)

end DirSys

/-- A process enters a call, looks at one more block in `find_entry`, has its new inode (number `num`), looks at one more block in
`add_entry`, has read the inode to be removed, ends `sys_link`, or returns with an error. -/
inductive DirEvent
  | start (p : Nat) (c : DirCall)
  | look (p : Nat)
  | allocate (p num : Nat)
  | extend (p : Nat)
  | clear (p : Nat)
  | count (p : Nat)
  | giveUp (p : Nat)
deriving DecidableEq

/-- What happens between two sleeps. -/
def dirStep (s : DirSys) : DirEvent → Option DirSys
  | .start p c => if s.pc p = .idle ∧ c.name ≠ [] then some (s.setPc p (.finding c (s.size / direntSize) 0)) else none
  | .look p =>
    match s.pc p with
    | .finding c entries i =>
      match s.findIn c.name entries i with
      | some k => some (s.found p c k)
      | none => if blockEnd i < entries then some (s.setPc p (.finding c entries (blockEnd i))) else some (s.missing p c)
    | _ => none
  | .allocate p num =>
    match s.pc p with
    | .absent (.create name) => if num = 0 then none else some ((s.setLinks num 1).setPc p (.adding (.create name) num 0))
    | .absent (.mkdir name) => if num = 0 then none else some ((s.setLinks num 2).setPc p (.adding (.mkdir name) num 0))
    | .absent (.link old name) => if num = old ∧ num ≠ 0 then some (s.setPc p (.adding (.link old name) num 0)) else none
    | _ => none
  | .extend p =>
    match s.pc p with
    | .adding c num i =>
      match s.freeIn i with
      | some k => some (s.enter p c num k)
      | none => some (s.setPc p (.adding c num (blockEnd i)))
    | _ => none
  | .clear p =>
    match s.pc p with
    -- The directory itself is not removed: `sys_rmdir` compares the inodes, and it is no regular file.
    | .removing c k n => if n = s.self then none else some ((s.removed c k n).setPc p .idle)
    | _ => none
  | .count p =>
    match s.pc p with
    | .linking num => some ((s.setLinks num ((s.links num + 1) % 256)).setPc p .idle)
    | _ => none
  | .giveUp p =>
    match s.pc p with
    | .absent _ => some (s.setPc p .idle)
    | .adding (.link _ _) _ _ => some (s.setPc p .idle)
    | .adding _ num _ => some ((s.setLinks num 0).setPc p .idle)
    | .removing _ _ _ => some (s.setPc p .idle)
    | _ => none

/-- A directory with the entries `.`, `..` and `a`. -/
def smallDirectory : DirSys where
  self := 1
  entry := fun k =>
    if k = 0 then ⟨1, padName dotName⟩ else if k = 1 then ⟨1, padName dotdotName⟩ else if k = 2 then ⟨7, padName [97]⟩ else ⟨0, fun _ => 0⟩
  size := 48
  links := fun n => if n = 1 then 2 else if n = 7 then 1 else 0
  pc := fun _ => .idle

end RheeKernel
