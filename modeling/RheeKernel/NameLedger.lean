import RheeKernel.InodeTraces

namespace RheeKernel

namespace Vfs

open Triples

variable {c : Prop} {s₀ s s' : Vfs} {held : List Nat} {me t k dir e oldinode : Nat} {basename filename : List UInt8} {mode : BitVec 32} {r error : Int}
  {α : Type}

/-- What a call has in hand when it comes back with an inode or an error. -/
def withResult (x : Except Int Nat) (held : List Nat) : List Nat :=
  match x with
  | .error _ => held
  | .ok k => k :: held

/-- One inode goes back. -/
theorem back_logged {a : α} : Triple (Logged c s₀ me (k :: held)) (do iput k; return a) fun _ => Logged c s₀ me held :=
  .bind iput_logged fun _ => .pure fun _ hs => hs

/-- Two inodes go back, the first one first. -/
theorem back_two_logged {a : α} : Triple (Logged c s₀ me (dir :: k :: held)) (do iput dir; iput k; return a) fun _ => Logged c s₀ me held :=
  .bind iput_logged fun _ => back_logged

/-- Two inodes go back, the second one first. -/
theorem back_two_logged' {a : α} : Triple (Logged c s₀ me (dir :: k :: held)) (do iput k; iput dir; return a) fun _ => Logged c s₀ me held :=
  back_two_logged.pre fun _ hs => hs.perm (.swap ..)

/-- A directory of the process is counted once more. -/
theorem take_logged (hi : (s.task t).pwd = some k ∨ (s.task t).root = some k) (hpos : 0 < (s.slot k).count) :
    Triple (fun u => u = s ∧ Logged c s₀ me held u) (edit k fun i => { i with count := i.count + 1 }) fun _ => Logged c s₀ me (k :: held) := by
  refine .modify fun u hu => ?_
  obtain ⟨rfl, hu⟩ := hu
  exact ⟨hu.toOwes.taken ⟨rfl, rfl, rfl, rfl⟩ rfl rfl (hu.dirs t k hi), hu.ran.trans (.step (.hold k 1) (.inl trivial) (if_pos hpos))⟩

theorem getDirFrom_logged {names : List (List UInt8)} :
    Triple (Logged c s₀ me (k :: held)) (getDirFrom t k names) fun o => Logged c s₀ me (withSlot (o.map Prod.fst) held) := by
  have hgone : ∀ {k}, Triple (Logged c s₀ me (k :: held)) (do iput k; return none)
      fun (o : Option (Nat × List UInt8)) => Logged c s₀ me (withSlot (o.map Prod.fst) held) := fun {k} => .bind iput_logged fun _ => .pure fun _ hs => hs
  induction names generalizing k with
  | nil => exact hgone
  | cons name names ih =>
    refine .bind Idle.inode.logged fun i => .bind Idle.permission.logged fun exec => .ite (fun _ => hgone) fun _ => ?_
    refine .ite (fun _ => .pure fun _ hs => hs) fun _ => .bind Idle.findEntry.logged fun de => ?_
    cases de with
    | none => exact hgone
    | some e => exact .bind Idle.entryInode.logged fun inr => .bind iput_logged fun _ => .bind iget_logged fun j => ih

theorem dirNamei_logged : Triple (Logged c s₀ me held) (dirNamei t filename) fun o => Logged c s₀ me (withSlot (o.map Prod.fst) held) := by
  refine .get fun s => ?_
  have hnone : Triple (fun u => u = s ∧ Logged c s₀ me held u) (return none)
      fun (o : Option (Nat × List UInt8)) => Logged c s₀ me (withSlot (o.map Prod.fst) held) := .pure fun _ hs => hs.2
  split
  next root pwd hroot hpwd =>
    refine .ite (fun _ => .failure) fun hcount => ?_
    cases filename with
    | nil => exact hnone
    | cons a as =>
      refine .ite (fun _ => hnone) fun _ => .ite (fun _ => ?_) fun _ => ?_
      · exact .bind (take_logged (.inr hroot) (by omega)) fun _ => getDirFrom_logged
      · exact .bind (take_logged (.inl hpwd) (by omega)) fun _ => getDirFrom_logged
  next => exact .failure

theorem enter_logged : Triple (Logged c s₀ me (dir :: held)) (enter dir e) fun k => Logged c s₀ me (k :: held) :=
  .bind Idle.entryInode.logged fun _ => .bind Idle.inode.logged fun _ => .bind iput_logged fun _ => iget_logged

theorem namei_logged : Triple (Logged c s₀ me held) (namei t filename) fun o => Logged c s₀ me (withSlot o held) := by
  refine .bind dirNamei_logged fun found => ?_
  cases found with
  | none => exact .pure fun _ hs => hs
  | some found =>
    obtain ⟨dir, basename⟩ := found
    show Triple (Logged c s₀ me (dir :: held)) _ _
    refine .ite (fun _ => .pure fun _ hs => hs) fun _ => .bind Idle.findEntry.logged fun de => ?_
    cases de with
    | none => exact .bind iput_logged fun _ => .pure fun _ hs => hs
    | some e =>
      refine .bind enter_logged fun k => .bind (assign_logged List.mem_cons_self fun _ => ⟨rfl, rfl, rfl, rfl, rfl⟩) fun _ => .pure fun _ hs => hs

theorem createEntry_logged (hc : c) : Triple (Logged c s₀ me (dir :: held)) (createEntry t dir basename mode) fun x => Logged c s₀ me (withResult x held) := by
  refine .bind Idle.permission.logged fun write => .ite (fun _ => .bind iput_logged fun _ => .pure fun _ hs => hs) fun _ => ?_
  refine .bind Idle.inode.logged fun d => .bind (newInode_logged hc) fun new => ?_
  cases new with
  | none => exact .bind iput_logged fun _ => .pure fun _ hs => hs
  | some k =>
    show Triple (Own c s₀ me (dir :: held) k) _ _
    refine .bind (assign_own fun _ => ⟨rfl, rfl, rfl, rfl, rfl⟩) fun _ => .bind (addEntry_own hc List.mem_cons_self) fun de => ?_
    cases de with
    | none =>
      exact .bind discard_own fun _ => .bind iput_logged fun _ => .bind iput_logged fun _ => .pure fun _ hs => hs
    | some e =>
      refine .pre ?_ (P := Logged c s₀ me (k :: dir :: held)) fun _ hs => hs.toLogged
      refine .bind Idle.inode.logged fun i => .bind Idle.putEntry.logged fun _ => .pre ?_ fun s hs => hs.perm (.swap ..)
      exact .bind iput_logged fun _ => .pure fun _ hs => hs

theorem openNamei_logged {flag : BitVec 32} (hc : checkedFlag flag &&& oCreat = 0 ∨ c) : Triple (Logged c s₀ me held) (openNamei t filename flag mode) fun x => Logged c s₀ me (withResult x held) := by
  have hback : ∀ {k error}, Triple (Logged c s₀ me (k :: held)) (do iput k; return Except.error error) fun x => Logged c s₀ me (withResult x held) :=
    fun {k error} => .bind iput_logged fun _ => .pure fun _ hs => hs
  refine .bind Idle.cred.logged fun _ => .bind dirNamei_logged fun found => ?_
  cases found with
  | none => exact .pure fun _ hs => hs
  | some found =>
    obtain ⟨dir, basename⟩ := found
    show Triple (Logged c s₀ me (dir :: held)) _ _
    refine .ite (fun _ => .ite (fun _ => .pure fun _ hs => hs) fun _ => hback) fun _ => .bind Idle.findEntry.logged fun de => ?_
    cases de with
    | none => exact .ite (fun _ => hback) fun hcreat => createEntry_logged (hc.resolve_left hcreat)
    | some e =>
      refine .ite (fun _ => hback) fun _ => .bind enter_logged fun k => .bind Idle.inode.logged fun i => .bind Idle.permission.logged fun rights => ?_
      refine .ite (fun _ => hback) fun _ => .ite (fun _ => .bind truncate_logged fun _ => .pure fun _ hs => hs) fun _ => .pure fun _ hs => hs

/-- Resolving a path changes neither files nor processes. -/
theorem dirNamei_apart : Apart (dirNamei t filename) := by
  refine .get fun s => ?_
  split
  next root pwd hroot hpwd =>
    refine .ite .failure ?_
    cases filename with
    | nil => exact .pure
    | cons a as => exact .ite .pure (.ite (.bind Apart.edit fun _ => Apart.getDirFrom) (.bind Apart.edit fun _ => Apart.getDirFrom))
  next => exact .failure

theorem enter_apart : Apart (enter dir e) :=
  .bind Quiet.entryInode.apart fun _ => .bind Quiet.inode.apart fun _ => .bind Apart.iput fun _ => Apart.iget

theorem createEntry_apart : Apart (createEntry t dir basename mode) := by
  refine .bind Quiet.permission.apart fun _ => .ite (.bind Apart.iput fun _ => .pure) (.bind Quiet.inode.apart fun _ => .bind Apart.newInode fun new => ?_)
  cases new with
  | none => exact .bind Apart.iput fun _ => .pure
  | some k =>
    refine .bind Apart.edit fun _ => .bind Quiet.addEntry.apart fun de => ?_
    cases de with
    | none => exact .bind Apart.edit fun _ => .bind Apart.iput fun _ => .bind Apart.iput fun _ => .pure
    | some e => exact .bind Quiet.inode.apart fun _ => .bind Quiet.putEntry.apart fun _ => .bind Apart.iput fun _ => .pure

theorem openNamei_apart {flag : BitVec 32} : Apart (openNamei t filename flag mode) := by
  refine .bind Quiet.cred.apart fun c => .bind dirNamei_apart fun found => ?_
  cases found with
  | none => exact .pure
  | some found =>
    obtain ⟨dir, basename⟩ := found
    refine .ite (.ite .pure (.bind Apart.iput fun _ => .pure)) (.bind Quiet.findEntry.apart fun de => ?_)
    cases de with
    | none => exact .ite (.bind Apart.iput fun _ => .pure) createEntry_apart
    | some e =>
      refine .ite (.bind Apart.iput fun _ => .pure) (.bind enter_apart fun k => .bind Quiet.inode.apart fun i => .bind Quiet.permission.apart fun rights => ?_)
      exact .ite (.bind Apart.iput fun _ => .pure) (.ite (.bind Quiet.truncate.apart fun _ => .pure) .pure)

theorem sysMkdir_logged (hc : c) : Triple (Logged c s₀ me held) (sysMkdir t filename mode) fun _ => Logged c s₀ me held := by
  refine .bind Idle.cred.logged fun _ => .ite (fun _ => .pure fun _ hs => hs) fun _ => .bind dirNamei_logged fun found => ?_
  cases found with
  | none => exact .pure fun _ hs => hs
  | some found =>
    obtain ⟨dir, basename⟩ := found
    show Triple (Logged c s₀ me (dir :: held)) _ _
    refine .ite (fun _ => back_logged) fun _ => .bind Idle.permission.logged fun write => .ite (fun _ => back_logged) fun _ => ?_
    refine .bind Idle.findEntry.logged fun de => ?_
    cases de with
    | some e => exact back_logged
    | none =>
      refine .bind Idle.inode.logged fun d => .bind (newInode_logged hc) fun new => ?_
      cases new with
      | none => exact back_logged
      | some k =>
        show Triple (Own c s₀ me (dir :: held) k) _ _
        have hundo : ∀ {r : Int}, Triple (Own c s₀ me (dir :: held) k) (do iput dir; edit k fun i => { i with nlinks := (i.nlinks + 255) % 256 }; iput k; return r)
            fun _ => Logged c s₀ me held := fun {r} => .bind (iput_own List.mem_cons_self) fun _ => by
          rw [List.erase_cons_head]
          exact .bind discard_own fun _ => back_logged
        refine .get fun s => .pre ?_ (P := Own c s₀ me (dir :: held) k) fun _ hs => hs.2
        refine .bind (assign_own fun _ => ⟨rfl, rfl, rfl, rfl, rfl⟩) fun _ => .bind Idle.answer.own fun block => .ite (fun _ => hundo) fun _ => ?_
        refine .bind (assign_own fun _ => ⟨rfl, rfl, rfl, rfl, rfl⟩) fun _ => .bind Idle.answer.own fun bh => .ite (fun _ => hundo) fun _ => ?_
        refine .pre ?_ (P := Logged c s₀ me (k :: dir :: held)) fun _ hs => hs.toLogged
        refine .bind Idle.inode.logged fun i => .bind Idle.putEntry.logged fun _ => .bind Idle.putEntry.logged fun _ => ?_
        refine .bind (assign_logged List.mem_cons_self fun _ => ⟨rfl, rfl, rfl, rfl, rfl⟩) fun _ =>
          .bind (addEntry_logged hc (List.mem_cons_of_mem _ List.mem_cons_self)) fun de => ?_
        cases de with
        | none => exact .failure
        | some e =>
          refine .bind Idle.putEntry.logged fun _ => .bind (assign_logged (List.mem_cons_of_mem _ List.mem_cons_self) fun _ => ?_) fun _ => back_two_logged'
          exact ⟨rfl, rfl, rfl, rfl, rfl⟩

theorem sysRmdir_logged : Triple (Logged c s₀ me held) (sysRmdir t filename) fun _ => Logged c s₀ me held := by
  refine .bind Idle.cred.logged fun _ => .ite (fun _ => .pure fun _ hs => hs) fun _ => .bind dirNamei_logged fun found => ?_
  cases found with
  | none => exact .pure fun _ hs => hs
  | some found =>
    obtain ⟨dir, basename⟩ := found
    show Triple (Logged c s₀ me (dir :: held)) _ _
    refine .ite (fun _ => back_logged) fun _ => .bind Idle.findEntry.logged fun de => ?_
    cases de with
    | none => exact back_logged
    | some e =>
      refine .bind Idle.permission.logged fun write => .ite (fun _ => back_logged) fun _ => .bind Idle.inode.logged fun d => ?_
      refine .bind Idle.entryInode.logged fun inr => .bind iget_logged fun k => .bind Idle.inode.logged fun i => ?_
      refine .ite (fun _ => back_two_logged) fun _ => .ite (fun _ => back_two_logged) fun _ => .bind Idle.emptyDir.logged fun empty => ?_
      refine .ite (fun _ => back_two_logged) fun _ => .bind Idle.putEntry.logged fun _ => .bind (assign_logged List.mem_cons_self fun _ => ⟨rfl, rfl, rfl, rfl, rfl⟩) fun _ => ?_
      refine .get fun s => .pre ?_ (P := Logged c s₀ me (k :: dir :: held)) fun _ hs => hs.2
      refine .bind (assign_logged (List.mem_cons_of_mem _ List.mem_cons_self) fun _ => ?_) fun _ => back_two_logged'
      exact ⟨rfl, rfl, rfl, rfl, rfl⟩

theorem sysUnlink_logged : Triple (Logged c s₀ me held) (sysUnlink t filename) fun _ => Logged c s₀ me held := by
  refine .bind dirNamei_logged fun found => ?_
  cases found with
  | none => exact .pure fun _ hs => hs
  | some found =>
    obtain ⟨dir, basename⟩ := found
    show Triple (Logged c s₀ me (dir :: held)) _ _
    refine .ite (fun _ => back_logged) fun _ => .bind Idle.permission.logged fun write => .ite (fun _ => back_logged) fun _ => ?_
    refine .bind Idle.findEntry.logged fun de => ?_
    cases de with
    | none => exact back_logged
    | some e =>
      refine .bind Idle.inode.logged fun d => .bind Idle.entryInode.logged fun inr => .bind iget_logged fun k => .bind Idle.inode.logged fun i => ?_
      refine .ite (fun _ => back_two_logged) fun _ => .bind Idle.putEntry.logged fun _ => ?_
      exact .bind (assign_logged List.mem_cons_self fun _ => ⟨rfl, rfl, rfl, rfl, rfl⟩) fun _ => back_two_logged

theorem sysLink_logged {newname : List UInt8} (hc : c) : Triple (Logged c s₀ me held) (sysLink t filename newname) fun _ => Logged c s₀ me held := by
  refine .bind namei_logged fun old => ?_
  cases old with
  | none => exact .pure fun _ hs => hs
  | some oldinode =>
    show Triple (Logged c s₀ me (oldinode :: held)) _ _
    refine .bind Idle.inode.logged fun i => .ite (fun _ => back_logged) fun _ => .bind dirNamei_logged fun found => ?_
    cases found with
    | none => exact back_logged
    | some found =>
      obtain ⟨dir, basename⟩ := found
      show Triple (Logged c s₀ me (dir :: oldinode :: held)) _ _
      refine .bind Idle.inode.logged fun d => .bind Idle.inode.logged fun i => .bind Idle.permission.logged fun write => ?_
      refine .ite (fun _ => back_two_logged') fun _ => .ite (fun _ => back_two_logged) fun _ => .ite (fun _ => back_two_logged) fun _ => ?_
      refine .bind Idle.findEntry.logged fun de => ?_
      cases de with
      | some e => exact back_two_logged
      | none =>
        refine .bind (addEntry_logged hc List.mem_cons_self) fun de => ?_
        cases de with
        | none => exact back_two_logged
        | some e =>
          exact .bind Idle.putEntry.logged fun _ => .bind iput_logged fun _ => .bind (assign_logged List.mem_cons_self fun _ => ⟨rfl, rfl, rfl, rfl, rfl⟩) fun _ => back_logged

theorem onInode_logged {f : Nat → Call Int} (hf : ∀ k, Triple (Logged c s₀ me (k :: held)) (f k) fun _ => Logged c s₀ me (k :: held)) :
    Triple (Logged c s₀ me held) (onInode t filename error f) fun _ => Logged c s₀ me held := by
  refine .bind namei_logged fun found => ?_
  cases found with
  | none => exact .pure fun _ hs => hs
  | some k => exact .bind (hf k) fun r => back_logged

theorem sysStat_logged : Triple (Logged c s₀ me held) (sysStat t filename) fun _ => Logged c s₀ me held := onInode_logged fun _ => .pure fun _ hs => hs

theorem sysChmod_logged : Triple (Logged c s₀ me held) (sysChmod t filename mode) fun _ => Logged c s₀ me held := by
  refine onInode_logged fun k => .bind Idle.inode.logged fun _ => .bind Idle.cred.logged fun _ => .ite (fun _ => .pure fun _ hs => hs) fun _ => ?_
  exact .bind (assign_logged List.mem_cons_self fun _ => ⟨rfl, rfl, rfl, rfl, rfl⟩) fun _ => .pure fun _ hs => hs

theorem sysChown_logged {uid gid : Nat} : Triple (Logged c s₀ me held) (sysChown t filename uid gid) fun _ => Logged c s₀ me held := by
  refine onInode_logged fun k => .bind Idle.cred.logged fun _ => .ite (fun _ => .pure fun _ hs => hs) fun _ => ?_
  exact .bind (assign_logged List.mem_cons_self fun _ => ⟨rfl, rfl, rfl, rfl, rfl⟩) fun _ => .pure fun _ hs => hs

theorem sysUtime_logged {modtime : Option Nat} : Triple (Logged c s₀ me held) (sysUtime t filename modtime) fun _ => Logged c s₀ me held := by
  refine onInode_logged fun k => .get fun s => .pre ?_ (P := Logged c s₀ me (k :: held)) fun _ hs => hs.2
  exact .bind (assign_logged List.mem_cons_self fun _ => ⟨rfl, rfl, rfl, rfl, rfl⟩) fun _ => .pure fun _ hs => hs

theorem sysAccess_logged : Triple (Logged c s₀ me held) (sysAccess t filename mode) fun _ => Logged c s₀ me held := by
  refine .bind namei_logged fun found => ?_
  cases found with
  | none => exact .pure fun _ hs => hs
  | some k =>
    exact .bind Idle.inode.logged fun _ => .bind iput_logged fun _ => .bind Idle.inode.logged fun _ => .bind Idle.cred.logged fun _ => .pure fun _ hs => hs

theorem back_owes {a : α} : Triple (Owes me (k :: held)) (do iput k; return a) fun _ => Owes me held := owes_of_logged fun _ => back_logged

theorem namei_owes : Triple (Owes me held) (namei t filename) fun o => Owes me (withSlot o held) := owes_of_logged fun _ => namei_logged

theorem openNamei_owes {flag : BitVec 32} : Triple (Owes me held) (openNamei t filename flag mode) fun x => Owes me (withResult x held) :=
  owes_of_logged fun _ => openNamei_logged (.inr trivial)

end Vfs

end RheeKernel
