import RheeKernel.AscendingRuns
import RheeKernel.HardDiskQueue

namespace RheeKernel

open Linked (Path)
open AscendingRuns (TwoRuns place)

/-- The lexicographic order on drive, cylinder, head and sector. -/
def LexBefore (a b : HdRequest) : Prop :=
  a.hd < b.hd ∨ a.hd = b.hd ∧ (a.cyl < b.cyl ∨ a.cyl = b.cyl ∧ (a.head < b.head ∨ a.head = b.head ∧ a.sector < b.sector))

instance : DecidableRel LexBefore := fun a b =>
  inferInstanceAs (Decidable (a.hd < b.hd ∨ a.hd = b.hd ∧
    (a.cyl < b.cyl ∨ a.cyl = b.cyl ∧ (a.head < b.head ∨ a.head = b.head ∧ a.sector < b.sector))))

/-- The requests are for one place on the disk. -/
def SameAddress (a b : HdRequest) : Prop := a.hd = b.hd ∧ a.cyl = b.cyl ∧ a.head = b.head ∧ a.sector = b.sector

/-- No field of the first request is larger, and its sector is smaller. -/
def EachBefore (a b : HdRequest) : Prop := a.hd ≤ b.hd ∧ a.cyl ≤ b.cyl ∧ a.head ≤ b.head ∧ a.sector < b.sector

instance : DecidableRel SameAddress := fun a b =>
  inferInstanceAs (Decidable (a.hd = b.hd ∧ a.cyl = b.cyl ∧ a.head = b.head ∧ a.sector = b.sector))

instance : DecidableRel EachBefore := fun a b =>
  inferInstanceAs (Decidable (a.hd ≤ b.hd ∧ a.cyl ≤ b.cyl ∧ a.head ≤ b.head ∧ a.sector < b.sector))

namespace Hd

def links (s : Hd) (r : Nat) : Option Nat := (s.request r).next

/-- The next statement of `add_request`. -/
def addTurn (q : Irq) (x : Hd × AddPc) (_ : Unit) : Option (Hd × AddPc) :=
  (addStatement x.1 q x.2).bind fun y => y.2.map fun pc => (y.1, pc)

/-- `add_request` without an interrupt in between, up to the test whether `do_request` is to be called. -/
def Adds (q : Irq) (s : Hd) (req : Nat) (s' : Hd) : Prop :=
  Machine.Reach (addTurn q) (fun _ _ => True) (s, .check req) (s', .restart)

/-- The order in which `add_request` has two requests. -/
def Ordered (s : Hd) (a b : Nat) : Prop := inOrder (s.request a) (s.request b) = true

instance {s : Hd} : DecidableRel s.Ordered := fun a b => inferInstanceAs (Decidable (inOrder (s.request a) (s.request b) = true))

/-- Where `add_request` puts the request. -/
def placed (s : Hd) (req : Nat) : List Nat → List Nat
  | [] => [req]
  | [first] => [first, req]
  | first :: tmp :: rest => first :: tmp :: place s.Ordered req tmp rest

variable {s s' : Hd} {q : Irq} {req tmp a x : Nat} {l pre rest : List Nat} {pc pc' : AddPc} {next : Nat → Option Nat} {start : Option Nat}

/-- A node linked in behind `a`. -/
theorem path_linked (h : Path next start (pre ++ a :: rest)) (hx : x ∉ pre ++ a :: rest) :
    Path (Function.update (Function.update next x (next a)) a (some x)) start (pre ++ a :: x :: rest) := by
  have hnodup := h.nodup
  induction pre generalizing start with
  | nil =>
    obtain ⟨hstart, hrest⟩ := h
    have hxa : x ≠ a := fun hxa => hx (by simp [hxa])
    refine ⟨hstart, Function.update_self _ _ _, ?_⟩
    rw [Function.update_of_ne hxa, Function.update_self]
    refine hrest.congr fun b hb => ?_
    have hba : b ≠ a := fun hba => (List.nodup_cons.mp hnodup).1 (hba ▸ hb)
    have hbx : b ≠ x := fun hbx => hx (by simp [← hbx, hb])
    rw [Function.update_of_ne hba, Function.update_of_ne hbx]
  | cons b pre ih =>
    obtain ⟨hstart, hrest⟩ := h
    obtain ⟨hb, hnodup⟩ := List.nodup_cons.mp hnodup
    have hba : b ≠ a := fun hba => hb (by simp [hba])
    have hbx : b ≠ x := fun hbx => hx (by simp [hbx])
    refine ⟨hstart, ?_⟩
    rw [Function.update_of_ne hba, Function.update_of_ne hbx]
    exact ih hrest (fun hmem => hx (List.mem_cons_of_mem b hmem)) hnodup

theorem turn (h : addStatement s q pc = some (s', some pc')) : Machine.Reach (addTurn q) (fun _ _ => True) (s, pc) (s', pc') := by
  refine .next (e := ()) .start trivial ?_
  unfold addTurn
  rw [h]
  rfl

/-- The loop goes to the node that the request is to be put behind. -/
theorem loop_finds (h : Path s.links s.thisRequest (pre ++ tmp :: rest)) :
    ∃ pre' a rest', Machine.Reach (addTurn q) (fun _ _ => True) (s, .loopTest req tmp) (s, .linkReq req a) ∧
      pre' ++ a :: rest' = pre ++ tmp :: rest ∧ pre' ++ a :: req :: rest' = pre ++ tmp :: place s.Ordered req tmp rest := by
  induction rest generalizing pre tmp with
  | nil =>
    have hend : (s.request tmp).next = none := h.suffix.2
    exact ⟨pre, tmp, [], turn (if_pos hend), rfl, rfl⟩
  | cons n rest ih =>
    have hnext : (s.request tmp).next = some n := h.suffix.2.1
    have htest : Machine.Reach (addTurn q) (fun _ _ => True) (s, .loopTest req tmp) (s, .loopOrder req tmp) :=
      turn (if_neg (by rw [hnext]; exact nofun))
    have horder : addStatement s q (.loopOrder req tmp) =
        if (s.Ordered tmp req ∨ ¬ s.Ordered tmp n) ∧ s.Ordered req n then some (s, some (.linkReq req tmp))
        else some (s, some (.loopNext req tmp)) := by
      change (s.request tmp).next.map _ = _
      rw [hnext, Option.map_some]
      simp only [Ordered, Bool.and_eq_true, Bool.or_eq_true, Bool.not_eq_true', Bool.not_eq_true]
      split <;> rfl
    by_cases hfits : (s.Ordered tmp req ∨ ¬ s.Ordered tmp n) ∧ s.Ordered req n
    · rw [if_pos hfits] at horder
      refine ⟨pre, tmp, n :: rest, htest.trans (turn horder), rfl, ?_⟩
      unfold place
      rw [if_pos hfits]
    · rw [if_neg hfits] at horder
      have hgo : addStatement s q (.loopNext req tmp) = some (s, some (.loopTest req n)) := by
        change (s.request tmp).next.map _ = _
        rw [hnext]
        rfl
      rw [List.append_cons] at h
      obtain ⟨pre', a, rest', hrun, hsame, hplaced⟩ := ih h
      refine ⟨pre', a, rest', ((htest.trans (turn horder)).trans (turn hgo)).trans hrun, ?_, ?_⟩
      · rw [hsame, ← List.append_cons]
      · have hplace : place s.Ordered req tmp (n :: rest) = n :: place s.Ordered req n rest := if_neg hfits
        rw [hplaced, hplace, ← List.append_cons]

/-- The two assignments that link the request in. -/
theorem links_linked : ((s.setNext req (s.request a).next).setNext a (some req)).links =
    Function.update (Function.update s.links req (s.links a)) a (some req) := by
  funext b
  change (Function.update (Function.update s.request req _) a _ b).next = _
  by_cases hba : b = a
  · rw [hba, Function.update_self, Function.update_self]
  · rw [Function.update_of_ne hba, Function.update_of_ne hba]
    by_cases hbr : b = req
    · rw [hbr, Function.update_self, Function.update_self]
      rfl
    · rw [Function.update_of_ne hbr, Function.update_of_ne hbr]
      rfl

theorem load_eq : addStatement s q (.load req) = some (s, some (s.thisRequest.elim (.setFirst req) (.testNext req))) := by
  unfold addStatement
  cases s.thisRequest with
  | none => rfl
  | some tmp => rfl

/-- `add_request` comes to its end, with the request in its place. -/
theorem adds_placed (hpath : Path s.links s.thisRequest l) (hfresh : req ∉ l) (hnext : s.links req = none)
    (hsector : (s.request req).nsector = 2) : ∃ s', Adds q s req s' ∧ Path s'.links s'.thisRequest (s.placed req l) := by
  let t : Hd := { s with sorting := true }
  have hload : Machine.Reach (addTurn q) (fun _ _ => True) (s, .check req) (t, s.thisRequest.elim (.setFirst req) (.testNext req)) := by
    have hcheck : addStatement s q (.check req) = some (s, some (.sort req)) := if_pos hsector
    exact ((turn hcheck).trans (turn rfl)).trans (turn (@load_eq t q req))
  cases l with
  | nil =>
    have hnone : s.thisRequest = none := hpath
    rw [hnone] at hload
    exact ⟨_, (hload.trans (turn rfl)).trans (turn rfl), rfl, hnext⟩
  | cons first l =>
    obtain ⟨hfirst, hrest⟩ := hpath
    rw [hfirst] at hload
    cases l with
    | nil =>
      have hend : t.links first = none := hrest
      have htest : addStatement t q (.testNext req first) = some (t, some (.linkSecond req first)) := if_pos hend
      have hne : req ≠ first := fun heq => hfresh (by simp [heq])
      refine ⟨_, ((hload.trans (turn htest)).trans (turn rfl)).trans (turn rfl), hfirst, ?_, ?_⟩
      · change (Function.update s.request first _ first).next = _
        rw [Function.update_self]
      · change (Function.update s.request first _ req).next = _
        rw [Function.update_of_ne hne]
        exact hnext
    | cons tmp rest =>
      have hsecond : t.links first = some tmp := hrest.1
      have hsome : (t.request first).next ≠ none := fun hnone => nomatch hsecond.symm.trans hnone
      have htest : addStatement t q (.testNext req first) = some (t, some (.skip req first)) := if_neg hsome
      have hskip : addStatement t q (.skip req first) = some (t, some (.loopTest req tmp)) := by
        change (t.links first).map _ = _
        rw [hsecond]
        rfl
      have hwhole : Path t.links t.thisRequest ([first] ++ tmp :: rest) := ⟨hfirst, hrest⟩
      obtain ⟨pre, a, rest', hloop, hsame, hplaced⟩ := @loop_finds t q req tmp [first] rest hwhole
      rw [← hsame] at hwhole
      have hnot : req ∉ pre ++ a :: rest' := by
        rw [hsame]
        exact hfresh
      have hlinked := path_linked hwhole hnot
      rw [← links_linked, hplaced] at hlinked
      refine ⟨{ (t.setNext req (t.links a)).setNext a (some req) with sorting := false }, ?_, hlinked⟩
      exact ((((hload.trans (turn htest)).trans (turn hskip)).trans hloop).trans (turn rfl)).trans ((turn rfl).trans (turn rfl))

/-- The list that `add_request` works on, and what it leaves. -/
structure Elevator (q : Irq) (s : Hd) (l : List Nat) (req : Nat) : Prop where
  order : ∀ a ∈ req :: l, ∀ b ∈ req :: l, inOrder (s.request a) (s.request b) = true ↔ LexBefore (s.request a) (s.request b)
  runs : ∃ s' l', Adds q s req s' ∧ Path s'.links s'.thisRequest l' ∧ l'.Perm (req :: l) ∧
    TwoRuns (fun a b => LexBefore (s.request a) (s.request b)) l'.tail

theorem inOrder_iff {a b : HdRequest} : inOrder a b = true ↔ EachBefore a b := by
  unfold inOrder EachBefore
  simp only [Bool.and_eq_true, decide_eq_true_eq]
  omega

theorem EachBefore.lexBefore {a b : HdRequest} (h : EachBefore a b) : LexBefore a b := by
  obtain ⟨hhd, hcyl, hhead, hsector⟩ := h
  unfold LexBefore
  omega

/-- Two places on the disk are ordered one way or the other. -/
theorem lexBefore_total {a b : HdRequest} (h : ¬ SameAddress a b) (hnot : ¬ LexBefore a b) : LexBefore b a := by
  unfold SameAddress at h
  unfold LexBefore at hnot ⊢
  omega

theorem placed_perm : (s.placed req l).Perm (req :: l) := by
  cases l with
  | nil => exact .refl _
  | cons first l =>
    cases l with
    | nil => exact .swap req first []
    | cons tmp rest =>
      have hperm := @AscendingRuns.place_perm Nat s.Ordered _ tmp req rest
      exact (((hperm.cons tmp).trans (.swap req tmp rest)).cons first).trans (.swap req first (tmp :: rest))

end Hd

/-- Slots 0 to 2 are a list of requests for these cylinders and sectors of a drive, slot 3 is a new one. -/
def listHd (address : Nat → Nat × Nat) : Hd where
  request := fun r => { hd := 0, nsector := 2, cyl := (address r).1, sector := (address r).2, next := if r < 2 then some (r + 1) else none }
  thisRequest := some 0
  sorting := false
  doHd := none
  command := none
  port := 0
  disk := fun _ => 0
  bh := fun _ => {}

end RheeKernel
