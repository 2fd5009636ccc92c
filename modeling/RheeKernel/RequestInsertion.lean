import RheeKernel.HdElevator

namespace RheeKernel

open Linked (Path)

namespace Hd

variable {s s' : Hd} {q : Irq} {req first second : Nat} {l tail : List Nat} {x x' : Hd × AddPc}

/-- The list is parted behind its first two elements, if it has so many, and the request is put in between. -/
theorem placed_parts : ∃ l₁ l₂, l = l₁ ++ l₂ ∧ s.placed req l = l₁ ++ req :: l₂ ∧ (2 ≤ l.length → 2 ≤ l₁.length) := by
  cases l with
  | nil => exact ⟨[], [], rfl, rfl, nofun⟩
  | cons first l =>
    cases l with
    | nil =>
      refine ⟨[first], [], rfl, rfl, ?_⟩
      intro two
      simp at two
    | cons second rest =>
      obtain ⟨l₁, l₂, whole, placed⟩ := @AscendingRuns.place_parts Nat s.Ordered _ second req rest
      refine ⟨first :: second :: l₁, l₂, ?_, ?_, ?_⟩
      · rw [whole]
        rfl
      · rw [Hd.placed, placed]
        rfl
      · intro _
        simp

/-- A request that is put in between the parts of a list without it. -/
theorem parts_erase {l₁ l₂ : List Nat} (h : req ∉ l₁ ++ l₂) :
    (l₁ ++ req :: l₂).erase req = l₁ ++ l₂ ∧ (l₁ ++ req :: l₂).count req = 1 := by
  have before : req ∉ l₁ := fun mem => h (List.mem_append_left l₂ mem)
  have behind : req ∉ l₂ := fun mem => h (List.mem_append_right l₁ mem)
  constructor
  · rw [List.erase_append_right _ before, List.erase_cons_head]
  · rw [List.count_append, List.count_cons_self, List.count_eq_zero_of_not_mem before, List.count_eq_zero_of_not_mem behind]

/-- While `add_request` works on a list with `first` in front and the elements of `tail` behind it, it stays away from the first two links. -/
def Spared (s : Hd) (req first : Nat) (tail : List Nat) (x : Hd × AddPc) : Prop :=
  x.1.thisRequest = some first ∧ x.1.links first = s.links first ∧
  match x.2 with
  | .check r | .sort r | .load r => r = req ∧ x.1.links = s.links
  | .testNext r tmp | .skip r tmp => r = req ∧ tmp = first ∧ x.1.links = s.links
  | .loopTest r tmp | .loopOrder r tmp | .loopNext r tmp | .linkReq r tmp => r = req ∧ tmp ∈ tail ∧ x.1.links = s.links
  | .linkTmp r tmp => r = req ∧ tmp ∈ tail
  | .setFirst _ | .linkSecond _ _ => False
  | .unsort | .restart => True

theorem setNext_links {r a : Nat} {next : Option Nat} (h : a ≠ r) : (s.setNext r next).links a = s.links a := by
  change (Function.update s.request r _ a).next = _
  rw [Function.update_of_ne h]
  rfl

theorem addTurn_some {t : Hd} {pc : AddPc} (h : addTurn q (t, pc) () = some x') :
    ∃ t' pc', addStatement t q pc = some (t', some pc') ∧ x' = (t', pc') := by
  obtain ⟨⟨t', next⟩, turned, moved⟩ := Option.bind_eq_some_iff.mp h
  obtain ⟨pc', rfl, rfl⟩ := Option.map_eq_some_iff.mp moved
  exact ⟨t', pc', turned, rfl⟩

theorem addTurn_restart : addTurn q (s, .restart) () = none := by
  cases restarted : addTurn q (s, .restart) () with
  | none => rfl
  | some x =>
    obtain ⟨t, pc, turned, -⟩ := addTurn_some restarted
    rw [addStatement] at turned
    split at turned
    next =>
      obtain ⟨u, -, done⟩ := Option.map_eq_some_iff.mp turned
      cases done
    next => cases turned

/-- What one statement keeps. -/
theorem Spared.step (path : Path s.links (some first) (first :: second :: tail)) (fresh : req ∉ first :: second :: tail)
    (h : Spared s req first (second :: tail) x) (step : addTurn q x () = some x') : Spared s req first (second :: tail) x' := by
  obtain ⟨t, pc⟩ := x
  obtain ⟨this, link, h⟩ := h
  obtain ⟨t', pc', turned, rfl⟩ := addTurn_some step
  have apart : first ∉ second :: tail := (List.nodup_cons.mp path.nodup).1
  have other : first ≠ req := fun same => fresh (same ▸ List.mem_cons_self)
  have follows : s.links first = some second := path.2.1
  have behind : Path s.links (some second) (second :: tail) := by
    rw [← follows]
    exact path.2
  have inside {tmp n : Nat} (mem : tmp ∈ second :: tail) (next : s.links tmp = some n) : n ∈ second :: tail :=
    Path.next_mem behind mem next
  have turned : addStatement t q pc = some (t', some pc') := turned
  cases pc with
  | check r =>
    rw [addStatement] at turned
    split at turned
    next =>
      cases turned
      exact ⟨this, link, h⟩
    next => cases turned
  | sort r =>
    cases turned
    exact ⟨this, link, h⟩
  | load r =>
    have this' : t.thisRequest = some first := this
    rw [load_eq, this'] at turned
    cases turned
    exact ⟨this, link, h.1, rfl, h.2⟩
  | setFirst r => exact h.elim
  | testNext r tmp =>
    obtain ⟨same, rfl, links⟩ := h
    have next : (t.request tmp).next = some second := link.trans follows
    rw [addStatement, next, if_neg nofun] at turned
    cases turned
    exact ⟨this, link, same, rfl, links⟩
  | linkSecond r tmp => exact h.elim
  | skip r tmp =>
    obtain ⟨same, rfl, links⟩ := h
    have next : (t.request tmp).next = some second := link.trans follows
    rw [addStatement, next] at turned
    cases turned
    exact ⟨this, link, same, List.mem_cons_self, links⟩
  | loopTest r tmp =>
    rw [addStatement] at turned
    split at turned
    next =>
      cases turned
      exact ⟨this, link, h⟩
    next =>
      cases turned
      exact ⟨this, link, h⟩
  | loopOrder r tmp =>
    obtain ⟨after, -, turned⟩ := Option.map_eq_some_iff.mp turned
    split at turned
    next =>
      cases turned
      exact ⟨this, link, h⟩
    next =>
      cases turned
      exact ⟨this, link, h⟩
  | loopNext r tmp =>
    obtain ⟨same, mem, links⟩ := h
    obtain ⟨n, next, turned⟩ := Option.map_eq_some_iff.mp turned
    cases turned
    exact ⟨this, link, same, inside mem ((congrFun links tmp).symm.trans next), links⟩
  | linkReq r tmp =>
    obtain ⟨rfl, mem, -⟩ := h
    cases turned
    exact ⟨this, (setNext_links other).trans link, rfl, mem⟩
  | linkTmp r tmp =>
    obtain ⟨rfl, mem⟩ := h
    have away : first ≠ tmp := fun same => apart (same ▸ mem)
    cases turned
    exact ⟨this, (setNext_links away).trans link, trivial⟩
  | unsort =>
    cases turned
    exact ⟨this, link, trivial⟩
  | restart => cases addTurn_restart.symm.trans step

/-- No statement of `add_request` touches the first two elements of the list. -/
theorem first_two_spared (path : Path s.links s.thisRequest (first :: second :: tail)) (fresh : req ∉ first :: second :: tail)
    (h : Machine.Reach (addTurn q) (fun _ _ => True) (s, .check req) x) :
    x.1.thisRequest = some first ∧ x.1.links first = some second := by
  have this : s.thisRequest = some first := path.1
  rw [this] at path
  have begins : Spared s req first (second :: tail) (s, .check req) := ⟨this, rfl, rfl, rfl⟩
  have spared : Spared s req first (second :: tail) x := by
    apply h.invariant begins
    intro y _ y' kept _ step
    exact kept.step path fresh step
  exact ⟨spared.1, spared.2.1.trans path.2.1⟩

/-- Every run of `add_request` comes to the same end, and then the list is the old one with the request put in somewhere, but not before the third place of a
list that has two elements; those two stay linked as they are all the time. -/
theorem addRequest_list (path : Path s.links s.thisRequest l) (fresh : req ∉ l) (last : s.links req = none)
    (sectors : (s.request req).nsector = 2) :
    ∃ s' l', Adds q s req s' ∧
      (∀ x, Machine.Reach (addTurn q) (fun _ _ => True) (s, .check req) x →
        Machine.Reach (addTurn q) (fun _ _ => True) x (s', .restart)) ∧
      Path s'.links s'.thisRequest l' ∧ l'.Nodup ∧ l'.count req = 1 ∧ l'.erase req = l ∧
      (∀ s'' next, addStatement s' q .restart = some (s'', next) → next = none ∧ Path s''.links s''.thisRequest l') ∧
      ∀ first second tail, l = first :: second :: tail → (∃ tail', l' = first :: second :: tail') ∧
        ∀ x, Machine.Reach (addTurn q) (fun _ _ => True) (s, .check req) x →
          x.1.thisRequest = some first ∧ x.1.links first = some second := by
  obtain ⟨s', adds, path'⟩ := @adds_placed s q req l path fresh last sectors
  obtain ⟨l₁, l₂, rfl, placed, two⟩ := @placed_parts s req l
  obtain ⟨erased, once⟩ := parts_erase fresh
  rw [placed] at path'
  refine ⟨s', _, adds, fun x reached => adds.through addTurn_restart reached, path', path'.nodup, once, erased, ?_, ?_⟩
  · intro s'' next restarted
    rw [addStatement] at restarted
    split at restarted
    next =>
      obtain ⟨u, done, rfl, rfl⟩ := Option.map_eq_some_iff.mp restarted
      obtain ⟨d, c, port, rfl⟩ := doRequest_frame done
      exact ⟨rfl, path'⟩
    next =>
      cases restarted
      exact ⟨rfl, path'⟩
  · intro first second tail whole
    constructor
    · have long : 2 ≤ l₁.length := two (by rw [whole]; simp)
      cases l₁ with
      | nil => simp at long
      | cons a l₁ =>
        cases l₁ with
        | nil => simp at long
        | cons b l₁ =>
          cases whole
          exact ⟨_, rfl⟩
    · intro x reached
      rw [whole] at path fresh
      exact first_two_spared path fresh reached

end Hd

theorem addRequest_list_sweep : ∃ s' l', Hd.Adds ⟨true, 0, true⟩ (listHd fun r => (r, 1)) 3 s' ∧ Path s'.links s'.thisRequest l' ∧
    l'.Nodup ∧ l'.count 3 = 1 ∧ l'.erase 3 = [0, 1, 2] ∧ ∃ tail', l' = 0 :: 1 :: tail' := by
  have path : Path (listHd fun r => (r, 1)).links (listHd fun r => (r, 1)).thisRequest [0, 1, 2] := ⟨rfl, rfl, rfl, rfl⟩
  obtain ⟨s', l', adds, -, path', distinct, once, others, -, two⟩ :=
    @Hd.addRequest_list _ ⟨true, 0, true⟩ 3 _ path (by decide) rfl rfl
  exact ⟨s', l', adds, path', distinct, once, others, (two 0 1 [2] rfl).1⟩

end RheeKernel
