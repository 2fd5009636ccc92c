import Mathlib.Logic.Function.Basic
import RheeKernel.Machine

namespace RheeKernel

variable {F : Type}

/-- `used_math`, and the coprocessor state in `tss.i387`. -/
structure MathTask (F : Type) where
  usedMath : Bool
  i387 : F

/-- The tasks, `last_task_used_math`, the TS flag and the coprocessor with its state; after `fninit` that is `init`. -/
structure MathSys (F : Type) where
  task : Nat → Option (MathTask F)
  current : Nat
  last : Option Nat
  ts : Bool
  fpu : F

namespace MathSys

def edit (s : MathSys F) (t : Nat) (g : MathTask F → MathTask F) : MathSys F :=
  { s with task := Function.update s.task t ((s.task t).map g) }

/-- `fnsave` leaves the coprocessor as `fninit` does. -/
def fnsave (init : F) (s : MathSys F) (t : Nat) : MathSys F :=
  { s.edit t fun p => { p with i387 := s.fpu } with fpu := init }

def mathStateRestore (init : F) (s : MathSys F) : MathSys F :=
  if s.last = some s.current then s
  else
    let s := s.last.elim s fun t => s.fnsave init t
    match s.task s.current with
    | none => s
    | some p =>
      let s := if p.usedMath then { s with fpu := p.i387 }
        else { s.edit s.current fun p => { p with usedMath := true } with fpu := init }
      { s with last := some s.current }

def deviceNotAvailable (init : F) (s : MathSys F) : MathSys F :=
  let s := { s with ts := false }
  if s.last = some s.current then s else s.mathStateRestore init

/-- The state in which a floating-point instruction is executed, after the trap that it may cause. -/
def trapped (init : F) (s : MathSys F) : MathSys F := if s.ts then s.deviceNotAvailable init else s

def compute (s : MathSys F) (f : F → F) : MathSys F := { s with fpu := f s.fpu }

/-- The processor sets TS with the jump to the other task, which goes on behind its own jump. -/
def switchTo (s : MathSys F) (n : Nat) : MathSys F :=
  if n = s.current then s else { s with current := n, ts := s.last ≠ some n }

/-- `copy_process` into slot `u`; without memory for `copy_mem` the new task is given up. -/
def copyProcess (init : F) (s : MathSys F) (p : MathTask F) (u : Nat) (mem : Bool) : MathSys F :=
  let s' := { s with task := Function.update s.task u (some p) }
  let s' := if s.last = some s.current then s'.fnsave init u else s'
  if mem then s' else { s' with task := Function.update s'.task u none }

/-- `if (last_task_used_math == current) last_task_used_math = NULL`. -/
def disown (s : MathSys F) : MathSys F := if s.last = some s.current then { s with last := none } else s

def doExecve (s : MathSys F) : MathSys F := s.disown.edit s.current fun p => { p with usedMath := false }

def doExit (s : MathSys F) (n : Nat) : MathSys F :=
  { s.disown with task := Function.update s.task s.current none }.switchTo n

end MathSys

/-- A floating-point instruction is what it makes of the state of the coprocessor. -/
inductive MathEvent (F : Type)
  | switchTo (n : Nat)
  | compute (f : F → F)
  | fork (u : Nat) (mem : Bool)
  | execve
  | exit (n : Nat)

def mathStep (init : F) (s : MathSys F) : MathEvent F → Option (MathSys F)
  | .switchTo n => if (s.task n).isSome then some (s.switchTo n) else none
  | .compute f => some ((s.trapped init).compute f)
  | .fork u mem => (s.task s.current).bind fun p => if s.task u = none then some (s.copyProcess init p u mem) else none
  | .execve => some s.doExecve
  | .exit n => if n ≠ s.current ∧ (s.task n).isSome then some (s.doExit n) else none

/-- After the boot `fninit` is done and TS is clear. -/
def mathInit (init : F) : MathSys F where
  task := fun t => if t = 0 then some { usedMath := false, i387 := init } else none
  current := 0
  last := none
  ts := false
  fpu := init

/-- Every task has a coprocessor of its own. -/
def ownStep (init : F) (current : Nat) (own : Nat → F) : MathEvent F → Nat → F
  | .compute f => Function.update own current (f (own current))
  | .fork u true => Function.update own u (own current)
  | .execve => Function.update own current init
  | _ => own

/-- The one coprocessor beside those of the tasks. -/
def lazyStep (init : F) (x : MathSys F × (Nat → F)) (e : MathEvent F) : Option (MathSys F × (Nat → F)) :=
  (mathStep init x.1 e).map fun s' => (s', ownStep init x.1.current x.2 e)

namespace MathSys

/-- A task that owns the coprocessor forks only in its initial state, and without a trap only the owner uses it. -/
def Kept (init : F) (s : MathSys F) : MathEvent F → Prop
  | .fork _ _ => s.last = some s.current → s.fpu = init
  | .compute _ => s.ts = false → s.last = some s.current
  | _ => True

instance [DecidableEq F] {init : F} {s : MathSys F} {e : MathEvent F} : Decidable (s.Kept init e) :=
  match e with
  | .fork _ _ => inferInstanceAs (Decidable (_ → _))
  | .compute _ => inferInstanceAs (Decidable (_ → _))
  | .switchTo _ | .execve | .exit _ => inferInstanceAs (Decidable True)

/-- Where the state of the coprocessor for task `t` is. -/
def view (init : F) (s : MathSys F) (t : Nat) (p : MathTask F) : F :=
  if s.last = some t then s.fpu else if p.usedMath then p.i387 else init

structure Shows (init : F) (s : MathSys F) (own : Nat → F) : Prop where
  view : ∀ t p, s.task t = some p → s.view init t p = own t
  owner : ∀ t, s.last = some t → ∃ p, s.task t = some p ∧ p.usedMath = true
  running : (s.task s.current).isSome

variable {init : F} {s s' : MathSys F} {own own' : Nat → F} {e : MathEvent F} {t n u : Nat} {g : MathTask F → MathTask F} {p : MathTask F}

theorem edit_task (hp : (s.edit t g).task u = some p) : u = t ∧ (∃ q, s.task t = some q ∧ p = g q) ∨ u ≠ t ∧ s.task u = some p := by
  unfold edit at hp
  dsimp only at hp
  by_cases hu : u = t
  · subst hu
    rw [Function.update_self] at hp
    obtain ⟨q, hq, rfl⟩ := Option.map_eq_some_iff.mp hp
    exact .inl ⟨rfl, q, hq, rfl⟩
  · rw [Function.update_of_ne hu] at hp
    exact .inr ⟨hu, hp⟩

theorem edit_isSome : ((s.edit t g).task u).isSome = (s.task u).isSome := by
  unfold edit
  dsimp only
  by_cases hu : u = t
  · rw [hu, Function.update_self, Option.isSome_map]
  · rw [Function.update_of_ne hu]

theorem view_of_last (h : s.last = some t) : s.view init t p = s.fpu := if_pos h

theorem view_of_none (h : s.last = none) : s.view init t p = if p.usedMath then p.i387 else init := if_neg (by rw [h]; exact nofun)

theorem view_of_ne (h : s.last ≠ some t) : s.view init t p = if p.usedMath then p.i387 else init := if_neg h

/-- The owner's state goes to its task, and the coprocessor has no owner. -/
theorem Shows.saved (h : s.Shows init own) : ({ s.last.elim s fun t => s.fnsave init t with last := none } : MathSys F).Shows init own := by
  cases hlast : s.last with
  | none =>
    refine ⟨fun t p hp => ?_, (fun t ht => by cases ht), h.running⟩
    have hview := h.view t p hp
    rw [view_of_none hlast] at hview
    exact (view_of_none rfl).trans hview
  | some o =>
    refine ⟨fun t p hp => ?_, (fun t ht => by cases ht), edit_isSome.trans h.running⟩
    refine (view_of_none rfl).trans ?_
    obtain ⟨q, hq, hused⟩ := h.owner o hlast
    rcases edit_task hp with ⟨rfl, q', hq', rfl⟩ | ⟨hne, hp⟩
    · cases Option.some.inj (hq.symm.trans hq')
      dsimp only
      rw [hused, if_pos rfl, ← h.view t q hq, view_of_last hlast]
    · rw [← h.view t p hp, view_of_ne]
      rw [hlast]
      exact fun h => hne (Option.some.inj h).symm

/-- The current task becomes the owner, with its own state in the coprocessor. -/
def take (init : F) (w : MathSys F) (p q : MathTask F) : MathSys F where
  task := Function.update w.task w.current (some q)
  current := w.current
  last := some w.current
  ts := w.ts
  fpu := if p.usedMath then p.i387 else init

theorem Shows.take {w : MathSys F} (h : ({ w with last := none } : MathSys F).Shows init own) (hp : w.task w.current = some p) {q : MathTask F}
    (hq : q.usedMath = true) : (w.take init p q).Shows init own := by
  refine ⟨fun t r hr => ?_, fun t ht => ?_, ?_⟩
  · by_cases ht : t = w.current
    · subst ht
      exact (view_of_last rfl).trans ((view_of_none rfl).symm.trans (h.view _ p hp))
    · refine (view_of_ne fun hlast => ht (Option.some.inj hlast).symm).trans ?_
      unfold MathSys.take at hr
      dsimp only at hr
      rw [Function.update_of_ne ht] at hr
      exact (view_of_none rfl).symm.trans (h.view t r hr)
  · cases Option.some.inj ht
    exact ⟨q, Function.update_self .., hq⟩
  · unfold MathSys.take
    dsimp only
    rw [Function.update_self]
    rfl

theorem elim_fnsave_current : (s.last.elim s fun t => s.fnsave init t).current = s.current := by
  cases s.last <;> rfl

theorem Shows.restore (h : s.Shows init own) (hne : s.last ≠ some s.current) :
    (s.mathStateRestore init).Shows init own ∧ (s.mathStateRestore init).last = some (s.mathStateRestore init).current ∧
      (s.mathStateRestore init).current = s.current := by
  unfold mathStateRestore
  rw [if_neg hne]
  have hsaved := h.saved
  have hcurrent := @elim_fnsave_current _ init s
  generalize (s.last.elim s fun t => s.fnsave init t) = w at hsaved hcurrent ⊢
  obtain ⟨p, hp⟩ := Option.isSome_iff_exists.mp hsaved.running
  dsimp only at hp ⊢
  rw [hp]
  dsimp only
  split
  next hused =>
    have htake := hsaved.take hp hused
    unfold MathSys.take at htake
    rw [if_pos hused, ← hp, Function.update_eq_self] at htake
    exact ⟨htake, rfl, hcurrent⟩
  next hused =>
    have htake := hsaved.take hp (q := { p with usedMath := true }) rfl
    unfold MathSys.take at htake
    rw [if_neg hused] at htake
    unfold edit
    rw [hp]
    exact ⟨htake, rfl, hcurrent⟩

theorem Shows.flag (h : s.Shows init own) {b : Bool} : ({ s with ts := b } : MathSys F).Shows init own := ⟨h.view, h.owner, h.running⟩

/-- A floating-point instruction finds the coprocessor with the state of its task. -/
theorem Shows.trapped (h : s.Shows init own) (hok : s.ts = false → s.last = some s.current) :
    (s.trapped init).Shows init own ∧ (s.trapped init).last = some s.current ∧ (s.trapped init).current = s.current := by
  unfold MathSys.trapped
  split
  next =>
    unfold deviceNotAvailable
    dsimp only
    split
    next howner => exact ⟨h.flag, howner, rfl⟩
    next hne =>
      obtain ⟨hshows, hlast, hcurrent⟩ := (h.flag (b := false)).restore hne
      rw [hcurrent] at hlast
      exact ⟨hshows, hlast, hcurrent⟩
  next hts => exact ⟨h, hok (by simpa using hts), rfl⟩

theorem Shows.fpu (h : s.Shows init own) (hlast : s.last = some s.current) : s.fpu = own s.current := by
  obtain ⟨p, hp⟩ := Option.isSome_iff_exists.mp h.running
  exact (view_of_last hlast).symm.trans (h.view _ p hp)

theorem Shows.compute (h : s.Shows init own) (hlast : s.last = some s.current) (f : F → F) :
    (s.compute f).Shows init (Function.update own s.current (f (own s.current))) := by
  refine ⟨fun t p hp => ?_, h.owner, h.running⟩
  by_cases ht : t = s.current
  · subst ht
    rw [Function.update_self, ← h.fpu hlast]
    exact view_of_last hlast
  · have hne : s.last ≠ some t := fun hl => ht (Option.some.inj (hl.symm.trans hlast))
    rw [Function.update_of_ne ht, ← h.view t p hp, view_of_ne hne]
    exact view_of_ne hne

theorem Shows.switchTo (h : s.Shows init own) (hn : (s.task n).isSome) : (s.switchTo n).Shows init own := by
  unfold MathSys.switchTo
  split
  next => exact h
  next => exact ⟨h.view, h.owner, hn⟩

theorem disown_last (ht : s.disown.last = some t) : s.last = some t ∧ t ≠ s.current := by
  unfold disown at ht
  split at ht
  next => cases ht
  next hne => exact ⟨ht, fun h => hne (h ▸ ht)⟩

theorem disown_keeps : s.disown.task = s.task ∧ s.disown.current = s.current := by
  unfold disown
  split <;> exact ⟨rfl, rfl⟩

theorem disown_view (ht : t ≠ s.current) : s.disown.view init t p = s.view init t p := by
  unfold disown
  split
  next howner => rw [view_of_none rfl, view_of_ne fun hl => ht (Option.some.inj (hl.symm.trans howner))]
  next => rfl

theorem Shows.doExecve (h : s.Shows init own) : s.doExecve.Shows init (Function.update own s.current init) := by
  obtain ⟨htask, hcurrent⟩ := @disown_keeps _ s
  have hrunning : (s.disown.task s.disown.current).isSome := by
    rw [htask, hcurrent]
    exact h.running
  unfold MathSys.doExecve
  refine ⟨fun t p hp => ?_, fun t ht => ?_, ?_⟩
  · rcases edit_task hp with ⟨rfl, q, hq, rfl⟩ | ⟨ht, hp⟩
    · rw [Function.update_self]
      exact view_of_ne fun hl => (disown_last hl).2 rfl
    · rw [htask] at hp
      rw [Function.update_of_ne ht, ← h.view t p hp]
      exact disown_view ht
  · obtain ⟨hlast, hne⟩ := disown_last ht
    obtain ⟨p, hp, hused⟩ := h.owner t hlast
    refine ⟨p, ?_, hused⟩
    unfold edit
    dsimp only
    rw [Function.update_of_ne hne, htask]
    exact hp
  · rw [edit_isSome]
    exact hrunning

theorem Shows.doExit (h : s.Shows init own) (hne : n ≠ s.current) (hn : (s.task n).isSome) : (s.doExit n).Shows init own := by
  obtain ⟨htask, hcurrent⟩ := @disown_keeps _ s
  have hgone : ({ s.disown with task := Function.update s.task s.current none, current := n } : MathSys F).Shows init own := by
    refine ⟨fun t p hp => ?_, fun t ht => ?_, ?_⟩
    · dsimp only at hp
      by_cases ht : t = s.current
      · rw [ht, Function.update_self] at hp
        cases hp
      · rw [Function.update_of_ne ht] at hp
        rw [← h.view t p hp]
        exact disown_view ht
    · obtain ⟨hlast, hne⟩ := disown_last ht
      obtain ⟨p, hp, hused⟩ := h.owner t hlast
      refine ⟨p, ?_, hused⟩
      dsimp only
      rw [Function.update_of_ne hne]
      exact hp
    · dsimp only
      rw [Function.update_of_ne hne]
      exact hn
  unfold MathSys.doExit MathSys.switchTo
  dsimp only
  rw [hcurrent, if_neg hne]
  exact hgone.flag

theorem Shows.copied (h : s.Shows init own) (hp : s.task s.current = some p) (hu : s.task u = none) (hok : s.last = some s.current → s.fpu = init) :
    (s.copyProcess init p u true).Shows init (Function.update own u (own s.current)) := by
  have hcurrent : u ≠ s.current := fun he => by
    rw [he, hp] at hu
    cases hu
  have hlast : s.last ≠ some u := fun hl => by
    obtain ⟨q, hq, _⟩ := h.owner u hl
    rw [hu] at hq
    cases hq
  have hview := h.view _ p hp
  unfold copyProcess
  dsimp only
  rw [if_pos rfl]
  split
  next howner =>
    rw [view_of_last howner] at hview
    obtain ⟨q, hq, hused⟩ := h.owner _ howner
    cases Option.some.inj (hp.symm.trans hq)
    refine ⟨fun t r hr => ?_, fun t ht => ?_, ?_⟩
    · rcases edit_task hr with ⟨rfl, r', hr', rfl⟩ | ⟨ht, hr⟩
      · dsimp only at hr'
        rw [Function.update_self] at hr' ⊢
        cases Option.some.inj hr'
        refine Eq.trans (if_neg hlast) ?_
        dsimp only
        rw [hused, if_pos rfl, hview]
      · dsimp only at hr
        rw [Function.update_of_ne ht] at hr ⊢
        rw [← h.view t r hr]
        unfold fnsave MathSys.view edit
        dsimp only
        rw [hok howner]
    · obtain ⟨r, hr, hused⟩ := h.owner t ht
      refine ⟨r, ?_, hused⟩
      have ht' : t ≠ u := fun he => hlast (he ▸ ht)
      unfold fnsave edit
      dsimp only
      rw [Function.update_of_ne ht', Function.update_of_ne ht']
      exact hr
    · unfold fnsave edit
      dsimp only
      rw [Function.update_of_ne hcurrent.symm, Function.update_of_ne hcurrent.symm, hp]
      rfl
  next hne =>
    rw [view_of_ne hne] at hview
    refine ⟨fun t r hr => ?_, fun t ht => ?_, ?_⟩
    · dsimp only at hr
      by_cases ht : t = u
      · subst ht
        rw [Function.update_self] at hr ⊢
        cases Option.some.inj hr
        exact (view_of_ne hlast).trans hview
      · rw [Function.update_of_ne ht] at hr ⊢
        exact h.view t r hr
    · obtain ⟨r, hr, hused⟩ := h.owner t ht
      refine ⟨r, ?_, hused⟩
      dsimp only
      rw [Function.update_of_ne fun he : t = u => hlast (he ▸ ht)]
      exact hr
    · dsimp only
      rw [Function.update_of_ne hcurrent.symm, hp]
      rfl

/-- A task that nothing goes by can be given up. -/
theorem Shows.giveUp (h : s.Shows init own) (hcurrent : u ≠ s.current) (hlast : s.last ≠ some u) (hown : ∀ t, t ≠ u → own' t = own t) :
    ({ s with task := Function.update s.task u none } : MathSys F).Shows init own' := by
  refine ⟨fun t p hp => ?_, fun t ht => ?_, ?_⟩
  · dsimp only at hp
    by_cases ht : t = u
    · rw [ht, Function.update_self] at hp
      cases hp
    · rw [Function.update_of_ne ht] at hp
      rw [hown t ht]
      exact h.view t p hp
  · obtain ⟨p, hp, hused⟩ := h.owner t ht
    refine ⟨p, ?_, hused⟩
    dsimp only
    rw [Function.update_of_ne fun he : t = u => hlast (he ▸ ht)]
    exact hp
  · dsimp only
    rw [Function.update_of_ne hcurrent.symm]
    exact h.running

theorem copyProcess_keeps : (s.copyProcess init p u true).current = s.current ∧ (s.copyProcess init p u true).last = s.last := by
  unfold copyProcess
  dsimp only
  rw [if_pos rfl]
  split <;> exact ⟨rfl, rfl⟩

theorem copyProcess_fails : s.copyProcess init p u false =
    { s.copyProcess init p u true with task := Function.update (s.copyProcess init p u true).task u none } := rfl

theorem Shows.fork (h : s.Shows init own) (hp : s.task s.current = some p) (hu : s.task u = none) (hok : s.last = some s.current → s.fpu = init)
    (mem : Bool) : (s.copyProcess init p u mem).Shows init (ownStep init s.current own (.fork u mem)) := by
  cases mem with
  | true => exact h.copied hp hu hok
  | false =>
    obtain ⟨hcurrent, hlast⟩ := @copyProcess_keeps _ init s u p
    rw [copyProcess_fails]
    refine (h.copied hp hu hok).giveUp (fun he => ?_) (fun hl => ?_) fun t ht => (Function.update_of_ne ht _ _).symm
    · rw [he, hcurrent, hp] at hu
      cases hu
    · rw [hlast] at hl
      obtain ⟨q, hq, _⟩ := h.owner u hl
      rw [hu] at hq
      cases hq

theorem Shows.step (h : s.Shows init own) (hok : s.Kept init e) (hs : mathStep init s e = some s') :
    s'.Shows init (ownStep init s.current own e) := by
  cases e with
  | switchTo n =>
    unfold mathStep at hs
    dsimp only at hs
    split at hs
    next hn =>
      cases Option.some.inj hs
      exact h.switchTo hn
    next => cases hs
  | compute f =>
    cases Option.some.inj hs
    obtain ⟨htrapped, hlast, hcurrent⟩ := h.trapped hok
    rw [← hcurrent] at hlast ⊢
    exact htrapped.compute hlast f
  | fork u mem =>
    obtain ⟨p, hp, hs⟩ := Option.bind_eq_some_iff.mp hs
    split at hs
    next hu =>
      cases Option.some.inj hs
      exact h.fork hp hu hok mem
    next => cases hs
  | execve =>
    cases Option.some.inj hs
    exact h.doExecve
  | exit n =>
    unfold mathStep at hs
    dsimp only at hs
    split at hs
    next hn =>
      cases Option.some.inj hs
      exact h.doExit hn.1 hn.2
    next => cases hs

theorem mathInit_shows : (mathInit init).Shows init fun _ => init := by
  refine ⟨fun t p hp => ?_, (fun t ht => by cases ht), rfl⟩
  unfold mathInit at hp
  dsimp only at hp
  split at hp
  next => cases Option.some.inj hp; rfl
  next => cases hp

end MathSys

/-- In a run whose steps are all of that kind, a floating-point instruction of that kind finds the state that its task would have in a
coprocessor of its own. -/
theorem fpu_transparent {init : F} {s : MathSys F} {own : Nat → F} {f : F → F}
    (h : Machine.Reach (lazyStep init) (fun x e => x.1.Kept init e) (mathInit init, fun _ => init) (s, own)) (hok : s.Kept init (.compute f)) :
    (s.trapped init).fpu = own s.current := by
  have hI : s.Shows init own := by
    refine h.invariant (I := fun x => x.1.Shows init x.2) MathSys.mathInit_shows fun x e x' hI hok hs => ?_
    obtain ⟨s', hs', rfl⟩ := Option.map_eq_some_iff.mp hs
    exact hI.step hok hs'
  obtain ⟨htrapped, hlast, hcurrent⟩ := hI.trapped hok
  rw [← hcurrent]
  exact htrapped.fpu (hcurrent.symm ▸ hlast)

/-- Process 1 computes, its child computes as well, and process 1 finds what it left. -/
theorem fpu_transparent_switched : ∃ s own, Machine.exec (lazyStep 0) (mathInit 0, fun _ => 0)
      [.fork 1 true, .switchTo 1, .fork 2 true, .compute (· + 5), .switchTo 2, .compute (· + 7), .switchTo 1] = some (s, own) ∧
    s.fpu = 7 ∧ (s.trapped 0).fpu = 5 := by
  have hrun : ∃ s own, Machine.execOk (lazyStep 0) (fun x e => x.1.Kept 0 e) (mathInit 0, fun _ => 0)
        [.fork 1 true, .switchTo 1, .fork 2 true, .compute (· + 5), .switchTo 2, .compute (· + 7), .switchTo 1] = some (s, own) ∧
      Machine.exec (lazyStep 0) (mathInit 0, fun _ => 0)
        [.fork 1 true, .switchTo 1, .fork 2 true, .compute (· + 5), .switchTo 2, .compute (· + 7), .switchTo 1] = some (s, own) ∧
      s.fpu = 7 ∧ s.ts = true ∧ own s.current = 5 := ⟨_, _, rfl, rfl, rfl, rfl, rfl⟩
  obtain ⟨s, own, hok, hrun, hfpu, hts, hown⟩ := hrun
  refine ⟨s, own, hrun, hfpu, ?_⟩
  rw [← hown]
  refine fpu_transparent (f := id) (Machine.Reach.start.execOk hok) fun hclear => ?_
  rw [hts] at hclear
  cases hclear

/-- Process 1 forks, or replaces its program, while it owns the coprocessor. The first takes its state away, the second leaves it there. -/
theorem fpu_transparent_fails :
    (∃ x, Machine.exec (lazyStep 0) (mathInit 0, fun _ => 0) [.fork 1 true, .switchTo 1, .compute (· + 5), .fork 2 true] = some x ∧
      (x.1.trapped 0).fpu = 0 ∧ x.2 x.1.current = 5) ∧
    ∃ x, Machine.exec (lazyStep 0) (mathInit 0, fun _ => 0) [.fork 1 true, .switchTo 1, .compute (· + 5), .execve] = some x ∧
      (x.1.trapped 0).fpu = 5 ∧ x.2 x.1.current = 0 :=
  ⟨⟨_, rfl, rfl, rfl⟩, _, rfl, rfl, rfl⟩

end RheeKernel
