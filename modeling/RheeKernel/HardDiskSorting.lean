import RheeKernel.HardDiskInterrupts

namespace RheeKernel

open Linked (Path)

variable {s s' : Hd} {q : Irq} {r : Nat} {l : List Nat} {u first : Option Nat} {request : Nat → HdRequest}

/-- `tmp` cannot leave the list before `sorting` is cleared. -/
def Hd.Stays (s : Hd) (l : List Nat) (tmp : Nat) : Prop :=
  tmp ∈ l ∧ (s.thisRequest = some tmp → s.doHd = some .doRequest)

/-- `tmp` was the first request when `add_request` looked, and has at most been given up since. -/
def Hd.WasFirst (s : Hd) (tmp : Nat) : Prop :=
  s.thisRequest = some tmp ∨
    s.doHd = some .doRequest ∧ (s.request tmp).next = s.thisRequest ∧ s.thisRequest ≠ none

/-- The new request has its slot and is not linked yet. -/
def Hd.Unlinked (s : Hd) (req : Nat) (u : Option Nat) : Prop := u = some req ∧ (s.request req).next = none

/-- The assertion before each statement of `add_request`; `u` is the slot not linked yet. -/
def AddPc.Holds (s : Hd) (l : List Nat) (u : Option Nat) : AddPc → Prop
  | .check req => s.sorting = false ∧ s.Unlinked req u ∧ (s.request req).nsector = 2
  | .sort req => s.sorting = false ∧ s.Unlinked req u
  | .load req => s.sorting = true ∧ s.Unlinked req u
  | .setFirst req => s.sorting = true ∧ s.Unlinked req u ∧ s.thisRequest = none
  | .testNext req tmp => s.sorting = true ∧ s.Unlinked req u ∧ s.WasFirst tmp
  | .linkSecond req tmp => s.sorting = true ∧ s.Unlinked req u ∧ s.thisRequest = some tmp ∧ (s.request tmp).next = none
  | .skip req tmp => s.sorting = true ∧ s.Unlinked req u ∧ s.WasFirst tmp ∧ (s.request tmp).next ≠ none
  | .loopTest req tmp => s.sorting = true ∧ s.Unlinked req u ∧ s.Stays l tmp
  | .loopOrder req tmp => s.sorting = true ∧ s.Unlinked req u ∧ s.Stays l tmp
  | .loopNext req tmp => s.sorting = true ∧ s.Unlinked req u ∧ s.Stays l tmp
  | .linkReq req tmp => s.sorting = true ∧ s.Unlinked req u ∧ s.Stays l tmp
  | .linkTmp req tmp => s.sorting = true ∧ u = some req ∧ s.Stays l tmp ∧ (s.request req).next = (s.request tmp).next
  | .unsort => s.sorting = true ∧ u = none
  | .restart => s.sorting = false ∧ u = none

/-- Between statements, and outside `add_request`. -/
def PcHolds (s : Hd) (l : List Nat) (u : Option Nat) : Option AddPc → Prop
  | none => s.sorting = false ∧ u = none
  | some pc => pc.Holds s l u

/-- A request that has just been added to the empty list waits for the restart. -/
def awaitsRestart : Option AddPc → Bool
  | some .unsort => true
  | some .restart => true
  | _ => false

structure HdQueue.Inv (m : HdQueue) (l : List Nat) (u : Option Nat) : Prop where
  wired : Wired m.hd.request m.hd.thisRequest l u
  agrees : m.hd.Agrees
  here : PcHolds m.hd l u m.pc
  busy : awaitsRestart m.pc = false → m.hd.thisRequest ≠ none → m.hd.doHd ≠ none

theorem Effect.unlinked {l' : List Nat} {req : Nat} (he : Effect s s' q l l' u)
    (hw : Wired s.request s.thisRequest l u) (hu : u = some req) : s'.request req = s.request req :=
  he.other req (hw.fresh req hu)

/-- A node that stays is not touched by an interrupt that `sorting` keeps from `do_request`. -/
theorem Effect.stays {l' : List Nat} {tmp : Nat} (he : Effect s s' q l l' u) (hs : s.sorting = true)
    (hreach : reachesDoRequest s q = false) (h : s.Stays l tmp) : s'.Stays l' tmp := by
  have hne : s.thisRequest ≠ some tmp := by
    intro hf
    simp [reachesDoRequest, h.2 hf] at hreach
  rcases he.pops hs with ⟨rfl, hf⟩ | ⟨-, hd, r, hr, rfl⟩
  · exact ⟨h.1, fun hf' => absurd (hf.symm.trans hf') hne⟩
  · refine ⟨?_, fun _ => hd⟩
    rcases List.mem_cons.mp h.1 with rfl | hm
    · exact absurd hr hne
    · exact hm

theorem Effect.wasFirst {l' : List Nat} {tmp : Nat} (he : Effect s s' q l l' u)
    (hw : Wired s.request s.thisRequest l u) (hs : s.sorting = true) (hreach : reachesDoRequest s q = false)
    (hgive : givesUp s q = true → (s.request tmp).next ≠ none) (h : s.WasFirst tmp) : s'.WasFirst tmp := by
  rcases h with hf | ⟨hd, -⟩
  · rcases he.pops hs with ⟨-, hf'⟩ | ⟨hg, hd, r, hr, rfl⟩
    · exact Or.inl (hf'.trans hf)
    · cases Option.some.inj (hf.symm.trans hr)
      rw [hr] at hw
      obtain ⟨l'', hl, -, hp⟩ := hw.head
      cases (List.cons.inj hl).2
      have hnext : (s.request tmp).next = s'.thisRequest := hp.head_eq.trans he.wired.path.head_eq.symm
      refine Or.inr ⟨hd, (he.next tmp).trans hnext, ?_⟩
      rw [← hnext]
      exact hgive hg
  · simp [reachesDoRequest, hd] at hreach

/-- Interrupts between two statements of `add_request`. -/
theorem Effect.here {l' : List Nat} {pc : Option AddPc} (he : Effect s s' q l l' u)
    (hw : Wired s.request s.thisRequest l u)
    (hu : s.sorting = true → reachesDoRequest s q = false ∧ ¬ (givesUp s q = true ∧ linksToOnly s pc = true))
    (h : PcHolds s l u pc) : PcHolds s' l' u pc := by
  have hunl : ∀ {req : Nat}, s.Unlinked req u → s'.Unlinked req u := by
    intro req hr
    exact ⟨hr.1, by rw [he.unlinked hw hr.1]; exact hr.2⟩
  have hstays : ∀ {req tmp : Nat}, s.sorting = true ∧ s.Unlinked req u ∧ s.Stays l tmp →
      s'.sorting = true ∧ s'.Unlinked req u ∧ s'.Stays l' tmp := by
    rintro req tmp ⟨hs, hr, ht⟩
    exact ⟨he.sorting.trans hs, hunl hr, he.stays hs (hu hs).1 ht⟩
  cases pc with
  | none => exact ⟨he.sorting.trans h.1, h.2⟩
  | some pc =>
    cases pc with
    | check req => exact ⟨he.sorting.trans h.1, hunl h.2.1, by rw [he.unlinked hw h.2.1.1]; exact h.2.2⟩
    | sort req => exact ⟨he.sorting.trans h.1, hunl h.2⟩
    | load req => exact ⟨he.sorting.trans h.1, hunl h.2⟩
    | setFirst req =>
      obtain ⟨hs, hr, hf⟩ := h
      refine ⟨he.sorting.trans hs, hunl hr, ?_⟩
      rcases he.pops hs with ⟨-, hf'⟩ | ⟨-, -, r, hr, -⟩
      · exact hf'.trans hf
      · exact absurd (hf.symm.trans hr) (by simp)
    | testNext req tmp =>
      obtain ⟨hs, hr, ht⟩ := h
      refine ⟨he.sorting.trans hs, hunl hr, he.wasFirst hw hs (hu hs).1 ?_ ht⟩
      intro hg hn
      exact (hu hs).2 ⟨hg, by simp [linksToOnly, hn]⟩
    | linkSecond req tmp =>
      obtain ⟨hs, hr, hf, hn⟩ := h
      rcases he.pops hs with ⟨-, hf'⟩ | ⟨hg, -⟩
      · exact ⟨he.sorting.trans hs, hunl hr, hf'.trans hf, (he.next tmp).trans hn⟩
      · exact absurd ⟨hg, rfl⟩ (hu hs).2
    | skip req tmp =>
      obtain ⟨hs, hr, ht, hn⟩ := h
      exact ⟨he.sorting.trans hs, hunl hr, he.wasFirst hw hs (hu hs).1 (fun _ => hn) ht, by rw [he.next]; exact hn⟩
    | loopTest req tmp => exact hstays h
    | loopOrder req tmp => exact hstays h
    | loopNext req tmp => exact hstays h
    | linkReq req tmp => exact hstays h
    | linkTmp req tmp =>
      obtain ⟨hs, hr, ht, hn⟩ := h
      exact ⟨he.sorting.trans hs, hr, he.stays hs (hu hs).1 ht, by rw [he.next, he.next]; exact hn⟩
    | unsort => exact ⟨he.sorting.trans h.1, h.2⟩
    | restart => exact ⟨he.sorting.trans h.1, h.2⟩

/-- The request in slot `req` is linked behind `tmp`. -/
theorem Wired.link {req tmp : Nat} (h : Wired request first l (some req)) (ht : tmp ∈ l)
    (hn : (request req).next = (request tmp).next) :
    ∃ l', Wired (Function.update request tmp { request tmp with next := some req }) first l' none := by
  have hreq : req ∉ l := h.fresh req rfl
  have hne : req ≠ tmp := fun he => hreq (he ▸ ht)
  have hfields : ∀ x, (Function.update request tmp { request tmp with next := some req } x).hd = (request x).hd ∧
      (Function.update request tmp { request tmp with next := some req } x).cmd = (request x).cmd ∧
      (Function.update request tmp { request tmp with next := some req } x).nsector = (request x).nsector := by
    intro x
    rcases eq_or_ne x tmp with rfl | hx
    · simp
    · simp [hx]
  obtain ⟨l', hp, hm⟩ : ∃ l', Path (fun r => (Function.update request tmp { request tmp with next := some req } r).next)
      first l' ∧ ∀ c, c ∈ l' ↔ c = req ∨ c ∈ l := by
    refine h.path.insert ht hreq ?_ (by simp) ?_
    · intro c hc _
      simp [hc]
    · simpa [hne] using hn
  refine ⟨l', hp, ?_, by simp, ?_⟩
  · intro x
    rw [(hfields x).1, h.taken x, hm x]
    simp only [Option.some.injEq, reduceCtorEq, or_false]
    constructor
    · rintro (hx | hx)
      · exact Or.inr hx
      · exact Or.inl hx.symm
    · rintro (hx | hx)
      · exact Or.inr hx.symm
      · exact Or.inl hx
  · intro x hx
    rw [(hfields x).1] at hx
    rw [(hfields x).2.1, (hfields x).2.2]
    exact h.filled x hx

/-- The request in slot `req`, not being on the list, may be linked to anything. -/
theorem Wired.setNext {req : Nat} {next : Option Nat} (h : Wired request first l (some req)) :
    Wired (Function.update request req { request req with next := next }) first l (some req) := by
  have hreq : req ∉ l := h.fresh req rfl
  refine ⟨h.path.congr ?_, ?_, h.fresh, ?_⟩
  · intro a ha
    have hne : a ≠ req := fun he => hreq (he ▸ ha)
    simp [hne]
  · intro x
    rw [← h.taken x]
    rcases eq_or_ne x req with rfl | hx
    · simp
    · simp [hx]
  · intro x hx
    rcases eq_or_ne x req with rfl | hne
    · simp only [Function.update_self] at hx ⊢
      exact h.filled x hx
    · simp only [Function.update_of_ne hne] at hx ⊢
      exact h.filled x hx

/-- Neither the links nor the lists matter to what `do_hd` says. -/
theorem Hd.Agrees.setNext {next : Option Nat} (h : s.Agrees) : (s.setNext r next).Agrees := by
  have hfields : ∀ x, ((s.setNext r next).request x).cmd = (s.request x).cmd ∧
      ((s.setNext r next).request x).nsector = (s.request x).nsector ∧
      ((s.setNext r next).request x).place = (s.request x).place := by
    intro x
    rcases eq_or_ne x r with rfl | hx
    · simp [Hd.setNext, Hd.setRequest, HdRequest.place]
    · simp [Hd.setNext, Hd.setRequest, hx]
  have hruns : ∀ cmd, s.Runs cmd → (s.setNext r next).Runs cmd := by
    rintro cmd ⟨x, c, hf, hc, hrest⟩
    refine ⟨x, c, hf, hc, ?_⟩
    rw [(hfields x).1, (hfields x).2.1, (hfields x).2.2]
    exact hrest
  have hd : (s.setNext r next).doHd = s.doHd := rfl
  unfold Hd.Agrees at h ⊢
  rw [hd]
  cases hdo : s.doHd with
  | none =>
    rw [hdo] at h
    exact h
  | some i =>
    rw [hdo] at h
    cases i with
    | readIntr => exact hruns _ h
    | writeIntr => exact hruns _ h
    | doRequest => exact h

/-- An empty list gets its first request. -/
theorem Wired.setFirst {req : Nat} (h : Wired request none l (some req)) (hn : (request req).next = none) :
    l = [] ∧ Wired request (some req) [req] none := by
  have hl : l = [] := List.head?_eq_none_iff.mp h.path.head_eq.symm
  subst hl
  refine ⟨rfl, ⟨rfl, hn⟩, ?_, by simp, h.filled⟩
  intro x
  have := h.taken x
  simp only [List.not_mem_nil, false_or, Option.some.injEq] at this
  simp [this, eq_comm]

/-- Nothing runs where there is no first request. -/
theorem Hd.Agrees.setFirst {req : Nat} (h : s.Agrees) (hf : s.thisRequest = none) :
    Hd.Agrees { s with thisRequest := some req } := by
  have hruns : ∀ cmd, ¬ s.Runs cmd := by
    rintro cmd ⟨r, c, hr, -⟩
    exact absurd (hf.symm.trans hr) (by simp)
  unfold Hd.Agrees at h ⊢
  dsimp only at h ⊢
  cases hd : s.doHd with
  | none =>
    rw [hd] at h
    exact h
  | some i =>
    rw [hd] at h
    cases i with
    | doRequest => exact h
    | readIntr => exact absurd h (hruns _)
    | writeIntr => exact absurd h (hruns _)

/-- Nothing is changed but where `add_request` stands. -/
theorem HdQueue.Inv.move {m : HdQueue} {pc : AddPc} (h : m.Inv l u) (hp : pc.Holds m.hd l u)
    (hr : awaitsRestart m.pc = false) : HdQueue.Inv ⟨m.hd, some pc⟩ l u :=
  ⟨h.wired, h.agrees, hp, fun _ => h.busy hr⟩

/-- Each statement of `add_request` leads to the assertion before the next one. -/
theorem addStatement_inv {pc : AddPc} {pc' : Option AddPc} (h : HdQueue.Inv ⟨s, some pc⟩ l u)
    (hs : addStatement s q pc = some (s', pc')) : ∃ l' u', HdQueue.Inv ⟨s', pc'⟩ l' u' := by
  have hw := h.wired
  have hhere := h.here
  cases pc with
  | check req =>
    simp only [addStatement] at hs
    split at hs
    next =>
      cases Option.some.inj hs
      exact ⟨l, u, h.move ⟨hhere.1, hhere.2.1⟩ rfl⟩
    next => simp at hs
  | sort req =>
    cases Option.some.inj hs
    exact ⟨l, u, hw, h.agrees, ⟨rfl, hhere.2⟩, fun _ => h.busy rfl⟩
  | load req =>
    simp only [addStatement] at hs
    split at hs
    next hf =>
      cases Option.some.inj hs
      exact ⟨l, u, h.move ⟨hhere.1, hhere.2, hf⟩ rfl⟩
    next tmp hf =>
      cases Option.some.inj hs
      exact ⟨l, u, h.move ⟨hhere.1, hhere.2, Or.inl hf⟩ rfl⟩
  | setFirst req =>
    cases Option.some.inj hs
    obtain ⟨hsort, ⟨rfl, hn⟩, hf⟩ := hhere
    obtain ⟨rfl, hfirst⟩ := Wired.setFirst (hf ▸ hw) hn
    exact ⟨[req], none, hfirst, h.agrees.setFirst hf, ⟨hsort, rfl⟩, by simp [awaitsRestart]⟩
  | testNext req tmp =>
    obtain ⟨hsort, hr, ht⟩ := hhere
    simp only [addStatement] at hs
    split at hs
    next hn =>
      cases Option.some.inj hs
      rcases ht with hf | ⟨-, hnext, hne⟩
      · exact ⟨l, u, h.move ⟨hsort, hr, hf, hn⟩ rfl⟩
      · exact absurd (hnext.symm.trans hn) hne
    next hn =>
      cases Option.some.inj hs
      exact ⟨l, u, h.move ⟨hsort, hr, ht, hn⟩ rfl⟩
  | linkSecond req tmp =>
    cases Option.some.inj hs
    obtain ⟨hsort, ⟨rfl, hn⟩, hf, hlast⟩ := hhere
    have ht : tmp ∈ l := by
      have hw' := hw
      rw [hf] at hw'
      obtain ⟨l', rfl, -⟩ := hw'.head
      simp
    obtain ⟨l', hl⟩ := hw.link ht (hn.trans hlast.symm)
    exact ⟨l', none, hl, h.agrees.setNext, ⟨hsort, rfl⟩, by simp [awaitsRestart]⟩
  | skip req tmp =>
    obtain ⟨hsort, hr, ht, -⟩ := hhere
    obtain ⟨x, hx, heq⟩ := Option.map_eq_some_iff.mp hs
    cases heq
    refine ⟨l, u, h.move ⟨hsort, hr, ?_⟩ rfl⟩
    rcases ht with hf | ⟨hd, hnext, -⟩
    · have hw' := hw
      rw [hf] at hw'
      obtain ⟨l', rfl, -⟩ := hw'.head
      exact ⟨hw.path.next_mem (by simp) hx, fun hf' => absurd hf' (hw.path.next_ne_start (by simp) hx)⟩
    · have hw' := hw
      rw [← hnext, hx] at hw'
      obtain ⟨l', rfl, -⟩ := hw'.head
      exact ⟨by simp, fun _ => hd⟩
  | loopTest req tmp =>
    simp only [addStatement] at hs
    split at hs
    all_goals
      cases Option.some.inj hs
      exact ⟨l, u, h.move hhere rfl⟩
  | loopOrder req tmp =>
    obtain ⟨x, hx, heq⟩ := Option.map_eq_some_iff.mp hs
    split at heq
    all_goals
      cases heq
      exact ⟨l, u, h.move hhere rfl⟩
  | loopNext req tmp =>
    obtain ⟨hsort, hr, ht⟩ := hhere
    obtain ⟨x, hx, heq⟩ := Option.map_eq_some_iff.mp hs
    cases heq
    exact ⟨l, u, h.move ⟨hsort, hr, hw.path.next_mem ht.1 hx,
      fun hf => absurd hf (hw.path.next_ne_start ht.1 hx)⟩ rfl⟩
  | linkReq req tmp =>
    cases Option.some.inj hs
    obtain ⟨hsort, ⟨rfl, -⟩, ht⟩ := hhere
    have hne : tmp ≠ req := fun he => hw.fresh req rfl (he ▸ ht.1)
    refine ⟨l, some req, hw.setNext, h.agrees.setNext, ⟨hsort, rfl, ht, ?_⟩, fun _ => h.busy rfl⟩
    simp [Hd.setNext, Hd.setRequest, hne]
  | linkTmp req tmp =>
    cases Option.some.inj hs
    obtain ⟨hsort, rfl, ht, hn⟩ := hhere
    obtain ⟨l', hl⟩ := hw.link ht.1 hn
    exact ⟨l', none, hl, h.agrees.setNext, ⟨hsort, rfl⟩, by simp [awaitsRestart]⟩
  | unsort =>
    cases Option.some.inj hs
    exact ⟨l, u, hw, h.agrees, ⟨rfl, hhere.2⟩, by simp [awaitsRestart]⟩
  | restart =>
    simp only [addStatement] at hs
    split at hs
    next hd =>
      obtain ⟨t, ht, heq⟩ := Option.map_eq_some_iff.mp hs
      cases heq
      have hc : s.command = none := by simpa only [Hd.Agrees, hd] using h.agrees
      obtain ⟨hag, hbusy⟩ := doRequest_agrees hw hhere.1 hc ht
      obtain ⟨d, c, x, rfl⟩ := doRequest_frame ht
      exact ⟨l, u, hw, hag, hhere, fun _ => hbusy⟩
    next hd =>
      cases Option.some.inj hs
      exact ⟨l, u, hw, h.agrees, hhere, fun _ _ => hd⟩

theorem freeSlot_some (h : freeSlot s = some r) : (s.request r).hd < 0 := by
  have := List.find?_some h
  simpa using this

/-- A new request takes a slot that no list uses. -/
theorem rwAbsHd_inv {m : HdQueue} {read : Bool} {nr sec head cyl b : Nat} (h : m.Inv l u) (hpc : m.pc = none)
    (hs : rwAbsHd m.hd read nr sec head cyl b = some (s, r)) : HdQueue.Inv ⟨s, some (.check r)⟩ l (some r) := by
  have hw := h.wired
  have hhere := h.here
  rw [hpc] at hhere
  obtain ⟨hsort, rfl⟩ := hhere
  obtain ⟨x, hfree, heq⟩ := Option.map_eq_some_iff.mp hs
  cases heq
  have hneg := freeSlot_some hfree
  have hr : r ∉ l := fun hm => absurd ((hw.taken r).mpr (Or.inl hm)) (by simpa [Hd.setBh] using hneg)
  refine ⟨⟨hw.path.congr ?_, ?_, ?_, ?_⟩, ?_, ⟨hsort, ⟨rfl, ?_⟩, ?_⟩, fun _ => h.busy (by simp [hpc, awaitsRestart])⟩
  · intro a ha
    have hne : a ≠ r := fun he => hr (he ▸ ha)
    simp [Hd.setRequest, Hd.setBh, hne]
  · intro x
    rcases eq_or_ne x r with rfl | hne
    · simp [Hd.setRequest, fillRequest]
    · have := hw.taken x
      simp only [reduceCtorEq, or_false] at this
      simp [Hd.setRequest, Hd.setBh, hne, hne.symm, this]
  · intro x hx
    cases Option.some.inj hx
    exact hr
  · intro x hx
    rcases eq_or_ne x r with rfl | hne
    · cases read <;> simp [Hd.setRequest, fillRequest]
    · simp only [Hd.setRequest, Hd.setBh, Function.update_of_ne hne] at hx ⊢
      exact hw.filled x hx
  · have hag := h.agrees
    have hruns : ∀ cmd, m.hd.Runs cmd → Hd.Runs ((m.hd.setBh b { m.hd.bh b with bLock := true }).setRequest r
        (fillRequest read nr sec head cyl b)) cmd := by
      rintro cmd ⟨x, c, hf, hc, hrest⟩
      have hw' := hw
      rw [hf] at hw'
      obtain ⟨l', rfl, -⟩ := hw'.head
      have hne : x ≠ r := fun he => hr (by simp [he])
      refine ⟨x, c, hf, hc, ?_⟩
      simpa [Hd.setRequest, Hd.setBh, hne] using hrest
    unfold Hd.Agrees at hag ⊢
    simp only [Hd.setRequest, Hd.setBh] at hruns ⊢
    cases hd : m.hd.doHd with
    | none =>
      rw [hd] at hag
      exact hag
    | some i =>
      rw [hd] at hag
      cases i with
      | doRequest => exact hag
      | readIntr => simpa only [hd] using hruns _ hag
      | writeIntr => simpa only [hd] using hruns _ hag
  · simp [Hd.setRequest, fillRequest]
  · simp [Hd.setRequest, fillRequest]

theorem bootHd_inv (disk : Place → Sector) (bh : Nat → BufferHead) : (bootHd disk bh).Inv [] none := by
  refine ⟨⟨rfl, ?_, by simp, ?_⟩, rfl, ⟨rfl, rfl⟩, fun _ hf => absurd rfl hf⟩
  · intro r
    simp [bootHd]
  · intro r hr
    simp [bootHd] at hr

theorem queueStep_inv {m m' : HdQueue} {op : QueueOp} (h : m.Inv l u) (hu : Undisturbed m op)
    (hs : queueStep m op = some m') : ∃ l' u', m'.Inv l' u' := by
  cases op with
  | call read nr sec head cyl b =>
    simp only [queueStep] at hs
    split at hs
    next => simp at hs
    next hpc =>
      obtain ⟨⟨s, r⟩, ht, rfl⟩ := Option.map_eq_some_iff.mp hs
      exact ⟨l, some r, rwAbsHd_inv h hpc ht⟩
  | statement q =>
    simp only [queueStep] at hs
    split at hs
    next => simp at hs
    next pc hpc =>
      obtain ⟨⟨s, pc'⟩, ht, rfl⟩ := Option.map_eq_some_iff.mp hs
      have h' : HdQueue.Inv ⟨m.hd, some pc⟩ l u := by
        rw [← hpc]
        exact h
      exact addStatement_inv h' ht
  | interrupt q =>
    obtain ⟨s, ht, rfl⟩ := Option.map_eq_some_iff.mp hs
    obtain ⟨l', he⟩ := hdInterrupt_effect h.wired h.agrees (fun hsort => (hu hsort).1) ht
    exact ⟨l', u, he.wired, he.agrees, he.here h.wired hu h.here, fun _ => he.busy⟩

theorem Hd.Agrees.pending (h : s.Agrees) (hf : s.thisRequest ≠ none) (hd : s.doHd ≠ none) : s.Pending := by
  obtain ⟨r, hr⟩ := Option.ne_none_iff_exists'.mp hf
  have hruns : ∀ cmd, s.Runs cmd →
      (cmd = .winRead ∧ s.doHd = some .readIntr ∨ cmd = .winWrite ∧ s.doHd = some .writeIntr) → s.Pending := by
    rintro cmd ⟨x, c, hx, hc, hcmd, rfl, -, hplace⟩ hi
    exact ⟨x, c, hx, hc, Or.inl ⟨hcmd.symm, hplace.imp_right And.left, hi⟩⟩
  unfold Hd.Agrees at h
  cases hdo : s.doHd with
  | none => exact absurd hdo hd
  | some i =>
    rw [hdo] at h
    cases i with
    | readIntr => exact hruns _ h (Or.inl ⟨rfl, hdo⟩)
    | writeIntr => exact hruns _ h (Or.inr ⟨rfl, hdo⟩)
    | doRequest =>
      obtain ⟨c, hc, hcs⟩ := h
      exact ⟨r, c, hr, hc, Or.inr ⟨hcs, hdo⟩⟩

/-- No request is lost and the queue does not stall, as long as interrupts keep out of `do_request`
while the list is being sorted. -/
theorem queue_noneLost {disk : Place → Sector} {bh : Nat → BufferHead} {m : HdQueue}
    (h : Machine.Reach queueStep Undisturbed (bootHd disk bh) m) (hpc : m.pc = none) : m.hd.NoneLost := by
  obtain ⟨l, u, hinv⟩ : ∃ l u, m.Inv l u := by
    refine Machine.Reach.invariant (I := fun m => ∃ l u, m.Inv l u) ⟨_, _, bootHd_inv disk bh⟩ ?_ h
    intro m op m' hm hok hstep
    obtain ⟨l, u, hm⟩ := hm
    exact queueStep_inv hm hok hstep
  have hhere := hinv.here
  rw [hpc] at hhere
  obtain ⟨-, rfl⟩ := hhere
  refine ⟨l, hinv.wired.path, fun r hr => ?_, fun hl => ?_⟩
  · simpa using (hinv.wired.taken r).mp hr
  · have hf : m.hd.thisRequest ≠ none := by
      rw [hinv.wired.path.head_eq]
      simpa using hl
    exact hinv.agrees.pending hf (hinv.busy (by simp [hpc, awaitsRestart]) hf)

/-- A first read is issued, and nothing disturbs it. -/
theorem queue_noneLost_first : ∃ m : HdQueue, m.pc = none ∧ m.hd.thisRequest = some 0 ∧ m.hd.NoneLost := by
  obtain ⟨m, hm, hpc, hf⟩ : ∃ m, Machine.exec queueStep (bootHd (fun _ => 0) fun _ => {})
      (.call true 0 1 0 0 0 :: List.replicate 6 (.statement ⟨true, 0, true⟩)) = some m ∧ m.pc = none ∧
      m.hd.thisRequest = some 0 := ⟨_, rfl, rfl, rfl⟩
  refine ⟨m, hpc, hf, queue_noneLost (Machine.Reach.exec .start ?_ hm) hpc⟩
  intro op hop t
  rcases List.mem_cons.mp hop with rfl | hop
  · exact trivial
  · rw [List.eq_of_mem_replicate hop]
    exact trivial

/-- The only request completes after the second `add_request` has read `this_request`: `do_request`
declines, `do_hd` stays set, and the new request ends up behind the finished one. -/
theorem queue_loses_request :
    ∃ m, Machine.exec queueStep (bootHd (fun _ => 0) fun _ => {})
      (.call true 0 1 0 0 0 :: List.replicate 6 (.statement ⟨true, 0, true⟩) ++
        .call true 0 3 0 0 1 :: List.replicate 3 (.statement ⟨true, 0, true⟩) ++
        [.interrupt ⟨true, 0, true⟩, .interrupt ⟨true, 0, true⟩] ++
        List.replicate 4 (.statement ⟨true, 0, true⟩)) = some m ∧
      m.pc = none ∧ m.hd.sorting = false ∧ (m.hd.request 1).hd = 0 ∧ m.hd.thisRequest = none ∧
      m.hd.command = none ∧ ¬ m.hd.NoneLost := by
  obtain ⟨m, hm, hpc, hs, hr, hf, hc⟩ : ∃ m, Machine.exec queueStep (bootHd (fun _ => 0) fun _ => {})
      (.call true 0 1 0 0 0 :: List.replicate 6 (.statement ⟨true, 0, true⟩) ++
        .call true 0 3 0 0 1 :: List.replicate 3 (.statement ⟨true, 0, true⟩) ++
        [.interrupt ⟨true, 0, true⟩, .interrupt ⟨true, 0, true⟩] ++
        List.replicate 4 (.statement ⟨true, 0, true⟩)) = some m ∧
      m.pc = none ∧ m.hd.sorting = false ∧ (m.hd.request 1).hd = 0 ∧ m.hd.thisRequest = none ∧
      m.hd.command = none := ⟨_, rfl, rfl, rfl, rfl, rfl, rfl⟩
  refine ⟨m, hm, hpc, hs, hr, hf, hc, ?_⟩
  rintro ⟨l, hp, hall, -⟩
  have hone := hall 1 (by simp [hr])
  rw [List.head?_eq_none_iff.mp (hp.head_eq.symm.trans hf)] at hone
  simp at hone

end RheeKernel
