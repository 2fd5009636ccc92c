import RheeKernel.HardDiskQueue

namespace RheeKernel

open Linked (Path)

/-- The list `l` from `this_request` on and the slot `u` that is not linked yet take all used slots. -/
structure Wired (request : Nat → HdRequest) (first : Option Nat) (l : List Nat) (u : Option Nat) : Prop where
  path : Path (fun r => (request r).next) first l
  taken : ∀ r, 0 ≤ (request r).hd ↔ r ∈ l ∨ u = some r
  fresh : ∀ r, u = some r → r ∉ l
  filled : ∀ r, 0 ≤ (request r).hd → (request r).cmd ≠ .winSpecify ∧
    ((request r).nsector = 1 ∨ (request r).nsector = 2)

/-- The controller has the command of the first request. -/
def Hd.Runs (s : Hd) (cmd : WinCmd) : Prop :=
  ∃ r c, s.thisRequest = some r ∧ s.command = some c ∧ (s.request r).cmd = cmd ∧ c.cmd = cmd ∧
    c.count = (s.request r).nsector ∧
    (c.place = (s.request r).place ∨ c.place = (s.request r).place.succ ∧ (s.request r).nsector = 1)

/-- `do_hd` says what the controller is doing. -/
def Hd.Agrees (s : Hd) : Prop :=
  match s.doHd with
  | none => s.command = none
  | some .doRequest => ∃ c, s.command = some c ∧ c.cmd = .winSpecify
  | some .readIntr => s.Runs .winRead
  | some .writeIntr => s.Runs .winWrite

variable {s s' : Hd} {q : Irq} {r : Nat} {l : List Nat} {u first : Option Nat} {request : Nat → HdRequest}

theorem Wired.head (h : Wired request (some r) l u) :
    ∃ l', l = r :: l' ∧ r ∉ l' ∧ Path (fun r => (request r).next) (request r).next l' := by
  have hp := h.path
  cases l with
  | nil => exact absurd (show some r = none from hp) (by simp)
  | cons a l =>
    cases Option.some.inj hp.1
    exact ⟨l, rfl, (List.nodup_cons.mp hp.nodup).1, hp.2⟩

theorem Wired.head_filled (h : Wired request (some r) l u) :
    0 ≤ (request r).hd ∧ (request r).cmd ≠ .winSpecify ∧ ((request r).nsector = 1 ∨ (request r).nsector = 2) := by
  obtain ⟨l', rfl, -, -⟩ := h.head
  have hr := (h.taken r).mpr (Or.inl (by simp))
  exact ⟨hr, h.filled r hr⟩

theorem Wired.update_other {req : HdRequest} (h : Wired request (some r) l u) (x : Nat) (hx : x ∉ l) :
    Function.update request r req x = request x := by
  obtain ⟨l', rfl, -⟩ := h.head
  exact Function.update_of_ne (fun he : x = r => hx (by simp [he])) _ _

theorem Wired.update_next {req : HdRequest} (_ : Wired request (some r) l u) (hn : req.next = (request r).next)
    (x : Nat) : (Function.update request r req x).next = (request x).next := by
  rcases eq_or_ne x r with rfl | hne
  · simpa using hn
  · simp [hne]

/-- A request that stays where it is may change its counters. -/
theorem Wired.count (req : HdRequest) (h : Wired request (some r) l u) (hn : req.next = (request r).next)
    (hh : req.hd = (request r).hd) (hc : req.cmd = (request r).cmd) (hs : req.nsector = 1 ∨ req.nsector = 2) :
    Wired (Function.update request r req) (some r) l u := by
  have hkeep : ∀ x, (Function.update request r req x).next = (request x).next ∧
      (Function.update request r req x).hd = (request x).hd ∧
      (Function.update request r req x).cmd = (request x).cmd := by
    intro x
    rcases eq_or_ne x r with rfl | hx
    · simp [hn, hh, hc]
    · simp [hx]
  refine ⟨h.path.congr fun a _ => (hkeep a).1.symm, ?_, h.fresh, ?_⟩
  · intro x
    rw [(hkeep x).2.1]
    exact h.taken x
  · intro x hx
    rw [(hkeep x).2.1] at hx
    rw [(hkeep x).2.2]
    refine ⟨(h.filled x hx).1, ?_⟩
    rcases eq_or_ne x r with rfl | hne
    · simpa using hs
    · simpa [hne] using (h.filled x hx).2

/-- The first request is given back. -/
theorem Wired.pop (req : HdRequest) (h : Wired request (some r) l u) (hn : req.next = (request r).next)
    (hh : req.hd = -1) : ∃ l', l = r :: l' ∧ Wired (Function.update request r req) (request r).next l' u := by
  obtain ⟨l', rfl, hr, hp⟩ := h.head
  refine ⟨l', rfl, ?_, ?_, fun x hx hm => h.fresh x hx (by simp [hm]), ?_⟩
  · refine hp.congr fun a ha => ?_
    rcases eq_or_ne a r with rfl | hne
    · exact absurd ha hr
    · simp [hne]
  · intro x
    rcases eq_or_ne x r with rfl | hne
    · have hu : u ≠ some x := fun hu => h.fresh x hu (by simp)
      simp [hh, hr, hu]
    · simpa [hne] using h.taken x
  · intro x hx
    rcases eq_or_ne x r with rfl | hne
    · simp [hh] at hx
    · simp only [Function.update_of_ne hne] at hx ⊢
      exact h.filled x hx

theorem hdOut_some {drive nsect : Int} {sect head cyl : Nat} {cmd : WinCmd} {i : IntrAddr}
    (h : hdOut s drive nsect sect head cyl cmd i = some s') :
    s' = { s with doHd := some i, command := some ⟨cmd, placeOf drive.toNat sect head cyl, nsect.toNat⟩ } := by
  unfold hdOut at h
  split at h
  next => simp at h
  next => exact (Option.some.inj h).symm

theorem resetHd_agrees {nr : Int} (h : resetHd s nr = some s') : s'.Agrees ∧ s'.doHd = some .doRequest := by
  obtain ⟨c, hc, rfl⟩ := resetHd_some h
  exact ⟨⟨c, rfl, hc⟩, rfl⟩

/-- `do_request` starts the first request, if there is one. -/
theorem doRequest_agrees (hw : Wired s.request s.thisRequest l u) (hs : s.sorting = false) (hc : s.command = none)
    (h : doRequest s q = some s') : s'.Agrees ∧ (s'.thisRequest ≠ none → s'.doHd ≠ none) := by
  simp only [doRequest, hs, Bool.false_eq_true, if_false] at h
  cases hr : s.thisRequest with
  | none =>
    simp only [hr] at h
    cases Option.some.inj h
    exact ⟨hc, fun hne => absurd rfl hne⟩
  | some r =>
    rw [hr] at hw
    obtain ⟨-, hcmd, hns⟩ := hw.head_filled
    have hcount : ((s.request r).nsector.toNat : Int) = (s.request r).nsector := by omega
    simp only [hr] at h
    split at h
    next hwr =>
      split at h
      next => simp at h
      next t ht =>
        cases hdOut_some ht
        split at h
        next =>
          cases Option.some.inj h
          exact ⟨⟨r, _, hr, rfl, hwr, hwr, hcount, Or.inl rfl⟩, by simp⟩
        next =>
          obtain ⟨hag, hdo⟩ := resetHd_agrees h
          exact ⟨hag, by simp [hdo]⟩
    next hrd =>
      cases hdOut_some h
      exact ⟨⟨r, _, hr, rfl, hrd, hrd, hcount, Or.inl rfl⟩, by simp⟩
    next hsp => exact absurd hsp hcmd

/-- What an interrupt does to the list while nothing but the first half of it has been looked at. -/
structure Effect (s s' : Hd) (q : Irq) (l l' : List Nat) (u : Option Nat) : Prop where
  wired : Wired s'.request s'.thisRequest l' u
  agrees : s'.Agrees
  sorting : s'.sorting = s.sorting
  next : ∀ x, (s'.request x).next = (s.request x).next
  other : ∀ x, x ∉ l → s'.request x = s.request x
  busy : s'.thisRequest ≠ none → s'.doHd ≠ none
  pops : s.sorting = true → l' = l ∧ s'.thisRequest = s.thisRequest ∨
    givesUp s q = true ∧ s'.doHd = some .doRequest ∧ ∃ r, s.thisRequest = some r ∧ l = r :: l'

theorem badRwIntr_effect (hw : Wired s.request s.thisRequest l u) (hq : q.ok = false) (h : badRwIntr s = some s') :
    ∃ l', Effect s s' q l l' u := by
  unfold badRwIntr at h
  split at h
  next => simp at h
  next r hr =>
    obtain ⟨hag, hdo⟩ := resetHd_agrees h
    obtain ⟨c, -, rfl⟩ := resetHd_some h
    rw [hr] at hw
    obtain ⟨-, hcmd, hns⟩ := hw.head_filled
    by_cases hmax : maxErrors ≤ (s.request r).errors
    · obtain ⟨l', rfl, hpop⟩ := hw.pop { s.request r with errors := (s.request r).errors + 1, hd := -1 } rfl rfl
      simp only [countError, if_pos hmax] at hag hdo ⊢
      exact ⟨l', hpop, hag, rfl, hw.update_next rfl, hw.update_other, by simp,
        fun _ => Or.inr ⟨by simp [givesUp, hr, hq, hmax], rfl, r, hr, rfl⟩⟩
    · have hcount := hw.count { s.request r with errors := (s.request r).errors + 1 } rfl rfl rfl hns
      simp only [countError, if_neg hmax] at hag hdo ⊢
      refine ⟨l, ?_, hag, rfl, hw.update_next rfl, hw.update_other, by simp, fun _ => Or.inl ⟨rfl, rfl⟩⟩
      rw [← hr] at hcount
      exact hcount

/-- The first request is finished and `do_request` looks for the next one. -/
theorem endRequest_effect {req : HdRequest} {bh : BufferHead} (hw : Wired s.request s.thisRequest l u)
    (hr : s.thisRequest = some r) (hn : req.next = (s.request r).next) (hs : s.sorting = false)
    (hc : s.command = none) (h : doRequest (endRequest s r req bh) q = some s') : ∃ l', Effect s s' q l l' u := by
  rw [hr] at hw
  obtain ⟨l', rfl, hpop⟩ := hw.pop { req with hd := -1 } hn rfl
  have hpop' : Wired (endRequest s r req bh).request (endRequest s r req bh).thisRequest l' u := by
    rw [← hn] at hpop
    exact hpop
  obtain ⟨hag, hbusy⟩ := doRequest_agrees hpop' hs hc h
  obtain ⟨d, c, x, rfl⟩ := doRequest_frame h
  exact ⟨l', hpop', hag, rfl, hw.update_next hn, hw.update_other, hbusy, fun hsort => absurd hsort (by simp [hs])⟩

/-- The first half of the first request has been moved. -/
theorem half_effect {req : HdRequest} {c : Command} (hw : Wired s.request s.thisRequest l u)
    (hr : s.thisRequest = some r) (hreq : s'.request = Function.update s.request r req)
    (hsame : req = { s.request r with nsector := 1 }) (hf : s'.thisRequest = s.thisRequest)
    (hs : s'.sorting = s.sorting) (hd : s'.doHd = s.doHd) (hc : s'.command = some c) (hcc : c.cmd = (s.request r).cmd)
    (hcount : c.count = 1) (hplace : c.place = (s.request r).place.succ)
    (hi : c.cmd = .winRead ∧ s.doHd = some .readIntr ∨ c.cmd = .winWrite ∧ s.doHd = some .writeIntr) :
    Effect s s' q l l u := by
  rw [hr] at hw
  subst hsame
  have hcw := hw.count { s.request r with nsector := 1 } rfl rfl rfl (Or.inl rfl)
  have hruns : s'.Runs c.cmd := by
    refine ⟨r, c, hf.trans hr, hc, ?_, rfl, ?_, Or.inr ⟨?_, ?_⟩⟩
    · simp [hreq, hcc]
    · simp [hreq, hcount]
    · simp only [hreq, Function.update_self]
      exact hplace
    · simp [hreq]
  refine ⟨?_, ?_, hs, ?_, ?_, ?_, fun _ => Or.inl ⟨rfl, hf⟩⟩
  · rw [hreq, hf, hr]
    exact hcw
  · unfold Hd.Agrees
    rcases hi with ⟨hk, hi⟩ | ⟨hk, hi⟩
    · simpa only [hd, hi, hk] using hruns
    · simpa only [hd, hi, hk] using hruns
  · rw [hreq]
    exact hw.update_next rfl
  · rw [hreq]
    exact hw.update_other
  · rcases hi with ⟨-, hi⟩ | ⟨-, hi⟩ <;> simp [hd, hi]

/-- The effect does not depend on what the controller did before the handler ran. -/
theorem Effect.of_moved {t : Hd} (h : Effect t s' q l l' u) (hr : t.request = s.request)
    (hf : t.thisRequest = s.thisRequest) (hs : t.sorting = s.sorting) : Effect s s' q l l' u := by
  have hg : givesUp t q = givesUp s q := by simp [givesUp, hr, hf]
  refine ⟨h.wired, h.agrees, h.sorting.trans hs, ?_, ?_, h.busy, ?_⟩
  · simpa [hr] using h.next
  · simpa [hr] using h.other
  · simpa [hs, hf, hg] using h.pops

theorem hdInterrupt_effect (hw : Wired s.request s.thisRequest l u) (ha : s.Agrees)
    (hs : s.sorting = true → reachesDoRequest s q = false) (h : hdInterrupt s q = some s') :
    ∃ l', Effect s s' q l l' u := by
  unfold Hd.Agrees at ha
  have hsort : reachesDoRequest s q = true → s.sorting = false := by
    intro hreach
    rw [← Bool.not_eq_true]
    exact fun hsort => absurd (hs hsort) (by simp [hreach])
  cases hd : s.doHd with
  | none =>
    simp only [hd] at ha
    simp [hdInterrupt, ha] at h
  | some i =>
    cases i with
    | doRequest =>
      simp only [hd] at ha
      obtain ⟨c, hc, hcs⟩ := ha
      rw [hdInterrupt_some hc hd] at h
      have hcom : (moveSector s c q).command = none := by simp [moveSector, hcs]
      have hfree := hsort (by simp [reachesDoRequest, hd])
      have hw' : Wired (moveSector s c q).request (moveSector s c q).thisRequest l u := by simpa using hw
      obtain ⟨hag, hbusy⟩ := doRequest_agrees hw' (by simpa using hfree) hcom h
      obtain ⟨d, c', x, rfl⟩ := doRequest_frame h
      exact ⟨l, hw', hag, by simp, by simp, by simp, hbusy, fun hon => absurd hon (by simp [hfree])⟩
    | readIntr =>
      simp only [hd] at ha
      obtain ⟨r, c, hr, hc, hcmd, hcc, hcount, hplace⟩ := ha
      rw [hdInterrupt_some hc hd] at h
      have hw' : Wired (moveSector s c q).request (moveSector s c q).thisRequest l u := by simpa using hw
      have hcom : (moveSector s c q).command = c.rest q.ok := moveSector_command (by simp [hcc])
      cases hq : q.ok with
      | false =>
        simp only [callHandler, readIntr, hq, if_true] at h
        obtain ⟨l', he⟩ := badRwIntr_effect hw' hq h
        exact ⟨l', he.of_moved (by simp) (by simp) (by simp)⟩
      | true =>
        simp only [callHandler, readIntr, hq, Bool.true_eq_false, if_false, moveSector_thisRequest, hr] at h
        split at h
        next hns =>
          rw [moveSector_request] at hns
          rw [hq, Command.rest, if_pos ⟨rfl, by omega⟩] at hcom
          cases Option.some.inj h
          refine ⟨l, half_effect hw hr (by simp [Hd.setRequest, Hd.setBh]; rfl) (by simp [hns]) (by simp [Hd.setRequest, Hd.setBh])
            (by simp [Hd.setRequest, Hd.setBh]) (by simp [Hd.setRequest, Hd.setBh]) hcom (hcc.trans hcmd.symm)
            (by simp; omega) ?_ (Or.inl ⟨hcc, hd⟩)⟩
          rcases hplace with hp | ⟨-, hp⟩
          · simp [hp]
          · omega
        next hns =>
          rw [moveSector_request] at hns
          have hone : (s.request r).nsector = 1 := by
            rw [hr] at hw
            have := hw.head_filled.2.2
            omega
          rw [Command.rest, if_neg (by omega)] at hcom
          have hfree := hsort (by simp [reachesDoRequest, hd, hr, hq, hns])
          obtain ⟨l', he⟩ := endRequest_effect hw' (by simpa using hr) (by rfl) (by simpa using hfree) hcom h
          exact ⟨l', he.of_moved (by simp) (by simp) (by simp)⟩
    | writeIntr =>
      simp only [hd] at ha
      obtain ⟨r, c, hr, hc, hcmd, hcc, hcount, hplace⟩ := ha
      rw [hdInterrupt_some hc hd] at h
      have hw' : Wired (moveSector s c q).request (moveSector s c q).thisRequest l u := by simpa using hw
      have hcom : (moveSector s c q).command = c.rest q.ok := moveSector_command (by simp [hcc])
      have hns : (s.request r).nsector = 1 ∨ (s.request r).nsector = 2 := by
        rw [hr] at hw
        exact hw.head_filled.2.2
      cases hq : q.ok with
      | false =>
        simp only [callHandler, writeIntr, hq, if_true] at h
        obtain ⟨l', he⟩ := badRwIntr_effect hw' hq h
        exact ⟨l', he.of_moved (by simp) (by simp) (by simp)⟩
      | true =>
        simp only [callHandler, writeIntr, hq, Bool.true_eq_false, if_false, moveSector_thisRequest, hr] at h
        split at h
        next hmore =>
          rw [moveSector_request] at hmore
          have htwo : (s.request r).nsector = 2 := by omega
          rw [hq, Command.rest, if_pos ⟨rfl, by omega⟩] at hcom
          cases Option.some.inj h
          refine ⟨l, half_effect hw hr (by simp [Hd.setRequest]; rfl) (by simp [htwo]) (by simp [Hd.setRequest])
            (by simp [Hd.setRequest]) (by simp [Hd.setRequest]) hcom (hcc.trans hcmd.symm) (by simp; omega) ?_
            (Or.inr ⟨hcc, hd⟩)⟩
          rcases hplace with hp | ⟨-, hp⟩
          · simp [hp]
          · omega
        next hlast =>
          rw [moveSector_request] at hlast
          have hone : (s.request r).nsector = 1 := by omega
          rw [Command.rest, if_neg (by omega)] at hcom
          have hfree := hsort (by simp [reachesDoRequest, hd, hr, hq, hone])
          obtain ⟨l', he⟩ := endRequest_effect hw' (by simpa using hr) (by rfl) (by simpa using hfree) hcom h
          exact ⟨l', he.of_moved (by simp) (by simp) (by simp)⟩

end RheeKernel
