import RheeKernel.HardDisk

namespace RheeKernel

/-- Interrupts are taken until the request in slot `r` is given back. -/
def serve (r : Nat) : Hd → List Irq → Option Hd
  | s, [] => some s
  | s, q :: qs =>
    if (s.request r).hd < 0 then some s
    else match hdInterrupt s q with
      | none => none
      | some s => serve r s qs

/-- The interrupts whose status the driver looks at. After an error the next one belongs to the
`WIN_SPECIFY` of `reset_hd`, and `do_request` then issues the command again. -/
def examined (cmd : WinCmd) : Bool → List Irq → List Irq
  | _, [] => []
  | true, q :: qs => q :: examined cmd q.ok qs
  | false, q :: qs => examined cmd (decide (cmd = .winRead) || q.drq) qs

/-- The request of `rw_abs_hd` has come to the head of the list. A buffer is only written when dirty. -/
structure Hd.Queued (s : Hd) (r : Nat) (read : Bool) (nr sec head cyl b : Nat) : Prop where
  first : s.thisRequest = some r
  sorted : s.sorting = false
  filled : { s.request r with next := none } = fillRequest read nr sec head cyl b
  dirty : read = false → (s.bh b).bDirt = true

/-- What a finished request must have done, for a transfer between buffer `b` and the sectors from `p` on. -/
def Moved (read : Bool) (b : Nat) (p : Place) (s s' : Hd) : Prop :=
  if read then
    (s'.bh b).bUptodate = true →
      (s'.bh b).dataLo = s'.disk p ∧ (s'.bh b).dataHi = s'.disk p.succ ∧ s'.disk = s.disk
  else
    (s'.bh b).bDirt = false →
      s'.disk p = (s'.bh b).dataLo ∧ s'.disk p.succ = (s'.bh b).dataHi ∧
        ∀ p', p' ≠ p → p' ≠ p.succ → s'.disk p' = s.disk p'

/-- From the first `do_request` on, with the interrupts `qs` after it. -/
def TransferIntact (read : Bool) (nr sec head cyl : Nat) (q : Irq) (qs : List Irq) : Prop :=
  ∀ s r b s1 s', s.Queued r read nr sec head cyl b → doRequest s q = some s1 → serve r s1 qs = some s' →
    (s'.request r).hd < 0 → Moved read b (placeOf nr sec head cyl) s s'

/-- The first sector went through, the second failed at least once, and a retry succeeded. -/
def SecondSectorFails (es : List Irq) : Prop :=
  ∃ a p e b f rest, es = a ++ p :: e :: (b ++ f :: rest) ∧ (∀ x ∈ a, x.ok = false) ∧ p.ok = true ∧
    e.ok = false ∧ (∀ x ∈ b, x.ok = false) ∧ f.ok = true ∧ a.length + b.length + 1 ≤ maxErrors

/-- How far a request has come; the number is its count of errors. -/
inductive Progress
  | first (n : Nat)
  | second (n : Nat)
  | again (n : Nat)
  | finished (spoilt : Bool)
  | failed
deriving DecidableEq

def Progress.retry (n : Nat) (p : Nat → Progress) : Progress :=
  if maxErrors ≤ n then .failed else p (n + 1)

def Progress.step : Progress → Irq → Progress
  | .first n, q => if q.ok then .second n else retry n .first
  | .second n, q => if q.ok then .finished false else retry n .again
  | .again n, q => if q.ok then .finished true else retry n .again
  | .finished spoilt, _ => .finished spoilt
  | .failed, _ => .failed

def Progress.over : Progress → Bool
  | .finished _ => true
  | .failed => true
  | _ => false

def rwCmd (read : Bool) : WinCmd := if read then .winRead else .winWrite
def rwIntr (read : Bool) : IntrAddr := if read then .readIntr else .writeIntr

/-- The controller works on the request's own command, with the right half in the data register. -/
structure Hd.Issued (s : Hd) (read : Bool) (p : Place) (count : Nat) (half : Sector) : Prop where
  command : s.command = some ⟨rwCmd read, p, count⟩
  doHd : s.doHd = some (rwIntr read)
  port : read = false → s.port = half

/-- The controller works on the `WIN_SPECIFY` of `reset_hd`. -/
structure Hd.Resetting (s : Hd) : Prop where
  command : ∃ p count, s.command = some ⟨.winSpecify, p, count⟩
  doHd : s.doHd = some .doRequest

/-- The request is still at the head, `s0` being the state in which it was first looked at. -/
structure Hd.Serving (s0 s : Hd) (r b : Nat) (read : Bool) (p : Place) (nsector n : Nat) : Prop where
  first : s.thisRequest = some r
  sorted : s.sorting = false
  request : s.request r = { s0.request r with nsector := nsector, errors := n }
  dirt : (s.bh b).bDirt = (s0.bh b).bDirt
  kept : if read then s.disk = s0.disk
    else (s.bh b).dataLo = (s0.bh b).dataLo ∧ (s.bh b).dataHi = (s0.bh b).dataHi ∧
      ∀ p', p' ≠ p → p' ≠ p.succ → s.disk p' = s0.disk p'

/-- The first half has been moved. -/
def Hd.HalfMoved (s : Hd) (b : Nat) (read : Bool) (p : Place) : Prop :=
  if read then (s.bh b).dataLo = s.disk p else s.disk p = (s.bh b).dataLo

/-- A retry of the second half went to the first sector. -/
def Spoilt (read : Bool) (b : Nat) (p : Place) (s0 s : Hd) : Prop :=
  if read then (s.bh b).bUptodate = true ∧ (s.bh b).dataHi = s.disk p ∧ s.disk = s0.disk
  else (s.bh b).bDirt = false ∧ s.disk p = (s0.bh b).dataHi ∧ (s.bh b).dataLo = (s0.bh b).dataLo

/-- The state of the driver at each point of a transfer. -/
def Progress.Holds (s0 : Hd) (r b : Nat) (read : Bool) (p : Place) : Progress → Bool → Hd → Prop
  | .first n, issued, s => s0.Serving s r b read p 2 n ∧
      if issued then s.Issued read p 2 (s.bh b).dataLo else s.Resetting
  | .second n, issued, s => issued = true ∧ s0.Serving s r b read p 1 n ∧ s.HalfMoved b read p ∧
      s.Issued read p.succ 1 (s.bh b).dataHi
  | .again n, issued, s => s0.Serving s r b read p 1 n ∧
      if issued then s.Issued read p 1 (s.bh b).dataHi else s.Resetting
  | .finished spoilt, _, s => (s.request r).hd < 0 ∧ if spoilt then Spoilt read b p s0 s else Moved read b p s0 s
  | .failed, _, s => (s.request r).hd < 0 ∧ (s.bh b).bUptodate = false ∧ (s.bh b).bDirt = (s0.bh b).bDirt

variable {s s' s0 : Hd} {q : Irq} {r b n : Nat} {read : Bool} {p : Place}

/-- What the request asks for, whatever has happened to its counters and its link. -/
structure Asks (req : HdRequest) (read : Bool) (b : Nat) (p : Place) : Prop where
  cmd : req.cmd = rwCmd read
  bh : req.bh = b
  place : req.place = p
  drive : 0 ≤ req.hd

theorem Hd.Queued.asks {nr sec head cyl : Nat} (h : s.Queued r read nr sec head cyl b) :
    Asks (s.request r) read b (placeOf nr sec head cyl) := by
  have hf := h.filled
  simp only [fillRequest, HdRequest.mk.injEq] at hf
  obtain ⟨hhd, _, hsec, hhead, hcyl, hcmd, _, hbh, _⟩ := hf
  refine ⟨by rw [hcmd]; rfl, hbh, ?_, by omega⟩
  simp [HdRequest.place, hhd, hsec, hhead, hcyl]

/-- `do_request` issues the command, or starts over when the drive does not ask for data. -/
theorem Hd.Serving.issue {k : Nat} (h : s0.Serving s r b read p k n) (ha : Asks (s0.request r) read b p)
    (hd : doRequest s q = some s') :
    s0.Serving s' r b read p k n ∧
      if (read || q.drq) = true
      then s'.Issued read p k (if (k : Int) % 2 = 1 then (s'.bh b).dataHi else (s'.bh b).dataLo) else s'.Resetting := by
  have hserve : ∀ d c x, s0.Serving { s with doHd := d, command := c, port := x } r b read p k n :=
    fun d c x => ⟨h.first, h.sorted, h.request, h.dirt, h.kept⟩
  have hplace := ha.place
  unfold HdRequest.place at hplace
  simp only [doRequest, h.sorted, h.first, h.request, ha.cmd, ha.bh, Bool.false_eq_true, if_false] at hd
  cases read with
  | true =>
    simp only [rwCmd, if_true, hdOut] at hd
    split at hd
    next => simp at hd
    next =>
      cases Option.some.inj hd
      refine ⟨hserve _ _ s.port, ?_⟩
      simp only [Bool.true_or, if_true]
      refine ⟨?_, rfl, by simp⟩
      simp [rwCmd, hplace]
  | false =>
    simp only [rwCmd, Bool.false_eq_true, if_false, hdOut] at hd
    split at hd
    next => simp at hd
    next hout =>
      split at hout
      next => simp at hout
      next =>
        cases Option.some.inj hout
        split at hd
        next hdrq =>
          cases Option.some.inj hd
          refine ⟨hserve _ _ _, ?_⟩
          simp only [hdrq, Bool.or_true, if_true]
          refine ⟨?_, rfl, fun _ => rfl⟩
          simp [rwCmd, hplace]
        next hdrq =>
          obtain ⟨c, hc, rfl⟩ := resetHd_some hd
          refine ⟨hserve _ _ s.port, ?_⟩
          simp only [hdrq, Bool.or_false, Bool.false_eq_true, if_false]
          exact ⟨⟨c.place, c.count, by rw [← hc]⟩, rfl⟩

/-- A failed transfer interrupt, whatever the disk and the data register now hold. -/
theorem Hd.Serving.error {k : Nat} (h : s0.Serving s r b read p k n) (ha : Asks (s0.request r) read b p)
    (hd : badRwIntr s = some s') :
    if maxErrors ≤ n then (s'.request r).hd < 0 ∧ (s'.bh b).bUptodate = false ∧ (s'.bh b).bDirt = (s0.bh b).bDirt
    else s0.Serving s' r b read p k (n + 1) ∧ s'.Resetting := by
  simp only [badRwIntr, h.first] at hd
  obtain ⟨c, hc, rfl⟩ := resetHd_some hd
  simp only [countError, h.request]
  split
  next => simp [endRequest, Hd.setBh, Hd.setRequest, ha.bh, h.dirt]
  next =>
    refine ⟨⟨h.first, h.sorted, ?_, h.dirt, h.kept⟩, ⟨c.place, c.count, ?_⟩, rfl⟩
    · simp [Hd.setRequest]
    · rw [← hc]

theorem Hd.Serving.moved {k count : Nat} {pl : Place} (h : s0.Serving s r b read p k n)
    (hpl : pl = p ∨ pl = p.succ) :
    s0.Serving (moveSector s ⟨rwCmd read, pl, count⟩ q) r b read p k n := by
  have hkept := h.kept
  cases read with
  | true => exact ⟨h.first, h.sorted, h.request, h.dirt, hkept⟩
  | false =>
    refine ⟨h.first, h.sorted, h.request, h.dirt, hkept.1, hkept.2.1, ?_⟩
    intro p' hp hs
    have hne : p' ≠ pl := by rcases hpl with rfl | rfl <;> assumption
    exact (Function.update_of_ne hne _ _).trans (hkept.2.2 p' hp hs)

theorem Hd.Issued.interrupt {pl : Place} {count : Nat} {half : Sector} (h : s.Issued read pl count half) :
    hdInterrupt s q = if read then readIntr (moveSector s ⟨rwCmd read, pl, count⟩ q) q
      else writeIntr (moveSector s ⟨rwCmd read, pl, count⟩ q) q := by
  rw [hdInterrupt_some h.command h.doHd]
  cases read <;> rfl

/-- An error interrupt of the command in progress. -/
theorem Hd.Serving.failed {k count : Nat} {pl : Place} {half : Sector} (h : s0.Serving s r b read p k n)
    (ha : Asks (s0.request r) read b p) (hpl : pl = p ∨ pl = p.succ) (hi : s.Issued read pl count half)
    (hq : q.ok = false) (hd : hdInterrupt s q = some s') :
    if maxErrors ≤ n then (s'.request r).hd < 0 ∧ (s'.bh b).bUptodate = false ∧ (s'.bh b).bDirt = (s0.bh b).bDirt
    else s0.Serving s' r b read p k (n + 1) ∧ s'.Resetting := by
  rw [hi.interrupt] at hd
  have hm : s0.Serving (moveSector s ⟨rwCmd read, pl, count⟩ q) r b read p k n := h.moved hpl
  refine hm.error ha ?_
  cases read <;> simpa [readIntr, writeIntr, hq] using hd

/-- The interrupt that moves the first half. -/
theorem Hd.Serving.half (h : s0.Serving s r b read p 2 n) (ha : Asks (s0.request r) read b p)
    (hi : s.Issued read p 2 (s.bh b).dataLo) (hq : q.ok = true) (hd : hdInterrupt s q = some s') :
    s0.Serving s' r b read p 1 n ∧ s'.HalfMoved b read p ∧ s'.Issued read p.succ 1 (s'.bh b).dataHi := by
  have hm : s0.Serving (moveSector s ⟨rwCmd read, p, 2⟩ q) r b read p 2 n := h.moved (Or.inl rfl)
  rw [hi.interrupt] at hd
  cases read with
  | true =>
    simp only [readIntr, hq, hm.first, hm.request, if_true, ha.bh, Bool.true_eq_false, if_false] at hd
    cases Option.some.inj hd
    refine ⟨⟨hm.first, hm.sorted, ?_, ?_, hm.kept⟩, ?_, ?_, ?_, by simp⟩
    · simp [Hd.setRequest, Hd.setBh, ha.bh]
    · simpa [Hd.setRequest, Hd.setBh] using hm.dirt
    · simp [Hd.HalfMoved, Hd.setRequest, Hd.setBh, moveSector, rwCmd, hq]
    · simp [Hd.setRequest, Hd.setBh, moveSector, Command.rest, rwCmd, hq]
    · simpa [Hd.setRequest, Hd.setBh, moveSector, rwCmd] using hi.doHd
  | false =>
    simp only [writeIntr, hq, hm.first, hm.request, ha.bh, Bool.true_eq_false, if_false, Bool.false_eq_true] at hd
    simp at hd
    cases hd
    refine ⟨⟨hm.first, hm.sorted, ?_, hm.dirt, hm.kept⟩, ?_, ?_, ?_, fun _ => rfl⟩
    · simp [Hd.setRequest, ha.bh]
    · simp [Hd.HalfMoved, Hd.setRequest, moveSector, rwCmd, hq, hi.port]
    · simp [Hd.setRequest, moveSector, Command.rest, rwCmd, hq]
    · simpa [Hd.setRequest, moveSector, rwCmd] using hi.doHd

/-- The interrupt that moves the other half, at whichever sector the controller is. -/
theorem Hd.Serving.finish {pl : Place} (h : s0.Serving s r b read p 1 n) (ha : Asks (s0.request r) read b p)
    (hpl : pl = p ∨ pl = p.succ) (hi : s.Issued read pl 1 (s.bh b).dataHi) (hq : q.ok = true)
    (hd : hdInterrupt s q = some s') :
    (s'.request r).hd < 0 ∧ (s'.bh b).bUptodate = true ∧ (s'.bh b).bDirt = false ∧
      (s'.bh b).dataLo = (s.bh b).dataLo ∧
      if read then s'.disk = s.disk ∧ (s'.bh b).dataHi = s.disk pl
      else s'.disk = Function.update s.disk pl (s.bh b).dataHi ∧ (s'.bh b).dataHi = (s.bh b).dataHi := by
  have hm : s0.Serving (moveSector s ⟨rwCmd read, pl, 1⟩ q) r b read p 1 n := h.moved hpl
  rw [hi.interrupt] at hd
  cases read with
  | true =>
    simp only [readIntr, hq, hm.first, hm.request, if_true, ha.bh, Bool.true_eq_false, if_false] at hd
    obtain ⟨d, c, x, rfl⟩ := doRequest_frame (by simpa using hd)
    simp [endRequest, Hd.setBh, Hd.setRequest, moveSector, rwCmd, hq]
  | false =>
    simp only [writeIntr, hq, hm.first, hm.request, ha.bh, Bool.true_eq_false, if_false, Bool.false_eq_true] at hd
    obtain ⟨d, c, x, rfl⟩ := doRequest_frame (by simpa using hd)
    simp [endRequest, Hd.setBh, Hd.setRequest, moveSector, rwCmd, hq, hi.port]

theorem Place.succ_ne (p : Place) : p.succ ≠ p := by
  intro h
  have := congrArg Place.lba h
  simp [Place.succ] at this

theorem Progress.Holds.issue {pr : Progress} (ha : Asks (s0.request r) read b p) (ho : pr.over = false)
    (h : pr.Holds s0 r b read p false s) (hd : hdInterrupt s q = some s') :
    pr.Holds s0 r b read p (read || q.drq) s' := by
  have hreset : ∀ {k n : Nat}, s0.Serving s r b read p k n → s.Resetting →
      ∃ t, s0.Serving t r b read p k n ∧ doRequest t q = some s' := by
    intro k n hs hr
    obtain ⟨⟨pl, count, hc⟩, hdo⟩ := hr
    refine ⟨{ s with command := none }, ⟨hs.first, hs.sorted, hs.request, hs.dirt, hs.kept⟩, ?_⟩
    rw [hdInterrupt_some hc hdo] at hd
    exact hd
  cases pr with
  | first n =>
    obtain ⟨t, ht, hdt⟩ := hreset h.1 h.2
    exact ht.issue ha hdt
  | second n => exact absurd h.1 (by simp)
  | again n =>
    obtain ⟨t, ht, hdt⟩ := hreset h.1 h.2
    exact ht.issue ha hdt
  | finished spoilt => simp [Progress.over] at ho
  | failed => simp [Progress.over] at ho

theorem Progress.holds_retry {k : Nat} {f : Nat → Progress}
    (hf : s0.Serving s r b read p k (n + 1) → s.Resetting → (f (n + 1)).Holds s0 r b read p false s)
    (h : if maxErrors ≤ n then (s.request r).hd < 0 ∧ (s.bh b).bUptodate = false ∧ (s.bh b).bDirt = (s0.bh b).bDirt
      else s0.Serving s r b read p k (n + 1) ∧ s.Resetting) :
    (Progress.retry n f).Holds s0 r b read p false s := by
  unfold Progress.retry
  split at h
  next hn => rwa [if_pos hn]
  next hn =>
    rw [if_neg hn]
    exact hf h.1 h.2

/-- One examined interrupt moves the driver as `Progress.step` says. -/
theorem Progress.Holds.step {pr : Progress} (ha : Asks (s0.request r) read b p) (ho : pr.over = false)
    (h : pr.Holds s0 r b read p true s) (hd : hdInterrupt s q = some s') :
    (pr.step q).Holds s0 r b read p q.ok s' := by
  cases pr with
  | first n =>
    obtain ⟨hs, hi⟩ := h
    cases hq : q.ok with
    | true => simpa [Progress.step, Progress.Holds, hq] using hs.half ha hi hq hd
    | false =>
      simp only [Progress.step, hq, Bool.false_eq_true, if_false]
      exact Progress.holds_retry (fun hs' hr => ⟨hs', hr⟩) (hs.failed ha (Or.inl rfl) hi hq hd)
  | second n =>
    obtain ⟨-, hs, hhalf, hi⟩ := h
    cases hq : q.ok with
    | true =>
      obtain ⟨hhd, hup, hdirt, hlo, hres⟩ := hs.finish ha (Or.inr rfl) hi hq hd
      have hk := hs.kept
      simp only [Progress.step, hq, if_true, Progress.Holds, Bool.false_eq_true, if_false]
      refine ⟨hhd, ?_⟩
      cases read with
      | true =>
        intro _
        exact ⟨by rw [hlo, hres.1]; exact hhalf, by rw [hres.2, hres.1], by rw [hres.1]; exact hk⟩
      | false =>
        intro _
        rw [hres.1, hlo, hres.2]
        refine ⟨?_, by simp, ?_⟩
        · rw [Function.update_of_ne p.succ_ne.symm]
          exact hhalf
        · intro p' hp hp'
          rw [Function.update_of_ne hp']
          exact hk.2.2 p' hp hp'
    | false =>
      simp only [Progress.step, hq, Bool.false_eq_true, if_false]
      exact Progress.holds_retry (fun hs' hr => ⟨hs', hr⟩) (hs.failed ha (Or.inr rfl) hi hq hd)
  | again n =>
    obtain ⟨hs, hi⟩ := h
    cases hq : q.ok with
    | true =>
      obtain ⟨hhd, hup, hdirt, hlo, hres⟩ := hs.finish ha (Or.inl rfl) hi hq hd
      have hk := hs.kept
      simp only [Progress.step, hq, if_true, Progress.Holds]
      refine ⟨hhd, ?_⟩
      cases read with
      | true => exact ⟨hup, by rw [hres.2, hres.1], by rw [hres.1]; exact hk⟩
      | false =>
        refine ⟨hdirt, ?_, hlo.trans hk.1⟩
        rw [hres.1, Function.update_self]
        exact hk.2.1
    | false =>
      simp only [Progress.step, hq, Bool.false_eq_true, if_false]
      exact Progress.holds_retry (fun hs' hr => ⟨hs', hr⟩) (hs.failed ha (Or.inl rfl) hi hq hd)
  | finished spoilt => simp [Progress.over] at ho
  | failed => simp [Progress.over] at ho

theorem Progress.foldl_over {pr : Progress} (h : pr.over = true) (es : List Irq) :
    es.foldl Progress.step pr = pr := by
  induction es with
  | nil => rfl
  | cons q es ih => cases pr <;> simp_all [Progress.over, Progress.step]

theorem Progress.Holds.hd_neg {pr : Progress} {issued : Bool} (ha : Asks (s0.request r) read b p)
    (h : pr.Holds s0 r b read p issued s) : (s.request r).hd < 0 ↔ pr.over = true := by
  have hserve : ∀ {k n : Nat}, s0.Serving s r b read p k n → ¬ (s.request r).hd < 0 := by
    intro k n hs
    rw [hs.request]
    exact Int.not_lt.mpr ha.drive
  cases pr with
  | first n => simpa [Progress.over] using hserve h.1
  | second n => simpa [Progress.over] using hserve h.2.1
  | again n => simpa [Progress.over] using hserve h.1
  | finished spoilt => simpa [Progress.over] using h.1
  | failed => simpa [Progress.over] using h.1

/-- A whole transfer follows the statuses that the driver examined. -/
theorem serve_progress {pr : Progress} {issued : Bool} {qs : List Irq} (ha : Asks (s0.request r) read b p)
    (h : pr.Holds s0 r b read p issued s) (hd : serve r s qs = some s') :
    ∃ issued', ((examined (rwCmd read) issued qs).foldl Progress.step pr).Holds s0 r b read p issued' s' := by
  induction qs generalizing s pr issued with
  | nil =>
    cases Option.some.inj hd
    exact ⟨issued, by simpa [examined] using h⟩
  | cons q qs ih =>
    unfold serve at hd
    split at hd
    next hneg =>
      cases Option.some.inj hd
      rw [Progress.foldl_over ((h.hd_neg ha).mp hneg)]
      exact ⟨issued, h⟩
    next hpos =>
      have ho : pr.over = false := by
        rw [← Bool.not_eq_true]
        exact fun ho => hpos ((h.hd_neg ha).mpr ho)
      split at hd
      next => simp at hd
      next t ht =>
        cases issued with
        | true => exact ih (h.step ha ho ht) hd
        | false =>
          have hread : decide (rwCmd read = .winRead) = read := by cases read <;> rfl
          have hnext := ih (h.issue ha ho ht) hd
          simp only [examined, hread]
          exact hnext

theorem Progress.foldl_again {es : List Irq} (hn : n ≤ maxErrors) :
    es.foldl Progress.step (.again n) = .finished true ↔
      ∃ b f rest, es = b ++ f :: rest ∧ (∀ x ∈ b, x.ok = false) ∧ f.ok = true ∧ n + b.length ≤ maxErrors := by
  induction es generalizing n with
  | nil => simp
  | cons q es ih =>
    cases hq : q.ok with
    | true =>
      simp only [List.foldl_cons, Progress.step, hq, if_true, @Progress.foldl_over (.finished true) rfl, true_iff]
      exact ⟨[], q, es, by simp, by simp, hq, by simpa using hn⟩
    | false =>
      simp only [List.foldl_cons, Progress.step, hq, Bool.false_eq_true, if_false, Progress.retry]
      split
      next hmax =>
        rw [Progress.foldl_over rfl]
        simp only [reduceCtorEq, false_iff]
        rintro ⟨b, f, rest, he, hb, hf, hlen⟩
        cases b with
        | nil =>
          obtain ⟨rfl, -⟩ := List.cons.inj he
          simp [hq] at hf
        | cons x b =>
          simp at hlen
          omega
      next hmax =>
        rw [ih (by omega)]
        constructor
        · rintro ⟨b, f, rest, rfl, hb, hf, hlen⟩
          exact ⟨q :: b, f, rest, by simp, by simpa [hq] using hb, hf, by simp; omega⟩
        · rintro ⟨b, f, rest, he, hb, hf, hlen⟩
          cases b with
          | nil =>
            obtain ⟨rfl, -⟩ := List.cons.inj he
            simp [hq] at hf
          | cons x b =>
            obtain ⟨rfl, rfl⟩ := List.cons.inj he
            exact ⟨b, f, rest, rfl, fun y hy => hb y (by simp [hy]), hf, by simp at hlen; omega⟩

theorem Progress.foldl_second {es : List Irq} :
    es.foldl Progress.step (.second n) = .finished true ↔
      ∃ e b f rest, es = e :: (b ++ f :: rest) ∧ e.ok = false ∧ (∀ x ∈ b, x.ok = false) ∧ f.ok = true ∧
        n + b.length + 1 ≤ maxErrors := by
  cases es with
  | nil => simp
  | cons q es =>
    cases hq : q.ok with
    | true =>
      simp only [List.foldl_cons, Progress.step, hq, if_true, @Progress.foldl_over (.finished false) rfl]
      simp only [Progress.finished.injEq, Bool.false_eq_true, false_iff]
      rintro ⟨e, b, f, rest, he, hok, -⟩
      obtain ⟨rfl, -⟩ := List.cons.inj he
      simp [hq] at hok
    | false =>
      simp only [List.foldl_cons, Progress.step, hq, Bool.false_eq_true, if_false, Progress.retry]
      split
      next hmax =>
        rw [Progress.foldl_over rfl]
        simp only [reduceCtorEq, false_iff]
        rintro ⟨e, b, f, rest, -, -, -, -, hlen⟩
        omega
      next hmax =>
        rw [Progress.foldl_again (by omega)]
        constructor
        · rintro ⟨b, f, rest, rfl, hb, hf, hlen⟩
          exact ⟨q, b, f, rest, rfl, hq, hb, hf, by omega⟩
        · rintro ⟨e, b, f, rest, he, -, hb, hf, hlen⟩
          exact ⟨b, f, rest, (List.cons.inj he).2, hb, hf, by omega⟩

theorem Progress.foldl_first {es : List Irq} :
    es.foldl Progress.step (.first n) = .finished true ↔
      ∃ a p e b f rest, es = a ++ p :: e :: (b ++ f :: rest) ∧ (∀ x ∈ a, x.ok = false) ∧ p.ok = true ∧
        e.ok = false ∧ (∀ x ∈ b, x.ok = false) ∧ f.ok = true ∧ n + a.length + b.length + 1 ≤ maxErrors := by
  induction es generalizing n with
  | nil => simp
  | cons q es ih =>
    cases hq : q.ok with
    | true =>
      simp only [List.foldl_cons, Progress.step, hq, if_true, Progress.foldl_second]
      constructor
      · rintro ⟨e, b, f, rest, rfl, he, hb, hf, hlen⟩
        exact ⟨[], q, e, b, f, rest, rfl, by simp, hq, he, hb, hf, by simpa using hlen⟩
      · rintro ⟨a, p, e, b, f, rest, heq, ha, hp, he, hb, hf, hlen⟩
        cases a with
        | nil => exact ⟨e, b, f, rest, (List.cons.inj heq).2, he, hb, hf, by simpa using hlen⟩
        | cons x a =>
          have hx := ha x (by simp)
          rw [← (List.cons.inj heq).1, hq] at hx
          simp at hx
    | false =>
      simp only [List.foldl_cons, Progress.step, hq, Bool.false_eq_true, if_false, Progress.retry]
      split
      next hmax =>
        rw [Progress.foldl_over rfl]
        simp only [reduceCtorEq, false_iff]
        rintro ⟨a, p, e, b, f, rest, -, -, -, -, -, -, hlen⟩
        omega
      next hmax =>
        rw [ih]
        constructor
        · rintro ⟨a, p, e, b, f, rest, rfl, ha, hp, he, hb, hf, hlen⟩
          exact ⟨q :: a, p, e, b, f, rest, by simp, by simpa [hq] using ha, hp, he, hb, hf, by simp; omega⟩
        · rintro ⟨a, p, e, b, f, rest, heq, ha, hp, he, hb, hf, hlen⟩
          cases a with
          | nil =>
            obtain ⟨rfl, -⟩ := List.cons.inj heq
            simp [hq] at hp
          | cons x a =>
            exact ⟨a, p, e, b, f, rest, (List.cons.inj heq).2, fun y hy => ha y (by simp [hy]), hp, he, hb, hf,
              by simp at hlen; omega⟩

theorem secondSectorFails_iff {es : List Irq} :
    SecondSectorFails es ↔ es.foldl Progress.step (.first 0) = .finished true := by
  rw [Progress.foldl_first]
  unfold SecondSectorFails
  simp only [Nat.zero_add]

theorem resetHd_total {nr : Int} (h : 0 ≤ nr ∧ nr ≤ 1) : ∃ s', resetHd s nr = some s' := by
  have hn : ¬ (nr < 0 ∨ 1 < nr ∨ 15 < nrHeads - 1) := by simp [nrHeads]; omega
  exact ⟨_, if_neg hn⟩

theorem doRequest_total (h : ∀ r, s.thisRequest = some r → (s.request r).cmd ≠ .winSpecify ∧
    0 ≤ (s.request r).hd ∧ (s.request r).hd ≤ 1 ∧ (s.request r).head ≤ 15) : ∃ s', doRequest s q = some s' := by
  unfold doRequest
  split
  next => exact ⟨s, rfl⟩
  next =>
    split
    next => exact ⟨_, rfl⟩
    next r hr =>
      obtain ⟨hcmd, hdrive⟩ := h r hr
      have hout : ∀ i, ∃ t, hdOut s (s.request r).hd (s.request r).nsector (s.request r).sector (s.request r).head
          (s.request r).cyl (s.request r).cmd i = some t := fun i => ⟨_, if_neg (by omega)⟩
      dsimp only
      split
      next =>
        obtain ⟨t, ht⟩ := hout .writeIntr
        rw [ht]
        dsimp only
        split
        next => exact ⟨_, rfl⟩
        next => exact resetHd_total ⟨hdrive.1, hdrive.2.1⟩
      next => exact hout .readIntr
      next hs => exact absurd hs hcmd

/-- No interrupt panics while the only request of the list is served. -/
theorem Progress.Holds.total {pr : Progress} {issued : Bool} (ha : Asks (s0.request r) read b p)
    (hdrive : (s0.request r).hd ≤ 1) (hhead : (s0.request r).head ≤ 15) (hlast : (s0.request r).next = none)
    (ho : pr.over = false) (h : pr.Holds s0 r b read p issued s) : ∃ s', hdInterrupt s q = some s' := by
  have hreset : ∀ {k n : Nat}, s0.Serving s r b read p k n → s.Resetting → ∃ s', hdInterrupt s q = some s' := by
    intro k n hs hr
    obtain ⟨⟨pl, count, hc⟩, hdo⟩ := hr
    rw [hdInterrupt_some hc hdo]
    refine doRequest_total fun r' hr' => ?_
    cases Option.some.inj (hs.first.symm.trans hr')
    simp only [moveSector_request, hs.request, ha.cmd]
    exact ⟨by cases read <;> simp [rwCmd], ha.drive, hdrive, hhead⟩
  have hissued : ∀ {k n count : Nat} {pl : Place} {half : Sector}, s0.Serving s r b read p k n → pl = p ∨ pl = p.succ →
      s.Issued read pl count half → ∃ s', hdInterrupt s q = some s' := by
    intro k n count pl half hs hpl hi
    have hm : s0.Serving (moveSector s ⟨rwCmd read, pl, count⟩ q) r b read p k n := hs.moved hpl
    rw [hi.interrupt]
    cases hq : q.ok with
    | false =>
      have hbad : ∃ s', badRwIntr (moveSector s ⟨rwCmd read, pl, count⟩ q) = some s' := by
        simp only [badRwIntr, hm.first, hm.request]
        exact resetHd_total ⟨ha.drive, hdrive⟩
      cases read <;> simpa [readIntr, writeIntr, hq] using hbad
    | true =>
      have hdone : ∀ req bh, req.next = none →
          ∃ s', doRequest (endRequest (moveSector s ⟨rwCmd read, pl, count⟩ q) r req bh) q = some s' := by
        intro req bh hnext
        refine doRequest_total fun r' hr' => ?_
        simp [endRequest, hnext] at hr'
      cases read with
      | true =>
        simp only [if_true, readIntr, hq, Bool.true_eq_false, if_false, hm.first, hm.request]
        split
        next => exact ⟨_, rfl⟩
        next => exact hdone _ _ hlast
      | false =>
        simp only [Bool.false_eq_true, writeIntr, hq, Bool.true_eq_false, if_false, hm.first, hm.request]
        split
        next => exact ⟨_, rfl⟩
        next => exact hdone _ _ hlast
  cases pr with
  | first n =>
    cases issued with
    | true => exact hissued h.1 (Or.inl rfl) h.2
    | false => exact hreset h.1 h.2
  | second n => exact hissued h.2.1 (Or.inr rfl) h.2.2.2
  | again n =>
    cases issued with
    | true => exact hissued h.1 (Or.inl rfl) h.2
    | false => exact hreset h.1 h.2
  | finished spoilt => simp [Progress.over] at ho
  | failed => simp [Progress.over] at ho

theorem serve_total {pr : Progress} {issued : Bool} {qs : List Irq} (ha : Asks (s0.request r) read b p)
    (hdrive : (s0.request r).hd ≤ 1) (hhead : (s0.request r).head ≤ 15) (hlast : (s0.request r).next = none)
    (h : pr.Holds s0 r b read p issued s) : ∃ s', serve r s qs = some s' := by
  induction qs generalizing s pr issued with
  | nil => exact ⟨s, rfl⟩
  | cons q qs ih =>
    unfold serve
    split
    next => exact ⟨s, rfl⟩
    next hpos =>
      have ho : pr.over = false := by
        rw [← Bool.not_eq_true]
        exact fun ho => hpos ((h.hd_neg ha).mpr ho)
      obtain ⟨t, ht⟩ := h.total (q := q) ha hdrive hhead hlast ho
      rw [ht]
      cases issued with
      | true => exact ih (h.step ha ho ht)
      | false => exact ih (h.issue ha ho ht)

theorem Hd.Queued.start {nr sec head cyl : Nat} {qs : List Irq} (h : s.Queued r read nr sec head cyl b)
    (hd : doRequest s q = some s0) (hs : serve r s0 qs = some s') :
    ∃ issued, ((examined (rwCmd read) false (q :: qs)).foldl Progress.step (.first 0)).Holds s r b read
      (placeOf nr sec head cyl) issued s' := by
  have ha := h.asks
  have hf := h.filled
  simp only [fillRequest, HdRequest.mk.injEq] at hf
  have hserve : s.Serving s r b read (placeOf nr sec head cyl) 2 0 := by
    refine ⟨h.first, h.sorted, ?_, rfl, by cases read <;> simp⟩
    have hns := hf.2.1
    have her := hf.2.2.2.2.2.2.1
    cases hreq : s.request r with
    | mk => simp_all
  have hread : decide (rwCmd read = .winRead) = read := by cases read <;> rfl
  have hfirst : (Progress.first 0).Holds s r b read (placeOf nr sec head cyl) (read || q.drq) s0 := hserve.issue ha hd
  simp only [examined, hread]
  exact serve_progress ha hfirst hs

/-- A disk and a buffer on which every misplaced sector shows. -/
def loneTransfer (read : Bool) (nr sec head cyl : Nat) : Hd where
  request := fun _ => fillRequest read nr sec head cyl 0
  thisRequest := some 0
  sorting := false
  doHd := none
  command := none
  port := 0
  disk := fun p => if p = placeOf nr sec head cyl then 0 else 1
  bh := fun _ => { dataLo := 0, dataHi := 1, bDirt := true, bLock := true }

/-- Transfers survive exactly the sequences in which the second sector of the pair does not fail
before the retry that completes the request. -/
theorem transferIntact_iff {nr sec head cyl : Nat} {qs : List Irq} (hnr : nr ≤ 1) (hhead : head ≤ 15) :
    TransferIntact read nr sec head cyl q qs ↔ ¬ SecondSectorFails (examined (rwCmd read) false (q :: qs)) := by
  rw [secondSectorFails_iff]
  constructor
  · intro hintact hspoilt
    have hq : (loneTransfer read nr sec head cyl).Queued 0 read nr sec head cyl 0 := ⟨rfl, rfl, rfl, fun _ => rfl⟩
    obtain ⟨s1, h1⟩ : ∃ s1, doRequest (loneTransfer read nr sec head cyl) q = some s1 := by
      refine doRequest_total fun r' _ => ?_
      simp only [loneTransfer, fillRequest]
      exact ⟨by cases read <;> simp, by omega, by omega, hhead⟩
    have hserve : (loneTransfer read nr sec head cyl).Serving (loneTransfer read nr sec head cyl) 0 0 read
        (placeOf nr sec head cyl) 2 0 := ⟨rfl, rfl, rfl, rfl, by cases read <;> simp⟩
    have hfirst : (Progress.first 0).Holds _ 0 0 read (placeOf nr sec head cyl) (read || q.drq) s1 :=
      hserve.issue hq.asks h1
    obtain ⟨s', hs⟩ : ∃ s', serve 0 s1 qs = some s' :=
      serve_total hq.asks (by simp [loneTransfer, fillRequest]; omega) hhead rfl hfirst
    obtain ⟨issued, hend⟩ := hq.start h1 hs
    rw [hspoilt] at hend
    have hmoved := hintact _ _ _ _ _ hq h1 hs hend.1
    have hsucc := (placeOf nr sec head cyl).succ_ne
    cases read with
    | true =>
      obtain ⟨hup, hhi, hdisk⟩ := hend.2
      have hbad := (hmoved hup).2.1
      rw [hhi, hdisk] at hbad
      simp [loneTransfer, hsucc] at hbad
    | false =>
      obtain ⟨hdirt, hplace, hlo⟩ := hend.2
      have hbad := (hmoved hdirt).1
      rw [hplace, hlo] at hbad
      simp [loneTransfer] at hbad
  · intro hspoilt s r b s1 s' hq h1 hs hneg
    obtain ⟨issued, hend⟩ := hq.start h1 hs
    have ho := (hend.hd_neg hq.asks).mp hneg
    cases hp : (examined (rwCmd read) false (q :: qs)).foldl Progress.step (.first 0) with
    | first n => simp [hp, Progress.over] at ho
    | second n => simp [hp, Progress.over] at ho
    | again n => simp [hp, Progress.over] at ho
    | finished spoilt =>
      rw [hp] at hend
      cases spoilt with
      | true => exact absurd hp hspoilt
      | false => exact hend.2
    | failed =>
      rw [hp] at hend
      obtain ⟨-, hup, hdirt⟩ := hend
      unfold Moved
      cases read with
      | true => simp [hup]
      | false => simp [hdirt, hq.dirty]

/-- An error on the first sector is recovered from. -/
theorem transferIntact_after_first_error :
    TransferIntact true 0 1 0 0 ⟨true, 0, true⟩ [⟨false, 0, true⟩, ⟨true, 0, true⟩, ⟨true, 0, true⟩, ⟨true, 0, true⟩] :=
  (transferIntact_iff (by decide) (by decide)).mpr (by rw [secondSectorFails_iff]; decide)

/-- Read, error, `WIN_SPECIFY`, read: the retry puts the first sector into the second half. -/
theorem transfer_spoilt_by_second_error :
    ∃ s1 s', (loneTransfer true 0 1 0 0).Queued 0 true 0 1 0 0 0 ∧
      doRequest (loneTransfer true 0 1 0 0) ⟨true, 0, true⟩ = some s1 ∧
      serve 0 s1 [⟨true, 0, true⟩, ⟨false, 0, true⟩, ⟨true, 0, true⟩, ⟨true, 0, true⟩] = some s' ∧
      (s'.request 0).hd < 0 ∧ (s'.bh 0).bUptodate = true ∧ (s'.bh 0).dataHi = 0 ∧
      s'.disk (placeOf 0 1 0 0).succ = 1 ∧ ¬ Moved true 0 (placeOf 0 1 0 0) (loneTransfer true 0 1 0 0) s' := by
  obtain ⟨s1, s', h1, hs, hneg, hup, hhi, hdisk⟩ :
      ∃ s1 s', doRequest (loneTransfer true 0 1 0 0) ⟨true, 0, true⟩ = some s1 ∧
        serve 0 s1 [⟨true, 0, true⟩, ⟨false, 0, true⟩, ⟨true, 0, true⟩, ⟨true, 0, true⟩] = some s' ∧
        (s'.request 0).hd < 0 ∧ (s'.bh 0).bUptodate = true ∧ (s'.bh 0).dataHi = 0 ∧
        s'.disk (placeOf 0 1 0 0).succ = 1 := ⟨_, _, rfl, rfl, by decide, rfl, rfl, rfl⟩
  refine ⟨s1, s', ⟨rfl, rfl, rfl, fun _ => rfl⟩, h1, hs, hneg, hup, hhi, hdisk, ?_⟩
  intro h
  have hbad := (h hup).2.1
  rw [hhi, hdisk] at hbad
  simp at hbad

end RheeKernel
