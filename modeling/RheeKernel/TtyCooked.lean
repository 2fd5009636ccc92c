import RheeKernel.TtyLines
import RheeKernel.TtyRead

namespace RheeKernel

/-- A task as `tty_intr` looks at it. -/
structure GroupTask where
  pgrp : Int
  signal : Nat
deriving DecidableEq

/-- `tty_intr`; `sig` is the bit of the signal. -/
def ttyIntr (pgrp : Int) (sig : Nat) (task : Nat → Option GroupTask) : Nat → Option GroupTask :=
  if pgrp ≤ 0 then task
  else fun i => if i < nrTasks then (task i).map fun p => if p.pgrp = pgrp then { p with signal := p.signal ||| 2 ^ sig } else p else task i

/-- What becomes of a character of the read queue. -/
inductive CookFate
  | ignore
  | erase
  | stop
  | start
  | intr
  | store (c : BitVec 8)
deriving DecidableEq

namespace Tty

/-- The branches of `copy_to_cooked` for a character as it is read. -/
def kind (t : Tty) (c : BitVec 8) : CookFate :=
  if t.termios.canon ∧ sameChar c t.termios.erase then .erase
  else if t.termios.canon ∧ sameChar c t.termios.stop then .stop
  else if t.termios.canon ∧ sameChar c t.termios.start then .start
  else if ¬ t.termios.isig ∧ sameChar c t.termios.intr then .intr
  else .store c

def fate (t : Tty) (c : BitVec 8) : CookFate := (t.mapped c).elim .ignore t.kind

/-- The next turn of `copy_to_cooked` calls `tty_intr`. -/
def interrupts (t : Tty) : Bool := !t.readQ.isEmpty && !t.secondary.isFull && t.fate t.readQ.first == .intr

/-- GETCH from the read queue. -/
def took (t : Tty) : Tty := { t with readQ := t.readQ.getch }

/-- What the turn does for each of them. -/
def follow (t : Tty) (k : List TtyFrame) : CookFate → TtyRun
  | .ignore => ⟨t, .cooked :: k⟩
  | .erase => t.eraseLast k
  | .stop => ⟨{ t with stopped := true }, .cooked :: k⟩
  | .start => ⟨{ t with stopped := false }, .cooked :: k⟩
  | .intr => ⟨t, .cooked :: k⟩
  | .store c => t.keep c k

end Tty

/-- A call of `copy_to_cooked` for a terminal of the process group `pgrp`. -/
structure CookRun where
  run : TtyRun
  pgrp : Int
  task : Nat → Option GroupTask

/-- What is compared: the secondary queue, the flag and the tasks with their signals. -/
@[ext]
structure Cooked where
  line : List (BitVec 8)
  stopped : Bool
  task : Nat → Option GroupTask

namespace CookRun

def tty (s : CookRun) : Tty := s.run.tty

def view (s : CookRun) : Cooked := ⟨s.tty.secondary.contents, s.tty.stopped, s.task⟩

def next (s : CookRun) : Option CookRun :=
  s.run.next.map fun r =>
    { s with run := r, task := if s.run.frames.head? = some .cooked ∧ s.tty.interrupts then ttyIntr s.pgrp sigInt s.task else s.task }

def step (s : CookRun) (_ : Unit) : Option CookRun := s.next

/-- The console is about to answer an echo, which puts its answer into the read queue. -/
def answers (s : CookRun) : Prop := s.run.frames.head? = some .respond

end CookRun

/-- The character that is taken for what. -/
def CookFate.Takes (t : Termios) (c : BitVec 8) : CookFate → Prop
  | .ignore => False
  | .erase => c = t.erase
  | .stop => c = t.stop
  | .start => c = t.start
  | .intr => c = t.intr
  | .store b => c = b

namespace Termios

def lower (c : BitVec 8) : BitVec 8 := if 65 ≤ c.toNat ∧ c.toNat ≤ 90 then c + 32 else c

/-- IGNCR drops a CR, ICRNL makes it a NL, INLCR makes a NL a CR, and IUCLC makes letters lower case. -/
def reads (t : Termios) (c : BitVec 8) : Option (BitVec 8) :=
  let c := if c = 13 then if t.nocr then none else if t.crnl then some 10 else some 13
    else if c = 10 ∧ t.nlcr then some 13 else some c
  c.map fun c => if t.uclc then lower c else c

/-- ICANON enables ERASE, STOP and START, and ISIG enables INTR. -/
def kind (t : Termios) (c : BitVec 8) : CookFate :=
  if t.canon ∧ c = t.erase then .erase
  else if t.canon ∧ c = t.stop then .stop
  else if t.canon ∧ c = t.start then .start
  else if t.isig ∧ c = t.intr then .intr
  else .store c

def fate (t : Termios) (c : BitVec 8) : CookFate := (t.reads c).elim .ignore t.kind

/-- The characters that end a line. -/
def ends (t : Termios) (c : BitVec 8) : Bool := c = 10 || c = t.eof

end Termios

namespace Cooked

/-- What becomes of the queue, the flag and the tasks. ERASE takes back the last character of the line that has not ended. -/
def act (ends : BitVec 8 → Bool) (pgrp : Int) (s : Cooked) : CookFate → Cooked
  | .ignore => s
  | .erase => if s.line.getLast?.all ends then s else { s with line := s.line.dropLast }
  | .stop => { s with stopped := true }
  | .start => { s with stopped := false }
  | .intr => { s with task := ttyIntr pgrp sigInt s.task }
  | .store c => { s with line := s.line ++ [c] }

/-- The reference for one character. -/
def reference (t : Termios) (pgrp : Int) (s : Cooked) (c : BitVec 8) : Cooked := s.act t.ends pgrp (t.fate c)

end Cooked

/-- The call comes to its end with what the reference makes of the characters in the read queue, if the console does not answer an echo. -/
def CookRun.Implements (s : CookRun) : Prop :=
  ∃ s', Machine.Reach CookRun.step (fun _ _ => True) s s' ∧
    (s'.answers ∨ s'.run.frames = [] ∧ s'.view = s.tty.readQ.contents.foldl (Cooked.reference s.tty.termios s.pgrp) s.view)

namespace Tty

/-- As a special character in canonical mode `c` is below 128, and so is EOF if `c` is ERASE; and `c` is not INTR, unless ISIG is clear and it
is not below 128. -/
def PlainKind (t : Tty) (c : BitVec 8) : Prop :=
  if t.termios.canon = true ∧ (c = t.termios.erase ∨ c = t.termios.stop ∨ c = t.termios.start) then
    0 ≤ c.toInt ∧ (c = t.termios.erase → 0 ≤ t.termios.eof.toInt)
  else c = t.termios.intr → t.termios.isig = false ∧ c.toInt < 0

/-- The code reads `c` as the reference does: it is no CR that is to be both dropped and mapped, and no letter that is to be made lower case. -/
def Plain (t : Tty) (c : BitVec 8) : Prop :=
  (c = 13 → t.termios.nocr = true → t.termios.crnl = false) ∧ (t.termios.uclc = true → t.isUpper c = false) ∧
    ∀ b, t.termios.reads c = some b → t.PlainKind b

end Tty

variable {t : Tty} {s s' : CookRun} {k : List TtyFrame} {b c : BitVec 8} {bs : List (BitVec 8)}

namespace Tty

theorem cook_kind : t.cook c k = t.follow k (t.kind c) := by
  unfold cook kind
  split
  next => rfl
  next =>
    split
    next => rfl
    next =>
      split
      next => rfl
      next => split <;> rfl

theorem copyToCooked_fate (hread : t.readQ.isEmpty = false) (hroom : t.secondary.isFull = false) :
    t.copyToCooked k = t.took.follow k (t.fate t.readQ.first) := by
  unfold copyToCooked
  rw [if_neg (by rw [hread, hroom]; decide)]
  change (t.mapped t.readQ.first).elim ⟨t.took, .cooked :: k⟩ (fun c => t.took.cook c k) = _
  unfold fate
  cases t.mapped t.readQ.first with
  | none => rfl
  | some c => exact cook_kind

theorem eraseLast_some (h : ¬ (t.secondary.isEmpty = true ∨ t.isEnd t.secondary.last = true)) : t.eraseLast k =
    if t.termios.echo then ⟨{ t with writeQ := t.writeQ.putAll (rubbed t.secondary.last) }, .write :: .dec :: .cooked :: k⟩
    else ⟨{ t with secondary := t.secondary.dec }, .cooked :: k⟩ := by
  unfold eraseLast
  rw [if_neg h]

theorem keep_counted : t.keep c k =
    if t.termios.echo then ⟨{ t with secondary := t.counted c, writeQ := t.writeQ.putAll (t.echoed c) }, .write :: .put c :: .cooked :: k⟩
    else ⟨{ t with secondary := (t.counted c).putch c }, .cooked :: k⟩ := by
  unfold keep counted
  split <;> rfl

theorem sameChar_iff {c cc : BitVec 8} : sameChar c cc = true ↔ c = cc ∧ 0 ≤ c.toInt := by
  have hlt := c.isLt
  refine ⟨fun h => ⟨sameChar_eq h, ?_⟩, fun ⟨h, hpos⟩ => decide_eq_true ?_⟩
  · have h : c.toInt = cc.toNat := of_decide_eq_true h
    omega
  · rw [← h]
    rw [BitVec.toInt_eq_toNat_cond] at hpos ⊢
    split
    next => rfl
    next hbig =>
      rw [if_neg hbig] at hpos
      omega

theorem isEnd_eq_ends : (∀ b, t.isEnd b = t.termios.ends b) ↔ 0 ≤ t.termios.eof.toInt := by
  unfold isEnd Termios.ends
  constructor
  · intro h
    have heof := h t.termios.eof
    rw [decide_eq_true (rfl : t.termios.eof = t.termios.eof), Bool.or_true] at heof
    rcases Bool.or_eq_true_iff.mp heof with h10 | hsame
    · rw [of_decide_eq_true h10]
      decide
    · exact (sameChar_iff.mp hsame).2
  · intro h b
    congr 1
    by_cases hb : b = t.termios.eof
    · rw [decide_eq_true hb]
      exact sameChar_iff.mpr ⟨hb, hb ▸ h⟩
    · rw [decide_eq_false hb]
      exact Bool.eq_false_iff.mpr fun hsame => hb (sameChar_iff.mp hsame).1

/-- A character below 128 is compared as it is. -/
theorem kind_low (h : 0 ≤ c.toInt) : t.kind c =
    if t.termios.canon ∧ c = t.termios.erase then .erase
    else if t.termios.canon ∧ c = t.termios.stop then .stop
    else if t.termios.canon ∧ c = t.termios.start then .start
    else if ¬ t.termios.isig ∧ c = t.termios.intr then .intr
    else .store c := by
  have hsame : ∀ cc, (sameChar c cc = true) = (c = cc) := fun cc => propext (sameChar_iff.trans (and_iff_left h))
  unfold kind
  simp only [hsame]

theorem kind_high (h : c.toInt < 0) : t.kind c = .store c := by
  have hsame : ∀ cc, sameChar c cc = false := fun cc => Bool.eq_false_iff.mpr fun hs => absurd (sameChar_iff.mp hs).2 (by omega)
  unfold kind
  simp [hsame]

/-- Which tests a character below 128 passes is the same, but for ISIG. -/
theorem kind_eq_iff_low (h : 0 ≤ c.toInt) :
    (t.kind c = t.termios.kind c ∧ (t.kind c = .erase → 0 ≤ t.termios.eof.toInt)) ↔ t.PlainKind c := by
  rw [kind_low h]
  unfold PlainKind Termios.kind
  by_cases herase : t.termios.canon ∧ c = t.termios.erase
  · rw [if_pos herase, if_pos herase, if_pos ⟨herase.1, .inl herase.2⟩]
    exact ⟨fun hk => ⟨h, fun _ => hk.2 rfl⟩, fun hk => ⟨rfl, fun _ => hk.2 herase.2⟩⟩
  rw [if_neg herase, if_neg herase]
  by_cases hstop : t.termios.canon ∧ c = t.termios.stop
  · rw [if_pos hstop, if_pos hstop, if_pos ⟨hstop.1, .inr (.inl hstop.2)⟩]
    exact ⟨fun _ => ⟨h, fun hc => absurd ⟨hstop.1, hc⟩ herase⟩, fun _ => ⟨rfl, fun hk => CookFate.noConfusion hk⟩⟩
  rw [if_neg hstop, if_neg hstop]
  by_cases hstart : t.termios.canon ∧ c = t.termios.start
  · rw [if_pos hstart, if_pos hstart, if_pos ⟨hstart.1, .inr (.inr hstart.2)⟩]
    exact ⟨fun _ => ⟨h, fun hc => absurd ⟨hstart.1, hc⟩ herase⟩, fun _ => ⟨rfl, fun hk => CookFate.noConfusion hk⟩⟩
  have hspecial : ¬ (t.termios.canon = true ∧ (c = t.termios.erase ∨ c = t.termios.stop ∨ c = t.termios.start)) := by
    rintro ⟨hc, hs | hs | hs⟩
    · exact herase ⟨hc, hs⟩
    · exact hstop ⟨hc, hs⟩
    · exact hstart ⟨hc, hs⟩
  rw [if_neg hstart, if_neg hstart, if_neg hspecial]
  by_cases hintr : c = t.termios.intr
  · have hno : ¬ (c = t.termios.intr → t.termios.isig = false ∧ c.toInt < 0) := fun hk => absurd (hk hintr).2 (by omega)
    refine ⟨fun hk => ?_, fun hk => absurd hk hno⟩
    have hk := hk.1
    cases hsig : t.termios.isig with
    | true =>
      rw [hsig, if_neg (by simp), if_pos ⟨rfl, hintr⟩] at hk
      cases hk
    | false =>
      rw [hsig, if_pos ⟨by simp, hintr⟩, if_neg (by simp)] at hk
      cases hk
  · rw [if_neg fun hk => hintr hk.2, if_neg fun hk => hintr hk.2]
    exact ⟨fun _ hc => absurd hc hintr, fun _ => ⟨rfl, fun hk => CookFate.noConfusion hk⟩⟩

/-- A character not below 128 passes none of the tests of the code. -/
theorem kind_eq_iff_high (h : c.toInt < 0) :
    (t.kind c = t.termios.kind c ∧ (t.kind c = .erase → 0 ≤ t.termios.eof.toInt)) ↔ t.PlainKind c := by
  rw [kind_high h]
  unfold PlainKind Termios.kind
  by_cases hspecial : t.termios.canon = true ∧ (c = t.termios.erase ∨ c = t.termios.stop ∨ c = t.termios.start)
  · rw [if_pos hspecial]
    refine ⟨fun hk => ?_, fun hk => absurd hk.1 (by omega)⟩
    have hk := hk.1
    split at hk
    next => cases hk
    next herase =>
      split at hk
      next => cases hk
      next hstop =>
        split at hk
        next => cases hk
        next hstart =>
          obtain ⟨hc, hs | hs | hs⟩ := hspecial
          · exact absurd ⟨hc, hs⟩ herase
          · exact absurd ⟨hc, hs⟩ hstop
          · exact absurd ⟨hc, hs⟩ hstart
  · rw [if_neg hspecial, if_neg fun hk => hspecial ⟨hk.1, .inl hk.2⟩, if_neg fun hk => hspecial ⟨hk.1, .inr (.inl hk.2)⟩,
      if_neg fun hk => hspecial ⟨hk.1, .inr (.inr hk.2)⟩]
    by_cases hintr : t.termios.isig = true ∧ c = t.termios.intr
    · rw [if_pos hintr]
      refine ⟨fun hk => CookFate.noConfusion hk.1, fun hk => ?_⟩
      have hsig := (hk hintr.2).1
      rw [hintr.1] at hsig
      cases hsig
    · rw [if_neg hintr]
      exact ⟨fun _ hc => ⟨Bool.eq_false_iff.mpr fun hsig => hintr ⟨hsig, hc⟩, h⟩, fun _ => ⟨rfl, fun hk => CookFate.noConfusion hk⟩⟩

theorem kind_eq_iff : (t.kind c = t.termios.kind c ∧ (t.kind c = .erase → ∀ b, t.isEnd b = t.termios.ends b)) ↔ t.PlainKind c := by
  rw [isEnd_eq_ends]
  by_cases h : 0 ≤ c.toInt
  · exact kind_eq_iff_low h
  · exact kind_eq_iff_high (by omega)

theorem kind_takes : (t.kind c).Takes t.termios c := by
  unfold kind
  split
  next h => exact sameChar_eq h.2
  next =>
    split
    next h => exact sameChar_eq h.2
    next =>
      split
      next h => exact sameChar_eq h.2
      next =>
        split
        next h => exact sameChar_eq h.2
        next => rfl

theorem reference_takes {t : Termios} : (t.kind c).Takes t c := by
  unfold Termios.kind
  split
  next h => exact h.2
  next =>
    split
    next h => exact h.2
    next =>
      split
      next h => exact h.2
      next =>
        split
        next h => exact h.2
        next => rfl

/-- What the code and the reference take a character for tells which one it is. -/
theorem kind_inj (h : t.kind b = t.termios.kind c) : b = c := by
  have hb := @kind_takes t b
  have hc := @reference_takes c t.termios
  rw [h] at hb
  cases hf : t.termios.kind c with
  | ignore => rw [hf] at hc; exact hc.elim
  | erase | stop | start | intr | store => rw [hf] at hb hc; exact Eq.trans hb (Eq.symm hc)

/-- Before letters are made lower case the code and the reference make the same of a character. -/
theorem mapped_reads (h : ¬ (c = 13 ∧ t.termios.nocr = true ∧ t.termios.crnl = true)) : ∃ p : Option (BitVec 8),
    t.mapped c = p.map (fun d => if t.termios.uclc then t.toLower d else d) ∧
      t.termios.reads c = p.map (fun d => if t.termios.uclc then Termios.lower d else d) ∧
      (∀ d, p = some d → t.isUpper d = t.isUpper c) ∧ (p = none → t.isUpper c = false) := by
  unfold mapped Termios.reads
  dsimp only
  by_cases h13 : c = 13
  · rw [if_pos h13, if_pos h13, h13]
    cases hno : t.termios.nocr with
    | false =>
      refine ⟨_, rfl, rfl, fun d hd => ?_, fun _ => rfl⟩
      cases hcrnl : t.termios.crnl <;> rw [hcrnl] at hd <;> cases hd <;> rfl
    | true =>
      have hcrnl : t.termios.crnl = false := Bool.eq_false_iff.mpr fun hcrnl => h ⟨h13, hno, hcrnl⟩
      rw [hcrnl]
      exact ⟨none, rfl, rfl, (fun d hd => by cases hd), fun _ => rfl⟩
  · rw [if_neg h13, if_neg h13]
    refine ⟨_, rfl, rfl, fun d hd => ?_, fun hd => ?_⟩
    · split at hd
      next hnl =>
        cases hd
        rw [hnl.1]
        rfl
      next => cases hd; rfl
    · split at hd <;> cases hd

theorem lower_of_not_upper (h : t.isUpper c = false) : t.toLower c = c ∧ Termios.lower c = c := by
  have hlt := c.isLt
  refine ⟨?_, ?_⟩
  · unfold toLower
    rw [h]
    rfl
  · unfold Termios.lower
    refine if_neg fun hletter => ?_
    have htoInt : c.toInt = c.toNat := by
      rw [BitVec.toInt_eq_toNat_cond]
      exact if_pos (by omega)
    unfold isUpper at h
    rw [if_pos (by omega)] at h
    exact of_decide_eq_false h (by omega)

/-- `tolower` makes no letter lower case. -/
theorem toLower_ne (h : t.isUpper c = true) : t.toLower c ≠ Termios.lower c := by
  unfold toLower Termios.lower
  rw [if_pos h]
  split
  next => bv_omega
  next => bv_omega

theorem fate_eq_iff : (t.fate c = t.termios.fate c ∧ (t.fate c = .erase → ∀ b, t.isEnd b = t.termios.ends b)) ↔ t.Plain c := by
  unfold fate Termios.fate Plain
  by_cases hcr : c = 13 ∧ t.termios.nocr = true ∧ t.termios.crnl = true
  · -- The reference drops the CR and the code reads a NL.
    obtain ⟨h13, hno, hcrnl⟩ := hcr
    have hmapped : ∃ b, t.mapped c = some b := by
      unfold mapped
      rw [if_pos h13, if_pos hcrnl]
      exact ⟨_, rfl⟩
    have hreads : t.termios.reads c = none := by
      unfold Termios.reads
      rw [if_pos h13, if_pos hno]
      rfl
    obtain ⟨b, hb⟩ := hmapped
    rw [hb, hreads]
    refine ⟨fun h => ?_, fun h => ?_⟩
    · have htakes := @kind_takes t b
      rw [show t.kind b = .ignore from h.1] at htakes
      exact htakes.elim
    · have := h.1 h13 hno
      rw [hcrnl] at this
      cases this
  · obtain ⟨p, hmapped, hreads, hupper, hnone⟩ := mapped_reads hcr
    have hfirst : c = 13 → t.termios.nocr = true → t.termios.crnl = false :=
      fun h13 hno => Bool.eq_false_iff.mpr fun hcrnl => hcr ⟨h13, hno, hcrnl⟩
    rw [hmapped, hreads]
    cases p with
    | none => exact ⟨fun _ => ⟨hfirst, fun _ => hnone rfl, fun b hb => by cases hb⟩, fun _ => ⟨rfl, fun h => CookFate.noConfusion h⟩⟩
    | some d =>
      have hd := hupper d rfl
      by_cases hlower : t.termios.uclc = true ∧ t.isUpper c = true
      · -- The letter comes out as another character than the reference's.
        have hne : t.kind (t.toLower d) ≠ t.termios.kind (Termios.lower d) := fun hk =>
          toLower_ne (hd.trans hlower.2) (kind_inj hk)
        refine ⟨fun h => ?_, fun h => ?_⟩
        · have h := h.1
          rw [Option.map_some, Option.map_some, if_pos hlower.1, if_pos hlower.1] at h
          exact absurd h hne
        · have := h.2.1 hlower.1
          rw [hlower.2] at this
          cases this
      · have hplain : t.termios.uclc = true → t.isUpper c = false := fun hu => Bool.eq_false_iff.mpr fun hup => hlower ⟨hu, hup⟩
        have hsame : (if t.termios.uclc then t.toLower d else d) = d ∧ (if t.termios.uclc then Termios.lower d else d) = d := by
          cases hu : t.termios.uclc with
          | false => exact ⟨rfl, rfl⟩
          | true => exact lower_of_not_upper (hd.trans (hplain hu))
        rw [Option.map_some, Option.map_some, hsame.1, hsame.2]
        refine (kind_eq_iff (c := d)).trans ⟨fun h => ⟨hfirst, hplain, fun b hb => ?_⟩, fun h => h.2.2 d rfl⟩
        cases hb
        exact h

end Tty

/-- A task of group 1 that INTR reaches. -/
def groupOne (i : Nat) : Option GroupTask := if i = 1 then some ⟨1, 0⟩ else none

theorem ttyIntr_groupOne : ttyIntr 1 sigInt groupOne ≠ groupOne := fun h => by
  have := congrFun h 1
  revert this
  decide

/-- What the fates do to a line of one character that does not end it. -/
theorem Cooked.act_single {p : BitVec 8 → Bool} {f : CookFate} {x : BitVec 8} {stopped : Bool} (hp : p x = false) :
    Cooked.act p 1 ⟨[x], stopped, groupOne⟩ f =
      ⟨match f with | .erase => [] | .store c => [x, c] | _ => [x], match f with | .stop => true | .start => false | _ => stopped,
        match f with | .intr => ttyIntr 1 sigInt groupOne | _ => groupOne⟩ := by
  cases f with
  | erase =>
    unfold Cooked.act
    rw [if_neg (by simp [hp])]
    rfl
  | ignore | stop | start | intr | store => rfl

/-- Two fates that do the same to every line of one character are the same, and erase the same characters. -/
theorem Cooked.act_separates {p q : BitVec 8 → Bool} {f g : CookFate} {x : BitVec 8} (hp : p x = false) (hq : q x = false)
    (h : ∀ b stopped, Cooked.act p 1 ⟨[b], stopped, groupOne⟩ f = Cooked.act q 1 ⟨[b], stopped, groupOne⟩ g) :
    f = g ∧ (f = .erase → ∀ b, p b = q b) := by
  have hline := congrArg Cooked.line (h x true)
  have hstart := congrArg Cooked.stopped (h x true)
  have hstop := congrArg Cooked.stopped (h x false)
  have htask := congrArg Cooked.task (h x true)
  rw [act_single hp, act_single hq] at hline hstart hstop htask
  have hfate : f = g := by
    cases f <;> cases g <;> first
      | rfl
      | (cases hline; done)
      | (cases hstart; done)
      | (cases hstop; done)
      | exact absurd htask ttyIntr_groupOne
      | exact absurd htask.symm ttyIntr_groupOne
      | (cases hline; rfl)
  refine ⟨hfate, fun herase b => ?_⟩
  have hb := congrArg Cooked.line (h b true)
  rw [← hfate, herase] at hb
  unfold Cooked.act at hb
  dsimp only at hb
  rw [List.getLast?_singleton, Option.all_some, Option.all_some] at hb
  cases hpb : p b <;> cases hqb : q b <;> rw [hpb, hqb] at hb <;> first
    | rfl
    | cases hb

namespace CookRun

/-- What `tty->write` leaves alone. -/
structure Same (s s' : CookRun) : Prop where
  readQ : s'.tty.readQ = s.tty.readQ
  secondary : s'.tty.secondary = s.tty.secondary
  stopped : s'.tty.stopped = s.tty.stopped
  termios : s'.tty.termios = s.tty.termios
  upper : s'.tty.upper = s.tty.upper
  pgrp : s'.pgrp = s.pgrp
  task : s'.task = s.task

theorem Same.trans {u : CookRun} (h : s.Same s') (h' : s'.Same u) : s.Same u :=
  ⟨h'.readQ.trans h.readQ, h'.secondary.trans h.secondary, h'.stopped.trans h.stopped, h'.termios.trans h.termios, h'.upper.trans h.upper,
    h'.pgrp.trans h.pgrp, h'.task.trans h.task⟩

theorem step_inner {r : TtyRun} (hr : s.run.next = some r) (hframes : s.run.frames.head? ≠ some .cooked) :
    s.step () = some { s with run := r } := by
  unfold step next
  rw [hr, if_neg fun h => hframes h.1]
  rfl

/-- The call comes from `s` to `s'`. -/
def Goes (s s' : CookRun) : Prop := Machine.Reach step (fun _ _ => True) s s'

theorem Goes.trans {u : CookRun} (h : s.Goes s') (h' : s'.Goes u) : s.Goes u := Machine.Reach.trans h h'

theorem Goes.one (h : s.step () = some s') : s.Goes s' := .next .start trivial h

theorem conWrite_goes {nr : Nat} (h : s.run.frames = .conWrite nr :: k) (hcon : s.tty.console.isSome = true) :
    ∃ s', s.Goes s' ∧ (s'.answers ∨ s'.run.frames = k ∧ s.Same s') := by
  induction nr generalizing s with
  | zero =>
    have hr : s.run.next = some ⟨s.tty, k⟩ := by
      unfold TtyRun.next
      rw [h]
      rfl
    exact ⟨_, .one (step_inner hr (by rw [h]; simp)), .inr ⟨rfl, rfl, rfl, rfl, rfl, rfl, rfl, rfl⟩⟩
  | succ nr ih =>
    obtain ⟨con, hsome⟩ := Option.isSome_iff_exists.mp hcon
    have hr : s.run.next = some (s.tty.conWrite con nr k) := by
      unfold TtyRun.next
      rw [h]
      dsimp only
      rw [show s.run.tty.console = some con from hsome]
      rfl
    have hone := Goes.one (step_inner hr (by rw [h]; simp))
    by_cases hask : con.asks s.tty.writeQ.first = true
    · refine ⟨_, hone, .inl ?_⟩
      unfold answers Tty.conWrite
      dsimp only
      rw [if_pos hask]
      rfl
    · obtain ⟨s', hgoes, hend⟩ := @ih { s with run := s.tty.conWrite con nr k } (by unfold Tty.conWrite; dsimp only; rw [if_neg hask]) rfl
      refine ⟨s', hone.trans hgoes, hend.imp_right fun ⟨hframes, hsame⟩ => ⟨hframes, Same.trans ?_ hsame⟩⟩
      exact ⟨rfl, rfl, rfl, rfl, rfl, rfl, rfl⟩

theorem write_goes (h : s.run.frames = .write :: k) : ∃ s', s.Goes s' ∧ (s'.answers ∨ s'.run.frames = k ∧ s.Same s') := by
  have hr : s.run.next = some (s.tty.write k) := by
    unfold TtyRun.next
    rw [h]
    rfl
  have hone := Goes.one (step_inner hr (by rw [h]; simp))
  by_cases hcon : s.tty.console.isSome = true
  · have hwrite : s.tty.write k = ⟨s.tty, .conWrite s.tty.writeQ.chars :: k⟩ := if_pos hcon
    rw [hwrite] at hone
    obtain ⟨s', hgoes, hend⟩ := conWrite_goes (s := { s with run := ⟨s.tty, .conWrite s.tty.writeQ.chars :: k⟩ }) rfl hcon
    refine ⟨s', hone.trans hgoes, hend.imp_right fun ⟨hframes, hsame⟩ => ⟨hframes, Same.trans ?_ hsame⟩⟩
    exact ⟨rfl, rfl, rfl, rfl, rfl, rfl, rfl⟩
  · have hwrite : s.tty.write k = ⟨s.tty, k⟩ := if_neg hcon
    rw [hwrite] at hone
    exact ⟨_, hone, .inr ⟨rfl, rfl, rfl, rfl, rfl, rfl, rfl, rfl⟩⟩

/-- A turn of the loop is over: the character has had its fate. -/
structure Turned (s s' : CookRun) (f : CookFate) : Prop where
  readQ : s'.tty.readQ = s.tty.readQ.getch
  view : s'.view = s.view.act s.tty.isEnd s.pgrp f
  termios : s'.tty.termios = s.tty.termios
  upper : s'.tty.upper = s.tty.upper
  pgrp : s'.pgrp = s.pgrp
  room : s'.tty.secondary.chars ≤ s.tty.secondary.chars + 1

/-- The state behind the first step of a turn. -/
def turn (s : CookRun) (k : List TtyFrame) (f : CookFate) : CookRun :=
  { s with
    run := s.tty.took.follow k f
    task := if f = .intr then ttyIntr s.pgrp sigInt s.task else s.task }

theorem step_cooked (h : s.run.frames = .cooked :: k) (hread : s.tty.readQ.isEmpty = false) (hroom : s.tty.secondary.isFull = false) :
    s.step () = some (s.turn k (s.tty.fate s.tty.readQ.first)) := by
  have hr : s.run.next = some (s.tty.took.follow k (s.tty.fate s.tty.readQ.first)) := by
    unfold TtyRun.next
    rw [h]
    exact congrArg some (Tty.copyToCooked_fate hread hroom)
  have hintr : (s.run.frames.head? = some .cooked ∧ s.tty.interrupts = true) = (s.tty.fate s.tty.readQ.first = .intr) := by
    unfold Tty.interrupts
    rw [h, hread, hroom]
    simp
  unfold step next turn
  rw [hr]
  simp only [hintr]
  rfl

theorem dec_goes (h : s.run.frames = .dec :: k) :
    s.Goes { s with run := ⟨{ s.tty with secondary := s.tty.secondary.dec }, k⟩ } := by
  refine .one (step_inner ?_ (by rw [h]; simp))
  unfold TtyRun.next
  rw [h]
  rfl

theorem put_goes (h : s.run.frames = .put c :: k) :
    s.Goes { s with run := ⟨{ s.tty with secondary := s.tty.secondary.putch c }, k⟩ } := by
  refine .one (step_inner ?_ (by rw [h]; simp))
  unfold TtyRun.next
  rw [h]
  rfl

theorem turn_quiet {f : CookFate} (h : f ≠ .intr) : s.turn k f = { s with run := s.tty.took.follow k f } := by
  unfold turn
  rw [if_neg h]

/-- With nothing to erase the queue stays as it is. -/
theorem view_erase_none (h : s.tty.secondary.isEmpty = true ∨ s.tty.isEnd s.tty.secondary.last = true) :
    s.view.act s.tty.isEnd s.pgrp .erase = s.view := by
  unfold Cooked.act view
  refine if_pos ?_
  by_cases hempty : s.tty.secondary.isEmpty = true
  · rw [TtyQueue.isEmpty_iff_contents.mp hempty]
    rfl
  · rw [TtyQueue.contents_dec (Bool.eq_false_iff.mpr hempty), List.getLast?_concat]
    exact h.resolve_left hempty

theorem view_erase_some (h : ¬ (s.tty.secondary.isEmpty = true ∨ s.tty.isEnd s.tty.secondary.last = true)) :
    s.view.act s.tty.isEnd s.pgrp .erase = { s.view with line := s.tty.secondary.dec.contents } := by
  obtain ⟨hempty, hend⟩ := not_or.mp h
  unfold Cooked.act view
  dsimp only
  rw [TtyQueue.contents_dec (Bool.eq_false_iff.mpr hempty), List.getLast?_concat, List.dropLast_concat]
  exact if_neg hend

theorem chars_dec (h : s.tty.secondary.isEmpty = false) : s.tty.secondary.dec.chars + 1 = s.tty.secondary.chars := by
  have hlen := congrArg List.length (TtyQueue.contents_dec h)
  rw [List.length_append, TtyQueue.length_contents, TtyQueue.length_contents] at hlen
  exact hlen.symm

theorem erase_goes (h : s.run.frames = .cooked :: k) (hread : s.tty.readQ.isEmpty = false) (hroom : s.tty.secondary.isFull = false)
    (hf : s.tty.fate s.tty.readQ.first = .erase) :
    ∃ s', s.Goes s' ∧ (s'.answers ∨ s'.run.frames = .cooked :: k ∧ s.Turned s' .erase) := by
  have hstep := step_cooked h hread hroom
  rw [hf, turn_quiet (by decide)] at hstep
  have hone := Goes.one hstep
  by_cases hnone : s.tty.secondary.isEmpty = true ∨ s.tty.isEnd s.tty.secondary.last = true
  · have hrun : s.tty.took.follow k .erase = ⟨s.tty.took, .cooked :: k⟩ := if_pos hnone
    rw [hrun] at hone
    exact ⟨_, hone, .inr ⟨rfl, rfl, (view_erase_none hnone).symm, rfl, rfl, rfl, Nat.le_succ _⟩⟩
  · have hview := view_erase_some hnone
    have hrun := Tty.eraseLast_some (t := s.tty.took) (k := k) hnone
    have hchars : s.tty.secondary.dec.chars ≤ s.tty.secondary.chars + 1 := by
      have := chars_dec (Bool.eq_false_iff.mpr (not_or.mp hnone).1)
      omega
    rw [show s.tty.took.follow k .erase = _ from hrun] at hone
    split at hone
    next =>
      obtain ⟨u, hgoes, hask | ⟨hframes, hsame⟩⟩ := write_goes (s := { s with run := ⟨_, .write :: .dec :: .cooked :: k⟩ }) rfl
      · exact ⟨u, hone.trans hgoes, .inl hask⟩
      · refine ⟨_, (hone.trans hgoes).trans (dec_goes hframes), .inr ⟨rfl, hsame.readQ, ?_, hsame.termios, hsame.upper, hsame.pgrp, ?_⟩⟩
        · rw [hview]
          exact Cooked.ext (congrArg (fun q => TtyQueue.contents (TtyQueue.dec q)) hsame.secondary) hsame.stopped hsame.task
        · change u.tty.secondary.dec.chars ≤ _
          rw [hsame.secondary]
          exact hchars
    next => exact ⟨_, hone, .inr ⟨rfl, rfl, hview.symm, rfl, rfl, rfl, hchars⟩⟩

/-- Counting an end of a line does not change the characters in the queue. -/
theorem counted_contents (t : Tty) (c : BitVec 8) : (t.counted c).contents = t.secondary.contents ∧ (t.counted c).isFull = t.secondary.isFull ∧
    (t.counted c).chars = t.secondary.chars := by
  unfold Tty.counted
  split <;> exact ⟨rfl, rfl, rfl⟩

theorem store_goes (h : s.run.frames = .cooked :: k) (hread : s.tty.readQ.isEmpty = false) (hroom : s.tty.secondary.isFull = false)
    (hf : s.tty.fate s.tty.readQ.first = .store c) :
    ∃ s', s.Goes s' ∧ (s'.answers ∨ s'.run.frames = .cooked :: k ∧ s.Turned s' (.store c)) := by
  have hstep := step_cooked h hread hroom
  rw [hf, turn_quiet (by simp)] at hstep
  have hone := Goes.one hstep
  rw [show s.tty.took.follow k (.store c) = _ from Tty.keep_counted] at hone
  obtain ⟨hcontents, hfull, hchars⟩ := counted_contents s.tty.took c
  have hput : ((s.tty.took.counted c).putch c).contents = s.tty.secondary.contents ++ [c] := by
    rw [TtyQueue.contents_putch (hfull.trans hroom), hcontents]
    rfl
  have hlen : ((s.tty.took.counted c).putch c).chars ≤ s.tty.secondary.chars + 1 := by
    rw [TtyQueue.chars_putch (hfull.trans hroom), hchars]
    exact Nat.le_refl _
  split at hone
  next =>
    obtain ⟨u, hgoes, hask | ⟨hframes, hsame⟩⟩ := write_goes (s := { s with run := ⟨_, .write :: .put c :: .cooked :: k⟩ }) rfl
    · exact ⟨u, hone.trans hgoes, .inl hask⟩
    · refine ⟨_, (hone.trans hgoes).trans (put_goes hframes), .inr ⟨rfl, hsame.readQ, ?_, hsame.termios, hsame.upper, hsame.pgrp, ?_⟩⟩
      · refine Cooked.ext (Eq.trans ?_ hput) hsame.stopped hsame.task
        exact congrArg (fun q => TtyQueue.contents (TtyQueue.putch q c)) hsame.secondary
      · change (u.tty.secondary.putch c).chars ≤ _
        rw [hsame.secondary]
        exact hlen
  next => exact ⟨_, hone, .inr ⟨rfl, rfl, Cooked.ext hput rfl rfl, rfl, rfl, rfl, hlen⟩⟩

/-- A turn of the loop. -/
theorem turn_goes (h : s.run.frames = .cooked :: k) (hread : s.tty.readQ.isEmpty = false) (hroom : s.tty.secondary.isFull = false) :
    ∃ s', s.Goes s' ∧ (s'.answers ∨ s'.run.frames = .cooked :: k ∧ s.Turned s' (s.tty.fate s.tty.readQ.first)) := by
  have hone := Goes.one (step_cooked h hread hroom)
  cases hf : s.tty.fate s.tty.readQ.first with
  | erase => exact erase_goes h hread hroom hf
  | store c => exact store_goes h hread hroom hf
  | ignore | stop | start | intr =>
    rw [hf] at hone
    exact ⟨_, hone, .inr ⟨rfl, rfl, rfl, rfl, rfl, rfl, Nat.le_succ _⟩⟩

/-- What the code makes of one character. -/
def codes (t : Tty) (pgrp : Int) (v : Cooked) (c : BitVec 8) : Cooked := v.act t.isEnd pgrp (t.fate c)

theorem codes_congr {t' : Tty} {pgrp : Int} (htermios : t'.termios = t.termios) (hupper : t'.upper = t.upper) : codes t' pgrp = codes t pgrp := by
  cases t
  cases t'
  cases htermios
  cases hupper
  rfl

/-- The call comes to its end with what the code makes of the characters, one after the other. -/
theorem cooked_goes {cs : List (BitVec 8)} (h : s.run.frames = .cooked :: k) (hread : s.tty.readQ.contents = cs)
    (hroom : s.tty.secondary.chars + cs.length ≤ ttyBufSize - 1) :
    ∃ s', s.Goes s' ∧ (s'.answers ∨ s'.run.frames = k ∧ s'.view = cs.foldl (codes s.tty s.pgrp) s.view) := by
  induction cs generalizing s with
  | nil =>
    have hempty : s.tty.readQ.isEmpty = true := TtyQueue.isEmpty_iff_contents.mpr hread
    have hr : s.run.next = some ⟨s.tty, k⟩ := by
      unfold TtyRun.next
      rw [h]
      exact congrArg some (Tty.copyToCooked_exit (.inl hempty))
    have hquiet : s.tty.interrupts = false := by
      unfold Tty.interrupts
      rw [hempty]
      rfl
    refine ⟨{ s with run := ⟨s.tty, k⟩ }, .one ?_, .inr ⟨rfl, rfl⟩⟩
    unfold step next
    rw [hr, hquiet, if_neg (by simp)]
    rfl
  | cons c cs ih =>
    have hempty : s.tty.readQ.isEmpty = false := Bool.eq_false_iff.mpr fun hempty => by
      rw [TtyQueue.isEmpty_iff_contents.mp hempty] at hread
      cases hread
    have hfull : s.tty.secondary.isFull = false := Bool.eq_false_iff.mpr fun hfull => by
      have := TtyQueue.isFull_iff.mp hfull
      rw [List.length_cons] at hroom
      omega
    have hfirst := TtyQueue.contents_getch hempty
    rw [hread] at hfirst
    obtain ⟨u, hgoes, hask | ⟨hframes, hturn⟩⟩ := turn_goes h hempty hfull
    · exact ⟨u, hgoes, .inl hask⟩
    · have hc : s.tty.readQ.first = c := (List.cons.inj hfirst).1.symm
      have hcs : u.tty.readQ.contents = cs := by
        rw [hturn.readQ]
        exact (List.cons.inj hfirst).2.symm
      have hroom' := hturn.room
      rw [List.length_cons] at hroom
      obtain ⟨s', hgoes', hend⟩ := ih hframes hcs (by omega)
      refine ⟨s', hgoes.trans hgoes', hend.imp_right fun ⟨hk, hview⟩ => ⟨hk, ?_⟩⟩
      rw [hview, hturn.view, hc, hturn.pgrp, codes_congr hturn.termios hturn.upper]
      rfl

/-- A serial line answers nothing. -/
structure Serial (s : CookRun) : Prop where
  console : s.tty.console = none
  frames : ∀ f ∈ s.run.frames, f = .cooked ∨ f = .write ∨ f = .dec ∨ ∃ c, f = .put c

theorem Serial.step {e : Unit} (h : s.Serial) (hs : s.step e = some s') : s'.Serial := by
  obtain ⟨r, hr, rfl⟩ := Option.map_eq_some_iff.mp hs
  have hrun : r.tty.console = none ∧ ∀ f ∈ r.frames, f = .cooked ∨ f = .write ∨ f = .dec ∨ ∃ c, f = .put c := by
    have hcon := h.console
    have hall := h.frames
    unfold TtyRun.next at hr
    split at hr
    next => cases hr
    next k hk =>
      cases Option.some.inj hr
      rw [hk] at hall
      have hk' : ∀ f ∈ k, f = .cooked ∨ f = .write ∨ f = .dec ∨ ∃ c, f = .put c := fun f hf => hall f (List.mem_cons_of_mem _ hf)
      by_cases hexit : s.run.tty.readQ.isEmpty = true ∨ s.run.tty.secondary.isFull = true
      · rw [Tty.copyToCooked_exit hexit]
        exact ⟨hcon, hk'⟩
      · obtain ⟨hread, hroom⟩ := not_or.mp hexit
        have hturn := Tty.turn (k := k) (Bool.eq_false_iff.mpr hread) (Bool.eq_false_iff.mpr hroom)
        generalize s.run.tty.copyToCooked k = r at hturn
        cases hturn with
        | skip | rub | keep => exact ⟨hcon, by simpa using hk'⟩
        | rubEcho | keepEcho => exact ⟨hcon, by simpa using hk'⟩
    next c k hk =>
      cases Option.some.inj hr
      exact ⟨hcon, fun f hf => hall f (by rw [hk]; exact List.mem_cons_of_mem _ hf)⟩
    next k hk =>
      cases Option.some.inj hr
      exact ⟨hcon, fun f hf => hall f (by rw [hk]; exact List.mem_cons_of_mem _ hf)⟩
    next k hk =>
      cases Option.some.inj hr
      unfold Tty.write
      rw [show s.run.tty.console = none from hcon]
      exact ⟨hcon, fun f hf => hall f (by rw [hk]; exact List.mem_cons_of_mem _ hf)⟩
    next k hk => exact absurd (hall (.conWrite 0) (by rw [hk]; simp)) (by simp)
    next nr k hk => exact absurd (hall (.conWrite (nr + 1)) (by rw [hk]; simp)) (by simp)
    next k hk => exact absurd (hall .respond (by rw [hk]; simp)) (by simp)
  exact ⟨hrun.1, hrun.2⟩

theorem Serial.goes (h : s.Serial) (hs : s.Goes s') : s'.Serial :=
  Machine.Reach.invariant (I := Serial) h (fun _ _ _ hi _ hstep => hi.step hstep) hs

/-- A call has one end. -/
theorem goes_end {u : CookRun} (h : s.Goes u) (hu : u.run.frames = []) (h' : s.Goes s') (hs' : s'.run.frames = []) : u = s' := by
  have hstuck : ∀ v : CookRun, v.run.frames = [] → v.step () = none := by
    intro v hv
    unfold step next TtyRun.next
    rw [hv]
    rfl
  rcases (Machine.Reach.through h (hstuck u hu) h').first with hsame | ⟨_, w, _, hw, _⟩
  · exact hsame.symm
  · rw [show s'.step _ = none from hstuck s' hs'] at hw
    cases hw

theorem Serial.answers (h : s.Serial) : ¬ s.answers := by
  intro hask
  exact absurd (h.frames .respond (List.mem_of_mem_head? hask)) (by simp)

end CookRun

theorem Cooked.act_congr {p q : BitVec 8 → Bool} {f : CookFate} {pgrp : Int} {v : Cooked} (h : f = .erase → ∀ b, p b = q b) :
    v.act p pgrp f = v.act q pgrp f := by
  cases f with
  | erase => rw [funext (h rfl)]
  | ignore | stop | start | intr | store => rfl

theorem Tty.plain_congr {t' : Tty} (htermios : t'.termios = t.termios) (hupper : t'.upper = t.upper) : t'.Plain c ↔ t.Plain c := by
  cases t
  cases t'
  cases htermios
  cases hupper
  rfl

/-- A character that does not end a line. -/
theorem Tty.exists_plain (t : Tty) : ∃ x, t.isEnd x = false ∧ t.termios.ends x = false := by
  have hends : ∃ x, t.termios.ends x = false := by
    unfold Termios.ends
    by_cases h : t.termios.eof = 65
    · exact ⟨66, by rw [h]; decide⟩
    · exact ⟨65, by rw [decide_eq_false (Ne.symm h)]; decide⟩
  obtain ⟨x, hx⟩ := hends
  refine ⟨x, Bool.eq_false_iff.mpr fun hend => ?_, hx⟩
  exact absurd ((TtyRun.ends_of_isEnd hend).symm.trans hx) (by decide)

/-- A call with the character `c` to read behind a line of `x`. -/
def cookSample (t : Tty) (x c : BitVec 8) (stopped : Bool) : CookRun where
  run := ⟨{ t with console := none, stopped := stopped, readQ := TtyQueue.init.putch c, secondary := TtyQueue.init.putch x }, [.cooked]⟩
  pgrp := 1
  task := groupOne

theorem init_putch : (TtyQueue.init.putch c).contents = [c] ∧ (TtyQueue.init.putch c).chars = 1 := by
  have hempty : TtyQueue.init.contents = [] := rfl
  have hone : (TtyQueue.init.putch c).contents = [c] := by
    rw [TtyQueue.contents_putch (by decide), hempty]
    rfl
  exact ⟨hone, by rw [← TtyQueue.length_contents, hone]; rfl⟩

theorem copy_to_cooked_iff :
    (∀ s : CookRun, s.tty.termios = t.termios → s.tty.upper = t.upper → s.run.frames = [.cooked] → s.tty.readQ.contents <:+: bs →
      s.tty.secondary.chars + s.tty.readQ.chars ≤ ttyBufSize - 1 → s.Implements) ↔ ∀ c ∈ bs, t.Plain c := by
  constructor
  · intro h c hc
    obtain ⟨x, hend, hends⟩ := t.exists_plain
    refine Tty.fate_eq_iff.mp (Cooked.act_separates hend hends fun b stopped => ?_)
    -- On a serial line the run for `c` has one end, which both semantics describe.
    have hserial : (cookSample t b c stopped).Serial := ⟨rfl, fun f hf => .inl (List.mem_singleton.mp hf)⟩
    have hread : (cookSample t b c stopped).tty.readQ.contents = [c] := init_putch.1
    have hin : (cookSample t b c stopped).tty.readQ.contents <:+: bs := by
      obtain ⟨l, r, hlr⟩ := List.append_of_mem hc
      exact ⟨l, r, by rw [hread, hlr, List.append_assoc]; rfl⟩
    have hroom : (cookSample t b c stopped).tty.secondary.chars + (cookSample t b c stopped).tty.readQ.chars ≤ ttyBufSize - 1 := by
      rw [show (cookSample t b c stopped).tty.secondary.chars = 1 from init_putch.2,
        show (cookSample t b c stopped).tty.readQ.chars = 1 from init_putch.2]
      decide
    have hroom' := hroom
    rw [← TtyQueue.length_contents (q := (cookSample t b c stopped).tty.readQ)] at hroom'
    obtain ⟨u, hgoes, hdone⟩ := CookRun.cooked_goes (s := cookSample t b c stopped) rfl rfl hroom'
    obtain ⟨v, hgoes', hdone'⟩ := h (cookSample t b c stopped) rfl rfl rfl hin hroom
    have hcode := hdone.resolve_left (hserial.goes hgoes).answers
    have hreference := hdone'.resolve_left (hserial.goes hgoes').answers
    rw [← CookRun.goes_end hgoes hcode.1 hgoes' hreference.1] at hreference
    exact hcode.2.symm.trans hreference.2
  · intro h s htermios hupper hframes hin hroom
    obtain ⟨u, hu, hu'⟩ := CookRun.cooked_goes hframes rfl (by rw [TtyQueue.length_contents]; exact hroom)
    refine ⟨u, hu, hu'.imp_right fun ⟨hk, hview⟩ => ⟨hk, hview.trans ?_⟩⟩
    refine List.foldl_ext _ _ _ fun v c hc => ?_
    have hplain := (Tty.plain_congr htermios hupper).mpr (h c (hin.subset hc))
    obtain ⟨hfate, hends⟩ := Tty.fate_eq_iff.mpr hplain
    unfold CookRun.codes Cooked.reference
    rw [Cooked.act_congr hends, hfate]

/-- Without ISIG the INTR character is not queued. -/
theorem copy_to_cooked_intr : ¬ (cookSample (ttyInit none fun _ => false) 65 3 false).Implements := by
  rintro ⟨v, hgoes', hdone'⟩
  have hserial : (cookSample (ttyInit none fun _ => false) 65 3 false).Serial := ⟨rfl, fun f hf => .inl (List.mem_singleton.mp hf)⟩
  have hrun : (Machine.exec CookRun.step (cookSample (ttyInit none fun _ => false) 65 3 false) [(), ()]).any
      (fun u => decide (u.run.frames = [] ∧ u.view.line = [65])) = true := by
    decide +kernel
  obtain ⟨u, hu, hend⟩ := (Option.any_eq_true _ _).mp hrun
  obtain ⟨hframes, hline⟩ := of_decide_eq_true hend
  have hreference := hdone'.resolve_left (hserial.goes hgoes').answers
  rw [← CookRun.goes_end (Machine.Reach.start.exec (fun _ _ _ => trivial) hu) hframes hgoes' hreference.1] at hreference
  have hqueued : u.view.line = [65, 3] := congrArg Cooked.line hreference.2
  rw [hline] at hqueued
  cases hqueued

end RheeKernel
