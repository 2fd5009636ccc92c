import RheeKernel.Tty

namespace RheeKernel

namespace Tty

/-- `copy_to_cooked` takes the character and does nothing with it. -/
def ignored (t : Tty) (c : BitVec 8) : Bool :=
  match t.mapped c with
  | none => true
  | some c =>
    if t.termios.canon ∧ sameChar c t.termios.erase then t.secondary.isEmpty ∨ t.isEnd t.secondary.last
    else t.termios.canon ∧ (sameChar c t.termios.stop ∨ sameChar c t.termios.start) ∨ ¬ t.termios.isig ∧ sameChar c t.termios.intr

/-- The secondary queue with the line that ends with `c` counted. -/
def counted (t : Tty) (c : BitVec 8) : TtyQueue :=
  if t.isEnd c then { t.secondary with data := t.secondary.data + 1 } else t.secondary

/-- A turn of the loop of `copy_to_cooked`: the character is ignored, or it erases one or is kept, without an echo or with one. -/
inductive Turn (t : Tty) (k : List TtyFrame) : TtyRun → Prop
  | skip (stopped : Bool) (h : t.ignored t.readQ.first = true) : Turn t k ⟨{ t with readQ := t.readQ.getch, stopped := stopped }, .cooked :: k⟩
  | rub (c : BitVec 8) (h : t.ignored t.readQ.first = false) (hc : t.mapped t.readQ.first = some c)
    (herase : t.termios.canon ∧ sameChar c t.termios.erase) (hlive : t.secondary.isEmpty = false ∧ t.isEnd t.secondary.last = false)
    (hecho : t.termios.echo = false) : Turn t k ⟨{ t with readQ := t.readQ.getch, secondary := t.secondary.dec }, .cooked :: k⟩
  | keep (c : BitVec 8) (h : t.ignored t.readQ.first = false) (hc : t.mapped t.readQ.first = some c)
    (herase : ¬ (t.termios.canon ∧ sameChar c t.termios.erase)) (hecho : t.termios.echo = false) :
    Turn t k ⟨{ t with readQ := t.readQ.getch, secondary := (t.counted c).putch c }, .cooked :: k⟩
  | rubEcho (c : BitVec 8) (h : t.ignored t.readQ.first = false) (hc : t.mapped t.readQ.first = some c)
    (herase : t.termios.canon ∧ sameChar c t.termios.erase) (hlive : t.secondary.isEmpty = false ∧ t.isEnd t.secondary.last = false)
    (hecho : t.termios.echo = true) :
    Turn t k ⟨{ t with readQ := t.readQ.getch, writeQ := t.writeQ.putAll (rubbed t.secondary.last) }, .write :: .dec :: .cooked :: k⟩
  | keepEcho (c : BitVec 8) (h : t.ignored t.readQ.first = false) (hc : t.mapped t.readQ.first = some c)
    (herase : ¬ (t.termios.canon ∧ sameChar c t.termios.erase)) (hecho : t.termios.echo = true) :
    Turn t k ⟨{ t with readQ := t.readQ.getch, secondary := t.counted c, writeQ := t.writeQ.putAll (t.echoed c) },
      .write :: .put c :: .cooked :: k⟩

variable {t : Tty} {k : List TtyFrame} {c : BitVec 8}

theorem sameChar_eq {cc : BitVec 8} (h : sameChar c cc = true) : c = cc := by
  have h : c.toInt = cc.toNat := of_decide_eq_true h
  rw [BitVec.toInt_eq_toNat_cond] at h
  have := c.isLt
  have := cc.isLt
  refine BitVec.eq_of_toNat_eq ?_
  split at h <;> omega

theorem eraseLast_turn (h : t.ignored t.readQ.first = decide (t.secondary.isEmpty ∨ t.isEnd t.secondary.last))
    (hc : t.mapped t.readQ.first = some c) (herase : t.termios.canon ∧ sameChar c t.termios.erase) :
    t.Turn k (eraseLast { t with readQ := t.readQ.getch } k) := by
  unfold eraseLast
  dsimp only
  split
  next hnone => exact .skip t.stopped (h.trans (decide_eq_true hnone))
  next hsome =>
    have hfalse := h.trans (decide_eq_false hsome)
    obtain ⟨hempty, hend⟩ := not_or.mp hsome
    have hlive := And.intro (Bool.eq_false_iff.mpr hempty) (Bool.eq_false_iff.mpr hend)
    split
    next hecho => exact .rubEcho c hfalse hc herase hlive hecho
    next hecho => exact .rub c hfalse hc herase hlive (Bool.eq_false_iff.mpr hecho)

theorem keep_turn (h : t.ignored t.readQ.first = false) (hc : t.mapped t.readQ.first = some c)
    (herase : ¬ (t.termios.canon ∧ sameChar c t.termios.erase)) : t.Turn k (keep { t with readQ := t.readQ.getch } c k) := by
  have hdata : (if isEnd { t with readQ := t.readQ.getch } c then
      { t with readQ := t.readQ.getch, secondary := { t.secondary with data := t.secondary.data + 1 } }
      else { t with readQ := t.readQ.getch }) = { t with readQ := t.readQ.getch, secondary := t.counted c } := by
    unfold counted
    change (if t.isEnd c then _ else _) = _
    split <;> rfl
  unfold keep
  dsimp only at hdata ⊢
  rw [hdata]
  dsimp only
  split
  next hecho => exact .keepEcho c h hc herase hecho
  next hecho => exact .keep c h hc herase (Bool.eq_false_iff.mpr hecho)

theorem turn (hread : t.readQ.isEmpty = false) (hroom : t.secondary.isFull = false) : t.Turn k (t.copyToCooked k) := by
  unfold copyToCooked
  rw [if_neg (by rw [hread, hroom]; decide)]
  dsimp only
  have hmapped : Tty.mapped { t with readQ := t.readQ.getch } t.readQ.first = t.mapped t.readQ.first := rfl
  rw [hmapped]
  cases hc : t.mapped t.readQ.first with
  | none =>
    refine .skip t.stopped ?_
    unfold ignored
    rw [hc]
  | some c =>
    have hignored : t.ignored t.readQ.first =
        if t.termios.canon ∧ sameChar c t.termios.erase then decide (t.secondary.isEmpty ∨ t.isEnd t.secondary.last)
        else decide (t.termios.canon ∧ (sameChar c t.termios.stop ∨ sameChar c t.termios.start) ∨
          ¬ t.termios.isig ∧ sameChar c t.termios.intr) := by
      unfold ignored
      rw [hc]
    rw [Option.elim_some]
    unfold cook
    dsimp only
    by_cases herase : t.termios.canon ∧ sameChar c t.termios.erase
    · rw [if_pos herase] at hignored ⊢
      exact eraseLast_turn hignored hc herase
    rw [if_neg herase] at hignored ⊢
    by_cases hstop : t.termios.canon ∧ sameChar c t.termios.stop
    · rw [if_pos hstop]
      exact .skip true (hignored.trans (decide_eq_true (.inl ⟨hstop.1, .inl hstop.2⟩)))
    rw [if_neg hstop]
    by_cases hstart : t.termios.canon ∧ sameChar c t.termios.start
    · rw [if_pos hstart]
      exact .skip false (hignored.trans (decide_eq_true (.inl ⟨hstart.1, .inr hstart.2⟩)))
    rw [if_neg hstart]
    by_cases hintr : ¬ t.termios.isig ∧ sameChar c t.termios.intr
    · rw [if_pos hintr]
      exact .skip t.stopped (hignored.trans (decide_eq_true (.inr hintr)))
    rw [if_neg hintr]
    refine keep_turn (hignored.trans (decide_eq_false ?_)) hc herase
    rintro (⟨hcanon, hs | hs⟩ | hi)
    · exact hstop ⟨hcanon, hs⟩
    · exact hstart ⟨hcanon, hs⟩
    · exact hintr hi

theorem copyToCooked_exit (h : t.readQ.isEmpty = true ∨ t.secondary.isFull = true) : t.copyToCooked k = ⟨t, k⟩ := by
  unfold copyToCooked
  rw [if_pos h]

end Tty

end RheeKernel
