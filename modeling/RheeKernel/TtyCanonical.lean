import RheeKernel.TtyLines
import RheeKernel.TtyTimers

namespace RheeKernel

namespace Tty

/-- The first line of the secondary queue with its end, if that has arrived. -/
def firstLine (t : Tty) : List (BitVec 8) :=
  if t.secondary.contents.any t.ends then t.secondary.contents.take (t.secondary.contents.findIdx t.ends + 1) else []

end Tty

namespace TtyReading

/-- What the call has taken from the secondary queue since `s` is a part of the first line there, and so is what it returns. -/
structure LineWise (s s' : TtyReading) : Prop where
  taken : ∃ taken, s.tty.secondary.contents = taken ++ s'.tty.secondary.contents ∧ taken <+: s.tty.firstLine
  got : s'.got <+: s.tty.firstLine

/-- The call leaves for a signal or waits for a line; or the first line is all that it asks for or all that is there, or ends the file. -/
def Stops (s : TtyReading) : Prop :=
  s.current.signal ≠ 0 ∨ s.tty.secondary.data = 0 ∨ s.nr ≤ s.tty.firstLine.length ∨ s.tty.firstLine = s.tty.secondary.contents ∨
    s.tty.firstLine.getLast?.any (fun c => sameChar c s.tty.termios.eof) = true

instance {s : TtyReading} : Decidable s.Stops := inferInstanceAs (Decidable (_ ∨ _))

/-- What a canonical call has done so far; it waits before it has taken anything. -/
structure Fresh (s : TtyReading) (termios : Termios) (nr : Int) : Prop where
  termios : s.tty.termios = termios
  nr : s.nr = nr - s.got.length
  got : s.pos = .loop ∨ s.pos = .sleep → s.got = []

/-- The call has copied `taken`. -/
structure Copied (s s' : TtyReading) (taken : List (BitVec 8)) : Prop where
  contents : s.tty.secondary.contents = taken ++ s'.tty.secondary.contents
  termios : s'.tty.termios = s.tty.termios
  got : s'.got = taken
  nr : s'.nr = s.nr - taken.length

variable {s s' : TtyReading} {e : TtyReadEvent} {taken : List (BitVec 8)} {c : BitVec 8} {termios : Termios} {tty : Tty} {nr : Int}

theorem read_first (h : s.tty.secondary.isEmpty = false) :
    s.tty.secondary.contents = s.tty.secondary.first :: (TtyRun.read s.tty).secondary.contents := by
  rw [TtyQueue.contents_getch h]
  unfold TtyRun.read
  dsimp only
  split <;> rfl

theorem firstLine_initial (t : Tty) : t.firstLine <+: t.secondary.contents := by
  unfold Tty.firstLine
  split
  next => exact List.take_prefix _ _
  next => exact List.nil_prefix

/-- Only the last character of the first line ends it. -/
theorem firstLine_before {t : Tty} {k : Nat} (hk : k + 1 < t.firstLine.length) (hc : t.secondary.contents[k]? = some c) : t.ends c = false := by
  unfold Tty.firstLine at hk
  split at hk
  next =>
    rw [List.length_take] at hk
    have hlt : k < t.secondary.contents.findIdx t.ends := by omega
    have hnot := List.not_of_lt_findIdx hlt
    obtain ⟨hlen, hget⟩ := List.getElem?_eq_some_iff.mp hc
    rw [hget] at hnot
    simpa using hnot
  next => exact absurd hk (by simp)

/-- A first part of the contents that is no longer than the first line is a part of it. -/
theorem taken_initial {t : Tty} {rest : List (BitVec 8)} (h : t.secondary.contents = taken ++ rest) (hlen : taken.length ≤ t.firstLine.length) :
    taken <+: t.firstLine :=
  List.prefix_of_prefix_length_le (h ▸ List.prefix_append _ _) (firstLine_initial t) hlen

theorem ttyRead_fresh {current : SchedTask} {jiffies : Int} {channel : Nat} : (ttyRead tty current jiffies channel nr).Fresh tty.termios nr := by
  unfold ttyRead
  dsimp only
  split <;> exact ⟨rfl, (Int.sub_zero nr).symm, fun _ => rfl⟩

theorem Fresh.next (h : s.Fresh termios nr) (hcanon : termios.canon = true) (hs : s.next = some s') : s'.Fresh termios nr := by
  unfold TtyReading.next at hs
  split at hs
  next hpos =>
    cases Option.some.inj hs
    have hgot := h.got (.inl hpos)
    unfold head
    split
    next => exact ⟨h.termios, h.nr, fun _ => hgot⟩
    next =>
      split
      next => exact ⟨h.termios, h.nr, fun _ => hgot⟩
      next =>
        split
        next => exact ⟨h.termios, h.nr, fun _ => hgot⟩
        next => split <;> exact ⟨h.termios, h.nr, fun _ => hgot⟩
  next hpos =>
    obtain ⟨_, hs⟩ := Option.ite_none_left_eq_some.mp hs
    cases Option.some.inj hs
    exact ⟨h.termios, h.nr, fun _ => h.got (.inr hpos)⟩
  next hpos =>
    cases Option.some.inj hs
    refine ⟨?_, h.nr, fun hp => ?_⟩
    · exact h.termios
    · unfold copyNext at hp
      dsimp only at hp
      split at hp <;> rcases hp with hp | hp <;> cases hp
  next c hpos =>
    cases Option.some.inj hs
    refine ⟨h.termios, ?_, fun hp => ?_⟩
    · have := h.nr
      unfold storeNext
      dsimp only
      rw [List.length_append, List.length_singleton]
      omega
    · unfold storeNext at hp
      dsimp only at hp
      split at hp <;> rcases hp with hp | hp <;> cases hp
  next hpos =>
    cases Option.some.inj hs
    have hrearm : s.rearm = s := by
      unfold rearm canon
      rw [h.termios, hcanon]
      exact if_neg (by simp)
    unfold tailNext
    rw [hrearm]
    split
    next => exact ⟨h.termios, h.nr, fun hp => by rcases hp with hp | hp <;> cases hp⟩
    next henough =>
      refine ⟨h.termios, h.nr, fun _ => ?_⟩
      unfold enough canon at henough
      rw [h.termios, hcanon] at henough
      simpa using henough
  next => cases hs

theorem Fresh.step (h : s.Fresh termios nr) (hcanon : termios.canon = true) (hs : ttyReadStep s e = some s') : s'.Fresh termios nr := by
  unfold ttyReadStep at hs
  obtain ⟨_, hs⟩ := Option.ite_none_left_eq_some.mp hs
  cases e with
  | next => exact h.next hcanon hs
  | tick => cases Option.some.inj hs; exact ⟨h.termios, h.nr, h.got⟩
  | schedule | signal | take =>
    obtain ⟨_, hs⟩ := Option.ite_none_right_eq_some.mp hs
    cases Option.some.inj hs
    exact ⟨h.termios, h.nr, h.got⟩
  | put | rub =>
    obtain ⟨_, hs⟩ := Option.ite_none_left_eq_some.mp hs
    cases Option.some.inj hs
    exact ⟨h.termios, h.nr, h.got⟩

/-- Where a call stands that keeps to the first line of `s`. -/
inductive Within (s s' : TtyReading) : Prop
  | waits (hpos : s'.pos = .loop ∨ s'.pos = .sleep) (h : Copied s s' []) (hdata : s'.tty.secondary.data = s.tty.secondary.data)
    (hleft : s'.tty.secondary.left = s.tty.secondary.left) (hsignal : s'.current.signal = s.current.signal)
  | copies (taken : List (BitVec 8)) (hpos : s'.pos = .copy) (h : Copied s s' taken) (hlen : taken.length < s.tty.firstLine.length)
    (hmore : s'.tty.secondary.isEmpty = false) (hsignal : s.current.signal = 0) (hdata : s.tty.secondary.data ≠ 0)
  | stores (taken : List (BitVec 8)) (c : BitVec 8) (hpos : s'.pos = .store c)
    (h : Copied s { s' with got := s'.got ++ [c], nr := s'.nr - 1 } (taken ++ [c])) (hlen : taken.length < s.tty.firstLine.length)
    (heof : sameChar c s.tty.termios.eof = false) (hsignal : s.current.signal = 0) (hdata : s.tty.secondary.data ≠ 0)
  | ends (taken : List (BitVec 8)) (hpos : s'.pos = .tail) (h : Copied s s' taken) (hlen : taken.length ≤ s.tty.firstLine.length)
    (hsome : taken ≠ [])
  | returns (hpos : s'.returned = true) (h : s.LineWise s')

theorem Copied.lineWise (h : Copied s s' taken) (hlen : taken.length ≤ s.tty.firstLine.length) : s.LineWise s' := by
  have hfirst := taken_initial h.contents hlen
  exact ⟨⟨taken, h.contents, hfirst⟩, by rw [h.got]; exact hfirst⟩

theorem Within.lineWise (h : s.Within s') : s.LineWise s' := by
  cases h with
  | waits _ h => exact h.lineWise (Nat.zero_le _)
  | copies taken _ h hlen => exact h.lineWise (Nat.le_of_lt hlen)
  | stores taken c _ h hlen =>
    have hlen' : (taken ++ [c]).length ≤ s.tty.firstLine.length := by
      rw [List.length_append, List.length_singleton]
      omega
    have hfirst := taken_initial h.contents hlen'
    have hgot : s'.got ++ [c] = taken ++ [c] := h.got
    refine ⟨⟨_, h.contents, hfirst⟩, List.IsPrefix.trans ?_ hfirst⟩
    rw [← hgot]
    exact List.prefix_append _ _
  | ends taken _ h hlen => exact h.lineWise hlen
  | returns _ h => exact h

/-- Where the call stops, the first line is not empty, and behind it comes nothing that the call would take. -/
theorem Stops.line (h : s.Stops) (hsignal : s.current.signal = 0) (hdata : s.tty.secondary.data ≠ 0) (hnr : 0 < s.nr)
    (hsome : s.tty.secondary.contents ≠ []) : 0 < s.tty.firstLine.length := by
  rcases h with h | h | h | h | h
  · exact absurd hsignal h
  · exact absurd h hdata
  · omega
  · rw [h]
    exact List.length_pos_iff.mpr hsome
  · refine List.length_pos_iff.mpr fun hnil => ?_
    rw [hnil] at h
    cases h

theorem Within.head (h : s.Stops) (hcanon : s.canon = true) (hroom : 20 < s.tty.secondary.left.val) (hnr : 0 < s.nr) (hc : Copied s s' [])
    (hdata : s'.tty.secondary.data = s.tty.secondary.data) (hleft : s'.tty.secondary.left = s.tty.secondary.left)
    (hsignal : s'.current.signal = s.current.signal) : s.Within s'.head := by
  have hline : s.LineWise s' := hc.lineWise (Nat.zero_le _)
  have hret : ∀ t : TtyReading, t.returned = true → t.tty = s'.tty → t.got = s'.got → s.Within t := by
    intro t hr ht hg
    exact .returns hr ⟨by rw [ht]; exact hline.taken, by rw [hg]; exact hline.got⟩
  unfold TtyReading.head
  split
  next => exact hret _ rfl rfl rfl
  next =>
    split
    next => exact hret _ rfl rfl rfl
    next =>
      split
      next => exact hret _ rfl rfl rfl
      next hquiet =>
        have hquiet : s.current.signal = 0 := hsignal.symm.trans (not_not.mp hquiet)
        split
        next => exact .waits (.inr rfl) ⟨hc.contents, hc.termios, hc.got, hc.nr⟩ hdata hleft hsignal
        next hgo =>
          unfold TtyReading.waits canon at hgo
          rw [hc.termios, hdata, hleft] at hgo
          have hgo := not_or.mp (of_decide_eq_false (Bool.eq_false_iff.mpr hgo))
          have hsome : s'.tty.secondary.isEmpty = false := Bool.eq_false_iff.mpr hgo.1
          have hlines : s.tty.secondary.data ≠ 0 := fun hzero => hgo.2 ⟨hcanon, hzero, hroom⟩
          have hnil : s.tty.secondary.contents ≠ [] := by
            rw [hc.contents, List.nil_append]
            exact fun hnil => hgo.1 (TtyQueue.isEmpty_iff_contents.mpr hnil)
          exact .copies [] rfl ⟨hc.contents, hc.termios, hc.got, hc.nr⟩ (h.line hquiet hlines hnr hnil) hsome hquiet hlines

theorem Within.next (h : s.Stops) (hcanon : s.canon = true) (hroom : 20 < s.tty.secondary.left.val) (hnr : 0 < s.nr) {t : TtyReading}
    (hw : s.Within s') (hs : s'.next = some t) : s.Within t := by
  unfold TtyReading.next at hs
  cases hw with
  | waits hpos hc hdata hleft hsignal =>
    rcases hpos with hpos | hpos
    · rw [hpos] at hs
      cases Option.some.inj hs
      exact Within.head h hcanon hroom hnr hc hdata hleft hsignal
    · rw [hpos] at hs
      obtain ⟨_, hs⟩ := Option.ite_none_left_eq_some.mp hs
      cases Option.some.inj hs
      exact .waits (.inl rfl) ⟨hc.contents, hc.termios, hc.got, hc.nr⟩ hdata hleft hsignal
  | copies taken hpos hc hlen hmore hsignal hdata =>
    rw [hpos] at hs
    cases Option.some.inj hs
    have hfirst := read_first hmore
    have hcontents : s.tty.secondary.contents = taken ++ [s'.tty.secondary.first] ++ (TtyRun.read s'.tty).secondary.contents := by
      rw [hc.contents, hfirst, List.append_assoc]
      rfl
    have hlen' : (taken ++ [s'.tty.secondary.first]).length ≤ s.tty.firstLine.length := by
      rw [List.length_append, List.length_singleton]
      omega
    by_cases heof : s'.atEof = true
    · refine .returns (by unfold copyNext returned; rw [if_pos heof]) ⟨⟨_, hcontents, taken_initial hcontents hlen'⟩, ?_⟩
      exact (hc.lineWise (Nat.le_of_lt hlen)).got
    · refine .stores taken s'.tty.secondary.first (by unfold copyNext; rw [if_neg heof]) ⟨hcontents, hc.termios, ?_, ?_⟩ hlen ?_ hsignal hdata
      · change s'.got ++ _ = _
        rw [hc.got]
      · change s'.nr - 1 = _
        rw [hc.nr, List.length_append, List.length_singleton]
        omega
      · unfold atEof canon at heof
        unfold canon at hcanon
        rw [hc.termios, hcanon, Bool.and_true] at heof
        exact Bool.eq_false_iff.mpr heof
  | stores taken c hpos hc hlen heof hsignal hdata =>
    rw [hpos] at hs
    cases Option.some.inj hs
    have hcopied : Copied s (s'.storeNext c) (taken ++ [c]) := ⟨hc.contents, hc.termios, hc.got, hc.nr⟩
    have hlen' : (taken ++ [c]).length ≤ s.tty.firstLine.length := by
      rw [List.length_append, List.length_singleton]
      omega
    by_cases hgo : 0 < s'.nr - 1 ∧ s'.tty.secondary.isEmpty = false
    · refine .copies (taken ++ [c]) (if_pos hgo) hcopied (Nat.lt_of_le_of_ne hlen' fun hlast => ?_) hgo.2 hsignal hdata
      have hall : taken ++ [c] = s.tty.firstLine :=
        (taken_initial hcopied.contents hlen').eq_of_length hlast
      rcases h with h | h | h | h | h
      · exact h hsignal
      · exact hdata h
      · have hleft := hcopied.nr
        have hgo := hgo.1
        change s'.nr - 1 = _ at hleft
        rw [hlast] at hleft
        omega
      · have hrest := hcopied.contents
        rw [hall, h] at hrest
        have hnil : s'.tty.secondary.contents = [] := List.append_right_eq_self.mp hrest.symm
        exact absurd (TtyQueue.isEmpty_iff_contents.mpr hnil) (by rw [hgo.2]; decide)
      · rw [← hall, List.getLast?_concat] at h
        exact absurd (h.symm.trans heof) (by decide)
    · exact .ends (taken ++ [c]) (if_neg hgo) hcopied hlen' (by simp)
  | ends taken hpos hc hlen hsome =>
    rw [hpos] at hs
    cases Option.some.inj hs
    have hrearm : s'.rearm = s' := by
      unfold canon at hcanon
      unfold rearm canon
      rw [hc.termios, hcanon]
      exact if_neg (by simp)
    have henough : s'.enough = true := by
      unfold canon at hcanon
      unfold enough canon
      rw [hc.termios, hcanon, if_pos rfl, hc.got]
      exact decide_eq_true hsome
    have hline := hc.lineWise hlen
    unfold tailNext
    rw [hrearm, if_pos henough]
    exact .returns rfl ⟨hline.taken, hline.got⟩
  | returns hpos _ =>
    unfold returned at hpos
    split at hpos
    next hp => rw [hp] at hs; cases hs
    next => cases hpos

/-- Steps of the call alone. -/
def Alone (_ : TtyReading) (e : TtyReadEvent) : Prop := e = .next

instance {s : TtyReading} {e : TtyReadEvent} : Decidable (s.Alone e) := inferInstanceAs (Decidable (e = .next))

theorem step_next (h : s.returned = false) : ttyReadStep s .next = s.next := by
  unfold ttyReadStep
  rw [if_neg (by rw [h]; decide)]

/-- Past the first line a call goes that does not stop there. -/
theorem copies_line (hpos : s.pos = .loop) (hgot : s.got = []) (hstops : ¬ s.Stops) {k : Nat}
    (hk : k ≤ s.tty.firstLine.length) :
    ∃ s', Machine.Reach ttyReadStep Alone s s' ∧ s'.pos = .copy ∧ s'.tty.secondary.isEmpty = false ∧
      Copied s s' (s.tty.secondary.contents.take k) := by
  obtain ⟨hsignal, hstops⟩ := not_or.mp hstops
  obtain ⟨hdata, hstops⟩ := not_or.mp hstops
  obtain ⟨hnr, hstops⟩ := not_or.mp hstops
  obtain ⟨hall, hlast⟩ := not_or.mp hstops
  have hsignal : s.current.signal = 0 := not_not.mp hsignal
  have hshort : s.tty.firstLine.length < s.tty.secondary.contents.length := by
    refine Nat.lt_of_le_of_ne (firstLine_initial s.tty).length_le fun hlen => ?_
    exact hall ((firstLine_initial s.tty).eq_of_length hlen)
  induction k with
  | zero =>
    have hempty : s.tty.secondary.isEmpty = false := Bool.eq_false_iff.mpr fun hempty => by
      rw [TtyQueue.isEmpty_iff_contents.mp hempty] at hshort
      exact absurd hshort (Nat.not_lt_zero _)
    have hgo : s.waits = false := by
      unfold waits
      rw [hempty]
      refine decide_eq_false fun h => ?_
      rcases h with h | ⟨_, h, _⟩
      · cases h
      · exact hdata h
    have hquiet : s.alrmPending = false := by
      unfold alrmPending
      rw [hsignal, Nat.zero_testBit]
    have hhead : s.head = { s with pos := .copy } := by
      unfold head
      rw [if_neg (by omega), if_neg (by rw [hquiet]; simp), if_neg (not_not.mpr hsignal), if_neg (by rw [hgo]; decide)]
    refine ⟨{ s with pos := .copy }, .next .start rfl ?_, rfl, hempty, rfl, rfl, hgot, (Int.sub_zero _).symm⟩
    rw [step_next (not_returned hpos nofun)]
    unfold TtyReading.next
    rw [hpos, ← hhead]
  | succ k ih =>
    obtain ⟨t, hreach, htpos, hmore, hc⟩ := ih (by omega)
    have hfirst := read_first hmore
    have hget : s.tty.secondary.contents[k]? = some t.tty.secondary.first := by
      rw [hc.contents, hfirst, List.getElem?_append_right (by rw [List.length_take]; omega), List.length_take, Nat.min_eq_left (by omega),
        Nat.sub_self]
      rfl
    have htake : s.tty.secondary.contents.take (k + 1) = s.tty.secondary.contents.take k ++ [t.tty.secondary.first] := by
      rw [List.take_add_one, hget]
      rfl
    have hcontents : s.tty.secondary.contents = s.tty.secondary.contents.take (k + 1) ++ (TtyRun.read t.tty).secondary.contents := by
      rw [htake, List.append_assoc, List.singleton_append, ← hfirst]
      exact hc.contents
    have hlen : (s.tty.secondary.contents.take (k + 1)).length = k + 1 := by
      rw [List.length_take]
      omega
    -- Before its last character the line has no end, and that one does not end the file.
    have heof : sameChar t.tty.secondary.first s.tty.termios.eof = false := by
      refine Bool.eq_false_iff.mpr fun heof => ?_
      have hin : s.tty.firstLine.take (k + 1) = s.tty.secondary.contents.take (k + 1) := by
        obtain ⟨rest, hrest⟩ := firstLine_initial s.tty
        rw [← hrest, List.take_append_of_le_length hk]
      by_cases hlastk : k + 1 = s.tty.firstLine.length
      · refine hlast ?_
        rw [← List.take_length (l := s.tty.firstLine), ← hlastk, hin, htake, List.getLast?_concat]
        exact heof
      · have hnot := firstLine_before (t := s.tty) (k := k) (c := t.tty.secondary.first) (by omega) hget
        have hends : s.tty.ends t.tty.secondary.first = true := by
          refine TtyRun.ends_of_isEnd ?_
          unfold Tty.isEnd
          rw [heof, Bool.or_true]
        exact absurd (hends.symm.trans hnot) (by decide)
    have hnoteof : t.atEof = false := by
      unfold atEof
      rw [hc.termios, heof, Bool.false_and]
    have hcopy : ttyReadStep t .next = some t.copyNext := by
      rw [step_next (not_returned htpos nofun)]
      unfold TtyReading.next
      rw [htpos]
    have hpos' : t.copyNext.pos = .store t.tty.secondary.first := by
      unfold copyNext
      rw [hnoteof]
      rfl
    have hstore : ttyReadStep t.copyNext .next = some (t.copyNext.storeNext t.tty.secondary.first) := by
      rw [step_next (not_returned hpos' nofun)]
      unfold TtyReading.next
      rw [hpos']
    have hempty' : (TtyRun.read t.tty).secondary.isEmpty = false := Bool.eq_false_iff.mpr fun hempty => by
      rw [TtyQueue.isEmpty_iff_contents.mp hempty, List.append_nil] at hcontents
      have := congrArg List.length hcontents
      rw [hlen] at this
      omega
    have hleft := hc.nr
    rw [List.length_take] at hleft
    refine ⟨_, .next (.next hreach rfl hcopy) rfl hstore, ?_, hempty', hcontents, hc.termios, ?_, ?_⟩
    · refine if_pos ⟨?_, hempty'⟩
      change 0 < t.nr - 1
      omega
    · change t.got ++ [t.tty.secondary.first] = _
      rw [hc.got, htake]
    · change t.nr - 1 = _
      rw [hlen]
      omega

theorem canonical_read_line_iff {current : SchedTask} {jiffies : Int} {channel : Nat} (hcanon : tty.termios.canon = true) (hnr : 0 < nr)
    (h : Machine.Reach ttyReadStep (fun _ _ => True) (ttyRead tty current jiffies channel nr) s) (hpos : s.pos = .loop)
    (hroom : 20 < s.tty.secondary.left.val) : (∀ s', Machine.Reach ttyReadStep Alone s s' → s.LineWise s') ↔ s.Stops := by
  have hfresh : s.Fresh tty.termios nr :=
    Machine.Reach.invariant (I := fun s => s.Fresh tty.termios nr) ttyRead_fresh (fun _ _ _ hf _ hs => hf.step hcanon hs) h
  have hgot := hfresh.got (.inl hpos)
  have hc : s.canon = true := by
    unfold canon
    rw [hfresh.termios, hcanon]
  have hleft := hfresh.nr
  rw [hgot] at hleft
  refine ⟨fun hall => ?_, fun hstops s' hs' => ?_⟩
  · by_contra hstops
    obtain ⟨t, hreach, htpos, hmore, hcopied⟩ := copies_line hpos hgot hstops (Nat.le_refl _)
    have hcopy : ttyReadStep t .next = some t.copyNext := by
      rw [step_next (not_returned htpos nofun)]
      unfold TtyReading.next
      rw [htpos]
    have hstep : Machine.Reach ttyReadStep Alone s t.copyNext := .next hreach rfl hcopy
    obtain ⟨taken, hsplit, hline⟩ := (hall _ hstep).taken
    have hfirst := congrArg List.length (read_first hmore)
    have hlen := congrArg List.length hsplit
    have hlen' := congrArg List.length hcopied.contents
    have hshort := hline.length_le
    have hin := (firstLine_initial s.tty).length_le
    change _ = (taken ++ (TtyRun.read t.tty).secondary.contents).length at hlen
    rw [List.length_append] at hlen hlen'
    rw [List.length_cons] at hfirst
    rw [List.length_take] at hlen'
    omega
  · have hwithin : s.Within s' := by
      refine Machine.Reach.invariant (I := s.Within) ?_ (fun t e t' hw hok hs => ?_) hs'
      · exact .waits (.inl hpos) ⟨rfl, rfl, hgot, (Int.sub_zero _).symm⟩ rfl rfl rfl
      · cases hok
        unfold ttyReadStep at hs
        obtain ⟨_, hs⟩ := Option.ite_none_left_eq_some.mp hs
        exact hw.next hstops hc hroom (by rw [hleft]; simpa using hnr) hs
    exact hwithin.lineWise

/-- A call on channel 1 with these characters there; 4 ends the file. -/
def pendingRead (cs : List (BitVec 8)) (nr : Int) : Option TtyReading :=
  Machine.exec ttyReadStep (ttyRead timedTty { counter := 15, priority := 15 } 100 1 nr) (cs.map .put)

theorem canonical_read_line_sample :
    ∃ s, pendingRead [65, 10] 9 = some s ∧ s.Stops ∧ ∀ s', Machine.Reach ttyReadStep Alone s s' → s.LineWise s' := by
  have hrun : (pendingRead [65, 10] 9).any (fun s => decide (s.pos = .loop ∧ 20 < s.tty.secondary.left.val ∧ s.Stops)) = true := by
    decide +kernel
  obtain ⟨s, hs, hp⟩ := (Option.any_eq_true _ _).mp hrun
  obtain ⟨hpos, hroom, hstops⟩ := of_decide_eq_true hp
  have hreach : Machine.Reach ttyReadStep (fun _ _ => True) (ttyRead timedTty { counter := 15, priority := 15 } 100 1 9) s :=
    Machine.Reach.start.exec (fun _ _ _ => trivial) hs
  exact ⟨s, hs, hstops, (canonical_read_line_iff (by decide) (by decide) hreach hpos hroom).mpr hstops⟩

/-- Of two lines that are there the call takes both. -/
theorem canonical_read_two_lines :
    ∃ s s', pendingRead [65, 10, 66, 10] 9 = some s ∧ s.pos = .loop ∧ 20 < s.tty.secondary.left.val ∧ Machine.Reach ttyReadStep Alone s s' ∧
      s'.got = [65, 10, 66, 10] ∧ ¬ s.LineWise s' := by
  have hrun : (pendingRead [65, 10, 66, 10] 9).any (fun s => decide (s.pos = .loop ∧ 20 < s.tty.secondary.left.val ∧ s.tty.firstLine = [65, 10]) &&
      (Machine.execOk ttyReadStep Alone s (List.replicate 9 .next)).any (fun s' => s'.got == [65, 10, 66, 10])) = true := by
    decide +kernel
  obtain ⟨s, hs, hp⟩ := (Option.any_eq_true _ _).mp hrun
  obtain ⟨hfacts, hp⟩ := Bool.and_eq_true_iff.mp hp
  obtain ⟨hpos, hroom, hline⟩ := of_decide_eq_true hfacts
  obtain ⟨s', hs', hgot⟩ := (Option.any_eq_true _ _).mp hp
  have hgot := eq_of_beq hgot
  have hreach : Machine.Reach ttyReadStep Alone s s' := Machine.Reach.start.execOk hs'
  refine ⟨s, s', hs, hpos, hroom, hreach, hgot, fun h => ?_⟩
  have hfirst := h.got
  rw [hgot, hline] at hfirst
  exact absurd hfirst.length_le (by decide)

end TtyReading

end RheeKernel
