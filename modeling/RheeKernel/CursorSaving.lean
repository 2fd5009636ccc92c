import RheeKernel.ConsoleRange

namespace RheeKernel

namespace Console

/-- The saved cursor stays, and so does what the next character is for. -/
structure SameSaved (s u : Console) : Prop where
  x : u.savedX = s.savedX
  y : u.savedY = s.savedY
  state : u.state = s.state

variable {s u : Console} {a b x y : BitVec 32} {c e : BitVec 8} {n : Nat}

theorem SameSaved.refl : SameSaved s s := ⟨rfl, rfl, rfl⟩

theorem SameSaved.trans {v : Console} (h : SameSaved s u) (h' : SameSaved u v) : SameSaved s v :=
  ⟨h'.x.trans h.x, h'.y.trans h.y, h'.state.trans h.state⟩

theorem SameSaved.ite {p : Prop} [Decidable p] {v : Console} (h : SameSaved s u) (h' : SameSaved s v) : SameSaved s (if p then u else v) := by
  split
  next => exact h
  next => exact h'

theorem sameSaved_gotoxy : SameSaved s (s.gotoxy x y) := .ite .refl ⟨rfl, rfl, rfl⟩

/-- Scrolling does not move the cursor within the screen. -/
theorem sameSaved_scrup : SameSaved s s.scrup ∧ s.scrup.x = s.x ∧ s.scrup.y = s.y := by
  have hwrap : ∀ s : Console, SameSaved s s.wrap ∧ s.wrap.x = s.x ∧ s.wrap.y = s.y := by
    intro s
    unfold Console.wrap
    split
    next => exact ⟨⟨rfl, rfl, rfl⟩, rfl, rfl⟩
    next => exact ⟨⟨rfl, rfl, rfl⟩, rfl, rfl⟩
  unfold Console.scrup
  split
  next =>
    obtain ⟨hsaved, hx, hy⟩ := hwrap { s with origin := s.origin + (columns <<< 1), pos := s.pos + (columns <<< 1), scrEnd := s.scrEnd + (columns <<< 1) }
    exact ⟨⟨hsaved.x, hsaved.y, hsaved.state⟩, hx, hy⟩
  next => exact ⟨⟨rfl, rfl, rfl⟩, rfl, rfl⟩

theorem sameSaved_scrdown : SameSaved s s.scrdown := ⟨rfl, rfl, rfl⟩

theorem sameSaved_lf : SameSaved s s.lf := .ite ⟨rfl, rfl, rfl⟩ sameSaved_scrup.1

theorem sameSaved_ri : SameSaved s s.ri := .ite ⟨rfl, rfl, rfl⟩ sameSaved_scrdown

theorem sameSaved_del : SameSaved s s.del := .ite ⟨rfl, rfl, rfl⟩ .refl

theorem sameSaved_erase : SameSaved s (s.erase a b) := ⟨rfl, rfl, rfl⟩

theorem sameSaved_csiJ : SameSaved s (s.csiJ a) := by
  unfold Console.csiJ
  exact .ite sameSaved_erase (.ite sameSaved_erase (.ite sameSaved_erase .refl))

theorem sameSaved_csiK : SameSaved s (s.csiK a) := by
  unfold Console.csiK
  exact .ite (.ite .refl sameSaved_erase) (.ite sameSaved_erase (.ite sameSaved_erase .refl))

theorem sameSaved_deleteChar : SameSaved s s.deleteChar := .ite .refl ⟨rfl, rfl, rfl⟩

theorem sameSaved_fromCursor {scroll : Console → Console} (h : ∀ s, SameSaved s (scroll s)) : SameSaved s (s.fromCursor scroll) := by
  obtain ⟨hx, hy, hstate⟩ := h { s with top := s.y, bottom := lines }
  exact ⟨hx, hy, hstate⟩

theorem sameSaved_iterate {f : Console → Console} (h : ∀ s, SameSaved s (f s)) : SameSaved s (f^[n] s) := by
  induction n generalizing s with
  | zero => exact .refl
  | succ n ih => exact (h s).trans ih

theorem sameSaved_nextLine : SameSaved s s.nextLine := by
  obtain ⟨hx, hy, hstate⟩ := @sameSaved_lf { s with x := s.x - columns, pos := s.pos - (columns <<< 1) }
  exact ⟨hx, hy, hstate⟩

theorem sameSaved_print : SameSaved s (s.print c) := by
  obtain ⟨hx, hy, hstate⟩ : SameSaved s (if columns ≤ s.x then s.nextLine else s) := .ite sameSaved_nextLine .refl
  exact ⟨hx, hy, hstate⟩

theorem sameSaved_tab : SameSaved s s.tab := by
  unfold Console.tab
  dsimp only
  refine .ite ?_ ⟨rfl, rfl, rfl⟩
  obtain ⟨hx, hy, hstate⟩ := @sameSaved_nextLine { s with x := s.x + (8 - (s.x &&& 7)), pos := s.pos + ((8 - (s.x &&& 7)) <<< 1) }
  exact ⟨hx, hy, hstate⟩

/-- Printable and control characters. -/
theorem sameSaved_text (hc : c ≠ 27) : SameSaved s (s.text e c) := by
  unfold Console.text
  rw [if_neg hc]
  refine .ite sameSaved_print (.ite sameSaved_lf (.ite ⟨rfl, rfl, rfl⟩ (.ite sameSaved_del ?_)))
  exact .ite (.ite ⟨rfl, rfl, rfl⟩ .refl) (.ite sameSaved_tab .refl)

theorem sameSaved_atLeastOne : SameSaved s s.atLeastOne := .ite ⟨rfl, rfl, rfl⟩ .refl

theorem sameSaved_fromZero : SameSaved s (s.fromZero a) := .ite ⟨rfl, rfl, rfl⟩ .refl

theorem sameSaved_region : SameSaved s s.region := by
  have hlast : SameSaved s (if s.par 1 = 0 then s.setPar 1 lines else s) := .ite ⟨rfl, rfl, rfl⟩ .refl
  unfold Console.region
  dsimp only
  exact .ite ⟨hlast.x, hlast.y, hlast.state⟩ hlast

/-- Every command but the two for the cursor. -/
theorem sameSaved_command (hs : c ≠ byte 's') (hu : c ≠ byte 'u') : SameSaved s (s.command c) := by
  have hgoto : ∀ {u : Console} {x y}, SameSaved s u → SameSaved s (u.gotoxy x y) := fun h => h.trans sameSaved_gotoxy
  unfold Console.command
  refine .ite (hgoto sameSaved_fromZero) ?_
  refine .ite (hgoto sameSaved_atLeastOne) (.ite (hgoto sameSaved_atLeastOne) (.ite (hgoto sameSaved_atLeastOne) ?_))
  refine .ite (hgoto sameSaved_atLeastOne) (.ite (hgoto sameSaved_atLeastOne) (.ite (hgoto sameSaved_atLeastOne) ?_))
  refine .ite (hgoto sameSaved_fromZero) (.ite (hgoto (sameSaved_fromZero.trans sameSaved_fromZero)) ?_)
  refine .ite sameSaved_csiJ (.ite sameSaved_csiK ?_)
  refine .ite (sameSaved_iterate fun _ => sameSaved_fromCursor fun _ => sameSaved_scrdown) ?_
  refine .ite (sameSaved_iterate fun _ => sameSaved_fromCursor fun _ => sameSaved_scrup.1) ?_
  refine .ite (sameSaved_iterate fun _ => sameSaved_deleteChar) (.ite (sameSaved_iterate fun _ => ⟨rfl, rfl, rfl⟩) ?_)
  refine .ite ⟨rfl, rfl, rfl⟩ (.ite (sameSaved_fromZero.trans sameSaved_region) ?_)
  rw [if_neg hs, if_neg hu]
  exact .refl

/-- A digit or a separator. -/
def IsParam (c : BitVec 8) : Prop := c = byte ';' ∨ (byte '0').toInt ≤ c.toInt ∧ c.toInt ≤ (byte '9').toInt

/-- What a program sends between saving and restoring the cursor: a printable or control character, one of the letters that move the
cursor, or a sequence with parameters that is neither of the two for the cursor; each byte with the erase character of its time. -/
inductive Piece : List (BitVec 8 × BitVec 8) → Prop
  | char (e : BitVec 8) {c : BitVec 8} (plain : c ≠ 27) : Piece [(e, c)]
  | letter (e₁ e₂ : BitVec 8) {c : BitVec 8} (moves : c = byte 'E' ∨ c = byte 'M' ∨ c = byte 'D') : Piece [(e₁, 27), (e₂, c)]
  | sequence (e₁ e₂ e : BitVec 8) {qs ps : List (BitVec 8 × BitVec 8)} {c : BitVec 8}
    (question : qs = [] ∨ ∃ e', qs = [(e', byte '?')]) (params : ∀ p ∈ ps, IsParam p.2)
    (final : ¬ IsParam c ∧ c ≠ 27 ∧ c ≠ byte '?' ∧ c ≠ byte 's' ∧ c ≠ byte 'u') :
    Piece ((e₁, 27) :: (e₂, byte '[') :: (qs ++ ps ++ [(e, c)]))

/-- A stream of complete pieces. -/
inductive Complete : List (BitVec 8 × BitVec 8) → Prop
  | nil : Complete []
  | cons {p cs : List (BitVec 8 × BitVec 8)} (piece : Piece p) (rest : Complete cs) : Complete (p ++ cs)

theorem writeAll_append {cs ds : List (BitVec 8 × BitVec 8)} : s.writeAll (cs ++ ds) = (s.writeAll cs).writeAll ds := List.foldl_append

theorem sameSaved_escape (h : c = byte 'E' ∨ c = byte 'M' ∨ c = byte 'D') : SameSaved s (s.escape c) := by
  unfold Console.escape
  rcases h with rfl | rfl | rfl
  · rw [if_neg (by decide), if_pos rfl]
    exact sameSaved_gotoxy
  · rw [if_neg (by decide), if_neg (by decide), if_pos rfl]
    exact sameSaved_ri
  · rw [if_neg (by decide), if_neg (by decide), if_neg (by decide), if_pos rfl]
    exact sameSaved_lf

theorem isParam_plain (h : IsParam c) : c ≠ 27 ∧ c ≠ byte '?' ∧ c ≠ byte 's' ∧ c ≠ byte 'u' := by
  rcases h with rfl | ⟨hlow, hhigh⟩
  · decide
  · refine ⟨?_, ?_, ?_, ?_⟩ <;> rintro rfl <;> revert hlow hhigh <;> decide

/-- The saved cursor stays, and the console is in a sequence or behind it. -/
structure Within (s u : Console) : Prop where
  x : u.savedX = s.savedX
  y : u.savedY = s.savedY
  state : u.state = .text ∨ u.state = .params

theorem SameSaved.within (h : SameSaved s u) (hs : s.state = .text ∨ s.state = .params) : Within s u :=
  ⟨h.x, h.y, by rwa [h.state]⟩

theorem Within.trans {v : Console} (h : Within s u) (h' : Within u v) : Within s v := ⟨h'.x.trans h.x, h'.y.trans h.y, h'.state⟩

/-- A character that is not for the cursor, inside a sequence: at the end of it the console is back at text. -/
theorem within_write (hs : s.state = .text ∨ s.state = .params) (hescape : c ≠ 27) (hsave : c ≠ byte 's') (hrestore : c ≠ byte 'u') :
    Within s (s.write e c) ∧ (¬ IsParam c → (s.write e c).state = .text) := by
  unfold Console.write
  rcases hs with htext | hparams
  · rw [htext]
    have hsame := @sameSaved_text s c e hescape
    exact ⟨hsame.within (.inl htext), fun _ => hsame.state.trans htext⟩
  · rw [hparams]
    dsimp only
    unfold Console.params
    by_cases hmore : c = byte ';' ∧ s.npar < parLimit - 1
    · rw [if_pos hmore]
      exact ⟨⟨rfl, rfl, .inr hparams⟩, fun hnot => absurd (.inl hmore.1) hnot⟩
    · rw [if_neg hmore]
      by_cases hdigit : (byte '0').toInt ≤ c.toInt ∧ c.toInt ≤ (byte '9').toInt
      · rw [if_pos hdigit]
        exact ⟨⟨rfl, rfl, .inr hparams⟩, fun hnot => absurd (.inr hdigit) hnot⟩
      · rw [if_neg hdigit]
        have hsame := @sameSaved_command { s with state := .text } c hsave hrestore
        exact ⟨⟨hsame.x, hsame.y, .inl hsame.state⟩, fun _ => hsame.state⟩

theorem within_params {ps : List (BitVec 8 × BitVec 8)} (hs : s.state = .text ∨ s.state = .params) (hps : ∀ p ∈ ps, IsParam p.2) :
    Within s (s.writeAll ps) := by
  induction ps generalizing s with
  | nil => exact ⟨rfl, rfl, hs⟩
  | cons p ps ih =>
    obtain ⟨hescape, _, hsave, hrestore⟩ := isParam_plain (hps p List.mem_cons_self)
    obtain ⟨hwithin, _⟩ := @within_write s p.2 p.1 hs hescape hsave hrestore
    exact hwithin.trans (ih hwithin.state fun q hq => hps q (List.mem_cons_of_mem p hq))

/-- The state in which the parameters of a sequence are read. -/
def opened (s : Console) (ques : Bool) : Console :=
  { s with par := fun i => if i < parLimit then 0 else s.par i, npar := 0, state := .params, ques := ques }

theorem write_bracket (hs : s.state = .bracket) (hc : c ≠ byte '?') : s.write e c = (s.opened false).write e c := by
  have hno : decide (c = byte '?') = false := decide_eq_false hc
  unfold Console.write
  rw [hs]
  dsimp only [opened]
  unfold Console.bracket
  dsimp only
  rw [hno]
  rfl

theorem write_question (hs : s.state = .bracket) : s.write e (byte '?') = s.opened true := by
  unfold Console.write
  rw [hs]
  rfl

/-- The parameters and the last letter of a sequence. -/
theorem within_final {ps : List (BitVec 8 × BitVec 8)} (hs : s.state = .params) (hps : ∀ p ∈ ps, IsParam p.2)
    (hfinal : ¬ IsParam c ∧ c ≠ 27 ∧ c ≠ byte '?' ∧ c ≠ byte 's' ∧ c ≠ byte 'u') :
    (s.writeAll (ps ++ [(e, c)])).savedX = s.savedX ∧ (s.writeAll (ps ++ [(e, c)])).savedY = s.savedY ∧
      (s.writeAll (ps ++ [(e, c)])).state = .text := by
  obtain ⟨hparam, hescape, _, hsave, hrestore⟩ := hfinal
  have hwithin := within_params (.inr hs) hps
  obtain ⟨hlast, hend⟩ := @within_write (s.writeAll ps) c e hwithin.state hescape hsave hrestore
  rw [writeAll_append]
  exact ⟨hlast.x.trans hwithin.x, hlast.y.trans hwithin.y, hend hparam⟩

/-- The two bytes of an escape sequence. -/
theorem write_escape {e₁ e₂ : BitVec 8} (hs : s.state = .text) : (s.write e₁ 27).write e₂ c = s.escape c := by
  have hfirst : s.write e₁ 27 = { s with state := .escape } := by
    unfold Console.write
    rw [hs]
    rfl
  have hback : { s with state := .text } = s := by rw [← hs]
  rw [hfirst]
  change escape { s with state := .text } c = _
  rw [hback]

/-- A sequence with parameters, behind its first two bytes. -/
theorem sameSaved_bracket {q ps : List (BitVec 8 × BitVec 8)} (hs : s.state = .bracket) (hq : q = [] ∨ ∃ e', q = [(e', byte '?')])
    (hps : ∀ p ∈ ps, IsParam p.2) (hfinal : ¬ IsParam c ∧ c ≠ 27 ∧ c ≠ byte '?' ∧ c ≠ byte 's' ∧ c ≠ byte 'u') :
    (s.writeAll (q ++ ps ++ [(e, c)])).savedX = s.savedX ∧ (s.writeAll (q ++ ps ++ [(e, c)])).savedY = s.savedY ∧
      (s.writeAll (q ++ ps ++ [(e, c)])).state = .text := by
  rcases hq with rfl | ⟨e', rfl⟩
  · have hopened : s.writeAll (ps ++ [(e, c)]) = (s.opened false).writeAll (ps ++ [(e, c)]) := by
      cases ps with
      | nil =>
        change s.write e c = _
        rw [write_bracket hs hfinal.2.2.1]
        rfl
      | cons p ps =>
        change (s.write p.1 p.2).writeAll (ps ++ [(e, c)]) = _
        rw [write_bracket hs (isParam_plain (hps p List.mem_cons_self)).2.1]
        rfl
    rw [List.nil_append, hopened]
    exact within_final rfl hps hfinal
  · have hopened : s.writeAll ([(e', byte '?')] ++ ps ++ [(e, c)]) = (s.opened true).writeAll (ps ++ [(e, c)]) := by
      change (s.write e' (byte '?')).writeAll (ps ++ [(e, c)]) = _
      rw [write_question hs]
    rw [hopened]
    exact within_final rfl hps hfinal

/-- A complete piece leaves the saved cursor alone, and the console at text. -/
theorem Piece.sameSaved {p : List (BitVec 8 × BitVec 8)} (h : Piece p) (hs : s.state = .text) : SameSaved s (s.writeAll p) := by
  cases h with
  | @char e c plain =>
    have hwrite : s.writeAll [(e, c)] = s.text e c := by
      change s.write e c = _
      unfold Console.write
      rw [hs]
    rw [hwrite]
    exact sameSaved_text plain
  | @letter e₁ e₂ c moves =>
    change SameSaved s ((s.write e₁ 27).write e₂ c)
    rw [write_escape hs]
    exact sameSaved_escape moves
  | @sequence e₁ e₂ e q ps c question params final =>
    change SameSaved s (((s.write e₁ 27).write e₂ (byte '[')).writeAll (q ++ ps ++ [(e, c)]))
    rw [write_escape hs]
    obtain ⟨hx, hy, hstate⟩ := @sameSaved_bracket (s.escape (byte '[')) c e q ps rfl question params final
    exact ⟨hx, hy, hstate.trans hs.symm⟩

theorem Complete.sameSaved {cs : List (BitVec 8 × BitVec 8)} (h : Complete cs) (hs : s.state = .text) : SameSaved s (s.writeAll cs) := by
  induction h generalizing s with
  | nil => exact .refl
  | @cons p cs piece rest ih =>
    have hpiece := piece.sameSaved hs
    rw [writeAll_append]
    exact hpiece.trans (ih (hpiece.state.trans hs))

/-- ESC and a letter. -/
def esc (e₁ e₂ : BitVec 8) (c : Char) : List (BitVec 8 × BitVec 8) := [(e₁, 27), (e₂, byte c)]

/-- CSI and a letter. -/
def csi (e₁ e₂ e₃ : BitVec 8) (c : Char) : List (BitVec 8 × BitVec 8) := [(e₁, 27), (e₂, byte '['), (e₃, byte c)]

/-- The cursor is in the same place. -/
def SameCursor (s u : Console) : Prop := u.x = s.x ∧ u.y = s.y

theorem writeAll_esc {e₁ e₂ : BitVec 8} {d : Char} (hs : s.state = .text) : s.writeAll (esc e₁ e₂ d) = s.escape (byte d) := write_escape hs

/-- CSI s and CSI u do what the letters say. -/
theorem writeAll_csi_s {e₁ e₂ e₃ : BitVec 8} (hs : s.state = .text) : s.writeAll (csi e₁ e₂ e₃ 's') = { (s.opened false).saveCur with state := .text } := by
  change ((s.write e₁ 27).write e₂ (byte '[')).write e₃ (byte 's') = _
  rw [write_escape hs]
  rfl

theorem writeAll_csi_u {e₁ e₂ e₃ : BitVec 8} (hs : s.state = .text) : s.writeAll (csi e₁ e₂ e₃ 'u') = { (s.opened false).restoreCur with state := .text } := by
  change ((s.write e₁ 27).write e₂ (byte '[')).write e₃ (byte 'u') = _
  rw [write_escape hs]
  rfl

/-- ESC 7 and ESC 8 around the stream leave the cursor where it was, as CSI s and CSI u do. -/
structure CursorKept (s : Console) (cs : List (BitVec 8 × BitVec 8)) : Prop where
  esc : ∀ e₁ e₂ e₃ e₄, SameCursor s (s.writeAll (esc e₁ e₂ '7' ++ cs ++ esc e₃ e₄ '8'))
  csi : ∀ e₁ e₂ e₃ e₄ e₅ e₆, SameCursor s (s.writeAll (csi e₁ e₂ e₃ 's' ++ cs ++ csi e₄ e₅ e₆ 'u'))

/-- ESC and a character neither save the cursor nor move it to where it was saved. -/
structure Neutral (s : Console) (c : BitVec 8) : Prop where
  saved : ∀ e₁ e₂, (s.writeAll [(e₁, 27), (e₂, c)]).savedX = s.savedX ∧ (s.writeAll [(e₁, 27), (e₂, c)]).savedY = s.savedY
  cursor : ∀ e₁ e₂ x y, SameCursor (s.writeAll [(e₁, 27), (e₂, c)]) ({ s with savedX := x, savedY := y }.writeAll [(e₁, 27), (e₂, c)])

/-- The cursor is where it was saved last. -/
def AtSaved (s : Console) : Prop := s.savedX = s.x ∧ s.savedY = s.y

/-- ESC 8 comes in column 56, and ESC 7 came in column 55 or where the cursor was saved already; or the stream brings the cursor back by
itself, to another column than 56. `u` is the state in which ESC 8 comes. -/
def KeptWhen (s u : Console) : Prop := if u.x = 56 then s.x = 55 ∨ s.AtSaved else SameCursor s u

/-- The character is one of the four that are looked for before, or the cursor is in none of the two columns. -/
def NeutralWhen (s : Console) (c : BitVec 8) : Prop :=
  (c = byte 'E' ∨ c = byte 'M' ∨ c = byte 'D' ∨ c = byte 'Z') ∨ (s.x ≠ 56 ∧ (s.x = 55 → s.AtSaved))

/-- What the letters that are not looked for do. -/
theorem escape_other (hopen : c ≠ byte '[') (hE : c ≠ byte 'E') (hM : c ≠ byte 'M') (hD : c ≠ byte 'D') (hZ : c ≠ byte 'Z') :
    s.escape c = if s.x = 55 then s.saveCur else if s.x = 56 then s.restoreCur else s := by
  unfold Console.escape
  rw [if_neg hopen, if_neg hE, if_neg hM, if_neg hD, if_neg hZ]
  rfl

theorem escape_digit {d : Char} (h : d = '7' ∨ d = '8') : s.escape (byte d) = if s.x = 55 then s.saveCur else if s.x = 56 then s.restoreCur else s := by
  rcases h with rfl | rfl
  · exact escape_other (by decide) (by decide) (by decide) (by decide) (by decide)
  · exact escape_other (by decide) (by decide) (by decide) (by decide) (by decide)

theorem csi_keeps {cs : List (BitVec 8 × BitVec 8)} {e₁ e₂ e₃ e₄ e₅ e₆ : BitVec 8} (hs : s.state = .text) (hcs : Complete cs) :
    SameCursor s (s.writeAll (csi e₁ e₂ e₃ 's' ++ cs ++ csi e₄ e₅ e₆ 'u')) := by
  have hsame := hcs.sameSaved (s := { (s.opened false).saveCur with state := .text }) rfl
  rw [writeAll_append, writeAll_append, writeAll_csi_s hs, writeAll_csi_u hsame.state]
  exact ⟨hsame.x, hsame.y⟩

/-- The state in which ESC 8 comes. -/
def between (s : Console) (cs : List (BitVec 8 × BitVec 8)) : Console := (s.escape (byte '7')).writeAll cs

theorem esc_keeps_iff {cs : List (BitVec 8 × BitVec 8)} {e₁ e₂ e₃ e₄ : BitVec 8} (hs : s.state = .text) (hcs : Complete cs) :
    SameCursor s (s.writeAll (esc e₁ e₂ '7' ++ cs ++ esc e₃ e₄ '8')) ↔ KeptWhen s (s.between cs) := by
  have hsave := @escape_digit s '7' (.inl rfl)
  have htext : (s.escape (byte '7')).state = .text := by
    rw [hsave]
    split
    next => exact hs
    next => split <;> exact hs
  have hsame := hcs.sameSaved htext
  rw [writeAll_append, writeAll_append, writeAll_esc hs, writeAll_esc (hsame.state.trans htext), escape_digit (.inr rfl)]
  change SameCursor s (if (s.between cs).x = 55 then (s.between cs).saveCur
    else if (s.between cs).x = 56 then (s.between cs).restoreCur else s.between cs) ↔ _
  unfold KeptWhen
  by_cases hrestore : (s.between cs).x = 56
  · have hne : (s.between cs).x ≠ 55 := by rw [hrestore]; decide
    rw [if_neg hne, if_pos hrestore, if_pos hrestore]
    change (s.between cs).savedX = s.x ∧ (s.between cs).savedY = s.y ↔ _
    have hx : (s.between cs).savedX = (s.escape (byte '7')).savedX := hsame.x
    have hy : (s.between cs).savedY = (s.escape (byte '7')).savedY := hsame.y
    rw [hx, hy, hsave]
    by_cases hcolumn : s.x = 55
    · rw [if_pos hcolumn]
      exact iff_of_true ⟨rfl, rfl⟩ (.inl hcolumn)
    · rw [if_neg hcolumn]
      have hsaved : (if s.x = 56 then s.restoreCur else s).savedX = s.savedX ∧ (if s.x = 56 then s.restoreCur else s).savedY = s.savedY := by
        split
        next => exact ⟨rfl, rfl⟩
        next => exact ⟨rfl, rfl⟩
      rw [hsaved.1, hsaved.2]
      exact ⟨.inr, fun h => h.resolve_left hcolumn⟩
  · rw [if_neg hrestore, if_neg hrestore]
    split
    next => exact Iff.rfl
    next => exact Iff.rfl

theorem lf_cursor : s.lf.x = s.x ∧ s.lf.y = if s.y + 1 < s.bottom then s.y + 1 else s.y := by
  unfold Console.lf
  split
  next => exact ⟨rfl, rfl⟩
  next => exact sameSaved_scrup.2

theorem ri_cursor : s.ri.x = s.x ∧ s.ri.y = if s.top < s.y then s.y - 1 else s.y := by
  unfold Console.ri
  split
  next => exact ⟨rfl, rfl⟩
  next => exact ⟨rfl, rfl⟩

theorem gotoxy_cursor : SameCursor (s.gotoxy a b) ({ s with savedX := x, savedY := y }.gotoxy a b) := by
  unfold Console.gotoxy
  split
  next => exact ⟨rfl, rfl⟩
  next => exact ⟨rfl, rfl⟩

/-- The letters that are looked for. -/
theorem escape_cursor (h : c = byte 'E' ∨ c = byte 'M' ∨ c = byte 'D' ∨ c = byte 'Z') :
    SameSaved s (s.escape c) ∧ SameCursor (s.escape c) ({ s with savedX := x, savedY := y }.escape c) := by
  rcases h with rfl | rfl | rfl | rfl
  · exact ⟨sameSaved_escape (.inl rfl), @gotoxy_cursor s 0 (s.y + 1) x y⟩
  · refine ⟨sameSaved_escape (.inr (.inl rfl)), ?_⟩
    have hri := @ri_cursor s
    have hri' := @ri_cursor { s with savedX := x, savedY := y }
    exact ⟨hri'.1.trans hri.1.symm, hri'.2.trans hri.2.symm⟩
  · refine ⟨sameSaved_escape (.inr (.inr rfl)), ?_⟩
    have hlf := @lf_cursor s
    have hlf' := @lf_cursor { s with savedX := x, savedY := y }
    exact ⟨hlf'.1.trans hlf.1.symm, hlf'.2.trans hlf.2.symm⟩
  · exact ⟨.refl, rfl, rfl⟩

theorem neutral_escape (hs : s.state = .text) : Neutral s c ↔ ((s.escape c).savedX = s.savedX ∧ (s.escape c).savedY = s.savedY) ∧
    ∀ x y, SameCursor (s.escape c) ({ s with savedX := x, savedY := y }.escape c) := by
  have hrun : ∀ u : Console, u.state = .text → ∀ e₁ e₂, u.writeAll [(e₁, 27), (e₂, c)] = u.escape c := fun u hu e₁ e₂ => write_escape hu
  constructor
  · rintro ⟨hsaved, hcursor⟩
    refine ⟨?_, fun x y => ?_⟩
    · rw [← hrun s hs 0 0]
      exact hsaved 0 0
    · rw [← hrun s hs 0 0, ← hrun { s with savedX := x, savedY := y } hs 0 0]
      exact hcursor 0 0 x y
  · rintro ⟨hsaved, hcursor⟩
    refine ⟨fun e₁ e₂ => ?_, fun e₁ e₂ x y => ?_⟩
    · rw [hrun s hs]
      exact hsaved
    · rw [hrun s hs, hrun { s with savedX := x, savedY := y } hs]
      exact hcursor x y

theorem neutral_iff (hs : s.state = .text) (hopen : c ≠ byte '[') : Neutral s c ↔ NeutralWhen s c := by
  rw [neutral_escape hs]
  unfold NeutralWhen
  by_cases hknown : c = byte 'E' ∨ c = byte 'M' ∨ c = byte 'D' ∨ c = byte 'Z'
  · obtain ⟨hsame, _⟩ := @escape_cursor s 0 0 c hknown
    exact iff_of_true ⟨⟨hsame.x, hsame.y⟩, fun x y => (escape_cursor hknown).2⟩ (.inl hknown)
  · have hother : ∀ u : Console, u.escape c = if u.x = 55 then u.saveCur else if u.x = 56 then u.restoreCur else u := by
      intro u
      simp only [not_or] at hknown
      exact escape_other hopen hknown.1 hknown.2.1 hknown.2.2.1 hknown.2.2.2
    simp only [hknown, false_or, hother]
    by_cases hsave : s.x = 55
    · have hne : s.x ≠ 56 := by rw [hsave]; decide
      simp only [if_pos hsave]
      constructor
      · rintro ⟨⟨hx, hy⟩, _⟩
        exact ⟨hne, fun _ => ⟨hx.symm, hy.symm⟩⟩
      · rintro ⟨_, hsaved⟩
        obtain ⟨hx, hy⟩ := hsaved hsave
        exact ⟨⟨hx.symm, hy.symm⟩, fun _ _ => ⟨rfl, rfl⟩⟩
    · simp only [if_neg hsave]
      by_cases hrestore : s.x = 56
      · simp only [if_pos hrestore]
        refine iff_of_false ?_ fun h => h.1 hrestore
        rintro ⟨_, hcursor⟩
        have hzero := (hcursor (s.savedX + 1) s.savedY).1
        have hne : s.savedX + 1 ≠ s.savedX := by bv_omega
        exact hne hzero
      · simp only [if_neg hrestore]
        exact iff_of_true ⟨⟨trivial, trivial⟩, fun _ _ => ⟨rfl, rfl⟩⟩ ⟨hrestore, fun h => absurd h hsave⟩

/-- Where the cursor is saved and restored by ESC 7 and ESC 8, and where other letters leave it alone. -/
theorem cursor_saving_iff {cs : List (BitVec 8 × BitVec 8)} (hs : s.state = .text) (hcs : Complete cs) :
    (CursorKept s cs ↔ KeptWhen s (s.between cs)) ∧
    ∀ c, c ≠ byte '[' → c ≠ byte '7' → c ≠ byte '8' → (Neutral s c ↔ NeutralWhen s c) := by
  refine ⟨⟨?_, ?_⟩, fun c hopen _ _ => neutral_iff hs hopen⟩
  · intro hkept
    exact (esc_keeps_iff hs hcs).mp (hkept.esc 0 0 0 0)
  · intro hwhen
    constructor
    · intro e₁ e₂ e₃ e₄
      exact (esc_keeps_iff hs hcs).mpr hwhen
    · intro e₁ e₂ e₃ e₄ e₅ e₆
      exact csi_keeps hs hcs

/-- The cursor in this column of the first line. -/
def atColumn (column : BitVec 32) : Console := (boot fun _ => blank).gotoxy column 0

theorem cursor_saving_iff_column : CursorKept (atColumn 55) [(0, byte 'A')] ∧ Neutral (atColumn 55) (byte 'M') := by
  have hcs : Complete [(0, byte 'A')] := .cons (.char 0 (by decide)) .nil
  obtain ⟨hkept, hneutral⟩ := cursor_saving_iff (s := atColumn 55) rfl hcs
  refine ⟨hkept.mpr ?_, (hneutral (byte 'M') (by decide) (by decide) (by decide)).mpr (.inl (.inr (.inl rfl)))⟩
  unfold KeptWhen
  rw [if_pos (by decide)]
  exact .inl (by decide)

/-- ESC 7, A, ESC 8 in column 0 leaves the cursor in column 1; ESC c in column 56 restores the cursor. -/
theorem cursor_not_kept : ((atColumn 0).writeAll (esc 0 0 '7' ++ [(0, byte 'A')] ++ esc 0 0 '8')).x = 1 ∧
    ¬ CursorKept (atColumn 0) [(0, byte 'A')] ∧ ((atColumn 56).writeAll (esc 0 0 'c')).x = 0 ∧ ¬ Neutral (atColumn 56) (byte 'c') := by
  have hone : ((atColumn 0).writeAll (esc 0 0 '7' ++ [(0, byte 'A')] ++ esc 0 0 '8')).x = 1 := by decide
  have hzero : ((atColumn 56).writeAll (esc 0 0 'c')).x = 0 := by decide
  refine ⟨hone, fun hkept => ?_, hzero, fun hneutral => ?_⟩
  · have hx := (hkept.esc 0 0 0 0).1
    rw [hone] at hx
    exact absurd hx (by decide)
  · rcases (neutral_iff rfl (by decide)).mp hneutral with hknown | ⟨hne, _⟩
    · exact absurd hknown (by decide)
    · exact hne (by decide)

end Console

end RheeKernel
