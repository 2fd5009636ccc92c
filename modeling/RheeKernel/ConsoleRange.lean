import RheeKernel.Console

namespace RheeKernel

namespace Console

/-- The cursor is in the line or directly behind it, and the screen is in the video memory with all that has been touched. -/
structure Valid (s : Console) : Prop where
  column : s.x.toNat ≤ 80
  row : s.y.toNat < 25
  pos : s.pos.toNat = s.origin.toNat + 2 * (s.y.toNat * 80 + s.x.toNat)
  region : s.top.toNat < s.bottom.toNat ∧ s.bottom.toNat ≤ 25
  scrEnd : s.scrEnd.toNat = s.origin.toNat + 4000
  start : 0xb8000 ≤ s.origin.toNat
  stop : s.scrEnd.toNat ≤ 0xc0000
  savedX : s.savedX.toNat ≤ 80
  savedY : s.savedY.toNat < 25
  npar : s.npar.toNat < 16
  memory : s.memory.Within 0xb8000 0xc0000

variable {s : Console} {x y a b count start : BitVec 32} {c : BitVec 8} {n : Nat}

theorem Valid.cursor (h : s.Valid) : s.x.toNat ≤ 80 ∧ s.y.toNat < 25 ∧ s.pos.toNat = s.origin.toNat + 2 * (s.y.toNat * 80 + s.x.toNat) ∧
    s.scrEnd.toNat = s.origin.toNat + 4000 ∧ 0xb8000 ≤ s.origin.toNat ∧ s.scrEnd.toNat ≤ 0xc0000 :=
  ⟨h.column, h.row, h.pos, h.scrEnd, h.start, h.stop⟩

theorem place {origin : BitVec 32} (hx : x.toNat ≤ 80) (hy : y.toNat < 25) (ho : origin.toNat ≤ 0xc0000) :
    (origin + ((y * columns + x) <<< 1)).toNat = origin.toNat + 2 * (y.toNat * 80 + x.toNat) := by
  unfold columns
  bv_omega

theorem Valid.goto (h : s.Valid) (hx : x.toNat ≤ 80) (hy : y.toNat < 25) :
    Valid { s with x := x, y := y, pos := s.origin + ((y * columns + x) <<< 1) } :=
  { h with
    column := hx
    row := hy
    pos := place hx hy (by have := h.stop; have := h.scrEnd; omega) }

theorem Valid.gotoxy (h : s.Valid) : (s.gotoxy x y).Valid := by
  unfold Console.gotoxy
  split
  next => exact h
  next hin =>
    unfold columns lines at hin
    exact h.goto (by bv_omega) (by bv_omega)

theorem Valid.restoreCur (h : s.Valid) : s.restoreCur.Valid := h.goto h.savedX h.savedY

theorem Valid.saveCur (h : s.Valid) : s.saveCur.Valid := { h with savedX := h.column, savedY := h.row }

theorem Valid.cr (h : s.Valid) : s.cr.Valid :=
  { h with
    column := Nat.zero_le 80
    pos := by
      obtain ⟨hx, hy, hpos, hend, hstart, hstop⟩ := h.cursor
      unfold Console.cr
      bv_omega }

theorem Valid.store (h : s.Valid) {w : BitVec 16} (hlo : 0xb8000 ≤ a.toNat) (hhi : a.toNat + 2 ≤ 0xc0000) :
    Valid { s with memory := s.memory.store a w } := { h with memory := h.memory.store hlo hhi }

theorem Valid.del (h : s.Valid) : s.del.Valid := by
  obtain ⟨hx, hy, hpos, hend, hstart, hstop⟩ := h.cursor
  unfold Console.del
  split
  next hne =>
    have hback : (s.x - 1).toNat = s.x.toNat - 1 ∧ (s.pos - 2).toNat = s.pos.toNat - 2 ∧ 0 < s.x.toNat := by
      refine ⟨?_, ?_, ?_⟩ <;> bv_omega
    have hleft : Valid { s with pos := s.pos - 2, x := s.x - 1 } := { h with column := by dsimp only; omega, pos := by dsimp only; omega }
    exact hleft.store (by omega) (by omega)
  next => exact h

theorem Valid.erase (h : s.Valid) (hlo : 0xb8000 ≤ start.toNat) (hhi : start.toNat + 2 * count.toNat ≤ 0xc0000) : (s.erase count start).Valid :=
  { h with memory := h.memory.stosw (by decide) hlo hhi }

theorem Valid.csiJ (h : s.Valid) : (s.csiJ a).Valid := by
  obtain ⟨hx, hy, hpos, hend, hstart, hstop⟩ := h.cursor
  unfold Console.csiJ
  split
  next => exact h.erase (by omega) (by bv_omega)
  next =>
    split
    next => exact h.erase (by omega) (by bv_omega)
    next =>
      split
      next =>
        have hall : (columns * lines).toNat = 2000 := rfl
        exact h.erase (by omega) (by omega)
      next => exact h

theorem Valid.csiK (h : s.Valid) : (s.csiK a).Valid := by
  obtain ⟨hx, hy, hpos, hend, hstart, hstop⟩ := h.cursor
  have hline : (s.pos - (s.x <<< 1)).toNat = s.origin.toNat + 160 * s.y.toNat := by bv_omega
  have hcolumns : columns.toNat = 80 := rfl
  unfold Console.csiK
  split
  next =>
    split
    next => exact h
    next hlt => exact h.erase (by omega) (by unfold columns at hlt ⊢; bv_omega)
  next =>
    split
    next =>
      refine h.erase (by omega) ?_
      split <;> omega
    next =>
      split
      next => exact h.erase (by omega) (by omega)
      next => exact h

theorem Valid.insertChar (h : s.Valid) : s.insertChar.Valid := by
  have hshift : ∀ (n : Nat) (old : BitVec 16) (p : BitVec 32) (m : WordMemory), m.Within 0xb8000 0xc0000 → 0xb8000 ≤ p.toNat →
      p.toNat + 2 * n ≤ 0xc0000 → (shiftRight old n p m).Within 0xb8000 0xc0000 := by
    intro n
    induction n with
    | zero => exact fun _ _ _ hm _ _ => hm
    | succ n ih => exact fun old p m hm hlo hhi => ih _ _ _ ((hm.touch hlo (by omega)).store hlo (by omega)) (by bv_omega) (by bv_omega)
  obtain ⟨hx, hy, hpos, hend, hstart, hstop⟩ := h.cursor
  have hcolumns : columns.toNat = 80 := rfl
  exact { h with memory := hshift _ _ _ _ h.memory (by omega) (by omega) }

theorem Valid.deleteChar (h : s.Valid) : s.deleteChar.Valid := by
  have hshift : ∀ (n : Nat) (p : BitVec 32) (m : WordMemory), m.Within 0xb8000 0xc0000 → 0xb8000 ≤ p.toNat →
      p.toNat + 2 * n + 2 ≤ 0xc0000 → (shiftLeft n p m).Within 0xb8000 0xc0000 := by
    intro n
    induction n with
    | zero => exact fun _ _ hm hlo hhi => hm.store hlo (by omega)
    | succ n ih => exact fun p m hm hlo hhi => ih _ _ ((hm.touch (by bv_omega) (by bv_omega)).store hlo (by omega)) (by bv_omega) (by bv_omega)
  obtain ⟨hx, hy, hpos, hend, hstart, hstop⟩ := h.cursor
  have hcolumns : columns.toNat = 80 := rfl
  unfold Console.deleteChar
  split
  next => exact h
  next hlt =>
    rw [BitVec.le_def] at hlt
    exact { h with memory := hshift _ _ _ h.memory (by omega) (by omega) }

theorem twoColumns : columns <<< 1 = 160 := rfl

/-- The number of double words in the lines of a region but one. -/
theorem longs (h : a.toNat < b.toNat) (hb : b.toNat ≤ 25) : (((b - a - 1) * columns) >>> 1).toNat = 40 * (b.toNat - a.toNat - 1) := by
  have hone : (b - a - 1).toNat = b.toNat - a.toNat - 1 := by bv_omega
  have hmul : ((b - a - 1) * columns).toNat = (b.toNat - a.toNat - 1) * 80 := by
    rw [BitVec.toNat_mul, hone]
    exact Nat.mod_eq_of_lt (by change (b.toNat - a.toNat - 1) * 80 < 2 ^ 32; omega)
  rw [BitVec.toNat_ushiftRight, hmul]
  omega

theorem Valid.wrap (h : s.Valid) :
    Valid (Console.wrap { s with origin := s.origin + (columns <<< 1), pos := s.pos + (columns <<< 1), scrEnd := s.scrEnd + (columns <<< 1) }) := by
  obtain ⟨hx, hy, hpos, hend, hstart, hstop⟩ := h.cursor
  have hcolumns : columns.toNat = 80 := rfl
  have horigin : (s.origin + 160).toNat = s.origin.toNat + 160 := by bv_omega
  have hpos' : (s.pos + 160).toNat = s.pos.toNat + 160 := by bv_omega
  have hend' : (s.scrEnd + 160).toNat = s.scrEnd.toNat + 160 := by bv_omega
  rw [twoColumns]
  unfold Console.wrap
  dsimp only
  generalize s.origin + 160 = origin at horigin ⊢
  generalize s.pos + 160 = pos at hpos' ⊢
  generalize s.scrEnd + 160 = scrEnd at hend' ⊢
  split
  next =>
    -- The lower lines are copied to the front, and the last line is cleared there.
    have hlongs : (((lines - 1) * columns) >>> 1).toNat = 960 := rfl
    have hscreen : screenStart.toNat = 0xb8000 := rfl
    rw [hlongs]
    obtain ⟨hm, hedi⟩ := h.memory.movsl (n := 960) (by decide) (show 0xb8000 ≤ screenStart.toNat ∧ _ by omega)
      (show 0xb8000 ≤ origin.toNat ∧ _ by omega)
    exact { h with
      pos := by unfold screenStart; bv_omega
      scrEnd := by unfold screenStart; bv_omega
      start := by dsimp only; omega
      stop := by unfold screenStart; bv_omega
      memory := hm.stosw (by decide) (by omega) (by omega) }
  next hin =>
    have hstop' : scrEnd.toNat ≤ 0xc0000 := by
      unfold screenEnd at hin
      bv_omega
    have hline : (scrEnd - 160).toNat = scrEnd.toNat - 160 := by bv_omega
    have hwords : 2 * (columns >>> 1).toNat = 80 := rfl
    rw [hwords, twoColumns]
    exact { h with
      pos := by dsimp only; omega
      scrEnd := by dsimp only; omega
      start := by dsimp only; omega
      stop := hstop'
      memory := h.memory.stosw (by decide) (by omega) (by omega) }

theorem Valid.scrup (h : s.Valid) : s.scrup.Valid := by
  obtain ⟨hx, hy, hpos, hend, hstart, hstop⟩ := h.cursor
  obtain ⟨hregion, hbottom⟩ := h.region
  have hcolumns : columns.toNat = 80 := rfl
  unfold Console.scrup
  split
  next => exact h.wrap
  next =>
    have hcount := longs hregion hbottom
    have hdst : (s.origin + (columns <<< 1) * s.top).toNat = s.origin.toNat + 160 * s.top.toNat := by
      rw [twoColumns]
      bv_omega
    have hsrc : (s.origin + (columns <<< 1) * (s.top + 1)).toNat = s.origin.toNat + 160 * (s.top.toNat + 1) := by
      rw [twoColumns]
      bv_omega
    generalize s.origin + (columns <<< 1) * s.top = dst at hdst ⊢
    generalize s.origin + (columns <<< 1) * (s.top + 1) = src at hsrc ⊢
    generalize (((s.bottom - s.top - 1) * columns) >>> 1).toNat = count at hcount ⊢
    obtain ⟨hm, hedi⟩ := h.memory.movsl (n := count) (by decide) (show 0xb8000 ≤ dst.toNat ∧ _ by omega) (show 0xb8000 ≤ src.toNat ∧ _ by omega)
    exact { h with memory := hm.stosw (by decide) (by omega) (by omega) }

theorem Valid.scrdown (h : s.Valid) : s.scrdown.Valid := by
  obtain ⟨hx, hy, hpos, hend, hstart, hstop⟩ := h.cursor
  obtain ⟨hregion, hbottom⟩ := h.region
  have hcolumns : columns.toNat = 80 := rfl
  have hcount := longs hregion hbottom
  have hdst : (s.origin + (columns <<< 1) * s.bottom - 4).toNat = s.origin.toNat + 160 * s.bottom.toNat - 4 := by
    rw [twoColumns]
    bv_omega
  have hsrc : (s.origin + (columns <<< 1) * (s.bottom - 1) - 4).toNat = s.origin.toNat + 160 * (s.bottom.toNat - 1) - 4 := by
    rw [twoColumns]
    bv_omega
  unfold Console.scrdown
  generalize s.origin + (columns <<< 1) * s.bottom - 4 = dst at hdst ⊢
  generalize s.origin + (columns <<< 1) * (s.bottom - 1) - 4 = src at hsrc ⊢
  generalize (((s.bottom - s.top - 1) * columns) >>> 1).toNat = count at hcount ⊢
  obtain ⟨hm, hedi⟩ := h.memory.movsl_down (n := count) (by decide) (by decide) (show _ ≤ dst.toNat + 4 ∧ _ by omega)
    (show _ ≤ src.toNat + 4 ∧ _ by omega)
  have hnext : ((s.memory.movsl (-4) count dst src).2 + 2).toNat = (s.memory.movsl (-4) count dst src).2.toNat + 2 := by bv_omega
  exact { h with memory := hm.stosw_down (by omega) (by decide) (by omega) }

theorem Valid.lf (h : s.Valid) : s.lf.Valid := by
  obtain ⟨hx, hy, hpos, hend, hstart, hstop⟩ := h.cursor
  obtain ⟨hregion, hbottom⟩ := h.region
  unfold Console.lf
  split
  next hroom =>
    rw [twoColumns]
    exact { h with row := by bv_omega, pos := by bv_omega }
  next => exact h.scrup

theorem Valid.ri (h : s.Valid) : s.ri.Valid := by
  obtain ⟨hx, hy, hpos, hend, hstart, hstop⟩ := h.cursor
  unfold Console.ri
  split
  next hroom =>
    rw [twoColumns]
    exact { h with row := by bv_omega, pos := by bv_omega }
  next => exact h.scrdown

theorem Valid.fromCursor (h : s.Valid) {scroll : Console → Console} (hscroll : ∀ s, Valid s → (scroll s).Valid) :
    (s.fromCursor scroll).Valid :=
  { hscroll { s with top := s.y, bottom := lines } { h with region := ⟨h.row, Nat.le_refl 25⟩ } with region := h.region }

theorem Valid.iterate (h : s.Valid) {f : Console → Console} (hf : ∀ s, Valid s → (f s).Valid) : (f^[n] s).Valid := by
  induction n generalizing s with
  | zero => exact h
  | succ n ih => exact ih (hf s h)

theorem lf_x : s.lf.x = s.x := by
  have hwrap : ∀ s : Console, s.wrap.x = s.x := by
    intro s
    unfold Console.wrap
    split <;> rfl
  unfold Console.lf Console.scrup
  split
  next => rfl
  next =>
    split
    next => exact hwrap _
    next => rfl

theorem Valid.print (h : s.Valid) : (s.print c).Valid := by
  have hstay : Valid (if columns ≤ s.x then s.nextLine else s) ∧ (if columns ≤ s.x then s.nextLine else s).x.toNat < 80 := by
    obtain ⟨hx, hy, hpos, hend, hstart, hstop⟩ := h.cursor
    split
    next hbehind =>
      unfold columns at hbehind
      have hx' : (s.x - columns).toNat = 0 := by
        unfold columns
        bv_omega
      unfold Console.nextLine
      refine ⟨Valid.lf { h with column := ?_, pos := ?_ }, ?_⟩
      · dsimp only
        omega
      · rw [twoColumns]
        unfold columns
        bv_omega
      · rw [lf_x]
        dsimp only
        omega
    next hin =>
      unfold columns at hin
      exact ⟨h, by bv_omega⟩
  obtain ⟨hvalid, hlt⟩ := hstay
  unfold Console.print
  dsimp only
  generalize (if columns ≤ s.x then s.nextLine else s) = u at hvalid hlt ⊢
  obtain ⟨hx, hy, hpos, hend, hstart, hstop⟩ := hvalid.cursor
  have hstore := hvalid.store (w := u.attr ++ c) (a := u.pos) (by omega) (by omega)
  exact { hstore with column := by bv_omega, pos := by bv_omega }

theorem Valid.tab (h : s.Valid) : s.tab.Valid := by
  obtain ⟨hx, hy, hpos, hend, hstart, hstop⟩ := h.cursor
  have hstop : (8 - (s.x &&& 7)).toNat = 8 - s.x.toNat % 8 := by
    have hmod : (s.x &&& 7).toNat = s.x.toNat % 8 := by
      rw [BitVec.toNat_and]
      exact Nat.and_two_pow_sub_one_eq_mod _ 3
    bv_omega
  unfold Console.tab
  dsimp only
  generalize 8 - (s.x &&& 7) = c at hstop ⊢
  split
  next hbehind =>
    unfold columns at hbehind
    refine Valid.lf { h with column := ?_, pos := ?_ }
    · unfold columns
      bv_omega
    · rw [twoColumns]
      unfold columns
      bv_omega
  next hin =>
    unfold columns at hin
    exact { h with column := by bv_omega, pos := by bv_omega }

theorem Valid.setState (h : s.Valid) {state : ConState} : Valid { s with state := state } := { h with }

theorem Valid.text (h : s.Valid) {eraseChar : BitVec 8} : (s.text eraseChar c).Valid := by
  obtain ⟨hx, hy, hpos, hend, hstart, hstop⟩ := h.cursor
  unfold Console.text
  split_ifs with _ _ _ _ _ _ hne
  · exact h.print
  · exact h.setState
  · exact h.lf
  · exact h.cr
  · exact h.del
  · exact { h with column := by bv_omega, pos := by bv_omega }
  · exact h
  · exact h.tab
  · exact h

theorem Valid.escape (h : s.Valid) : (s.escape c).Valid := by
  unfold Console.escape
  split_ifs
  · exact h.setState
  · exact h.gotoxy
  · exact h.ri
  · exact h.lf
  · exact h
  · exact h.saveCur
  · exact h.restoreCur
  · exact h

theorem Valid.setPar (h : s.Valid) : (s.setPar a b).Valid := { h with }

theorem Valid.atLeastOne (h : s.Valid) : s.atLeastOne.Valid := by
  unfold Console.atLeastOne
  split
  next => exact h.setPar
  next => exact h

theorem Valid.fromZero (h : s.Valid) : (s.fromZero a).Valid := by
  unfold Console.fromZero
  split
  next => exact h.setPar
  next => exact h

theorem Valid.region' (h : s.Valid) : s.region.Valid := by
  have hset : Valid (if s.par 1 = 0 then s.setPar 1 lines else s) := by
    split
    next => exact h.setPar
    next => exact h
  unfold Console.region
  generalize (if s.par 1 = 0 then s.setPar 1 lines else s) = u at hset ⊢
  dsimp only
  split
  next hin =>
    unfold lines at hin
    exact { hset with region := by bv_omega }
  next => exact hset

theorem Valid.ite {p : Prop} [Decidable p] {u : Console} (h : s.Valid) (hu : u.Valid) : (if p then s else u).Valid := by
  split
  next => exact h
  next => exact hu

theorem Valid.command (h : s.Valid) : (s.command c).Valid := by
  unfold Console.command
  refine .ite h.fromZero.gotoxy ?_
  refine .ite h.atLeastOne.gotoxy (.ite h.atLeastOne.gotoxy (.ite h.atLeastOne.gotoxy ?_))
  refine .ite h.atLeastOne.gotoxy (.ite h.atLeastOne.gotoxy (.ite h.atLeastOne.gotoxy ?_))
  refine .ite h.fromZero.gotoxy (.ite h.fromZero.fromZero.gotoxy ?_)
  refine .ite h.csiJ (.ite h.csiK ?_)
  refine .ite (h.iterate fun s hs => hs.fromCursor fun s hs => hs.scrdown) ?_
  refine .ite (h.iterate fun s hs => hs.fromCursor fun s hs => hs.scrup) ?_
  refine .ite (h.iterate fun s hs => hs.deleteChar) (.ite (h.iterate fun s hs => hs.insertChar) ?_)
  refine .ite { h with } ?_
  exact .ite h.fromZero.region' (.ite h.saveCur (.ite h.restoreCur h))

theorem Valid.params (h : s.Valid) : (s.params c).Valid := by
  unfold Console.params
  split_ifs with hmore
  · have := hmore.2
    unfold parLimit at this
    exact { h with npar := by bv_omega }
  · exact h.setPar
  · exact h.setState.command

theorem Valid.bracket (h : s.Valid) : (s.bracket c).Valid := by
  have hzero : Valid { s with par := fun i => if i < parLimit then 0 else s.par i, npar := 0, state := .params, ques := c = byte '?' } :=
    { h with npar := show 0 < 16 by decide }
  unfold Console.bracket
  dsimp only
  split
  next => exact hzero
  next => exact hzero.params

theorem Valid.write (h : s.Valid) {eraseChar : BitVec 8} : (s.write eraseChar c).Valid := by
  unfold Console.write
  cases s.state with
  | text => exact h.text
  | escape => exact h.setState.escape
  | bracket => exact h.bracket
  | params => exact h.params

theorem boot_valid {word : BitVec 32 → BitVec 16} {x y : BitVec 8} (hx : x.toNat < columns.toNat) (hy : y.toNat < lines.toNat) :
    (conInit word x y).Valid := by
  have hx' : (x.setWidth 32).toNat = x.toNat := by bv_omega
  have hy' : (y.setWidth 32).toNat = y.toNat := by bv_omega
  have hcolumns : columns.toNat = 80 := rfl
  have hlines : lines.toNat = 25 := rfl
  have hcorner : Valid { boot word with pos := screenStart } :=
    ⟨Nat.zero_le 80, show 0 < 25 by decide, rfl, show 0 < 25 ∧ 25 ≤ 25 by decide, rfl, Nat.le_refl 0xb8000, show 0xb8fa0 ≤ 0xc0000 by decide,
      Nat.zero_le 80, show 0 < 25 by decide, show 0 < 16 by decide, fun a ha => nomatch ha⟩
  unfold conInit Console.gotoxy
  rw [if_neg]
  · exact hcorner.goto (by omega) (by omega)
  · unfold columns lines
    bv_omega

theorem Valid.writeAll (h : s.Valid) {cs : List (BitVec 8 × BitVec 8)} : (s.writeAll cs).Valid := by
  induction cs generalizing s with
  | nil => exact h
  | cons p cs ih => exact ih h.write

end Console

/-- From a valid cursor on, after any stream of characters, the cursor is in its line or directly behind it, the screen lies in the video memory,
and no word has been read or written outside of that. -/
theorem console_in_range {word : BitVec 32 → BitVec 16} {x y : BitVec 8} (hx : x.toNat < columns.toNat) (hy : y.toNat < lines.toNat)
    {cs : List (BitVec 8 × BitVec 8)} {s : Console} (hs : s = (Console.conInit word x y).writeAll cs) :
    s.x ≤ columns ∧ s.y < lines ∧ s.pos.toNat = s.origin.toNat + 2 * (s.y.toNat * columns.toNat + s.x.toNat) ∧
      (s.top < s.bottom ∧ s.bottom ≤ lines) ∧ s.scrEnd.toNat = s.origin.toNat + 2 * lines.toNat * columns.toNat ∧
      screenStart ≤ s.origin ∧ s.scrEnd ≤ screenEnd ∧ s.npar < 16 ∧
      ∀ a ∈ s.memory.touched, screenStart.toNat ≤ a.toNat ∧ a.toNat + 2 ≤ screenEnd.toNat := by
  have h : s.Valid := hs ▸ (Console.boot_valid hx hy).writeAll
  exact ⟨h.column, h.row, h.pos, h.region, h.scrEnd, h.start, h.stop, h.npar, h.memory⟩

/-- The loader leaves the cursor in the last line. Five characters behind it the screen has moved on by one line, and the cursor is where
it may be. -/
theorem console_in_range_scrolled :
    ((Console.conInit (fun _ => 0) 79 24).writeAll [(127, 65), (127, 66), (127, 27), (127, 91), (127, 75)]).origin = 0xb80a0 ∧
      ((Console.conInit (fun _ => 0) 79 24).writeAll [(127, 65), (127, 66), (127, 27), (127, 91), (127, 75)]).x ≤ columns :=
  ⟨by decide, (console_in_range (by decide) (by decide) rfl).1⟩

end RheeKernel
