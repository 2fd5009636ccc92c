import RheeKernel.Terminal

namespace RheeKernel

namespace Terminal

open WordMemory (cellAddr cellLimit)

variable {t : Terminal} {s : Console} {m : WordMemory} {g : Grid (BitVec 16)} {x y a : BitVec 32} {c : BitVec 8} {n : Nat}

theorem Shows.pos (h : t.Shows s) : s.pos = cellAddr s.origin (80 * s.y.toNat + s.x.toNat) := by
  obtain ⟨hx, hy, hpos, hend, hstart, hstop⟩ := h.valid.cursor
  apply BitVec.eq_of_toNat_eq
  unfold cellAddr
  rw [hpos, WordMemory.toNat_add (by omega)]
  omega

theorem Shows.scrEnd (h : t.Shows s) : s.scrEnd = cellAddr s.origin 2000 := by
  obtain ⟨hx, hy, hpos, hend, hstart, hstop⟩ := h.valid.cursor
  apply BitVec.eq_of_toNat_eq
  unfold cellAddr
  rw [hend, WordMemory.toNat_add (by omega)]

theorem place_lt {r c : Nat} (hr : r < 25) (hc : c < 80) : 80 * r + c < cellLimit := by
  unfold cellLimit
  omega

/-- New contents of the screen with the same origin. -/
theorem Shows.redraw (h : t.Shows s) (valid : Console.Valid { s with memory := m })
    (cells : ∀ r < 25, ∀ c < 80, g r c = m.cell s.origin (80 * r + c)) :
    Shows { t with cell := g } { s with memory := m } :=
  { h with valid := valid, cell := cells }

theorem Shows.goto (h : t.Shows s) : (t.goto x.toNat y.toNat).Shows (s.gotoxy x y) := by
  have valid := h.valid.gotoxy (x := x) (y := y)
  have outside : (columns ≤ x ∨ lines ≤ y) ↔ ¬ (x.toNat < 80 ∧ y.toNat < 25) := by
    have hcolumns : columns.toNat = 80 := rfl
    have hlines : lines.toNat = 25 := rfl
    rw [BitVec.le_def, BitVec.le_def]
    omega
  unfold Terminal.goto
  unfold Console.gotoxy at valid ⊢
  by_cases inside : x.toNat < 80 ∧ y.toNat < 25
  · rw [if_neg (outside.not.mpr (not_not_intro inside))] at valid ⊢
    rw [if_pos inside]
    exact { h with valid := valid, column := rfl, row := rfl }
  · rw [if_pos (outside.mpr inside), if_neg inside]
    exact h

theorem Shows.save (h : t.Shows s) : t.save.Shows s.saveCur :=
  { h with valid := h.valid.saveCur, savedColumn := h.column, savedRow := h.row }

theorem Shows.restore (h : t.Shows s) : t.restore.Shows s.restoreCur :=
  { h with valid := h.valid.restoreCur, column := h.savedColumn, row := h.savedRow }

theorem Shows.carriageReturn (h : t.Shows s) : t.carriageReturn.Shows s.cr :=
  { h with valid := h.valid.cr, column := rfl }

theorem Shows.rubOut (h : t.Shows s) : t.rubOut.Shows s.del := by
  obtain ⟨hx, hy, hpos, hend, hstart, hstop⟩ := h.valid.cursor
  have valid := h.valid.del
  have column := h.column
  have row := h.row
  unfold Terminal.rubOut
  unfold Console.del at valid ⊢
  by_cases edge : s.x = 0
  · have left : t.column = 0 := by rw [column, edge]; rfl
    rw [if_neg (not_not_intro edge), if_pos left]
    exact h
  · have inside : t.column ≠ 0 := by bv_omega
    have before : (s.x - 1).toNat = s.x.toNat - 1 := by bv_omega
    have target : s.pos - 2 = cellAddr s.origin (80 * s.y.toNat + (s.x.toNat - 1)) := by
      apply BitVec.eq_of_toNat_eq
      unfold cellAddr
      rw [WordMemory.toNat_add (by bv_omega)]
      bv_omega
    rw [if_pos edge] at valid ⊢
    rw [if_neg inside]
    have moved : Shows { t with column := t.column - 1 } { s with pos := s.pos - 2, x := s.x - 1 } :=
      { h with
        valid := { valid with memory := h.valid.memory }
        column := by rw [column, before] }
    refine moved.redraw valid ?_
    intro r hr c hc
    rw [target, WordMemory.cell_store (place_lt hr hc) (place_lt (by omega) (by omega)), Grid.put, h.cell r hr c hc, column, row]
    split_ifs <;> first | rfl | omega

theorem Shows.backspace (h : t.Shows s) (hx : s.x ≠ 0) : t.backspace.Shows { s with x := s.x - 1, pos := s.pos - 2 } := by
  obtain ⟨_, hy, hpos, hend, hstart, hstop⟩ := h.valid.cursor
  have column := h.column
  have before : (s.x - 1).toNat = s.x.toNat - 1 := by bv_omega
  exact { h with
    valid := { h.valid with column := by bv_omega, pos := by bv_omega }
    column := by
      dsimp only [Terminal.backspace]
      omega }

/-- `rep stosw` with blanks over some cells of the screen. -/
theorem Shows.erase {k : Nat} {count start : BitVec 32} (h : t.Shows s) (valid : (s.erase count start).Valid)
    (hstart : start = cellAddr s.origin k) (hend : k + count.toNat ≤ 2000)
    (cells : ∀ r < 25, ∀ c < 80, g r c = if k ≤ 80 * r + c ∧ 80 * r + c < k + count.toNat then blank else t.cell r c) :
    Shows { t with cell := g } (s.erase count start) := by
  refine h.redraw valid ?_
  intro r hr c hc
  have limit : k + count.toNat ≤ cellLimit := by unfold cellLimit; omega
  rw [hstart, WordMemory.cell_stosw (place_lt hr hc) limit, cells r hr c hc, h.cell r hr c hc]

theorem Shows.eraseDisplay (h : t.Shows s) : (t.eraseDisplay a.toNat).Shows (s.csiJ a) := by
  obtain ⟨hx, hy, hpos, hend, hstart, hstop⟩ := h.valid.cursor
  have valid := h.valid.csiJ (a := a)
  have row := h.row
  have column := h.column
  have front : s.origin = cellAddr s.origin 0 := (BitVec.add_zero _).symm
  have zero : a = 0 ↔ a.toNat = 0 := by bv_omega
  have one : a = 1 ↔ a.toNat = 1 := by bv_omega
  have two : a = 2 ↔ a.toNat = 2 := by bv_omega
  unfold Terminal.eraseDisplay
  unfold Console.csiJ at valid ⊢
  by_cases h0 : a = 0
  · rw [if_pos h0] at valid ⊢
    rw [if_pos (zero.mp h0)]
    have count : ((s.scrEnd - s.pos) >>> 1).toNat = 2000 - (80 * s.y.toNat + s.x.toNat) := by bv_omega
    refine h.erase valid h.pos (by omega) ?_
    intro r hr c hc
    rw [count]
    unfold Grid.fillFrom
    split_ifs <;> first | rfl | omega
  rw [if_neg h0] at valid ⊢
  rw [if_neg (zero.not.mp h0)]
  by_cases h1 : a = 1
  · rw [if_pos h1] at valid ⊢
    rw [if_pos (one.mp h1)]
    have count : ((s.pos - s.origin) >>> 1).toNat = 80 * s.y.toNat + s.x.toNat := by bv_omega
    refine h.erase valid front (by omega) ?_
    intro r hr c hc
    rw [count]
    unfold Grid.fillBefore
    split_ifs <;> first | rfl | omega
  rw [if_neg h1] at valid ⊢
  rw [if_neg (one.not.mp h1)]
  by_cases h2 : a = 2
  · rw [if_pos h2] at valid ⊢
    rw [if_pos (two.mp h2)]
    have count : (columns * lines).toNat = 2000 := rfl
    refine h.erase valid front (by omega) ?_
    intro r hr c hc
    rw [count, if_pos (by omega)]
  rw [if_neg h2, if_neg (two.not.mp h2)]
  exact h

theorem Shows.eraseLine (h : t.Shows s) : (t.eraseLine a.toNat).Shows (s.csiK a) := by
  obtain ⟨hx, hy, hpos, hend, hstart, hstop⟩ := h.valid.cursor
  have valid := h.valid.csiK (a := a)
  have row := h.row
  have column := h.column
  have hcolumns : columns.toNat = 80 := rfl
  have front : s.pos - (s.x <<< 1) = cellAddr s.origin (80 * s.y.toNat) := by
    apply BitVec.eq_of_toNat_eq
    unfold cellAddr
    rw [WordMemory.toNat_add (by bv_omega)]
    bv_omega
  have behind : columns ≤ s.x ↔ 80 ≤ s.x.toNat := by rw [BitVec.le_def, hcolumns]
  have zero : a = 0 ↔ a.toNat = 0 := by bv_omega
  have one : a = 1 ↔ a.toNat = 1 := by bv_omega
  have two : a = 2 ↔ a.toNat = 2 := by bv_omega
  unfold Terminal.eraseLine
  unfold Console.csiK at valid ⊢
  by_cases h0 : a = 0
  · rw [if_pos h0] at valid ⊢
    rw [if_pos (zero.mp h0)]
    by_cases full : columns ≤ s.x
    · -- Behind the line there is nothing to erase.
      rw [if_pos full]
      refine { h with cell := ?_ }
      intro r hr c hc
      have := behind.mp full
      dsimp only [Grid.fillRow]
      rw [if_neg (by omega), h.cell r hr c hc]
    · rw [if_neg full] at valid ⊢
      have inside := behind.not.mp full
      have count : (columns - s.x).toNat = 80 - s.x.toNat := by unfold columns; bv_omega
      refine h.erase valid h.pos (by omega) ?_
      intro r hr c hc
      rw [count]
      unfold Grid.fillRow
      split_ifs <;> first | rfl | omega
  rw [if_neg h0] at valid ⊢
  rw [if_neg (zero.not.mp h0)]
  by_cases h1 : a = 1
  · rw [if_pos h1] at valid ⊢
    rw [if_pos (one.mp h1)]
    have count : (if s.x < columns then s.x else columns).toNat = s.x.toNat := by
      split
      next => rfl
      next full =>
        rw [BitVec.not_lt, BitVec.le_def] at full
        omega
    refine h.erase valid front (by omega) ?_
    intro r hr c hc
    rw [count]
    unfold Grid.fillRow
    split_ifs <;> first | rfl | omega
  rw [if_neg h1] at valid ⊢
  rw [if_neg (one.not.mp h1)]
  by_cases h2 : a = 2
  · rw [if_pos h2] at valid ⊢
    rw [if_pos (two.mp h2)]
    refine h.erase valid front (by omega) ?_
    intro r hr c hc
    rw [hcolumns]
    unfold Grid.fillRow
    split_ifs <;> first | rfl | omega
  rw [if_neg h2, if_neg (two.not.mp h2)]
  exact h

/-- Lines of a region as cells of the screen. -/
theorem twoLines {origin : BitVec 32} (ha : a.toNat ≤ 25) (ho : origin.toNat ≤ 0xc0000) :
    origin + (columns <<< 1) * a = cellAddr origin (80 * a.toNat) := by
  apply BitVec.eq_of_toNat_eq
  unfold cellAddr
  rw [Console.twoColumns, WordMemory.toNat_add (by omega)]
  bv_omega

theorem Shows.scrollRegion (h : t.Shows s) (valid : s.scrup.Valid) (part : ¬ (s.top = 0 ∧ s.bottom = lines)) : t.scrollUp.Shows s.scrup := by
  obtain ⟨hx, hy, hpos, hend, hstart, hstop⟩ := h.valid.cursor
  obtain ⟨hregion, hbottom⟩ := h.valid.region
  have top := h.top
  have bottom := h.bottom
  have hcolumns : columns.toNat = 80 := rfl
  have next : (s.top + 1).toNat = s.top.toNat + 1 := by bv_omega
  have dst := @twoLines s.top s.origin (by omega) (by omega)
  have src := @twoLines (s.top + 1) s.origin (by omega) (by omega)
  unfold Console.scrup at valid ⊢
  rw [if_neg part] at valid ⊢
  dsimp only at valid ⊢
  refine h.redraw valid ?_
  intro r hr c hc
  rw [dst, src, next, Console.longs hregion hbottom, WordMemory.movsl_end, hcolumns,
    WordMemory.cell_stosw (place_lt hr hc) (by unfold cellLimit; omega)]
  rw [WordMemory.cell_movsl (place_lt hr hc) (by unfold cellLimit; omega) (by unfold cellLimit; omega) (by omega)]
  unfold Grid.rollUp
  rw [top, bottom]
  by_cases inside : s.top.toNat ≤ r ∧ r < s.bottom.toNat
  · rw [if_pos inside]
    by_cases last : r + 1 < s.bottom.toNat
    · have place : 80 * (s.top.toNat + 1) + (80 * r + c - 80 * s.top.toNat) = 80 * (r + 1) + c := by omega
      rw [if_pos last, if_neg (by omega), if_pos (by omega), place, h.cell (r + 1) (by omega) c hc]
    · rw [if_neg last, if_pos (by omega)]
  · rw [if_neg inside, if_neg (by omega), if_neg (by omega), h.cell r hr c hc]

/-- The whole screen moves on in the video memory by a line, and to its front when it has come to its end. -/
theorem Shows.scrollScreen (h : t.Shows s) (valid : s.scrup.Valid) (whole : s.top = 0 ∧ s.bottom = lines) : t.scrollUp.Shows s.scrup := by
  obtain ⟨hx, hy, hpos, hend, hstart, hstop⟩ := h.valid.cursor
  have hcolumns : columns.toNat = 80 := rfl
  have top : t.top = 0 := by rw [h.top, whole.1]; rfl
  have bottom : t.bottom = 25 := by rw [h.bottom, whole.2]; rfl
  have origin : s.origin + 160 = cellAddr s.origin 80 := rfl
  have horigin : (s.origin + 160).toNat = s.origin.toNat + 160 := by bv_omega
  have even := h.even
  have rolled : ∀ r < 25, ∀ c < 80, (t.cell.rollUp t.top t.bottom blank) r c =
      if 80 * r + c < 1920 then s.memory.cell s.origin (80 + (80 * r + c)) else blank := by
    intro r hr c hc
    unfold Grid.rollUp
    rw [top, bottom, if_pos ⟨Nat.zero_le r, hr⟩]
    by_cases last : r + 1 < 25
    · have place : 80 + (80 * r + c) = 80 * (r + 1) + c := by omega
      rw [if_pos last, if_pos (by omega), place, h.cell (r + 1) last c hc]
    · rw [if_neg last, if_neg (by omega)]
  unfold Console.scrup at valid ⊢
  rw [if_pos whole, Console.twoColumns] at valid ⊢
  unfold Console.wrap at valid ⊢
  dsimp only at valid ⊢
  by_cases beyond : screenEnd < s.scrEnd + 160
  · rw [if_pos beyond] at valid ⊢
    -- The lines behind the first one are copied to the front of the video memory.
    obtain ⟨l, small, hl⟩ : ∃ l < 0x4000, s.origin + 160 = cellAddr screenStart l := by
      refine ⟨(s.origin.toNat + 160 - 0xb8000) / 2, by omega, ?_⟩
      apply BitVec.eq_of_toNat_eq
      unfold cellAddr
      have start : screenStart.toNat = 0xb8000 := rfl
      rw [WordMemory.toNat_add (by omega), horigin, start]
      omega
    have longs : (((lines - 1) * columns) >>> 1).toNat = 960 := rfl
    have front : cellAddr screenStart 0 = screenStart := BitVec.add_zero _
    have copied : WordMemory.movsl 4 960 screenStart (s.origin + 160) s.memory =
        WordMemory.movsl 4 960 (cellAddr screenStart 0) (cellAddr screenStart l) s.memory := by rw [front, hl]
    refine { h with valid := valid, even := (rfl : screenStart.toNat % 2 = 0), cell := ?_ }
    intro r hr c hc
    dsimp only
    rw [longs, copied, WordMemory.movsl_end, hcolumns, WordMemory.cell_stosw (place_lt hr hc) (by unfold cellLimit; omega),
      WordMemory.cell_movsl (place_lt hr hc) (by unfold cellLimit; omega) (by unfold cellLimit; omega) (by omega),
      ← WordMemory.cell_base, ← hl, origin, WordMemory.cell_base]
    refine (rolled r hr c hc).trans ?_
    by_cases upper : 80 * r + c < 1920
    · rw [if_pos upper, if_neg (by omega), if_pos (by omega), Nat.sub_zero]
    · rw [if_neg upper, if_pos (by omega)]
  · rw [if_neg beyond] at valid ⊢
    refine { h with valid := valid, even := by rw [horigin]; omega, cell := ?_ }
    intro r hr c hc
    dsimp only
    have words : 2 * (columns >>> 1).toNat = 80 := rfl
    have last : s.scrEnd + 160 - 160 = cellAddr (s.origin + 160) 1920 := by
      apply BitVec.eq_of_toNat_eq
      unfold cellAddr
      rw [WordMemory.toNat_add (by omega), horigin]
      bv_omega
    rw [words, Console.twoColumns, last, WordMemory.cell_stosw (place_lt hr hc) (by unfold cellLimit; omega), origin, WordMemory.cell_base]
    refine (rolled r hr c hc).trans ?_
    by_cases upper : 80 * r + c < 1920
    · rw [if_pos upper, if_neg (by omega)]
    · rw [if_neg upper, if_pos (by omega)]

theorem Shows.scrollUp (h : t.Shows s) : t.scrollUp.Shows s.scrup := by
  by_cases whole : s.top = 0 ∧ s.bottom = lines
  · exact h.scrollScreen h.valid.scrup whole
  · exact h.scrollRegion h.valid.scrup whole

theorem Shows.scrollDown (h : t.Shows s) : t.scrollDown.Shows s.scrdown := by
  obtain ⟨hx, hy, hpos, hend, hstart, hstop⟩ := h.valid.cursor
  obtain ⟨hregion, hbottom⟩ := h.valid.region
  have valid := h.valid.scrdown
  have top := h.top
  have bottom := h.bottom
  have before : (s.bottom - 1).toNat = s.bottom.toNat - 1 := by bv_omega
  have back : ∀ k, cellAddr s.origin (k + 2) - 4 = cellAddr s.origin k := by
    intro k
    rw [BitVec.sub_eq_add_neg]
    exact WordMemory.cellAddr_back
  obtain ⟨n, hn⟩ : ∃ n, s.bottom.toNat = s.top.toNat + 1 + n := ⟨s.bottom.toNat - s.top.toNat - 1, by omega⟩
  have longs : (((s.bottom - s.top - 1) * columns) >>> 1).toNat = 40 * n := by
    rw [Console.longs hregion hbottom, hn]
    omega
  have dst : s.origin + (columns <<< 1) * s.bottom - 4 = cellAddr s.origin (80 * s.top.toNat + 78 + 2 * (40 * n)) := by
    have place : 80 * s.bottom.toNat = 80 * s.top.toNat + 78 + 2 * (40 * n) + 2 := by omega
    rw [twoLines (by omega) (by omega), place, back]
  -- With a single line in the region nothing is moved, and the source may begin in front of the screen.
  have moved : ∀ j < 2000, (WordMemory.movsl (-4) (40 * n) (s.origin + (columns <<< 1) * s.bottom - 4)
      (s.origin + (columns <<< 1) * (s.bottom - 1) - 4) s.memory).1.cell s.origin j =
        if 80 * s.top.toNat + 80 ≤ j ∧ j < 80 * s.bottom.toNat then s.memory.cell s.origin (j - 80) else s.memory.cell s.origin j := by
    intro j hj
    cases n with
    | zero => rw [if_neg (by omega)]; rfl
    | succ n =>
      have count : 40 * (n + 1) = 40 * n + 39 + 1 := by omega
      have dst' : 80 * s.top.toNat + 78 + 2 * (40 * n + 39 + 1) = 80 * s.top.toNat + 80 + 2 * (40 * n + 39) := by omega
      have src : s.origin + (columns <<< 1) * (s.bottom - 1) - 4 = cellAddr s.origin (80 * s.top.toNat + 2 * (40 * n + 39)) := by
        have place : 80 * (s.bottom - 1).toNat = 80 * s.top.toNat + 2 * (40 * n + 39) + 2 := by omega
        rw [twoLines (by omega) (by omega), place, back]
      rw [dst, src, count, dst', WordMemory.cell_movsl_down (by unfold cellLimit; omega) (by unfold cellLimit; omega)
        (by unfold cellLimit; omega) (by omega)]
      by_cases inside : 80 * s.top.toNat + 80 ≤ j ∧ j < 80 * s.bottom.toNat
      · have place : 80 * s.top.toNat + (j - (80 * s.top.toNat + 80)) = j - 80 := by omega
        rw [if_pos inside, if_pos (by omega), place]
      · rw [if_neg inside, if_neg (by omega)]
  have edge : (WordMemory.movsl (-4) (40 * n) (s.origin + (columns <<< 1) * s.bottom - 4)
      (s.origin + (columns <<< 1) * (s.bottom - 1) - 4) s.memory).2 + 2 = cellAddr s.origin (80 * s.top.toNat + 79) := by
    rw [dst, WordMemory.movsl_down_end, WordMemory.cellAddr_succ]
  unfold Console.scrdown at valid ⊢
  rw [longs] at valid ⊢
  dsimp only at valid ⊢
  refine h.redraw valid ?_
  intro r hr c hc
  have line : columns.toNat = 79 + 1 := rfl
  rw [edge, line, WordMemory.cell_stosw_down (place_lt hr hc) (by unfold cellLimit; omega), moved (80 * r + c) (by omega)]
  unfold Grid.rollDown
  rw [top, bottom]
  by_cases inside : s.top.toNat ≤ r ∧ r < s.bottom.toNat
  · rw [if_pos inside]
    by_cases lower : s.top.toNat < r
    · have place : 80 * r + c - 80 = 80 * (r - 1) + c := by omega
      rw [if_pos lower, if_neg (by omega), if_pos (by omega), place, h.cell (r - 1) (by omega) c hc]
    · rw [if_neg lower, if_pos (by omega)]
  · rw [if_neg inside, if_neg (by omega), if_neg (by omega), h.cell r hr c hc]

theorem Shows.lineFeed (h : t.Shows s) : t.lineFeed.Shows s.lf := by
  have valid := h.valid.lf
  have row := h.row
  have bottom := h.bottom
  have high := h.valid.row
  have next : (s.y + 1).toNat = s.y.toNat + 1 := by bv_omega
  have inside : s.y + 1 < s.bottom ↔ t.row + 1 < t.bottom := by rw [BitVec.lt_def, next, row, bottom]
  unfold Terminal.lineFeed
  unfold Console.lf at valid ⊢
  by_cases room : s.y + 1 < s.bottom
  · rw [if_pos room] at valid ⊢
    rw [if_pos (inside.mp room)]
    exact { h with valid := valid, row := by rw [row, next] }
  · rw [if_neg room, if_neg (inside.not.mp room)]
    exact h.scrollUp

theorem Shows.reverseIndex (h : t.Shows s) : t.reverseIndex.Shows s.ri := by
  have valid := h.valid.ri
  have row := h.row
  have inside : s.top < s.y ↔ t.top < t.row := by rw [BitVec.lt_def, row, h.top]
  unfold Terminal.reverseIndex
  unfold Console.ri at valid ⊢
  by_cases room : s.top < s.y
  · rw [if_pos room] at valid ⊢
    rw [if_pos (inside.mp room)]
    exact { h with valid := valid, row := by dsimp only; bv_omega }
  · rw [if_neg room, if_neg (inside.not.mp room)]
    exact h.scrollDown

theorem cell_shiftRight {base : BitVec 32} {j k : Nat} {old : BitVec 16} (hj : j < cellLimit) (hk : k + n ≤ cellLimit) :
    (Console.shiftRight old n (cellAddr base k) m).cell base j =
      if k ≤ j ∧ j < k + n then if k < j then m.cell base (j - 1) else old else m.cell base j := by
  induction n generalizing m k old with
  | zero => rw [Console.shiftRight, if_neg (by omega)]
  | succ n ih =>
    rw [Console.shiftRight, WordMemory.cellAddr_succ, ih (by omega), WordMemory.cell_store (by omega) (by omega),
      WordMemory.cell_store (by omega) (by omega), ← WordMemory.cell_eq]
    simp only [WordMemory.cell_touch]
    by_cases first : j = k
    · rw [if_neg (by omega), if_pos first, if_pos (by omega), if_neg (by omega)]
    · by_cases second : j = k + 1
      · have before : j - 1 = k := by omega
        rw [if_neg first, if_neg (show ¬ k + 1 < j by omega), before]
        split_ifs <;> first | rfl | omega
      · rw [if_neg first, if_neg (show ¬ j - 1 = k by omega)]
        split_ifs <;> first | rfl | omega

theorem cell_shiftLeft {base : BitVec 32} {j k : Nat} (hj : j < cellLimit) (hk : k + n < cellLimit) :
    (Console.shiftLeft n (cellAddr base k) m).cell base j =
      if k ≤ j ∧ j ≤ k + n then if j < k + n then m.cell base (j + 1) else blank else m.cell base j := by
  induction n generalizing m k with
  | zero =>
    rw [Console.shiftLeft, WordMemory.cell_store hj (by omega)]
    split_ifs <;> first | rfl | omega
  | succ n ih =>
    rw [Console.shiftLeft, WordMemory.cellAddr_succ, ih (by omega), WordMemory.cell_store hj (by omega), ← WordMemory.cell_eq]
    simp only [WordMemory.cell_touch]
    by_cases inside : k + 1 ≤ j ∧ j ≤ k + 1 + n
    · rw [if_pos inside, if_pos (show k ≤ j ∧ j ≤ k + (n + 1) by omega)]
      by_cases last : j < k + 1 + n
      · rw [if_pos last, if_pos (show j < k + (n + 1) by omega), WordMemory.cell_store (by omega) (by omega), if_neg (by omega)]
        rfl
      · rw [if_neg last, if_neg (show ¬ j < k + (n + 1) by omega)]
    · rw [if_neg inside]
      by_cases first : j = k
      · rw [if_pos first, if_pos (by omega), if_pos (by omega), first]
      · rw [if_neg first, if_neg (by omega)]

theorem Shows.insertChar (h : t.Shows s) : t.insertChar.Shows s.insertChar := by
  have edge := h.valid.column
  have high := h.valid.row
  have hcolumns : columns.toNat = 80 := rfl
  refine h.redraw h.valid.insertChar ?_
  intro r hr c hc
  rw [h.pos, hcolumns, cell_shiftRight (place_lt hr hc) (by unfold cellLimit; omega)]
  unfold Grid.openCell
  rw [h.row, h.column]
  by_cases inside : r = s.y.toNat ∧ s.x.toNat ≤ c
  · have line : 80 * s.y.toNat + s.x.toNat ≤ 80 * r + c ∧ 80 * r + c < 80 * s.y.toNat + s.x.toNat + (80 - s.x.toNat) := by omega
    rw [if_pos inside, if_pos line]
    by_cases behind : s.x.toNat < c
    · have place : 80 * r + c - 1 = 80 * r + (c - 1) := by omega
      rw [if_pos behind, if_pos (by omega), place, h.cell r hr (c - 1) (by omega)]
    · rw [if_neg behind, if_neg (by omega)]
  · rw [if_neg inside, if_neg (by omega), h.cell r hr c hc]

theorem Shows.deleteChar (h : t.Shows s) : t.deleteChar.Shows s.deleteChar := by
  have edge := h.valid.column
  have high := h.valid.row
  have valid := h.valid.deleteChar
  have hcolumns : columns.toNat = 80 := rfl
  have behind : columns ≤ s.x ↔ 80 ≤ s.x.toNat := by rw [BitVec.le_def, hcolumns]
  unfold Console.deleteChar at valid ⊢
  by_cases full : columns ≤ s.x
  · rw [if_pos full]
    have out := behind.mp full
    have column := h.column
    refine { h with cell := ?_ }
    intro r hr c hc
    dsimp only [Terminal.deleteChar, Grid.closeCell]
    rw [if_neg (by omega), h.cell r hr c hc]
  · have inner := behind.not.mp full
    rw [if_neg full] at valid ⊢
    refine h.redraw valid ?_
    intro r hr c hc
    rw [h.pos, hcolumns, cell_shiftLeft (place_lt hr hc) (by unfold cellLimit; omega)]
    unfold Grid.closeCell
    rw [h.row, h.column]
    by_cases inside : r = s.y.toNat ∧ s.x.toNat ≤ c
    · have line : 80 * s.y.toNat + s.x.toNat ≤ 80 * r + c ∧
          80 * r + c ≤ 80 * s.y.toNat + s.x.toNat + (80 - s.x.toNat - 1) := by omega
      rw [if_pos inside, if_pos line]
      by_cases last : c + 1 < 80
      · rw [if_pos last, if_pos (by omega), h.cell r hr (c + 1) last]
        rfl
      · rw [if_neg last, if_neg (by omega)]
    · rw [if_neg inside, if_neg (by omega), h.cell r hr c hc]

theorem Shows.insertLine (h : t.Shows s) : t.insertLine.Shows s.insertLine := by
  have row := h.row
  have region : Shows { t with top := t.row, bottom := 25 } { s with top := s.y, bottom := lines } :=
    { h with valid := { h.valid with region := ⟨h.valid.row, Nat.le_refl 25⟩ }, top := row, bottom := rfl }
  have scrolled := region.scrollDown
  exact { scrolled with
    valid := h.valid.fromCursor fun s hs => hs.scrdown
    top := h.top
    bottom := h.bottom }

theorem Shows.deleteLine (h : t.Shows s) : t.deleteLine.Shows s.deleteLine := by
  have row := h.row
  have region : Shows { t with top := t.row, bottom := 25 } { s with top := s.y, bottom := lines } :=
    { h with valid := { h.valid with region := ⟨h.valid.row, Nat.le_refl 25⟩ }, top := row, bottom := rfl }
  have scrolled := region.scrollUp
  exact { scrolled with
    valid := h.valid.fromCursor fun s hs => hs.scrup
    top := h.top
    bottom := h.bottom }

theorem Shows.iterate {f : Terminal → Terminal} {g : Console → Console} (step : ∀ t s, Shows t s → (f t).Shows (g s)) (h : t.Shows s) :
    (f^[n] t).Shows (g^[n] s) := by
  induction n generalizing t s with
  | zero => exact h
  | succ n ih => exact ih (step t s h)

theorem times_eq {nr limit : BitVec 32} (positive : 0 < limit.toNat) : Console.times nr limit = min limit.toNat (max 1 nr.toNat) := by
  unfold Console.times
  split_ifs with beyond zero
  · rw [BitVec.lt_def] at beyond
    omega
  · have : nr.toNat = 0 := by rw [zero]; rfl
    have one : (1 : BitVec 32).toNat = 1 := rfl
    omega
  · have : nr.toNat ≠ 0 := by bv_omega
    rw [BitVec.not_lt, BitVec.le_def] at beyond
    omega

theorem Shows.times {f : Terminal → Terminal} {g : Console → Console} {limit : BitVec 32} (positive : 0 < limit.toNat)
    (step : ∀ t s, Shows t s → (f t).Shows (g s)) (h : t.Shows s) :
    (t.times a.toNat limit.toNat f).Shows (g^[Console.times a limit] s) := by
  rw [times_eq positive]
  exact h.iterate step

theorem Shows.fold (h : t.Shows s) (behind : 80 ≤ s.x.toNat)
    (valid : Console.Valid { s with x := s.x - columns, pos := s.pos - (columns <<< 1) }) : t.fold.Shows s.nextLine := by
  have column := h.column
  have less : (s.x - columns).toNat = s.x.toNat - 80 := by unfold columns; bv_omega
  refine Shows.lineFeed { h with valid := valid, column := ?_ }
  rw [column, less]

theorem Shows.print (h : t.Shows s) : (t.print c).Shows (s.print c) := by
  have valid := h.valid.print (c := c)
  have hcolumns : columns.toNat = 80 := rfl
  have behind : columns ≤ s.x ↔ 80 ≤ t.column := by rw [BitVec.le_def, hcolumns, h.column]
  -- The cursor is in the line now, perhaps in the next one.
  obtain ⟨stay, inside⟩ : Shows (if 80 ≤ t.column then t.fold else t) (if columns ≤ s.x then s.nextLine else s) ∧
      (if columns ≤ s.x then s.nextLine else s).x.toNat < 80 := by
    obtain ⟨hx, hy, hpos, hend, hstart, hstop⟩ := h.valid.cursor
    by_cases full : columns ≤ s.x
    · have hx' : (s.x - columns).toNat = 0 := by
        rw [BitVec.le_def, hcolumns] at full
        unfold columns
        bv_omega
      rw [if_pos full, if_pos (behind.mp full)]
      constructor
      · refine h.fold (by rw [BitVec.le_def, hcolumns] at full; exact full) { h.valid with column := ?_, pos := ?_ }
        · dsimp only
          omega
        · rw [BitVec.le_def, hcolumns] at full
          rw [Console.twoColumns]
          unfold columns
          bv_omega
      · unfold Console.nextLine
        rw [Console.lf_x]
        dsimp only
        omega
    · rw [if_neg full, if_neg (behind.not.mp full)]
      refine ⟨h, ?_⟩
      rw [BitVec.le_def, hcolumns] at full
      omega
  unfold Terminal.print
  unfold Console.print at valid ⊢
  dsimp only at valid ⊢
  generalize (if columns ≤ s.x then s.nextLine else s) = u at stay inside valid ⊢
  generalize (if 80 ≤ t.column then t.fold else t) = v at stay ⊢
  have next : (u.x + 1).toNat = u.x.toNat + 1 := by bv_omega
  refine { stay with valid := valid, column := by rw [stay.column, next], cell := ?_ }
  intro r hr c' hc
  have low := stay.valid.row
  dsimp only
  rw [stay.pos, WordMemory.cell_store (place_lt hr hc) (place_lt low inside), Grid.put, stay.row, stay.column, stay.attr]
  by_cases here : r = u.y.toNat ∧ c' = u.x.toNat
  · rw [if_pos here, if_pos (by rw [here.1, here.2])]
  · rw [if_neg here, if_neg (by omega), stay.cell r hr c' hc]

theorem Shows.tab (h : t.Shows s) : t.tab.Shows s.tab := by
  obtain ⟨hx, hy, hpos, hend, hstart, hstop⟩ := h.valid.cursor
  have valid := h.valid.tab
  have column := h.column
  have hcolumns : columns.toNat = 80 := rfl
  have stop : (8 - (s.x &&& 7)).toNat = 8 - s.x.toNat % 8 := by
    have rest : (s.x &&& 7).toNat = s.x.toNat % 8 := by
      rw [BitVec.toNat_and]
      exact Nat.and_two_pow_sub_one_eq_mod _ 3
    bv_omega
  unfold Terminal.tab
  unfold Console.tab at valid ⊢
  dsimp only at valid ⊢
  generalize 8 - (s.x &&& 7) = w at stop valid ⊢
  have sum : (s.x + w).toNat = t.column + (8 - t.column % 8) := by rw [column]; bv_omega
  have behind : columns < s.x + w ↔ 80 < t.column + (8 - t.column % 8) := by rw [BitVec.lt_def, hcolumns, sum]
  by_cases beyond : columns < s.x + w
  · rw [if_pos beyond, if_pos (behind.mp beyond)]
    have far := behind.mp beyond
    have less : (s.x + w - columns).toNat = s.x.toNat + w.toNat - 80 := by unfold columns; bv_omega
    have landed : Console.Valid { s with x := s.x + w - columns, pos := s.pos + (w <<< 1) - (columns <<< 1) } :=
      { h.valid with
        column := by dsimp only; omega
        pos := by
          rw [Console.twoColumns]
          dsimp only
          bv_omega }
    refine Shows.lineFeed (t := { t with column := t.column + (8 - t.column % 8) - 80 })
      (s := { s with x := s.x + w - columns, pos := s.pos + (w <<< 1) - (columns <<< 1) }) { h with valid := landed, column := ?_ }
    dsimp only
    omega
  · rw [if_neg beyond] at valid ⊢
    rw [if_neg (behind.not.mp beyond)]
    exact { h with valid := valid, column := sum.symm }

theorem Shows.text (h : t.Shows s) {eraseChar : BitVec 8} : (t.text eraseChar c).Shows (s.text eraseChar c) := by
  unfold Terminal.text Console.text
  split_ifs with _ _ _ _ _ _ inside
  · exact h.print
  · exact { h with valid := h.valid.setState, state := rfl }
  · exact h.lineFeed
  · exact h.carriageReturn
  · exact h.rubOut
  · exact h.backspace inside
  · have edge : t.column = 0 := by
      rw [h.column, not_not.mp inside]
      rfl
    have same : t.backspace = t := by
      unfold Terminal.backspace
      rw [edge]
      exact congrArg (fun k => { t with column := k }) edge.symm
    rw [same]
    exact h
  · exact h.tab
  · exact h

theorem Shows.escape (h : t.Shows s) : (t.escape c).Shows (s.escape c) := by
  have column := h.column
  have low := h.valid.row
  have next : (s.y + 1).toNat = t.row + 1 := by rw [h.row]; bv_omega
  have seven : s.x = (Console.byte '7').setWidth 32 ↔ t.column = 55 := by
    have code : ((Console.byte '7').setWidth 32).toNat = 55 := rfl
    rw [← BitVec.toNat_inj, code, column]
  have eight : s.x = (Console.byte '8').setWidth 32 ↔ t.column = 56 := by
    have code : ((Console.byte '8').setWidth 32).toNat = 56 := rfl
    rw [← BitVec.toNat_inj, code, column]
  unfold Terminal.escape Console.escape
  simp only [seven, eight]
  split_ifs
  · exact { h with valid := h.valid.setState, state := rfl }
  · rw [← next]
    exact h.goto (x := 0)
  · exact h.reverseIndex
  · exact h.lineFeed
  · exact h
  · exact h.save
  · exact h.restore
  · exact h

theorem ofNat_inj {i j : Nat} (hi : i < 16) (hj : j < 16) : BitVec.ofNat 32 j = BitVec.ofNat 32 i ↔ j = i := by
  constructor
  · intro h
    rw [← BitVec.toNat_inj, BitVec.toNat_ofNat, BitVec.toNat_ofNat] at h
    omega
  · rintro rfl
    rfl

theorem Shows.setPar {i v : Nat} {w : BitVec 32} (h : t.Shows s) (hi : i < 16) (hv : v = w.toNat) :
    (t.setPar i v).Shows (s.setPar (BitVec.ofNat 32 i) w) := by
  refine { h with valid := h.valid.setPar, par := ?_ }
  intro j hj
  change (if j = i then v else t.par j) = (if BitVec.ofNat 32 j = BitVec.ofNat 32 i then w else s.par (BitVec.ofNat 32 j)).toNat
  by_cases same : j = i
  · rw [if_pos same, if_pos ((ofNat_inj hi hj).mpr same), hv]
  · rw [if_neg same, if_neg ((ofNat_inj hi hj).not.mpr same), h.par j hj]

theorem Shows.atLeastOne (h : t.Shows s) : t.atLeastOne.Shows s.atLeastOne := by
  have first := h.par 0 (by omega)
  unfold Terminal.atLeastOne Console.atLeastOne
  by_cases zero : s.par 0 = 0
  · have none : t.par 0 = 0 := first.trans (congrArg BitVec.toNat zero)
    rw [if_pos zero, if_pos none]
    exact h.setPar (i := 0) (by omega) (by rw [zero]; rfl)
  · have some : t.par 0 ≠ 0 := fun none => zero (BitVec.eq_of_toNat_eq (first.symm.trans none))
    rw [if_neg zero, if_neg some]
    exact h

theorem Shows.fromZero {i : Nat} (h : t.Shows s) (hi : i < 16) : (t.fromZero i).Shows (s.fromZero (BitVec.ofNat 32 i)) := by
  have place := h.par i hi
  unfold Terminal.fromZero Console.fromZero
  by_cases zero : s.par (BitVec.ofNat 32 i) = 0
  · rw [if_neg (not_not_intro zero)]
    refine { h with par := ?_ }
    intro j hj
    change (if j = i then t.par i - 1 else t.par j) = _
    split
    next same =>
      rw [same, place, zero]
      rfl
    next => exact h.par j hj
  · rw [if_pos zero]
    refine h.setPar hi ?_
    rw [place]
    bv_omega

theorem Shows.region (h : t.Shows s) : t.region.Shows s.region := by
  have set : Shows (if t.par 1 = 0 then t.setPar 1 25 else t) (if s.par 1 = 0 then s.setPar 1 lines else s) := by
    have second := h.par 1 (by omega)
    by_cases zero : s.par 1 = 0
    · have none : t.par 1 = 0 := second.trans (congrArg BitVec.toNat zero)
      rw [if_pos zero, if_pos none]
      exact h.setPar (i := 1) (by omega) rfl
    · have some : t.par 1 ≠ 0 := fun none => zero (BitVec.eq_of_toNat_eq (second.symm.trans none))
      rw [if_neg zero, if_neg some]
      exact h
  have valid := h.valid.region'
  unfold Terminal.region
  unfold Console.region at valid ⊢
  dsimp only at valid ⊢
  generalize (if s.par 1 = 0 then s.setPar 1 lines else s) = u at set valid ⊢
  generalize (if t.par 1 = 0 then t.setPar 1 25 else t) = v at set ⊢
  have first := set.par 0 (by omega)
  have second := set.par 1 (by omega)
  have inside : u.par 0 < u.par 1 ∧ u.par 1 ≤ lines ↔ v.par 0 < v.par 1 ∧ v.par 1 ≤ 25 := by
    rw [BitVec.lt_def, BitVec.le_def, first, second]
    rfl
  by_cases fits : u.par 0 < u.par 1 ∧ u.par 1 ≤ lines
  · rw [if_pos fits] at valid ⊢
    rw [if_pos (inside.mp fits)]
    exact { set with valid := valid, top := first, bottom := second }
  · rw [if_neg fits, if_neg (inside.not.mp fits)]
    exact set

theorem Shows.setAttr (h : t.Shows s) : t.setAttr.Shows s.csim := by
  have few := h.valid.npar
  refine { h with valid := { h.valid with }, attr := ?_ }
  unfold Terminal.setAttr Console.csim
  rw [h.npar, h.attr]
  apply List.foldl_ext
  intro a i hi
  rw [List.mem_range] at hi
  rw [h.par i (by omega), BitVec.ofNat_toNat, BitVec.setWidth_eq]

/-- The cursor is moved by numbers that show what the kernel computes. -/
theorem Shows.gotoxy {column row : Nat} (h : t.Shows s) (hx : column = x.toNat) (hy : row = y.toNat) :
    (t.goto column row).Shows (s.gotoxy x y) := by
  rw [hx, hy]
  exact h.goto

theorem Shows.ite {p : Prop} [Decidable p] {u : Terminal} {v : Console} (h : t.Shows s) (hu : u.Shows v) :
    (if p then t else u).Shows (if p then s else v) := by
  split
  next => exact h
  next => exact hu

theorem toNat_ahead (h : n = y.toNat) {k : Nat} (hk : k = x.toNat) : ahead n k = (y + x).toNat := by
  rw [BitVec.toNat_add, h, hk]
  rfl

theorem toNat_back (h : n = y.toNat) {k : Nat} (hk : k = x.toNat) : back n k = (y - x).toNat := by
  rw [BitVec.toNat_sub, h, hk]
  rfl

theorem Shows.command (h : t.Shows s) : (t.command c).Shows (s.command c) := by
  have once := h.atLeastOne
  have amount := once.par 0 (by omega)
  have zeroed := h.fromZero (i := 0) (by omega)
  have both := zeroed.fromZero (i := 1) (by omega)
  have first := h.par 0 (by omega)
  have small : 0 < lines.toNat := by decide
  have narrow : 0 < columns.toNat := by decide
  unfold Terminal.command Console.command
  refine .ite (zeroed.gotoxy (zeroed.par 0 (by omega)) zeroed.row) ?_
  refine .ite (once.gotoxy once.column (toNat_back once.row amount)) ?_
  refine .ite (once.gotoxy once.column (toNat_ahead once.row amount)) ?_
  refine .ite (once.gotoxy (toNat_ahead once.column amount) once.row) ?_
  refine .ite (once.gotoxy (toNat_back once.column amount) once.row) ?_
  refine .ite (once.gotoxy (x := 0) rfl (toNat_ahead once.row amount)) ?_
  refine .ite (once.gotoxy (x := 0) rfl (toNat_back once.row amount)) ?_
  refine .ite (zeroed.gotoxy zeroed.column (zeroed.par 0 (by omega))) ?_
  refine .ite (both.gotoxy (both.par 1 (by omega)) (both.par 0 (by omega))) ?_
  rw [first]
  refine .ite h.eraseDisplay (.ite h.eraseLine ?_)
  refine .ite (h.times small fun _ _ hs => hs.insertLine) ?_
  refine .ite (h.times small fun _ _ hs => hs.deleteLine) ?_
  refine .ite (h.times narrow fun _ _ hs => hs.deleteChar) ?_
  refine .ite (h.times narrow fun _ _ hs => hs.insertChar) ?_
  exact .ite h.setAttr (.ite zeroed.region (.ite h.save (.ite h.restore h)))

theorem isDigit : ((Console.byte '0').toInt ≤ c.toInt ∧ c.toInt ≤ (Console.byte '9').toInt) ↔ 48 ≤ c.toNat ∧ c.toNat ≤ 57 := by
  have zero : (Console.byte '0').toInt = 48 := rfl
  have nine : (Console.byte '9').toInt = 57 := rfl
  have bound := c.isLt
  rw [zero, nine, BitVec.toInt_eq_toNat_cond]
  split <;> omega

/-- The value of a digit, which as a `char` is positive. -/
theorem Shows.digit (h : t.Shows s) (hc : 48 ≤ c.toNat ∧ c.toNat ≤ 57) :
    (t.digit c).Shows (s.setPar s.npar (10 * s.par s.npar + c.signExtend 32 - (Console.byte '0').setWidth 32)) := by
  have few : t.npar < 16 := h.npar ▸ h.valid.npar
  have place : s.npar = BitVec.ofNat 32 t.npar := by rw [h.npar, BitVec.ofNat_toNat, BitVec.setWidth_eq]
  have extended : (c.signExtend 32).toNat = c.toNat := by
    have positive : c.msb = false := BitVec.msb_eq_false_iff_two_mul_lt.mpr (by omega)
    rw [BitVec.signExtend_eq_setWidth_of_msb_false positive]
    bv_omega
  have zero : ((Console.byte '0').setWidth 32).toNat = 48 := rfl
  have ten : (10 : BitVec 32).toNat = 10 := rfl
  unfold Terminal.digit
  rw [place]
  refine h.setPar few ?_
  rw [BitVec.toNat_sub, BitVec.toNat_add, BitVec.toNat_mul, extended, zero, ten, ← h.par t.npar few]
  omega

theorem Shows.params (h : t.Shows s) : (t.params c).Shows (s.params c) := by
  have valid := h.valid.params (c := c)
  have few : s.npar < parLimit - 1 ↔ t.npar < 15 := by
    rw [BitVec.lt_def, h.npar]
    rfl
  unfold Terminal.params
  unfold Console.params at valid ⊢
  by_cases more : c = Console.byte ';' ∧ s.npar < parLimit - 1
  · have small := more.2
    have next : (s.npar + 1).toNat = t.npar + 1 := by
      rw [few] at small
      have one : (1 : BitVec 32).toNat = 1 := rfl
      rw [BitVec.toNat_add, ← h.npar, one]
      exact Nat.mod_eq_of_lt (by omega)
    rw [if_pos more] at valid ⊢
    rw [if_pos ⟨more.1, few.mp more.2⟩]
    exact { h with valid := valid, npar := next.symm }
  · rw [if_neg more, if_neg fun less => more ⟨less.1, few.mpr less.2⟩]
    by_cases number : 48 ≤ c.toNat ∧ c.toNat ≤ 57
    · rw [if_pos (isDigit.mpr number), if_pos number]
      exact h.digit number
    · rw [if_neg (isDigit.not.mpr number), if_neg number]
      exact Shows.command { h with valid := h.valid.setState, state := rfl }

theorem Shows.bracket (h : t.Shows s) : (t.bracket c).Shows (s.bracket c) := by
  have cleared : Shows { t with par := fun _ => 0, npar := 0, state := .params }
      { s with par := fun i => if i < parLimit then 0 else s.par i, npar := 0, state := .params, ques := c = Console.byte '?' } := by
    refine { h with valid := { h.valid with npar := show 0 < 16 by decide }, state := rfl, npar := rfl, par := ?_ }
    intro i hi
    have small : BitVec.ofNat 32 i < parLimit := by
      rw [BitVec.lt_def, BitVec.toNat_ofNat]
      change i % 2 ^ 32 < 16
      omega
    dsimp only
    rw [if_pos small]
    rfl
  unfold Terminal.bracket Console.bracket
  dsimp only
  by_cases query : c = Console.byte '?'
  · rw [if_pos query, if_pos (decide_eq_true query)]
    exact cleared
  · rw [if_neg query, if_neg (by rw [decide_eq_true_iff]; exact query)]
    exact cleared.params

theorem Shows.write (h : t.Shows s) {eraseChar : BitVec 8} : (t.write eraseChar c).Shows (s.write eraseChar c) := by
  unfold Terminal.write Console.write
  rw [h.state]
  cases s.state with
  | text => exact h.text
  | escape => exact Shows.escape { h with valid := h.valid.setState, state := rfl }
  | bracket => exact h.bracket
  | params => exact h.params

theorem Shows.writeAll (h : t.Shows s) {cs : List (BitVec 8 × BitVec 8)} : (t.writeAll cs).Shows (s.writeAll cs) := by
  induction cs generalizing t s with
  | nil => exact h
  | cons p cs ih => exact ih h.write

theorem boot_shows {word : BitVec 32 → BitVec 16} {x y : BitVec 8} (hx : x.toNat < 80) (hy : y.toNat < 25) :
    (boot (fun r c => word (cellAddr screenStart (80 * r + c))) x.toNat y.toNat).Shows (Console.conInit word x y) := by
  have valid := @Console.boot_valid word _ _ hx hy
  have column : (x.setWidth 32).toNat = x.toNat := by bv_omega
  have row : (y.setWidth 32).toNat = y.toNat := by bv_omega
  have hcolumns : columns.toNat = 80 := rfl
  have hlines : lines.toNat = 25 := rfl
  unfold Console.conInit Console.gotoxy at valid ⊢
  rw [if_neg (by rw [BitVec.le_def, BitVec.le_def]; omega)] at valid ⊢
  exact ⟨valid, (rfl : screenStart.toNat % 2 = 0), fun _ _ _ _ => rfl, column.symm, row.symm, rfl, rfl, rfl, rfl, rfl, rfl, rfl, fun _ _ => rfl⟩

end Terminal

/-- `con_write` is a terminal: after any stream of characters the window of the video memory that begins at `origin`, in rows of 80 words,
is the screen of a terminal that knows of no video memory, the cursor stands at its place, and so do attribute, margins, saved place and
parser. -/
theorem console_refines_terminal {word : BitVec 32 → BitVec 16} {x y : BitVec 8} (hx : x.toNat < 80) (hy : y.toNat < 25)
    (cs : List (BitVec 8 × BitVec 8)) {s : Console} (hs : s = (Console.conInit word x y).writeAll cs) {t : Terminal}
    (ht : t = (Terminal.boot (fun r c => word (WordMemory.cellAddr screenStart (80 * r + c))) x.toNat y.toNat).writeAll cs) :
    (∀ r < 25, ∀ c < 80, s.memory.cell s.origin (80 * r + c) = t.cell r c) ∧
      s.pos = WordMemory.cellAddr s.origin (80 * t.row + t.column) ∧ s.x.toNat = t.column ∧ s.y.toNat = t.row ∧
      s.top.toNat = t.top ∧ s.bottom.toNat = t.bottom ∧ s.attr = t.attr ∧ s.savedX.toNat = t.savedColumn ∧
      s.savedY.toNat = t.savedRow ∧ s.state = t.state ∧ s.npar.toNat = t.npar := by
  have h : t.Shows s := by
    rw [hs, ht]
    exact (Terminal.boot_shows hx hy).writeAll
  refine ⟨fun r hr c hc => (h.cell r hr c hc).symm, ?_, h.column.symm, h.row.symm, h.top.symm, h.bottom.symm, h.attr.symm,
    h.savedColumn.symm, h.savedRow.symm, h.state.symm, h.npar.symm⟩
  rw [h.column, h.row]
  exact h.pos

/-- A line feed in the last line: the console goes on by 160 bytes in the video memory, the terminal rolls its lines. -/
theorem console_refines_terminal_lineFeed :
    let s := (Console.conInit (fun _ => 0x0741) 0 24).writeAll [(127, 10)]
    s.origin = 0xb80a0 ∧ s.memory.cell s.origin (80 * 24 + 5) = blank := by
  intro s
  have shown := (@console_refines_terminal (fun _ => 0x0741) 0 24 (by decide) (by decide) [(127, 10)] _ rfl _ rfl).1
    24 (by decide) 5 (by decide)
  exact ⟨by decide, shown.trans rfl⟩

end RheeKernel
