import RheeKernel.ConsoleRange
import RheeKernel.WordWindow

namespace RheeKernel

/-- Cells in rows and columns. -/
abbrev Grid (α : Type) : Type := Nat → Nat → α

namespace Grid

variable {α : Type}

def put (g : Grid α) (row column : Nat) (a : α) : Grid α := fun r c => if r = row ∧ c = column then a else g r c

/-- The cells of a row from `first` on, up to `last`. -/
def fillRow (g : Grid α) (row first last : Nat) (a : α) : Grid α := fun r c => if r = row ∧ first ≤ c ∧ c < last then a else g r c

/-- The cells at a place and behind it. -/
def fillFrom (g : Grid α) (row column : Nat) (a : α) : Grid α := fun r c => if row < r ∨ r = row ∧ column ≤ c then a else g r c

/-- The cells in front of a place. -/
def fillBefore (g : Grid α) (row column : Nat) (a : α) : Grid α := fun r c => if r < row ∨ r = row ∧ c < column then a else g r c

def rollUp (g : Grid α) (top bottom : Nat) (a : α) : Grid α := fun r c =>
  if top ≤ r ∧ r < bottom then if r + 1 < bottom then g (r + 1) c else a else g r c

def rollDown (g : Grid α) (top bottom : Nat) (a : α) : Grid α := fun r c =>
  if top ≤ r ∧ r < bottom then if top < r then g (r - 1) c else a else g r c

/-- The rest of the row moves to the right. -/
def openCell (g : Grid α) (row column : Nat) (a : α) : Grid α := fun r c =>
  if r = row ∧ column ≤ c then if column < c then g r (c - 1) else a else g r c

/-- The rest of the row moves to the left, in a row of `width` cells. -/
def closeCell (g : Grid α) (row column width : Nat) (a : α) : Grid α := fun r c =>
  if r = row ∧ column ≤ c then if c + 1 < width then g r (c + 1) else a else g r c

end Grid

/-- A terminal with 25 lines of 80 places, as the one who looks at it has it: what stands where, the cursor, which in column 80 is behind
the line, the lines that scroll, and how far a sequence has come. It knows of no video memory. -/
structure Terminal where
  cell : Grid (BitVec 16)
  column : Nat
  row : Nat
  top : Nat
  bottom : Nat
  attr : BitVec 8
  savedColumn : Nat
  savedRow : Nat
  state : ConState
  npar : Nat
  par : Nat → Nat

namespace Terminal

open Console (byte)

def goto (t : Terminal) (column row : Nat) : Terminal := if column < 80 ∧ row < 25 then { t with column := column, row := row } else t

def scrollUp (t : Terminal) : Terminal := { t with cell := t.cell.rollUp t.top t.bottom blank }

def scrollDown (t : Terminal) : Terminal := { t with cell := t.cell.rollDown t.top t.bottom blank }

def lineFeed (t : Terminal) : Terminal := if t.row + 1 < t.bottom then { t with row := t.row + 1 } else t.scrollUp

def reverseIndex (t : Terminal) : Terminal := if t.top < t.row then { t with row := t.row - 1 } else t.scrollDown

def carriageReturn (t : Terminal) : Terminal := { t with column := 0 }

def backspace (t : Terminal) : Terminal := { t with column := t.column - 1 }

def rubOut (t : Terminal) : Terminal :=
  if t.column = 0 then t else { t with column := t.column - 1, cell := t.cell.put t.row (t.column - 1) blank }

def eraseDisplay (t : Terminal) (n : Nat) : Terminal :=
  if n = 0 then { t with cell := t.cell.fillFrom t.row t.column blank }
  else if n = 1 then { t with cell := t.cell.fillBefore t.row t.column blank }
  else if n = 2 then { t with cell := fun _ _ => blank }
  else t

def eraseLine (t : Terminal) (n : Nat) : Terminal :=
  if n = 0 then { t with cell := t.cell.fillRow t.row t.column 80 blank }
  else if n = 1 then { t with cell := t.cell.fillRow t.row 0 t.column blank }
  else if n = 2 then { t with cell := t.cell.fillRow t.row 0 80 blank }
  else t

def setAttr (t : Terminal) : Terminal :=
  { t with attr := (List.range (t.npar + 1)).foldl (fun a i => Console.attrOf a (BitVec.ofNat 32 (t.par i))) t.attr }

def insertChar (t : Terminal) : Terminal := { t with cell := t.cell.openCell t.row t.column blank }

def deleteChar (t : Terminal) : Terminal := { t with cell := t.cell.closeCell t.row t.column 80 blank }

def insertLine (t : Terminal) : Terminal := { t with cell := t.cell.rollDown t.row 25 blank }

def deleteLine (t : Terminal) : Terminal := { t with cell := t.cell.rollUp t.row 25 blank }

/-- At least once, and not more than makes a difference. -/
def times (n limit : Nat) (f : Terminal → Terminal) (t : Terminal) : Terminal := f^[min limit (max 1 n)] t

def save (t : Terminal) : Terminal := { t with savedColumn := t.column, savedRow := t.row }

def restore (t : Terminal) : Terminal := { t with column := t.savedColumn, row := t.savedRow }

/-- What would come behind the line comes into the next one. -/
def fold (t : Terminal) : Terminal := lineFeed { t with column := t.column - 80 }

def print (t : Terminal) (c : BitVec 8) : Terminal :=
  let t := if 80 ≤ t.column then t.fold else t
  { t with cell := t.cell.put t.row t.column (t.attr ++ c), column := t.column + 1 }

def tab (t : Terminal) : Terminal :=
  let t := { t with column := t.column + (8 - t.column % 8) }
  if 80 < t.column then t.fold else t

def text (eraseChar : BitVec 8) (t : Terminal) (c : BitVec 8) : Terminal :=
  if 31 < c.toInt ∧ c.toInt < 127 then t.print c
  else if c = 27 then { t with state := .escape }
  else if c = 10 ∨ c = 11 ∨ c = 12 then t.lineFeed
  else if c = 13 then t.carriageReturn
  else if c.toInt = eraseChar.toNat then t.rubOut
  else if c = 8 then t.backspace
  else if c = 9 then t.tab
  else t

/-- Whether `ESC` saves or restores the cursor goes by the column and not by the letter. -/
def escape (t : Terminal) (c : BitVec 8) : Terminal :=
  if c = byte '[' then { t with state := .bracket }
  else if c = byte 'E' then t.goto 0 (t.row + 1)
  else if c = byte 'M' then t.reverseIndex
  else if c = byte 'D' then t.lineFeed
  else if c = byte 'Z' then t
  else if t.column = 55 then t.save
  else if t.column = 56 then t.restore
  else t

/-- Sums and differences of a place and a parameter are those of words of 32 bits. -/
def ahead (a n : Nat) : Nat := (a + n) % 2 ^ 32

def back (a n : Nat) : Nat := (2 ^ 32 - n + a) % 2 ^ 32

def setPar (t : Terminal) (i v : Nat) : Terminal := { t with par := fun j => if j = i then v else t.par j }

/-- A parameter that is 0 or missing means 1. -/
def atLeastOne (t : Terminal) : Terminal := if t.par 0 = 0 then t.setPar 0 1 else t

/-- The parameter counts from 1. -/
def fromZero (t : Terminal) (i : Nat) : Terminal := t.setPar i (t.par i - 1)

def region (t : Terminal) : Terminal :=
  let t := if t.par 1 = 0 then t.setPar 1 25 else t
  if t.par 0 < t.par 1 ∧ t.par 1 ≤ 25 then { t with top := t.par 0, bottom := t.par 1 } else t

def command (t : Terminal) (c : BitVec 8) : Terminal :=
  if c = byte 'G' ∨ c = 0x60 then let t := t.fromZero 0; t.goto (t.par 0) t.row
  else if c = byte 'A' then let t := t.atLeastOne; t.goto t.column (back t.row (t.par 0))
  else if c = byte 'B' ∨ c = byte 'e' then let t := t.atLeastOne; t.goto t.column (ahead t.row (t.par 0))
  else if c = byte 'C' ∨ c = byte 'a' then let t := t.atLeastOne; t.goto (ahead t.column (t.par 0)) t.row
  else if c = byte 'D' then let t := t.atLeastOne; t.goto (back t.column (t.par 0)) t.row
  else if c = byte 'E' then let t := t.atLeastOne; t.goto 0 (ahead t.row (t.par 0))
  else if c = byte 'F' then let t := t.atLeastOne; t.goto 0 (back t.row (t.par 0))
  else if c = byte 'd' then let t := t.fromZero 0; t.goto t.column (t.par 0)
  else if c = byte 'H' ∨ c = byte 'f' then let t := (t.fromZero 0).fromZero 1; t.goto (t.par 1) (t.par 0)
  else if c = byte 'J' then t.eraseDisplay (t.par 0)
  else if c = byte 'K' then t.eraseLine (t.par 0)
  else if c = byte 'L' then t.times (t.par 0) 25 insertLine
  else if c = byte 'M' then t.times (t.par 0) 25 deleteLine
  else if c = byte 'P' then t.times (t.par 0) 80 deleteChar
  else if c = byte '@' then t.times (t.par 0) 80 insertChar
  else if c = byte 'm' then t.setAttr
  else if c = byte 'r' then (t.fromZero 0).region
  else if c = byte 's' then t.save
  else if c = byte 'u' then t.restore
  else t

/-- A digit is put behind the number that the parameter is so far. -/
def digit (t : Terminal) (c : BitVec 8) : Terminal := t.setPar t.npar ((10 * t.par t.npar + (c.toNat - 48)) % 2 ^ 32)

def params (t : Terminal) (c : BitVec 8) : Terminal :=
  if c = byte ';' ∧ t.npar < 15 then { t with npar := t.npar + 1 }
  else if 48 ≤ c.toNat ∧ c.toNat ≤ 57 then t.digit c
  else command { t with state := .text } c

def bracket (t : Terminal) (c : BitVec 8) : Terminal :=
  let t := { t with par := fun _ => 0, npar := 0, state := .params }
  if c = byte '?' then t else t.params c

def write (eraseChar : BitVec 8) (t : Terminal) (c : BitVec 8) : Terminal :=
  match t.state with
  | .text => t.text eraseChar c
  | .escape => escape { t with state := .text } c
  | .bracket => t.bracket c
  | .params => t.params c

def writeAll (t : Terminal) (cs : List (BitVec 8 × BitVec 8)) : Terminal := cs.foldl (fun t p => t.write p.1 p.2) t

/-- As the loader leaves it: some text, and the cursor behind it. -/
def boot (cell : Grid (BitVec 16)) (column row : Nat) : Terminal where
  cell := cell
  column := column
  row := row
  top := 0
  bottom := 25
  attr := 0x07
  savedColumn := 0
  savedRow := 0
  state := .text
  npar := 0
  par := fun _ => 0

/-- The screen shows the terminal: the cells of the window that begins at `origin` are its cells, in rows of 80. -/
structure Shows (t : Terminal) (s : Console) : Prop where
  valid : s.Valid
  even : s.origin.toNat % 2 = 0
  cell : ∀ r < 25, ∀ c < 80, t.cell r c = s.memory.cell s.origin (80 * r + c)
  column : t.column = s.x.toNat
  row : t.row = s.y.toNat
  top : t.top = s.top.toNat
  bottom : t.bottom = s.bottom.toNat
  attr : t.attr = s.attr
  savedColumn : t.savedColumn = s.savedX.toNat
  savedRow : t.savedRow = s.savedY.toNat
  state : t.state = s.state
  npar : t.npar = s.npar.toNat
  par : ∀ i < 16, t.par i = (s.par (BitVec.ofNat 32 i)).toNat

end Terminal

end RheeKernel
