import Mathlib.Logic.Function.Iterate
import RheeKernel.WordMemory

namespace RheeKernel

def screenStart : BitVec 32 := 0xb8000
def screenEnd : BitVec 32 := 0xc0000
def columns : BitVec 32 := 80
def lines : BitVec 32 := 25
def parLimit : BitVec 32 := 16

/-- `state` between two bytes, from 0 to 3. -/
inductive ConState
  | text
  | escape
  | bracket
  | params
deriving DecidableEq

/-- The variables of the console, and the memory that it writes to. -/
structure Console where
  origin : BitVec 32
  scrEnd : BitVec 32
  pos : BitVec 32
  x : BitVec 32
  y : BitVec 32
  top : BitVec 32
  bottom : BitVec 32
  state : ConState
  npar : BitVec 32
  par : BitVec 32 → BitVec 32
  ques : Bool
  attr : BitVec 8
  savedX : BitVec 32
  savedY : BitVec 32
  memory : WordMemory

/-- A blank in the usual colours. -/
def blank : BitVec 16 := 0x0720

namespace Console

def gotoxy (s : Console) (newX newY : BitVec 32) : Console :=
  if columns ≤ newX ∨ lines ≤ newY then s
  else { s with x := newX, y := newY, pos := s.origin + ((newY * columns + newX) <<< 1) }

/-- The end of `scrup` when the screen is the whole region: behind the end of the memory it starts again at the front. -/
def wrap (s : Console) : Console :=
  if screenEnd < s.scrEnd then
    let (m, edi) := s.memory.movsl 4 (((lines - 1) * columns) >>> 1).toNat screenStart s.origin
    { s with
      memory := m.stosw 2 blank columns.toNat edi
      scrEnd := s.scrEnd - (s.origin - screenStart)
      pos := s.pos - (s.origin - screenStart)
      origin := screenStart }
  else { s with memory := s.memory.stosw 2 blank (2 * (columns >>> 1).toNat) (s.scrEnd - (columns <<< 1)) }

def scrup (s : Console) : Console :=
  if s.top = 0 ∧ s.bottom = lines then
    wrap { s with origin := s.origin + (columns <<< 1), pos := s.pos + (columns <<< 1), scrEnd := s.scrEnd + (columns <<< 1) }
  else
    let (m, edi) := s.memory.movsl 4 (((s.bottom - s.top - 1) * columns) >>> 1).toNat (s.origin + (columns <<< 1) * s.top)
      (s.origin + (columns <<< 1) * (s.top + 1))
    { s with memory := m.stosw 2 blank columns.toNat edi }

def scrdown (s : Console) : Console :=
  let (m, edi) := s.memory.movsl (-4) (((s.bottom - s.top - 1) * columns) >>> 1).toNat (s.origin + (columns <<< 1) * s.bottom - 4)
    (s.origin + (columns <<< 1) * (s.bottom - 1) - 4)
  { s with memory := m.stosw (-2) blank columns.toNat (edi + 2) }

def lf (s : Console) : Console :=
  if s.y + 1 < s.bottom then { s with y := s.y + 1, pos := s.pos + (columns <<< 1) } else s.scrup

def ri (s : Console) : Console :=
  if s.top < s.y then { s with y := s.y - 1, pos := s.pos - (columns <<< 1) } else s.scrdown

def cr (s : Console) : Console := { s with pos := s.pos - (s.x <<< 1), x := 0 }

def del (s : Console) : Console :=
  if s.x ≠ 0 then { s with pos := s.pos - 2, x := s.x - 1, memory := s.memory.store (s.pos - 2) blank } else s

/-- `rep stosw` at the end of `csi_J` and `csi_K`. -/
def erase (s : Console) (count start : BitVec 32) : Console :=
  { s with memory := s.memory.stosw 2 blank count.toNat start }

def csiJ (s : Console) (par : BitVec 32) : Console :=
  if par = 0 then s.erase ((s.scrEnd - s.pos) >>> 1) s.pos
  else if par = 1 then s.erase ((s.pos - s.origin) >>> 1) s.origin
  else if par = 2 then s.erase (columns * lines) s.origin
  else s

def csiK (s : Console) (par : BitVec 32) : Console :=
  if par = 0 then if columns ≤ s.x then s else s.erase (columns - s.x) s.pos
  else if par = 1 then s.erase (if s.x < columns then s.x else columns) (s.pos - (s.x <<< 1))
  else if par = 2 then s.erase columns (s.pos - (s.x <<< 1))
  else s

def attrOf (attr : BitVec 8) (par : BitVec 32) : BitVec 8 :=
  if par = 0 then 0x07 else if par = 1 then 0x0f else if par = 4 then 0x0f else if par = 7 then 0x70 else if par = 27 then 0x07 else attr

def csim (s : Console) : Console :=
  { s with attr := (List.range (s.npar.toNat + 1)).foldl (fun a i => attrOf a (s.par (BitVec.ofNat 32 i))) s.attr }

/-- The loop of `insert_char`; `old` is the word to be written. -/
def shiftRight (old : BitVec 16) : Nat → BitVec 32 → WordMemory → WordMemory
  | 0, _, m => m
  | n + 1, p, m => shiftRight (m.word p) n (p + 2) ((m.touch p).store p old)

def insertChar (s : Console) : Console :=
  { s with memory := shiftRight blank (columns.toNat - s.x.toNat) s.pos s.memory }

/-- The loop of `delete_char` and the store behind it. -/
def shiftLeft : Nat → BitVec 32 → WordMemory → WordMemory
  | 0, p, m => m.store p blank
  | n + 1, p, m => shiftLeft n (p + 2) ((m.touch (p + 2)).store p (m.word (p + 2)))

def deleteChar (s : Console) : Console :=
  if columns ≤ s.x then s else { s with memory := shiftLeft (columns.toNat - s.x.toNat - 1) s.pos s.memory }

/-- `top` and `bottom` are put back behind the scrolling. -/
def fromCursor (s : Console) (scroll : Console → Console) : Console :=
  { scroll { s with top := s.y, bottom := lines } with top := s.top, bottom := s.bottom }

def insertLine (s : Console) : Console := s.fromCursor scrdown

def deleteLine (s : Console) : Console := s.fromCursor scrup

/-- The parameter of a command that is done `nr` times; a negative number is a large one. -/
def times (nr limit : BitVec 32) : Nat := (if limit < nr then limit else if nr = 0 then 1 else nr).toNat

def csiAt (s : Console) (nr : BitVec 32) : Console := insertChar^[times nr columns] s

def csiL (s : Console) (nr : BitVec 32) : Console := insertLine^[times nr lines] s

def csiP (s : Console) (nr : BitVec 32) : Console := deleteChar^[times nr columns] s

def csiM (s : Console) (nr : BitVec 32) : Console := deleteLine^[times nr lines] s

def saveCur (s : Console) : Console := { s with savedX := s.x, savedY := s.y }

def restoreCur (s : Console) : Console :=
  { s with x := s.savedX, y := s.savedY, pos := s.origin + ((s.savedY * columns + s.savedX) <<< 1) }

/-- Behind the last column the text goes on in the next line. -/
def nextLine (s : Console) : Console := lf { s with x := s.x - columns, pos := s.pos - (columns <<< 1) }

def print (s : Console) (c : BitVec 8) : Console :=
  let s := if columns ≤ s.x then s.nextLine else s
  { s with memory := s.memory.store s.pos (s.attr ++ c), pos := s.pos + 2, x := s.x + 1 }

def tab (s : Console) : Console :=
  let c := 8 - (s.x &&& 7)
  let s := { s with x := s.x + c, pos := s.pos + (c <<< 1) }
  if columns < s.x then s.nextLine else s

/-- `case 0`; characters are signed, the erase character is not. -/
def text (eraseChar : BitVec 8) (s : Console) (c : BitVec 8) : Console :=
  if 31 < c.toInt ∧ c.toInt < 127 then s.print c
  else if c = 27 then { s with state := .escape }
  else if c = 10 ∨ c = 11 ∨ c = 12 then s.lf
  else if c = 13 then s.cr
  else if c.toInt = eraseChar.toNat then s.del
  else if c = 8 then if s.x ≠ 0 then { s with x := s.x - 1, pos := s.pos - 2 } else s
  else if c = 9 then s.tab
  else s

def byte (c : Char) : BitVec 8 := BitVec.ofNat 8 c.toNat

/-- `case 1`. The answer to `Z` is the caller's; the last two tests are made on the column. -/
def escape (s : Console) (c : BitVec 8) : Console :=
  if c = byte '[' then { s with state := .bracket }
  else if c = byte 'E' then s.gotoxy 0 (s.y + 1)
  else if c = byte 'M' then s.ri
  else if c = byte 'D' then s.lf
  else if c = byte 'Z' then s
  else if s.x = (byte '7').setWidth 32 then s.saveCur
  else if s.x = (byte '8').setWidth 32 then s.restoreCur
  else s

def setPar (s : Console) (i v : BitVec 32) : Console := { s with par := fun j => if j = i then v else s.par j }

/-- `if (!par[0]) par[0]++`. -/
def atLeastOne (s : Console) : Console := if s.par 0 = 0 then s.setPar 0 (s.par 0 + 1) else s

/-- `if (par[i]) par[i]--`. -/
def fromZero (s : Console) (i : BitVec 32) : Console := if s.par i ≠ 0 then s.setPar i (s.par i - 1) else s

/-- `case 'r'` without its first line. -/
def region (s : Console) : Console :=
  let s := if s.par 1 = 0 then s.setPar 1 lines else s
  if s.par 0 < s.par 1 ∧ s.par 1 ≤ lines then { s with top := s.par 0, bottom := s.par 1 } else s

/-- `case 4`. -/
def command (s : Console) (c : BitVec 8) : Console :=
  if c = byte 'G' ∨ c = 0x60 then let s := s.fromZero 0; s.gotoxy (s.par 0) s.y
  else if c = byte 'A' then let s := s.atLeastOne; s.gotoxy s.x (s.y - s.par 0)
  else if c = byte 'B' ∨ c = byte 'e' then let s := s.atLeastOne; s.gotoxy s.x (s.y + s.par 0)
  else if c = byte 'C' ∨ c = byte 'a' then let s := s.atLeastOne; s.gotoxy (s.x + s.par 0) s.y
  else if c = byte 'D' then let s := s.atLeastOne; s.gotoxy (s.x - s.par 0) s.y
  else if c = byte 'E' then let s := s.atLeastOne; s.gotoxy 0 (s.y + s.par 0)
  else if c = byte 'F' then let s := s.atLeastOne; s.gotoxy 0 (s.y - s.par 0)
  else if c = byte 'd' then let s := s.fromZero 0; s.gotoxy s.x (s.par 0)
  else if c = byte 'H' ∨ c = byte 'f' then let s := (s.fromZero 0).fromZero 1; s.gotoxy (s.par 1) (s.par 0)
  else if c = byte 'J' then s.csiJ (s.par 0)
  else if c = byte 'K' then s.csiK (s.par 0)
  else if c = byte 'L' then s.csiL (s.par 0)
  else if c = byte 'M' then s.csiM (s.par 0)
  else if c = byte 'P' then s.csiP (s.par 0)
  else if c = byte '@' then s.csiAt (s.par 0)
  else if c = byte 'm' then s.csim
  else if c = byte 'r' then (s.fromZero 0).region
  else if c = byte 's' then s.saveCur
  else if c = byte 'u' then s.restoreCur
  else s

/-- `case 3`. -/
def params (s : Console) (c : BitVec 8) : Console :=
  if c = byte ';' ∧ s.npar < parLimit - 1 then { s with npar := s.npar + 1 }
  else if (byte '0').toInt ≤ c.toInt ∧ c.toInt ≤ (byte '9').toInt then
    s.setPar s.npar (10 * s.par s.npar + c.signExtend 32 - (byte '0').setWidth 32)
  else command { s with state := .text } c

/-- `case 2`. -/
def bracket (s : Console) (c : BitVec 8) : Console :=
  let s := { s with par := fun i => if i < parLimit then 0 else s.par i, npar := 0, state := .params, ques := c = byte '?' }
  if s.ques then s else s.params c

/-- What `con_write` does with a character. -/
def write (eraseChar : BitVec 8) (s : Console) (c : BitVec 8) : Console :=
  match s.state with
  | .text => s.text eraseChar c
  | .escape => escape { s with state := .text } c
  | .bracket => s.bracket c
  | .params => s.params c

/-- The character asks for an answer. -/
def asks (s : Console) (c : BitVec 8) : Bool := s.state = .escape ∧ c = byte 'Z'

/-- `con_write` on a stream of characters, each with the erase character of that time. -/
def writeAll (s : Console) (cs : List (BitVec 8 × BitVec 8)) : Console := cs.foldl (fun s p => s.write p.1 p.2) s

/-- How often the characters ask for an answer. -/
def queries (eraseChar : BitVec 8) : Console → List (BitVec 8) → Nat
  | _, [] => 0
  | s, c :: cs => (if s.asks c then 1 else 0) + queries eraseChar (s.write eraseChar c) cs

/-- The variables before `con_init`. -/
def boot (word : BitVec 32 → BitVec 16) : Console where
  origin := screenStart
  scrEnd := screenStart + lines * columns * 2
  pos := 0
  x := 0
  y := 0
  top := 0
  bottom := lines
  state := .text
  npar := 0
  par := fun _ => 0
  ques := false
  attr := 0x07
  savedX := 0
  savedY := 0
  memory := { word := word, touched := [] }

/-- `con_init`, with the cursor that the loader has left. -/
def conInit (word : BitVec 32 → BitVec 16) (x y : BitVec 8) : Console := (boot word).gotoxy (x.setWidth 32) (y.setWidth 32)

end Console

end RheeKernel
