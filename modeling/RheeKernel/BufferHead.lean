import Mathlib.Data.Nat.Notation

namespace RheeKernel

/-- The 512 bytes that one `port_read` or `port_write` moves. -/
abbrev Sector := BitVec 4096

/-- `struct buffer_head`, with `b_data` as the two sectors of its block. Pointers to other heads are
indices into the array that starts at `start_buffer`. -/
structure BufferHead where
  dataLo : Sector := 0
  dataHi : Sector := 0
  bDev : Nat := 0
  bBlocknr : Nat := 0
  bUptodate : Bool := false
  bDirt : Bool := false
  bCount : Nat := 0
  bLock : Bool := false
  bPrev : Option Nat := none
  bNext : Option Nat := none
  bPrevFree : Option Nat := none
  bNextFree : Option Nat := none
deriving DecidableEq

/-- A head with the links of another. -/
def BufferHead.withLinks (b c : BufferHead) : BufferHead :=
  { b with bNext := c.bNext, bPrev := c.bPrev, bNextFree := c.bNextFree, bPrevFree := c.bPrevFree }

/-- A head with the data and the flags of another. -/
def BufferHead.withFlags (b c : BufferHead) : BufferHead :=
  { b with dataLo := c.dataLo, dataHi := c.dataHi, bUptodate := c.bUptodate, bDirt := c.bDirt, bLock := c.bLock }

end RheeKernel
