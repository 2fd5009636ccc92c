import RheeKernel.Zones
import RheeKernel.DirectoryCalls

namespace RheeKernel

/-- What `bmap` (or `create_block`) and `bread` deliver for a block of a directory. -/
inductive BlockRead
  | unmapped
  | unreadable
  | entries (e : Nat → NameEntry)

/-- What can go wrong in a scan; `spent` means that its loop has not ended in the rounds it was given. -/
inductive ScanFault
  | nullPointer
  | releasedPointer
  | panic
  | spent
deriving DecidableEq

/-- The buffers that a call has got from `bread`, by number, and how often each has been given to `brelse`. -/
structure Buffers where
  got : Nat := 0
  drops : Nat → Nat := fun _ => 0

/-- `bh`, and `de` as an index into the entries of its block. -/
structure Cursor where
  bh : Option Nat
  data : Nat → NameEntry
  de : Nat

namespace Buffers

/-- What happens when `bh->b_data` is read. -/
def fault (s : Buffers) : Option Nat → Option ScanFault
  | none => some .nullPointer
  | some m => if s.drops m = 0 then none else some .releasedPointer

/-- `brelse`, which ignores a null pointer. -/
def brelse (s : Buffers) : Option Nat → Buffers
  | none => s
  | some m => { s with drops := Function.update s.drops m (s.drops m + 1) }

end Buffers

namespace DirScan

inductive Fetched
  | unmapped
  | unreadable
  | cursor (c : Cursor)

/-- `bmap` or `create_block` of block `q`, and `bread`. -/
def fetch (block : Nat → BlockRead) (q : Nat) (s : Buffers) : Except ScanFault (Fetched × Buffers) :=
  if maxFileBlocks ≤ q then .error .panic
  else match block q with
    | .unmapped => .ok (.unmapped, s)
    | .unreadable => .ok (.unreadable, s)
    | .entries e => .ok (.cursor ⟨some s.got, e, 0⟩, { s with got := s.got + 1 })

/-- The test at the head of the loops whether `de` has come to the end of its block; the next block is fetched then. -/
def turn (block : Nat → BlockRead) (i : Nat) (c : Cursor) (s : Buffers) : Except ScanFault (Fetched × Buffers) :=
  match s.fault c.bh with
  | some f => .error f
  | none => if dirEntriesPerBlock ≤ c.de then fetch block (i / dirEntriesPerBlock) (s.brelse c.bh) else .ok (.cursor c, s)

/-- The first block, which is read through `i_zone[0]`. -/
def first (block : Nat → BlockRead) (s : Buffers) : Option (Cursor × Buffers) :=
  match block 0 with
  | .entries e => some (⟨some s.got, e, 0⟩, { s with got := s.got + 1 })
  | _ => none

/-- The loop of `find_entry`; it ends with the buffer and the number of the entry. -/
def findLoop (block : Nat → BlockRead) (name : List UInt8) (entries : Nat) :
    Nat → Nat → Cursor → Buffers → Except ScanFault (Option (Option Nat × Nat) × Buffers)
  | 0, _, _, _ => .error .spent
  | n + 1, i, c, s =>
    if i < entries then
      (turn block i c s).bind fun
        | (.cursor c, s) =>
          if matchName name (c.data c.de) then .ok (some (c.bh, i), s)
          else findLoop block name entries n (i + 1) { c with de := c.de + 1 } s
        | (_, s) => findLoop block name entries n (i + dirEntriesPerBlock) { c with bh := none } s
    else .ok (none, s.brelse c.bh)

def findEntry (block : Nat → BlockRead) (size : Nat) (name : List UInt8) : Except ScanFault (Option (Option Nat × Nat) × Buffers) :=
  let name := name.take nameLen
  let entries := size / direntSize
  if name = [] then .ok (none, {})
  else match first block {} with
    | none => .ok (none, {})
    | some (c, s) => findLoop block name entries (entries + 1) 0 c s

/-- The loop of `add_entry`; it ends with the buffer and the number of a free entry. -/
def addLoop (block : Nat → BlockRead) (size : Nat) :
    Nat → Nat → Cursor → Buffers → Except ScanFault (Option (Option Nat × Nat) × Buffers)
  | 0, _, _, _ => .error .spent
  | n + 1, i, c, s =>
    (turn block i c s).bind fun
      | (.cursor c, s) =>
        if size ≤ i * direntSize ∨ (c.data c.de).inode = 0 then .ok (some (c.bh, i), s)
        else addLoop block size n (i + 1) { c with de := c.de + 1 } s
      | (.unmapped, s) => .ok (none, s)
      | (.unreadable, s) => addLoop block size n (i + dirEntriesPerBlock) { c with bh := none } s

/-- `block` is what `create_block` and `bread` deliver here: `unmapped` where no block could be allocated. -/
def addEntry (block : Nat → BlockRead) (size : Nat) (name : List UInt8) : Except ScanFault (Option (Option Nat × Nat) × Buffers) :=
  if name.take nameLen = [] then .ok (none, {})
  else match first block {} with
    | none => .ok (none, {})
    | some (c, s) => addLoop block size (size / direntSize + 3) 0 c s

/-- The loop of `empty_dir`. It does not set `bh` to null when it lets it go. -/
def emptyLoop (block : Nat → BlockRead) (len : Nat) : Nat → Nat → Cursor → Buffers → Except ScanFault (Bool × Buffers)
  | 0, _, _, _ => .error .spent
  | n + 1, nr, c, s =>
    if nr < len then
      (turn block nr c s).bind fun
        | (.cursor c, s) =>
          if (c.data c.de).inode ≠ 0 then .ok (false, s.brelse c.bh)
          else emptyLoop block len n (nr + 1) { c with de := c.de + 1 } s
        | (.unmapped, s) => emptyLoop block len n (nr + dirEntriesPerBlock) c s
        | (.unreadable, s) => .ok (false, s)
    else .ok (true, s.brelse c.bh)

/-- `strcmp` of a name in an entry with `.` or `..`. -/
def nameIs (name : List UInt8) (de : NameEntry) : Bool :=
  decide (∀ k : Fin 14, k.val ≤ name.length → de.name k = name.getD k 0)

def emptyDir (block : Nat → BlockRead) (size num : Nat) : Except ScanFault (Bool × Buffers) :=
  let len := size / direntSize
  if len < 2 then .ok (false, {})
  else match first block {} with
    | none => .ok (false, {})
    | some (c, s) =>
      -- The buffer is not given back when the entries of the directory and of its parent are wrong.
      if (c.data 0).inode ≠ num ∨ (c.data 1).inode = 0 ∨ nameIs dotName (c.data 0) = false ∨ nameIs dotdotName (c.data 1) = false then
        .ok (false, s)
      else emptyLoop block len (len + 1) 2 { c with de := 2 } s

end DirScan

end RheeKernel
