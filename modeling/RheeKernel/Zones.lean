import Mathlib.Logic.Function.Basic

namespace RheeKernel

def zmapSlots : Nat := 8
def zmapBits : Nat := 8192

/-- Number of blocks that an inode's zone tree can name. -/
def maxFileBlocks : Nat := 7 + 512 + 512 * 512

/-- A mounted device as the zone layer sees it: the super block, the zone bitmap (bit `8192 * i + j` is bit
`j` of `s_zmap[i]`) and the 16-bit words of every block as the buffer cache delivers them. -/
structure Device where
  firstdatazone : Nat
  nzones : Nat
  zmapBlocks : Nat
  zmap : Nat → Bool
  word : Nat → Nat → Nat

structure ZoneInode where
  zone : Nat → Nat

namespace Device

def setWord (d : Device) (b k i : Nat) : Device :=
  { d with word := Function.update d.word b (Function.update (d.word b) k i) }

end Device

/-- The scan of `find_first_zero`, one bit at a time: the first clear bit from `j` on, or `j` plus the
number of bits left when there is none. -/
def findFirstZero (bit : Nat → Bool) : Nat → Nat → Nat
  | 0, j => j
  | n + 1, j => if bit j then findFirstZero bit n (j + 1) else j

/-- The loop of `new_block` over `s_zmap[i]`; a slot past `s_zmap_blocks` holds no buffer. -/
def zmapScan (d : Device) : Nat → Nat → Option (Nat × Nat)
  | 0, _ => none
  | n + 1, i =>
    if i < d.zmapBlocks then
      let j := findFirstZero (fun j => d.zmap (zmapBits * i + j)) zmapBits 0
      if j < zmapBits then some (i, j) else zmapScan d n (i + 1)
    else zmapScan d n (i + 1)

/-- `none` is a panic. `held` lists the blocks whose buffers the caller keeps a reference to: taking
one of them would find its count different from 1. -/
def newBlock (d : Device) (held : List Nat) : Option (Device × Nat) :=
  match zmapScan d zmapSlots 0 with
  | none => some (d, 0)
  | some (i, j) =>
    let d := { d with zmap := Function.update d.zmap (zmapBits * i + j) true }
    let z := j + i * zmapBits + d.firstdatazone - 1
    if d.nzones ≤ z then some (d, 0)
    else if z ∈ held then none
    else some ({ d with word := Function.update d.word z fun _ => 0 }, z)

/-- A zone number that `_bmap` fills in when it is zero and `create` is set. -/
def fillZone (d : Device) (held : List Nat) (create : Bool) (i : Nat) : Option (Device × Nat) :=
  if create && i == 0 then newBlock d held else some (d, i)

/-- Entry `k` of the table block `b`, filled in on demand. The table stays referenced meanwhile. -/
def fillWord (d : Device) (create : Bool) (b k : Nat) : Option (Device × Nat) :=
  (fillZone d [b] create (d.word b k)).map fun (d', i) => (d'.setWord b k i, i)

def fillInode (d : Device) (ip : ZoneInode) (create : Bool) (k : Nat) : Option (Device × ZoneInode × Nat) :=
  (fillZone d [] create (ip.zone k)).map fun (d', i) => (d', ⟨Function.update ip.zone k i⟩, i)

/-- `_bmap`, with the device and the inode it leaves behind; `none` is a panic. -/
def bmapCore (d : Device) (ip : ZoneInode) (block : Int) (create : Bool) : Option (Device × ZoneInode × Nat) :=
  if block < 0 then none
  else if block ≥ maxFileBlocks then none
  else if block < 7 then fillInode d ip create block.toNat
  else
    let block := block - 7
    if block < 512 then
      (fillInode d ip create 7).bind fun (d, ip, i) =>
        if i = 0 then some (d, ip, 0)
        else (fillWord d create i block.toNat).map fun (d, i) => (d, ip, i)
    else
      let block := block - 512
      (fillInode d ip create 8).bind fun (d, ip, i) =>
        if i = 0 then some (d, ip, 0)
        else (fillWord d create i (block.toNat / 512)).bind fun (d, i) =>
          if i = 0 then some (d, ip, 0)
          else (fillWord d create i (block.toNat % 512)).map fun (d, i) => (d, ip, i)

def bmap (d : Device) (ip : ZoneInode) (block : Int) : Option Nat :=
  (bmapCore d ip block false).map fun (_, _, i) => i

def createBlock (d : Device) (ip : ZoneInode) (block : Int) : Option (Device × ZoneInode × Nat) :=
  bmapCore d ip block true

/-- The zone that holds block `n` of a file, zero where the file has a hole. -/
def zoneOf (d : Device) (ip : ZoneInode) (n : Nat) : Nat :=
  if n < 7 then ip.zone n
  else if n < 7 + 512 then if ip.zone 7 = 0 then 0 else d.word (ip.zone 7) (n - 7)
  else if ip.zone 8 = 0 then 0
  else
    let i := d.word (ip.zone 8) ((n - 519) / 512)
    if i = 0 then 0 else d.word i ((n - 519) % 512)

@[simp]
theorem fillZone_false {d : Device} {held : List Nat} {i : Nat} : fillZone d held false i = some (d, i) := by
  simp [fillZone]

@[simp]
theorem Device.setWord_self {d : Device} {b k : Nat} : d.setWord b k (d.word b k) = d := by
  simp [Device.setWord]

@[simp]
theorem fillWord_false {d : Device} {b k : Nat} : fillWord d false b k = some (d, d.word b k) := by
  simp [fillWord]

@[simp]
theorem fillInode_false {d : Device} {ip : ZoneInode} {k : Nat} :
    fillInode d ip false k = some (d, ip, ip.zone k) := by
  simp [fillInode]

/-- Without `create` the map is a pure lookup in the zone tree. -/
theorem bmapCore_false {d : Device} {ip : ZoneInode} {n : Nat} (hn : n < maxFileBlocks) :
    bmapCore d ip n false = some (d, ip, zoneOf d ip n) := by
  have hlow : ¬ (n : Int) < 0 := by omega
  have hhigh : ¬ (n : Int) ≥ maxFileBlocks := by omega
  unfold bmapCore
  rw [if_neg hlow, if_neg hhigh]
  by_cases h7 : n < 7
  · rw [if_pos (by omega)]
    simp [zoneOf, h7]
  · rw [if_neg (by omega)]
    by_cases h519 : n < 7 + 512
    · have hk : ((n : Int) - 7).toNat = n - 7 := by omega
      simp only [show (n : Int) - 7 < 512 by omega, ↓reduceIte, fillInode_false, Option.bind_some, hk]
      by_cases hz : ip.zone 7 = 0
      · simp [zoneOf, h7, h519, hz]
      · simp [zoneOf, h7, h519, hz]
    · have hk : ((n : Int) - 7 - 512).toNat = n - 519 := by omega
      simp only [show ¬ (n : Int) - 7 < 512 by omega, ↓reduceIte, fillInode_false, Option.bind_some, hk]
      by_cases hz : ip.zone 8 = 0
      · simp [zoneOf, h7, h519, hz]
      · by_cases hi : d.word (ip.zone 8) ((n - 519) / 512) = 0
        · simp [zoneOf, h7, h519, hz, hi]
        · simp [zoneOf, h7, h519, hz, hi]

theorem bmap_eq {d : Device} {ip : ZoneInode} {n : Nat} (hn : n < maxFileBlocks) :
    bmap d ip n = some (zoneOf d ip n) := by
  simp [bmap, bmapCore_false hn]

end RheeKernel
