import Mathlib.Data.List.GetD
import RheeKernel.BootImage

namespace RheeKernel

open ByteMemory

/-- What the disk service of the BIOS gets in the registers when it is to read. -/
structure DiskRead where
  al : BitVec 8
  ch : BitVec 8
  cl : BitVec 8
  dh : BitVec 8
  es : BitVec 16
  bx : BitVec 16
deriving DecidableEq

/-- A disk with two heads in the drive, and how the service gets on with it: the call with that number fails, with those bytes in the place
of what was to be read, or works. -/
structure Floppy where
  sectors : Nat
  tracks : Nat
  byte : Nat → UInt8
  fault : Nat → Option (Nat → UInt8)

namespace DiskRead

def address (r : DiskRead) : Nat := 16 * r.es.toNat + r.bx.toNat

def track (r : DiskRead) : Nat := r.ch.toNat + 256 * (r.cl.toNat / 64)

/-- The first of the sectors that are read, counted from 1 in its track. -/
def first (r : DiskRead) : Nat := r.cl.toNat % 64

/-- The place of the first sector on the disk. -/
def sector (r : DiskRead) (f : Floppy) : Nat := (2 * r.track + r.dh.toNat) * f.sectors + (r.first - 1)

/-- The sectors lie in one track of the disk, and they do not get over a 64 kB boundary in memory. -/
structure Fits (r : DiskRead) (f : Floppy) : Prop where
  some_sector : 1 ≤ r.al.toNat
  first : 1 ≤ r.first
  last : r.first + r.al.toNat ≤ f.sectors + 1
  head : r.dh.toNat < 2
  track : r.track < f.tracks
  boundary : r.address % 65536 + 512 * r.al.toNat ≤ 65536

instance (r : DiskRead) (f : Floppy) : Decidable (r.Fits f) :=
  decidable_of_iff (1 ≤ r.al.toNat ∧ 1 ≤ r.first ∧ r.first + r.al.toNat ≤ f.sectors + 1 ∧ r.dh.toNat < 2 ∧ r.track < f.tracks ∧
      r.address % 65536 + 512 * r.al.toNat ≤ 65536)
    ⟨fun ⟨a, b, c, d, e, g⟩ => ⟨a, b, c, d, e, g⟩, fun ⟨a, b, c, d, e, g⟩ => ⟨a, b, c, d, e, g⟩⟩

end DiskRead

/-- `int 0x13` with 2 in `ah`: the carry and the memory behind the call with that number. -/
def Floppy.read (f : Floppy) (number : Nat) (r : DiskRead) (mem : Nat → UInt8) : Bool × (Nat → UInt8) :=
  if r.Fits f then
    match f.fault number with
    | none => (false, patch (block (fun k => f.byte (512 * r.sector f + k)) r.address (512 * r.al.toNat)) mem)
    | some bytes => (true, patch (block bytes r.address (512 * r.al.toNat)) mem)
  else (true, mem)

/-- The loader between two turns of `rp_read`, with the reads that have been asked of the BIOS, the last one first. -/
structure Loader where
  es : BitVec 16
  bx : BitVec 16
  sread : BitVec 16
  head : BitVec 16
  track : BitVec 16
  mem : Nat → UInt8
  reads : List DiskRead

namespace Boot

def bootSeg : BitVec 16 := 0x07c0
def initSeg : BitVec 16 := 0x9000
def sysSeg : Nat := 0x1000

/-- `read_track`: what it asks of the BIOS. -/
def request (s : Loader) (ax : BitVec 16) : DiskRead :=
  let dx := s.track
  let cx := s.sread + 1
  let ch := dx.setWidth 8
  let dx := s.head
  ⟨ax.setWidth 8, ch, cx.setWidth 8, dx.setWidth 8 &&& 1, s.es, s.bx⟩

/-- `read_track`, tried so many times at most. -/
def readTrack (f : Floppy) (ax : BitVec 16) : Nat → Loader → Option Loader
  | 0, _ => none
  | fuel + 1, s =>
    let r := request s ax
    let (carry, mem) := f.read s.reads.length r s.mem
    let s := { s with mem := mem, reads := r :: s.reads }
    if carry then readTrack f ax fuel s else some s

/-- `ok1_read`: how many sectors to read. -/
def sectorCount (f : Floppy) (s : Loader) : BitVec 16 :=
  let ax := BitVec.ofNat 16 f.sectors - s.sread
  let cx := ax <<< 9
  let carry := cx.uaddOverflow s.bx
  let cx := cx + s.bx
  if carry then
    if cx = 0 then ax else (0 - s.bx) >>> 9
  else ax

/-- Behind `call read_track`: the head, the track and the place in memory go on. -/
def advance (f : Floppy) (ax : BitVec 16) (s : Loader) : Loader :=
  let cx := ax
  let ax := ax + s.sread
  let (s, ax) :=
    if ax = BitVec.ofNat 16 f.sectors then
      let ax := 1 - s.head
      let s := if ax = 0 then { s with track := s.track + 1 } else s
      ({ s with head := ax }, 0)
    else (s, ax)
  let s := { s with sread := ax }
  let cx := cx <<< 9
  let carry := s.bx.uaddOverflow cx
  let s := { s with bx := s.bx + cx }
  if carry then { s with es := s.es + 0x1000, bx := 0 } else s

/-- `rp_read`, for so many turns at most and with so many tries for each read. -/
def rpRead (f : Floppy) (syssize tries : Nat) : Nat → Loader → Option Loader
  | 0, _ => none
  | fuel + 1, s =>
    if s.es < BitVec.ofNat 16 (sysSeg + syssize) then
      let ax := sectorCount f s
      (readTrack f ax tries s).bind fun s => rpRead f syssize tries fuel (advance f ax s)
    else some s

/-- `read_it`: it hangs at once when `es` is not at a 64 kB boundary. -/
def readIt (f : Floppy) (syssize tries fuel : Nat) (s : Loader) : Option Loader :=
  if s.es &&& 0x0fff = 0 then rpRead f syssize tries fuel { s with bx := 0 } else none

def getWord (m : Nat → UInt8) (seg off : BitVec 16) : UInt8 × UInt8 :=
  (m (16 * seg.toNat + off.toNat), m (16 * seg.toNat + (off + 1).toNat))

def putWord (m : Nat → UInt8) (seg off : BitVec 16) (w : UInt8 × UInt8) : Nat → UInt8 :=
  Function.update (Function.update m (16 * seg.toNat + off.toNat) w.1) (16 * seg.toNat + (off + 1).toNat) w.2

/-- `rep movsw` with the direction forward, and so many words in `cx`. -/
def repMovsw (ds es : BitVec 16) : Nat → BitVec 16 → BitVec 16 → (Nat → UInt8) → Nat → UInt8
  | 0, _, _, m => m
  | cx + 1, si, di, m => repMovsw ds es cx (si + 2) (di + 2) (putWord m es di (getWord m ds si))

/-- `do_move`, for so many turns at most. -/
def doMove : Nat → BitVec 16 → (Nat → UInt8) → Option (Nat → UInt8)
  | 0, _, _ => none
  | fuel + 1, ax, m =>
    let es := ax
    let ax := ax + 0x1000
    if ax = 0x9000 then some m
    else
      let ds := ax
      doMove fuel ax (repMovsw ds es 0x8000 0 0 m)

/-- From `start` up to `end_move`: what the loader leaves in memory, and the reads that it has asked for. `dx` is the place of the cursor
that the BIOS gives behind `kill_motor`. -/
def boot (f : Floppy) (syssize : Nat) (dx : BitVec 16) (tries fuel : Nat) (mem : Nat → UInt8) :
    Option ((Nat → UInt8) × List DiskRead) :=
  let mem := repMovsw bootSeg initSeg 256 0 0 mem
  (readIt f syssize tries fuel ⟨BitVec.ofNat 16 sysSeg, 0, 1, 0, 0, mem, []⟩).bind fun s =>
    let mem := putWord s.mem initSeg 510 ((UInt8.ofBitVec (dx.setWidth 8)), UInt8.ofBitVec ((dx >>> 8).setWidth 8))
    (doMove fuel 0 mem).map fun mem => (mem, s.reads)

variable {f : Floppy} {syssize tries fuel p n : Nat} {s t : Loader} {ax dx ds es si di : BitVec 16} {m m' mem : Nat → UInt8}

theorem toNat_add_small {c d : BitVec 16} {v : Nat} (h : c.toNat + d.toNat = v) (small : v < 65536) : (c + d).toNat = v := by
  rw [BitVec.toNat_add, h]
  exact Nat.mod_eq_of_lt small

/-- Words copied between places that do not overlap and that do not get to the end of a segment. -/
theorem repMovsw_apart {j a b : Nat} (source : b = 16 * ds.toNat) (target : a = 16 * es.toNat) (hsi : si.toNat = 2 * j)
    (hdi : di.toNat = 2 * j) (inside : 2 * (j + n) ≤ 65536) (apart : b + 2 * (j + n) ≤ a + 2 * j ∨ a + 2 * (j + n) ≤ b + 2 * j)
    (x : Nat) : repMovsw ds es n si di m x = if a + 2 * j ≤ x ∧ x < a + 2 * (j + n) then m (b + (x - a)) else m x := by
  induction n generalizing j si di m with
  | zero => exact (if_neg (by omega)).symm
  | succ n ih =>
    have odd (d : BitVec 16) (hd : d.toNat = 2 * j) : (d + 1).toNat = 2 * j + 1 :=
      toNat_add_small (by rw [hd]; rfl) (by omega)
    have word (x : Nat) : putWord m es di (getWord m ds si) x =
        if x = a + 2 * j ∨ x = a + 2 * j + 1 then m (b + (x - a)) else m x := by
      unfold putWord getWord
      rw [hdi, hsi, odd si hsi, odd di hdi, ← source, ← target]
      by_cases second : x = a + 2 * j + 1
      · rw [if_pos (Or.inr second), second, Nat.add_assoc a, Function.update_self]
        exact congrArg m (by omega)
      rw [Function.update_of_ne (by omega : x ≠ a + (2 * j + 1))]
      by_cases first : x = a + 2 * j
      · rw [if_pos (Or.inl first), first, Function.update_self]
        exact congrArg m (by omega)
      rw [Function.update_of_ne first, if_neg (by omega)]
    rw [repMovsw]
    by_cases last : n = 0
    · subst last
      rw [repMovsw, word]
      by_cases at_word : x = a + 2 * j ∨ x = a + 2 * j + 1
      · rw [if_pos at_word, if_pos (by omega)]
      · rw [if_neg at_word, if_neg (by omega)]
    have next (d : BitVec 16) (hd : d.toNat = 2 * j) : (d + 2).toNat = 2 * (j + 1) :=
      toNat_add_small (by rw [hd]; rfl) (by omega)
    rw [ih (next si hsi) (next di hdi) (by omega) (by omega)]
    by_cases rest : a + 2 * (j + 1) ≤ x ∧ x < a + 2 * (j + 1 + n)
    · rw [if_pos rest, if_pos (by omega), word, if_neg (by omega)]
    · rw [if_neg rest, word]
      by_cases at_word : x = a + 2 * j ∨ x = a + 2 * j + 1
      · rw [if_pos at_word, if_pos (by omega)]
      · rw [if_neg at_word, if_neg (by omega)]

/-- One segment moved down to the segment before it. -/
theorem repMovsw_segment {k : Nat} (hes : es.toNat = 0x1000 * k) (hds : ds.toNat = 0x1000 * (k + 1)) (x : Nat) :
    repMovsw ds es 0x8000 0 0 m x = if 0x10000 * k ≤ x ∧ x < 0x10000 * (k + 1) then m (x + 0x10000) else m x := by
  rw [repMovsw_apart (j := 0) (a := 0x10000 * k) (b := 0x10000 * (k + 1)) (by omega) (by omega) rfl rfl (by omega) (by omega)]
  by_cases inside : 0x10000 * k ≤ x ∧ x < 0x10000 * (k + 1)
  · rw [if_pos (by omega), if_pos inside]
    congr 1
    omega
  · rw [if_neg (by omega), if_neg inside]

/-- From the segment `k` on everything up to `0x90000` is moved down by a segment. -/
theorem doMove_from {k : Nat} (hk : k ≤ 8) (hax : ax.toNat = 0x1000 * k) (enough : 8 - k < fuel) :
    ∃ m', doMove fuel ax m = some m' ∧ ∀ x, m' x = if 0x10000 * k ≤ x ∧ x < 0x80000 then m (x + 0x10000) else m x := by
  induction fuel generalizing k ax m with
  | zero => omega
  | succ fuel ih =>
    have next : (ax + 0x1000).toNat = 0x1000 * (k + 1) := toNat_add_small (by rw [hax]; rfl) (by omega)
    rw [doMove]
    dsimp only
    by_cases last : k = 8
    · have top : ax + 0x1000 = 0x9000 := by
        apply BitVec.eq_of_toNat_eq
        rw [next, last]
        rfl
      rw [if_pos top]
      exact ⟨m, rfl, fun x => (if_neg (by omega)).symm⟩
    · have below : ax + 0x1000 ≠ 0x9000 := by
        intro h
        rw [h] at next
        have value : (0x9000 : BitVec 16).toNat = 0x9000 := rfl
        omega
      rw [if_neg below]
      obtain ⟨m', run, bytes⟩ := ih (m := repMovsw (ax + 0x1000) ax 0x8000 0 0 m) (by omega) next (by omega)
      refine ⟨m', run, fun x => ?_⟩
      rw [bytes, repMovsw_segment hax next, repMovsw_segment hax next]
      by_cases here : 0x10000 * k ≤ x ∧ x < 0x10000 * (k + 1)
      · rw [if_neg (by omega), if_pos here, if_pos (by omega)]
      · rw [if_neg here]
        by_cases above : 0x10000 * (k + 1) ≤ x ∧ x < 0x80000
        · rw [if_pos above, if_neg (by omega), if_pos (by omega)]
        · rw [if_neg above, if_neg (by omega)]

/-- The 512 kB from `0x10000` on come to the beginning of memory, and the rest of memory is left. -/
theorem doMove_spec (enough : 8 < fuel) :
    ∃ m', doMove fuel 0 m = some m' ∧ ∀ x, m' x = if x < 0x80000 then m (x + 0x10000) else m x := by
  obtain ⟨m', run, bytes⟩ := @doMove_from _ 0 m 0 (by omega) rfl (by omega)
  refine ⟨m', run, fun x => ?_⟩
  rw [bytes]
  by_cases low : x < 0x80000
  · rw [if_pos low, if_pos (by omega)]
  · rw [if_neg low, if_neg (by omega)]

/-- The 64 kB segments that the loader fills. -/
def segments (syssize : Nat) : Nat := (syssize + 0xfff) / 0x1000

/-- The loader is made for the disk, and the disk has the sectors that it reads; the system has at most 512 kB. -/
structure Suits (f : Floppy) (syssize : Nat) : Prop where
  some_sector : 2 ≤ f.sectors
  sectors : f.sectors < 64
  tracks : f.tracks ≤ 256
  size : syssize ≤ 0x8000
  room : 1 + 128 * segments syssize ≤ 2 * f.tracks * f.sectors

/-- So many sectors have been loaded, into memory that was `m`. -/
structure Loaded (f : Floppy) (m : Nat → UInt8) (p : Nat) (s : Loader) : Prop where
  es : s.es.toNat = 0x1000 * (1 + p / 128)
  bx : s.bx.toNat = 512 * (p % 128)
  sread : s.sread.toNat = (p + 1) % f.sectors
  head : s.head.toNat = (p + 1) / f.sectors % 2
  track : s.track.toNat = (p + 1) / f.sectors / 2
  mem : ∀ x, s.mem x = if 0x10000 ≤ x ∧ x < 0x10000 + 512 * p then f.byte (512 + (x - 0x10000)) else m x
  reads : ∀ r ∈ s.reads, r.Fits f

/-- The sectors of the next read: up to the end of the track, but not over the end of the segment. -/
def share (f : Floppy) (p : Nat) : Nat := min (f.sectors - (p + 1) % f.sectors) (128 - p % 128)

theorem share_pos (suits : Suits f syssize) : 0 < share f p := by
  have some_sector := suits.some_sector
  have below := Nat.mod_lt (p + 1) (by omega : 0 < f.sectors)
  unfold share
  omega

theorem segments_le (suits : Suits f syssize) : segments syssize ≤ 8 := by
  have size := suits.size
  unfold segments
  omega

/-- The track of the next sector is one of the disk. -/
theorem track_lt (suits : Suits f syssize) (more : p < 128 * segments syssize) : (p + 1) / f.sectors / 2 < f.tracks := by
  have some_sector := suits.some_sector
  have room := suits.room
  rw [Nat.div_div_eq_div_mul]
  apply Nat.div_lt_of_lt_mul
  rw [Nat.mul_comm (2 * f.tracks), ← Nat.mul_assoc] at room
  omega

theorem sectorCount_spec (suits : Suits f syssize) (loaded : Loaded f m p s) : (sectorCount f s).toNat = share f p := by
  have sectors := suits.sectors
  have some_sector := suits.some_sector
  have below := Nat.mod_lt (p + 1) (by omega : 0 < f.sectors)
  have left : (BitVec.ofNat 16 f.sectors - s.sread).toNat = f.sectors - (p + 1) % f.sectors := by
    rw [BitVec.toNat_sub, BitVec.toNat_ofNat, loaded.sread]
    omega
  have bytes : ((BitVec.ofNat 16 f.sectors - s.sread) <<< 9).toNat = 512 * (f.sectors - (p + 1) % f.sectors) := by
    rw [BitVec.toNat_shiftLeft, left, Nat.shiftLeft_eq]
    omega
  have bx := loaded.bx
  unfold sectorCount share
  generalize (p + 1) % f.sectors = r at below left bytes ⊢
  generalize BitVec.ofNat 16 f.sectors - s.sread = ax at left bytes ⊢
  dsimp only
  by_cases beyond : 512 * (f.sectors - r) + 512 * (p % 128) < 65536
  · have no_carry : (ax <<< 9).uaddOverflow s.bx = false := by
      rw [BitVec.uaddOverflow, bytes, bx]
      exact decide_eq_false (by omega)
    rw [no_carry, if_neg Bool.false_ne_true, left]
    omega
  · have carry : (ax <<< 9).uaddOverflow s.bx = true := by
      rw [BitVec.uaddOverflow, bytes, bx]
      exact decide_eq_true (by omega)
    have sum : (ax <<< 9 + s.bx).toNat = (512 * (f.sectors - r) + 512 * (p % 128)) % 65536 := by
      rw [BitVec.toNat_add, bytes, bx]
    rw [carry, if_pos rfl]
    split
    next exact_fit =>
      rw [exact_fit] at sum
      have zero : (0 : BitVec 16).toNat = 0 := rfl
      rw [left]
      omega
    next more =>
      have nonzero : (ax <<< 9 + s.bx).toNat ≠ 0 := fun h => more (BitVec.eq_of_toNat_eq h)
      rw [BitVec.toNat_ushiftRight, BitVec.toNat_sub, bx, Nat.shiftRight_eq_div_pow]
      have zero : (0 : BitVec 16).toNat = 0 := rfl
      omega

/-- The read that is asked for is one of the next sectors, all of them in one track, to the place behind what has been loaded. -/
theorem request_spec (suits : Suits f syssize) (more : p < 128 * segments syssize) (loaded : Loaded f m p s)
    (count : ax.toNat = share f p) :
    (request s ax).Fits f ∧ (request s ax).sector f = p + 1 ∧ (request s ax).address = 0x10000 + 512 * p ∧
      (request s ax).al.toNat = share f p := by
  have sectors := suits.sectors
  have tracks := suits.tracks
  have some_sector := suits.some_sector
  have on_disk := track_lt suits more
  have positive := share_pos (p := p) suits
  have low : share f p ≤ f.sectors - (p + 1) % f.sectors := Nat.min_le_left _ _
  have low' : share f p ≤ 128 - p % 128 := Nat.min_le_right _ _
  have below := Nat.mod_lt (p + 1) (by omega : 0 < f.sectors)
  have parts := Nat.div_add_mod' (p + 1) f.sectors
  obtain ⟨es, bx, sread, head, track, -, -⟩ := loaded
  generalize share f p = n at count positive low low' ⊢
  generalize (p + 1) % f.sectors = r at sread low below parts
  generalize (p + 1) / f.sectors = q at head track on_disk parts
  have al : (request s ax).al.toNat = n := by
    unfold request
    rw [BitVec.toNat_setWidth, count]
    omega
  have cl : (request s ax).cl.toNat = r + 1 := by
    unfold request
    dsimp only
    rw [BitVec.toNat_setWidth, toNat_add_small (c := s.sread) (v := r + 1) (by rw [sread]; rfl) (by omega)]
    omega
  have ch : (request s ax).ch.toNat = q / 2 := by
    unfold request
    rw [BitVec.toNat_setWidth, track]
    omega
  have dh : (request s ax).dh.toNat = q % 2 := by
    have and_one (c : BitVec 8) : (c &&& 1).toNat = c.toNat % 2 := by
      rw [BitVec.toNat_and]
      exact Nat.and_one_is_mod _
    unfold request
    rw [and_one, BitVec.toNat_setWidth, head]
    omega
  have address : (request s ax).address = 0x10000 + 512 * p := by
    unfold DiskRead.address request
    rw [es, bx]
    omega
  have track : (request s ax).track = q / 2 := by
    unfold DiskRead.track
    rw [ch, cl]
    omega
  have first : (request s ax).first = r + 1 := by
    unfold DiskRead.first
    rw [cl]
    omega
  refine ⟨⟨?_, ?_, ?_, ?_, ?_, ?_⟩, ?_, address, al⟩
  · omega
  · omega
  · omega
  · omega
  · omega
  · rw [address, al]
    omega
  · unfold DiskRead.sector
    rw [track, dh, first, Nat.div_add_mod, Nat.add_sub_cancel]
    exact parts

/-- With the reads that fail before one works `read_track` gets its sectors, and it leaves the rest of memory. -/
theorem readTrack_spec {r : DiskRead} (asked : request s ax = r) (fits : r.Fits f) {last : Nat} (works : f.fault last = none)
    (ahead : s.reads.length ≤ last) :
    ∃ tries₀ t, (∀ tries, tries₀ ≤ tries → readTrack f ax tries s = some t) ∧ t = { s with mem := t.mem, reads := t.reads } ∧
      (∀ q ∈ t.reads, q = r ∨ q ∈ s.reads) ∧
      ∀ x, t.mem x = if r.address ≤ x ∧ x < r.address + 512 * r.al.toNat then f.byte (512 * r.sector f + (x - r.address)) else s.mem x := by
  induction left : last - s.reads.length using Nat.strong_induction_on generalizing s with
  | h left ih =>
    cases now : f.fault s.reads.length with
    | none =>
      have done : f.read s.reads.length r s.mem =
          (false, patch (block (fun k => f.byte (512 * r.sector f + k)) r.address (512 * r.al.toNat)) s.mem) := by
        rw [Floppy.read, if_pos fits, now]
      refine ⟨1, { s with
        mem := patch (block (fun k => f.byte (512 * r.sector f + k)) r.address (512 * r.al.toNat)) s.mem
        reads := r :: s.reads }, fun tries enough => ?_, rfl, fun q hq => List.mem_cons.mp hq, fun x => ?_⟩
      · obtain ⟨tries, rfl⟩ : ∃ n, tries = n + 1 := ⟨tries - 1, by omega⟩
        rw [readTrack, asked]
        dsimp only
        rw [done, if_neg Bool.false_ne_true]
      · split
        next inside => exact patch_some (if_pos inside)
        next outside => exact patch_none (if_neg outside)
    | some bytes =>
      have failed : f.read s.reads.length r s.mem = (true, patch (block bytes r.address (512 * r.al.toNat)) s.mem) := by
        rw [Floppy.read, if_pos fits, now]
      have before : s.reads.length ≠ last := by
        intro h
        rw [h, works] at now
        exact nomatch now
      obtain ⟨tries₀, t, run, same, reads, mem⟩ := @ih (last - (s.reads.length + 1)) (by omega)
        { s with mem := patch (block bytes r.address (512 * r.al.toNat)) s.mem, reads := r :: s.reads } asked (by
          rw [List.length_cons]
          omega) (by rw [List.length_cons])
      refine ⟨tries₀ + 1, t, fun tries enough => ?_, same, fun q hq => ?_, fun x => ?_⟩
      · obtain ⟨tries, rfl⟩ : ∃ n, tries = n + 1 := ⟨tries - 1, by omega⟩
        rw [readTrack, asked]
        dsimp only
        rw [failed, if_pos rfl]
        exact run tries (by omega)
      · obtain h | h := reads q hq
        · exact Or.inl h
        · exact List.mem_cons.mp h
      · rw [mem]
        split
        next => rfl
        next outside =>
          apply patch_none
          exact if_neg outside

/-- The fields behind a read, each one by its own condition. -/
theorem advance_eq :
    advance f ax s = {
      es := if s.bx.uaddOverflow (ax <<< 9) then s.es + 0x1000 else s.es
      bx := if s.bx.uaddOverflow (ax <<< 9) then 0 else s.bx + ax <<< 9
      sread := if ax + s.sread = BitVec.ofNat 16 f.sectors then 0 else ax + s.sread
      head := if ax + s.sread = BitVec.ofNat 16 f.sectors then 1 - s.head else s.head
      track := if ax + s.sread = BitVec.ofNat 16 f.sectors ∧ 1 - s.head = 0 then s.track + 1 else s.track
      mem := s.mem
      reads := s.reads } := by
  unfold advance
  by_cases ends : ax + s.sread = BitVec.ofNat 16 f.sectors
  · by_cases second : 1 - s.head = 0
    · by_cases beyond : s.bx.uaddOverflow (ax <<< 9)
      · simp only [ends, second, beyond, if_true, and_self]
      · simp only [ends, second, beyond, if_true, and_self, Bool.false_eq_true, if_false]
    · by_cases beyond : s.bx.uaddOverflow (ax <<< 9)
      · simp only [ends, second, beyond, if_true, and_false, if_false]
      · simp only [ends, second, beyond, if_true, and_false, Bool.false_eq_true, if_false]
  · by_cases beyond : s.bx.uaddOverflow (ax <<< 9)
    · simp only [ends, beyond, if_true, false_and, if_false]
    · simp only [ends, beyond, false_and, Bool.false_eq_true, if_false]

/-- What has been loaded behind a read of the next sectors. -/
theorem advance_spec (suits : Suits f syssize) (more : p < 128 * segments syssize) (loaded : Loaded f m p s) (count : ax.toNat = share f p)
    (same : t = { s with mem := t.mem, reads := t.reads }) (fits : ∀ r ∈ t.reads, r.Fits f)
    (bytes : ∀ x, t.mem x = if 0x10000 + 512 * p ≤ x ∧ x < 0x10000 + 512 * p + 512 * share f p then
      f.byte (512 * (p + 1) + (x - (0x10000 + 512 * p))) else s.mem x) :
    Loaded f m (p + share f p) (advance f ax t) := by
  have sectors := suits.sectors
  have some_sector := suits.some_sector
  have low : share f p ≤ f.sectors - (p + 1) % f.sectors := Nat.min_le_left _ _
  have low' : share f p ≤ 128 - p % 128 := Nat.min_le_right _ _
  have below := Nat.mod_lt (p + 1) (by omega : 0 < f.sectors)
  have parts := Nat.div_add_mod' (p + 1) f.sectors
  have on_disk := track_lt suits more
  have tracks := suits.tracks
  have few : segments syssize ≤ 8 := segments_le suits
  obtain ⟨es, bx, sread, head, track, mem, -⟩ := loaded
  rw [advance_eq]
  have ht : t.es = s.es ∧ t.bx = s.bx ∧ t.sread = s.sread ∧ t.head = s.head ∧ t.track = s.track := by
    rw [same]
    exact ⟨rfl, rfl, rfl, rfl, rfl⟩
  rw [ht.1, ht.2.1, ht.2.2.1, ht.2.2.2.1, ht.2.2.2.2]
  generalize share f p = n at count low low' bytes ⊢
  generalize hr : (p + 1) % f.sectors = r at sread low below parts
  generalize hq : (p + 1) / f.sectors = q at head track parts on_disk
  have sum : (ax + s.sread).toNat = n + r := toNat_add_small (by rw [count, sread]) (by omega)
  have whole : (BitVec.ofNat 16 f.sectors).toNat = f.sectors := by
    rw [BitVec.toNat_ofNat]
    omega
  have ends : ax + s.sread = BitVec.ofNat 16 f.sectors ↔ n + r = f.sectors := by
    rw [← BitVec.toNat_inj, sum, whole]
  have shift : (ax <<< 9).toNat = 512 * n := by
    rw [BitVec.toNat_shiftLeft, count, Nat.shiftLeft_eq]
    omega
  have beyond : s.bx.uaddOverflow (ax <<< 9) = true ↔ p % 128 + n = 128 := by
    rw [BitVec.uaddOverflow, bx, shift, decide_eq_true_iff]
    omega
  have one : (1 : BitVec 16).toNat = 1 := rfl
  have zero : (0 : BitVec 16).toNat = 0 := rfl
  have other : (1 - s.head).toNat = 1 - q % 2 := by
    rw [BitVec.toNat_sub, head, one]
    omega
  have second : 1 - s.head = 0 ↔ q % 2 = 1 := by
    rw [← BitVec.toNat_inj, other, zero]
    omega
  have next : (p + n + 1) / f.sectors = (if n + r = f.sectors then q + 1 else q) ∧
      (p + n + 1) % f.sectors = if n + r = f.sectors then 0 else r + n := by
    have place : p + n + 1 = q * f.sectors + (r + n) := by omega
    rw [place]
    split
    next full =>
      have round : q * f.sectors + (r + n) = (q + 1) * f.sectors := by
        rw [Nat.add_mul, Nat.one_mul]
        omega
      rw [round, Nat.mul_mod_left, Nat.mul_div_cancel _ (by omega)]
      exact ⟨rfl, rfl⟩
    next part =>
      rw [Nat.mul_comm, Nat.mul_add_div (by omega), Nat.mul_add_mod, Nat.div_eq_of_lt (by omega), Nat.mod_eq_of_lt (by omega)]
      exact ⟨rfl, rfl⟩
  refine ⟨?_, ?_, ?_, ?_, ?_, fun x => ?_, fits⟩
  · dsimp only
    split
    next carry =>
      have boundary := beyond.mp carry
      rw [toNat_add_small (c := s.es) (v := 0x1000 * (1 + p / 128) + 0x1000) (by rw [es]; rfl) (by omega)]
      omega
    next no_carry =>
      have inside : p % 128 + n ≠ 128 := fun h => no_carry (beyond.mpr h)
      omega
  · dsimp only
    split
    next carry =>
      have boundary := beyond.mp carry
      omega
    next no_carry =>
      have inside : p % 128 + n ≠ 128 := fun h => no_carry (beyond.mpr h)
      rw [toNat_add_small (by rw [bx, shift]) (by omega)]
      omega
  · rw [next.2]
    dsimp only
    by_cases full : n + r = f.sectors
    · rw [if_pos (ends.mpr full), if_pos full]
      exact zero
    · rw [if_neg fun h => full (ends.mp h), if_neg full, sum, Nat.add_comm]
  · rw [next.1]
    dsimp only
    by_cases full : n + r = f.sectors
    · rw [if_pos (ends.mpr full), if_pos full, other]
      omega
    · rw [if_neg fun h => full (ends.mp h), if_neg full, head]
  · rw [next.1]
    dsimp only
    by_cases full : n + r = f.sectors
    · by_cases odd : q % 2 = 1
      · rw [if_pos ⟨ends.mpr full, second.mpr odd⟩, if_pos full,
          toNat_add_small (c := s.track) (v := q / 2 + 1) (by rw [track]; rfl) (by omega)]
        omega
      · rw [if_neg fun h => odd (second.mp h.2), if_pos full, track]
        omega
    · rw [if_neg fun h => full (ends.mp h.1), if_neg full, track]
  · dsimp only
    rw [bytes, mem]
    by_cases old : 0x10000 ≤ x ∧ x < 0x10000 + 512 * p
    · rw [if_neg (by omega), if_pos old, if_pos (by omega)]
    · rw [if_neg old]
      by_cases fresh : 0x10000 + 512 * p ≤ x ∧ x < 0x10000 + 512 * p + 512 * n
      · rw [if_pos fresh, if_pos (by omega)]
        exact congrArg f.byte (by omega)
      · rw [if_neg fresh, if_neg (by omega)]

/-- The loop loads every sector of the segments when the service works over and over again. -/
theorem rpRead_spec (suits : Suits f syssize) (works : ∀ k, ∃ last, k ≤ last ∧ f.fault last = none) (loaded : Loaded f m p s)
    (inside : p ≤ 128 * segments syssize) :
    ∃ tries₀ t, (∀ tries fuel, tries₀ ≤ tries → 128 * segments syssize - p < fuel → rpRead f syssize tries fuel s = some t) ∧
      Loaded f m (128 * segments syssize) t := by
  induction left : 128 * segments syssize - p using Nat.strong_induction_on generalizing p s with
  | h left ih =>
    have size := suits.size
    have es := loaded.es
    have bound : (BitVec.ofNat 16 (sysSeg + syssize)).toNat = 0x1000 + syssize := by
      unfold sysSeg
      rw [BitVec.toNat_ofNat]
      omega
    have test : s.es < BitVec.ofNat 16 (sysSeg + syssize) ↔ p < 128 * segments syssize := by
      rw [BitVec.lt_def, es, bound]
      unfold segments
      omega
    by_cases more : p < 128 * segments syssize
    · obtain ⟨last, ahead, good⟩ := works s.reads.length
      have count := sectorCount_spec suits loaded
      have positive := share_pos (p := p) suits
      have low : share f p ≤ 128 - p % 128 := Nat.min_le_right _ _
      obtain ⟨fits, sector, address, al⟩ := request_spec suits more loaded count
      obtain ⟨tries₁, t, read, same, reads, bytes⟩ := readTrack_spec rfl fits good ahead
      rw [sector, address, al] at bytes
      have all_fit : ∀ r ∈ t.reads, r.Fits f := by
        intro r hr
        obtain rfl | old := reads r hr
        · exact fits
        · exact loaded.reads r old
      obtain ⟨tries₂, u, rest, done⟩ := ih (128 * segments syssize - (p + share f p)) (by omega)
        (advance_spec suits more loaded count same all_fit bytes) (by omega) rfl
      refine ⟨max tries₁ tries₂, u, fun tries fuel enough long => ?_, done⟩
      obtain ⟨fuel, rfl⟩ : ∃ n, fuel = n + 1 := ⟨fuel - 1, by omega⟩
      rw [rpRead, if_pos (test.mpr more)]
      dsimp only
      rw [read tries (by omega), Option.bind_some]
      exact rest tries fuel (by omega) (by omega)
    · refine ⟨0, s, fun tries fuel _ enough => ?_, ?_⟩
      · obtain ⟨fuel, rfl⟩ : ∃ n, fuel = n + 1 := ⟨fuel - 1, by omega⟩
        rw [rpRead, if_neg fun h => more (test.mp h)]
      · have whole : p = 128 * segments syssize := by omega
        exact whole ▸ loaded

/-- What has been read before the first turn: nothing, and the boot sector is the first one of its track. -/
theorem loaded_start (suits : Suits f syssize) : Loaded f m 0 ⟨BitVec.ofNat 16 sysSeg, 0, 1, 0, 0, m, []⟩ := by
  have some_sector := suits.some_sector
  refine ⟨rfl, rfl, ?_, ?_, ?_, fun x => (if_neg (by omega)).symm, fun r hr => nomatch hr⟩
  · exact (Nat.mod_eq_of_lt (by omega : 0 + 1 < f.sectors)).symm
  · rw [Nat.div_eq_of_lt (by omega : 0 + 1 < f.sectors)]
    rfl
  · rw [Nat.div_eq_of_lt (by omega : 0 + 1 < f.sectors)]
    rfl

/-- What the loader leaves in memory, byte by byte: the segments of the system at the beginning, and the boot sector at its new place with
the cursor over its mark. -/
def layout (f : Floppy) (syssize : Nat) (dx : BitVec 16) (m : Nat → UInt8) (x : Nat) : UInt8 :=
  if x < 0x10000 * segments syssize then f.byte (512 + x)
  else if x < 0x80000 then m (x + 0x10000)
  else if x < 0x10000 + 0x10000 * segments syssize then f.byte (512 + (x - 0x10000))
  else if x = 0x90000 + 510 then UInt8.ofBitVec (dx.setWidth 8)
  else if x = 0x90000 + 511 then UInt8.ofBitVec ((dx >>> 8).setWidth 8)
  else if 0x90000 ≤ x ∧ x < 0x90200 then m (0x7c00 + (x - 0x90000))
  else m x

theorem putWord_cursor {w : UInt8 × UInt8} (x : Nat) :
    putWord m initSeg 510 w x = if x = 0x90000 + 510 then w.1 else if x = 0x90000 + 511 then w.2 else m x := by
  unfold putWord
  rw [show 16 * initSeg.toNat + (510 : BitVec 16).toNat = 0x90000 + 510 from rfl,
    show 16 * initSeg.toNat + (510 + 1 : BitVec 16).toNat = 0x90000 + 511 from rfl]
  by_cases second : x = 0x90000 + 511
  · rw [if_neg (by omega), if_pos second, second, Function.update_self]
  · rw [Function.update_of_ne second]
    by_cases first : x = 0x90000 + 510
    · rw [if_pos first, first, Function.update_self]
    · rw [if_neg first, if_neg second, Function.update_of_ne first]

theorem boot_layout (suits : Suits f syssize) (works : ∀ k, ∃ last, k ≤ last ∧ f.fault last = none) :
    ∃ tries₀ reads, (∀ r ∈ reads, r.Fits f) ∧
      ∀ tries fuel, tries₀ ≤ tries → 1024 < fuel → boot f syssize dx tries fuel m = some (layout f syssize dx m, reads) := by
  have few := segments_le suits
  have moved (x : Nat) : repMovsw bootSeg initSeg 256 0 0 m x = if 0x90000 ≤ x ∧ x < 0x90200 then m (0x7c00 + (x - 0x90000)) else m x :=
    repMovsw_apart (j := 0) (a := 0x90000) (b := 0x7c00) rfl rfl rfl rfl (by omega) (by omega) x
  obtain ⟨tries₀, t, read, loaded⟩ := rpRead_spec suits works (loaded_start (m := repMovsw bootSeg initSeg 256 0 0 m) suits) (Nat.zero_le _)
  refine ⟨tries₀, t.reads, loaded.reads, fun tries fuel enough long => ?_⟩
  obtain ⟨m', move, bytes⟩ := @doMove_spec fuel (putWord t.mem initSeg 510
    (UInt8.ofBitVec (dx.setWidth 8), UInt8.ofBitVec ((dx >>> 8).setWidth 8))) (by omega)
  have whole : m' = layout f syssize dx m := by
    funext x
    have mem := loaded.mem
    rw [bytes, putWord_cursor, putWord_cursor, mem, mem, moved, moved]
    unfold layout
    by_cases system : x < 0x10000 * segments syssize
    · rw [if_pos (by omega), if_neg (by omega), if_neg (by omega), if_pos (by omega), if_pos system, Nat.add_sub_cancel]
    rw [if_neg system]
    by_cases low : x < 0x80000
    · rw [if_pos low, if_neg (by omega), if_neg (by omega), if_neg (by omega), if_neg (by omega), if_pos low]
    rw [if_neg low, if_neg low]
    by_cases last_segment : x < 0x10000 + 0x10000 * segments syssize
    · rw [if_neg (by omega), if_neg (by omega), if_pos (by omega), if_pos last_segment]
    · rw [if_neg last_segment]
      by_cases first : x = 0x90000 + 510
      · rw [if_pos first, if_pos first]
      by_cases second : x = 0x90000 + 511
      · rw [if_neg first, if_pos second, if_neg first, if_pos second]
      · rw [if_neg first, if_neg second, if_neg (by omega), if_neg first, if_neg second]
  have start := read tries fuel enough (by omega)
  unfold boot readIt
  dsimp only
  rw [if_pos (by rfl), start, Option.bind_some, move, Option.map_some, whole]

end Boot

/-- A file `boot` whose code jumps on the spot. -/
def jumpingBoot : List UInt8 := [0x01, 0x03, 0x10, 0x04, 0x20, 0, 0, 0, 2, 0, 0, 0] ++ List.replicate 20 0 ++ [0xeb, 0xfe]

/-- The image with a system of three bytes on a disk of 1.44 MB, in a drive whose first read fails. -/
def jumpingFloppy : Floppy where
  sectors := 18
  tracks := 80
  byte := fun k => (Build.main 1474560 3 (some jumpingBoot) (some [1, 2, 3])).out.getD k 0
  fault := fun k => if k = 0 then some fun _ => 0xff else none

end RheeKernel
