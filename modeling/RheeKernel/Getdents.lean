import RheeKernel.Directory
import RheeKernel.ElfLoader

open ByteMemory

namespace RheeKernel

/-- An inode, with the device it is read from, and whether it is a directory. -/
structure DirFile where
  vol : Volume
  ip : ZoneInode
  size : Nat
  isDir : Bool

/-- Where the fields of a `dirent` lie behind its inode number, which takes 4 bytes, or 8 where it is wide. -/
structure DirentLayout where
  wide : Bool
  reclen : Nat
  name : Nat
  ino_fits : (if wide then 8 else 4) ≤ reclen
  reclen_fits : reclen + 2 ≤ name

def direntLayout : DirentLayout := ⟨false, 8, 10, by decide, by decide⟩

def dirent64Layout : DirentLayout := ⟨true, 16, 19, by decide, by decide⟩

/-- Where a scan of a block or a whole call ends: its result, the position in the directory, and the memory of the program. A scan that
comes to the end of its block has the result 0. -/
structure DirentStop where
  ret : Int
  fPos : Nat
  user : Nat → UInt8

/-- The loop over the bytes of a name, with `n` of them left, and the number of those stored. -/
def putName (name : Nat → UInt8) (dName : Nat) : Nat → Nat → (Nat → UInt8) → (Nat → UInt8) × Nat
  | 0, i, user => (user, i)
  | n + 1, i, user => if name i ≠ 0 then putName name dName n (i + 1) (Function.update user (dName + i) (name i)) else (user, i)

/-- The rest of a `dirent` behind its name. Both calls store an inode number with `movl`. -/
def putEntry (l : DirentLayout) (dirent ino i : Nat) (user : Nat → UInt8) : Nat → UInt8 :=
  putHalf (Function.update (putLong user dirent ino) (dirent + l.name + i) 0) (dirent + l.reclen) i

/-- The inner loop: at most `n` entries of a block from `offset` on. -/
def scanBlock (d : DirFile) (l : DirentLayout) (dirent : Nat) (data : Nat → UInt8) : Nat → Nat → Nat → (Nat → UInt8) → DirentStop
  | 0, _, fPos, user => ⟨0, fPos, user⟩
  | n + 1, offset, fPos, user =>
    if offset < 1024 ∧ fPos < d.size then
      if getHalf data offset ≠ 0 then
        let (user, i) := putName (fun j => data (offset + 2 + j)) (dirent + l.name) nameLen 0 user
        if i ≠ 0 then ⟨i, fPos + 16, putEntry l dirent (getHalf data offset) i user⟩
        else scanBlock d l dirent data n (offset + 16) (fPos + 16) user
      else scanBlock d l dirent data n (offset + 16) (fPos + 16) user
    else ⟨0, fPos, user⟩

/-- The outer loop, over the blocks. -/
def getdentsLoop (d : DirFile) (l : DirentLayout) (dirent : Nat) : Nat → Nat → (Nat → UInt8) → Option DirentStop
  | 0, _, _ => none
  | fuel + 1, fPos, user =>
    if fPos < d.size then
      match readFileBlock d.vol.toDevice d.ip (fPos / 1024 : Nat) with
      | .buffer b =>
        let stop := scanBlock d l dirent (d.vol.byte b) 64 (fPos % 1024) fPos user
        if stop.ret ≠ 0 then some stop else getdentsLoop d l dirent fuel stop.fPos stop.user
      | .null => getdentsLoop d l dirent fuel (fPos + (1024 - fPos % 1024)) user
      | .panic => none
      | .wild => none
    else some ⟨0, fPos, user⟩

def ebadf : Int := -9

def getdentsWith (l : DirentLayout) (d : DirFile) (dirent fuel fPos : Nat) (user : Nat → UInt8) : Option DirentStop :=
  if d.isDir then getdentsLoop d l dirent fuel fPos user else some ⟨ebadf, fPos, user⟩

def DirFile.minixGetdents : DirFile → Nat → Nat → Nat → (Nat → UInt8) → Option DirentStop := getdentsWith direntLayout

def DirFile.minixGetdents64 : DirFile → Nat → Nat → Nat → (Nat → UInt8) → Option DirentStop := getdentsWith dirent64Layout

/-- A directory entry as a program has it. -/
structure DirentRead where
  ino : Nat
  reclen : Nat
  name : List UInt8
deriving DecidableEq

/-- The bytes from address `o` on, up to the first zero byte, among `n` of them. -/
def nameAt (m : Nat → UInt8) : Nat → Nat → List UInt8
  | 0, _ => []
  | n + 1, o => if m o = 0 then [] else m o :: nameAt m n (o + 1)

/-- The upper half of a wide inode number. -/
def DirentLayout.high (l : DirentLayout) (m : Nat → UInt8) (dirent : Nat) : Nat := if l.wide then getLong m (dirent + 4) else 0

/-- What a program reads in the buffer of a call. -/
def DirentLayout.read (l : DirentLayout) (m : Nat → UInt8) (dirent : Nat) : DirentRead where
  ino := getLong m dirent + 2 ^ 32 * l.high m dirent
  reclen := getHalf m (dirent + l.reclen)
  name := nameAt m 256 (dirent + l.name)

/-- The entries that a program gets from calls until one returns 0. The program has the memory `users i` before its call `i`. -/
def listing (call : Nat → (Nat → UInt8) → Option DirentStop) (read : (Nat → UInt8) → DirentRead) :
    Nat → (Nat → Nat → UInt8) → Nat → Option (List DirentRead)
  | 0, _, _ => none
  | fuel + 1, users, fPos =>
    match call fPos (users 0) with
    | none => none
    | some stop =>
      if stop.ret = 0 then some []
      else (listing call read fuel (fun i => users (i + 1)) stop.fPos).map fun ds => read stop.user :: ds

variable {d : DirFile} {l : DirentLayout} {a k n o : Nat} {user : Nat → UInt8} {users : Nat → Nat → UInt8}

theorem putName_spec {name : Nat → UInt8} : ∀ i, putName name a n i user =
    (patch (block (fun j => name (i + j)) (a + i) (nameAt name n i).length) user, i + (nameAt name n i).length) := by
  induction n generalizing user with
  | zero =>
    intro i
    simp [putName, nameAt]
  | succ n ih =>
    intro i
    unfold putName nameAt
    by_cases hz : name i = 0
    · simp [hz]
    · rw [if_pos hz, if_neg hz, ih (i + 1), List.length_cons]
      have hstore := @patch_block_succ user (a + i) (fun j => name (i + j)) (nameAt name n (i + 1)).length
      have hshift : (fun j => name (i + 1 + j)) = fun j => name (i + (j + 1)) := by
        funext j
        congr 1
        omega
      rw [hshift, ← Nat.add_assoc a i 1]
      congr 1
      omega

theorem nameAt_shift {m m' : Nat → UInt8} {b : Nat} (h : ∀ j, j < n → m (b + j) = m' (o + j)) :
    nameAt m n b = nameAt m' n o := by
  induction n generalizing b o with
  | zero => rfl
  | succ n ih =>
    have h0 : m b = m' o := h 0 (by omega)
    unfold nameAt
    rw [h0]
    congr 2
    apply ih
    intro j hj
    have hnext := h (j + 1) (by omega)
    rwa [show b + (j + 1) = b + 1 + j by omega, show o + (j + 1) = o + 1 + j by omega] at hnext

theorem nameAt_length {m : Nat → UInt8} : (nameAt m n o).length ≤ n := by
  induction n generalizing o with
  | zero => exact Nat.le_refl 0
  | succ n ih =>
    unfold nameAt
    split
    next => exact Nat.zero_le _
    next =>
      rw [List.length_cons]
      exact Nat.succ_le_succ ih

/-- A name that stands in memory with a zero byte behind it is read whole. -/
theorem nameAt_stored {m m' : Nat → UInt8} {b t : Nat} (ht : n ≤ t)
    (hbytes : ∀ j, j < (nameAt m n o).length → m' (b + j) = m (o + j)) (hend : m' (b + (nameAt m n o).length) = 0) :
    nameAt m' (t + 1) b = nameAt m n o := by
  induction n generalizing b o t with
  | zero =>
    have hzero : m' b = 0 := hend
    unfold nameAt
    rw [if_pos hzero]
  | succ n ih =>
    unfold nameAt at hbytes hend ⊢
    by_cases hz : m o = 0
    · simp only [hz, ↓reduceIte, List.length_nil, Nat.add_zero] at hend
      rw [if_pos hend, if_pos hz]
    · simp only [hz, ↓reduceIte, List.length_cons] at hbytes hend
      have h0 : m' b = m o := hbytes 0 (by omega)
      rw [h0, if_neg hz, if_neg hz]
      obtain ⟨t, rfl⟩ : ∃ r, t = r + 1 := ⟨t - 1, by omega⟩
      rw [ih (by omega)]
      · intro j hj
        have hnext := hbytes (j + 1) (by omega)
        rwa [show b + (j + 1) = b + 1 + j by omega, show o + (j + 1) = o + 1 + j by omega] at hnext
      · rwa [show b + ((nameAt m n (o + 1)).length + 1) = b + 1 + (nameAt m n (o + 1)).length by omega] at hend

namespace DirFile

/-- The directory as a sequence of bytes, from the blocks that `bmap` names. -/
def byte (d : DirFile) (q : Nat) : UInt8 := d.vol.byte (zoneOf d.vol.toDevice d.ip (q / 1024)) (q % 1024)

/-- The entries that begin inside the directory, 16 bytes each. -/
def slots (d : DirFile) : Nat := (d.size + 15) / 16

def slotIno (d : DirFile) (k : Nat) : Nat := getHalf d.byte (16 * k)

def slotName (d : DirFile) (k : Nat) : List UInt8 := nameAt d.byte nameLen (16 * k + 2)

def Live (d : DirFile) (k : Nat) : Prop := d.slotIno k ≠ 0 ∧ d.slotName k ≠ []

instance : Decidable (d.Live k) := inferInstanceAs (Decidable (_ ∧ _))

def entry (d : DirFile) (k : Nat) : DirentRead := ⟨d.slotIno k, (d.slotName k).length, d.slotName k⟩

/-- The entries of the directory from number `k` on that have an inode and a name. -/
def entriesFrom (d : DirFile) (k : Nat) : List DirentRead :=
  ((List.range' k (d.slots - k)).filter fun j => decide (d.Live j)).map d.entry

def entries (d : DirFile) : List DirentRead := d.entriesFrom 0

/-- A directory without holes that needs no second table. -/
structure Mapped (d : DirFile) : Prop where
  dir : d.isDir = true
  small : d.size ≤ 1024 * (7 + 512)
  zone : ∀ n, 1024 * n < d.size → zoneOf d.vol.toDevice d.ip n ≠ 0

theorem Mapped.buffer (h : d.Mapped) (hn : 1024 * n < d.size) :
    readFileBlock d.vol.toDevice d.ip n = .buffer (zoneOf d.vol.toDevice d.ip n) := by
  have hzone := h.zone n hn
  have hsmall := h.small
  have hfetch : readFileBlock d.vol.toDevice d.ip n = fetchZone (zoneOf d.vol.toDevice d.ip n) := by
    by_cases h7 : n < 7
    · rw [agrees_direct h7]
      unfold zoneOf at hzone
      rwa [if_pos h7] at hzone
    · rw [agrees_single (by omega) (by omega)]
      intro hz
      unfold zoneOf at hzone
      rw [if_neg h7, if_pos (by omega), if_pos hz] at hzone
      exact absurd rfl hzone
  rw [hfetch]
  exact if_neg hzone

/-- The call whose loop ends so, given enough fuel. -/
def Stops (d : DirFile) (l : DirentLayout) (a fPos : Nat) (user : Nat → UInt8) (stop : DirentStop) : Prop :=
  ∃ n, ∀ fuel, n ≤ fuel → getdentsLoop d l a fuel fPos user = some stop

/-- The data of the block that position `q` is in. -/
def blockAt (d : DirFile) (q : Nat) : Nat → UInt8 := d.vol.byte (zoneOf d.vol.toDevice d.ip (q / 1024))

theorem byte_in_block {i q : Nat} (hi : q % 1024 + i < 1024) : d.byte (q + i) = d.blockAt q (q % 1024 + i) := by
  have hq : (q + i) / 1024 = q / 1024 := by omega
  have hr : (q + i) % 1024 = q % 1024 + i := by omega
  unfold byte blockAt
  rw [hq, hr]

theorem slotIno_eq : d.slotIno k = getHalf (d.blockAt (16 * k)) (16 * k % 1024) := by
  unfold slotIno getHalf
  rw [← byte_in_block (by omega), byte_in_block (i := 0) (by omega)]
  rfl

theorem slotName_eq : d.slotName k = nameAt (fun j => d.blockAt (16 * k) (16 * k % 1024 + 2 + j)) nameLen 0 := by
  unfold slotName
  apply nameAt_shift
  intro j hj
  have hlen : nameLen = 14 := rfl
  rw [show 16 * k + 2 + j = 16 * k + (2 + j) by omega, byte_in_block (by omega), Nat.zero_add, Nat.add_assoc]

/-- The memory after entry `k` went to the buffer at `a`. -/
def store (d : DirFile) (l : DirentLayout) (a k : Nat) (user : Nat → UInt8) : Nat → UInt8 :=
  putEntry l a (d.slotIno k) (d.slotName k).length
    (patch (ByteMemory.block (fun j => d.blockAt (16 * k) (16 * k % 1024 + 2 + j)) (a + l.name) (d.slotName k).length) user)

theorem putName_slot : putName (fun j => d.blockAt (16 * k) (16 * k % 1024 + 2 + j)) (a + l.name) nameLen 0 user =
    (patch (ByteMemory.block (fun j => d.blockAt (16 * k) (16 * k % 1024 + 2 + j)) (a + l.name) (d.slotName k).length) user,
      (d.slotName k).length) := by
  have hname := @putName_spec (a + l.name) nameLen user (fun j => d.blockAt (16 * k) (16 * k % 1024 + 2 + j)) 0
  rw [← slotName_eq] at hname
  simpa only [Nat.zero_add, Nat.add_zero] using hname

theorem scanBlock_live (hk : 16 * k < d.size) (h : d.Live k) :
    scanBlock d l a (d.blockAt (16 * k)) (n + 1) (16 * k % 1024) (16 * k) user =
      ⟨(d.slotName k).length, 16 * (k + 1), d.store l a k user⟩ := by
  obtain ⟨hino, hname⟩ := h
  rw [slotIno_eq] at hino
  unfold scanBlock
  rw [if_pos ⟨by omega, hk⟩, if_pos hino, putName_slot]
  have hlen : (d.slotName k).length ≠ 0 := fun h0 => hname (List.length_eq_zero_iff.mp h0)
  dsimp only
  rw [if_pos hlen, ← slotIno_eq]
  rfl

theorem scanBlock_dead (hk : 16 * k < d.size) (h : ¬ d.Live k) :
    scanBlock d l a (d.blockAt (16 * k)) (n + 1) (16 * k % 1024) (16 * k) user =
      scanBlock d l a (d.blockAt (16 * k)) n (16 * k % 1024 + 16) (16 * (k + 1)) user := by
  rw [scanBlock, if_pos ⟨by omega, hk⟩, ← slotIno_eq]
  by_cases hino : d.slotIno k = 0
  · rw [if_neg (not_not.mpr hino)]
    rfl
  · have hname : d.slotName k = [] := by
      by_contra hne
      exact h ⟨hino, hne⟩
    rw [if_pos hino, putName_slot, hname]
    dsimp only [List.length_nil]
    rw [if_neg (by omega), patch_block_zero]
    rfl

/-- Rounds past the end of the block make no difference. -/
theorem scanBlock_fuel {data : Nat → UInt8} {p n' : Nat} (h : 1024 ≤ o + 16 * n) (hn : n ≤ n') :
    scanBlock d l a data n' o p user = scanBlock d l a data n o p user := by
  induction n generalizing n' o p user with
  | zero =>
    cases n' with
    | zero => rfl
    | succ n' =>
      unfold scanBlock
      rw [if_neg (by omega)]
  | succ n ih =>
    obtain ⟨n', rfl⟩ : ∃ m, n' = m + 1 := ⟨n' - 1, by omega⟩
    unfold scanBlock
    simp only [ih (by omega : 1024 ≤ o + 16 + 16 * n) (by omega : n ≤ n')]

theorem Mapped.loop (h : d.Mapped) {p fuel : Nat} (hp : p < d.size) : getdentsLoop d l a (fuel + 1) p user =
    if (scanBlock d l a (d.blockAt p) 64 (p % 1024) p user).ret ≠ 0 then some (scanBlock d l a (d.blockAt p) 64 (p % 1024) p user)
    else getdentsLoop d l a fuel (scanBlock d l a (d.blockAt p) 64 (p % 1024) p user).fPos
      (scanBlock d l a (d.blockAt p) 64 (p % 1024) p user).user := by
  rw [getdentsLoop, if_pos hp, h.buffer (by omega)]
  rfl

theorem stops_at_end {p : Nat} (hp : d.size ≤ p) : d.Stops l a p user ⟨0, p, user⟩ := by
  refine ⟨1, fun fuel hfuel => ?_⟩
  obtain ⟨fuel, rfl⟩ : ∃ m, fuel = m + 1 := ⟨fuel - 1, by omega⟩
  rw [getdentsLoop, if_neg (by omega)]

theorem Mapped.stops_live (h : d.Mapped) (hk : 16 * k < d.size) (hlive : d.Live k) :
    d.Stops l a (16 * k) user ⟨(d.slotName k).length, 16 * (k + 1), d.store l a k user⟩ := by
  refine ⟨1, fun fuel hfuel => ?_⟩
  obtain ⟨fuel, rfl⟩ : ∃ m, fuel = m + 1 := ⟨fuel - 1, by omega⟩
  have hlen : (d.slotName k).length ≠ 0 := fun h0 => hlive.2 (List.length_eq_zero_iff.mp h0)
  rw [h.loop hk, scanBlock_live hk hlive, if_pos]
  exact Int.natCast_ne_zero.mpr hlen

/-- A call passes over an entry that is not live, inside of a block and at its end. -/
theorem Mapped.stops_dead (h : d.Mapped) (hk : 16 * k < d.size) (hdead : ¬ d.Live k) {stop : DirentStop}
    (hnext : d.Stops l a (16 * (k + 1)) user stop) : d.Stops l a (16 * k) user stop := by
  obtain ⟨n, hnext⟩ := hnext
  refine ⟨n + 1, fun fuel hfuel => ?_⟩
  obtain ⟨fuel, rfl⟩ : ∃ m, fuel = m + 1 := ⟨fuel - 1, by omega⟩
  have hscan := @scanBlock_dead d l a k 63 user hk hdead
  by_cases hinside : 16 * k % 1024 + 16 < 1024 ∧ 16 * (k + 1) < d.size
  · obtain ⟨hoff, hsize⟩ := hinside
    have hblock : d.blockAt (16 * (k + 1)) = d.blockAt (16 * k) := by
      unfold blockAt
      rw [show 16 * (k + 1) / 1024 = 16 * k / 1024 by omega]
    have hsame : scanBlock d l a (d.blockAt (16 * k)) 64 (16 * k % 1024) (16 * k) user =
        scanBlock d l a (d.blockAt (16 * (k + 1))) 64 (16 * (k + 1) % 1024) (16 * (k + 1)) user := by
      rw [hscan, hblock, show 16 * (k + 1) % 1024 = 16 * k % 1024 + 16 by omega]
      exact (scanBlock_fuel (by omega) (by omega)).symm
    rw [h.loop hk, hsame, ← h.loop hsize]
    exact hnext _ (by omega)
  · have hout : scanBlock d l a (d.blockAt (16 * k)) 64 (16 * k % 1024) (16 * k) user = ⟨0, 16 * (k + 1), user⟩ := by
      rw [hscan, scanBlock, if_neg hinside]
    rw [h.loop hk, hout, if_neg (not_not.mpr rfl)]
    exact hnext _ (by omega)

theorem lt_slots : k < d.slots ↔ 16 * k < d.size := by
  unfold slots
  omega

theorem entriesFrom_end (hk : d.slots ≤ k) : d.entriesFrom k = [] := by
  unfold entriesFrom
  rw [Nat.sub_eq_zero_of_le hk]
  rfl

theorem entriesFrom_step (hk : k < d.slots) :
    d.entriesFrom k = if d.Live k then d.entry k :: d.entriesFrom (k + 1) else d.entriesFrom (k + 1) := by
  unfold entriesFrom
  rw [show d.slots - k = d.slots - (k + 1) + 1 by omega, List.range'_succ, List.filter_cons]
  by_cases hlive : d.Live k
  · simp [hlive]
  · simp [hlive]

/-- A call from entry `k` on delivers the next live entry, or finds none. -/
theorem Mapped.call (h : d.Mapped) (l : DirentLayout) (a k : Nat) (user : Nat → UInt8) :
    (d.entriesFrom k = [] ∧ ∃ p, d.Stops l a (16 * k) user ⟨0, p, user⟩) ∨
    ∃ k', k ≤ k' ∧ k' < d.slots ∧ d.Live k' ∧ d.entriesFrom k = d.entry k' :: d.entriesFrom (k' + 1) ∧
      d.Stops l a (16 * k) user ⟨(d.slotName k').length, 16 * (k' + 1), d.store l a k' user⟩ := by
  induction hm : d.slots - k generalizing k with
  | zero =>
    have hend : ¬ k < d.slots := by omega
    exact .inl ⟨entriesFrom_end (by omega), _, stops_at_end (by rw [lt_slots] at hend; omega)⟩
  | succ m ih =>
    have hk : k < d.slots := by omega
    have hstep := entriesFrom_step hk
    by_cases hlive : d.Live k
    · rw [if_pos hlive] at hstep
      exact .inr ⟨k, Nat.le_refl k, hk, hlive, hstep, h.stops_live (lt_slots.mp hk) hlive⟩
    · rw [if_neg hlive] at hstep
      rcases ih (k + 1) (by omega) with ⟨hnone, p, hstop⟩ | ⟨k', hle, hlt, hlive', hlist, hstop⟩
      · exact .inl ⟨hstep.trans hnone, p, h.stops_dead (lt_slots.mp hk) hlive hstop⟩
      · exact .inr ⟨k', by omega, hlt, hlive', hstep.trans hlist, h.stops_dead (lt_slots.mp hk) hlive hstop⟩

theorem putEntry_below {ino i x : Nat} (h : x < a + l.reclen) (hx : a + 4 ≤ x) : putEntry l a ino i user x = user x := by
  have hname := l.reclen_fits
  unfold putEntry
  rw [putHalf_other (.inl h), Function.update_of_ne (by omega), putLong_other (.inr hx)]

theorem putEntry_name {ino i x : Nat} (hx : a + l.name ≤ x) (hne : x ≠ a + l.name + i) : putEntry l a ino i user x = user x := by
  have hino := l.ino_fits
  have hname := l.reclen_fits
  have hwide : 4 ≤ l.reclen := by
    split at hino <;> omega
  unfold putEntry
  rw [putHalf_other (.inr (by omega)), Function.update_of_ne hne, putLong_other (.inr (by omega))]

theorem putEntry_end {ino i : Nat} : putEntry l a ino i user (a + l.name + i) = 0 := by
  have hname := l.reclen_fits
  unfold putEntry
  rw [putHalf_other (.inr (by omega)), Function.update_self]

theorem getLong_putEntry {ino i : Nat} (h : ino < 2 ^ 32) : getLong (putEntry l a ino i user) a = ino := by
  have hino := l.ino_fits
  have hname := l.reclen_fits
  have hwide : 4 ≤ l.reclen := by
    split at hino <;> omega
  refine Eq.trans (getLong_congr fun x _ hx => ?_) (getLong_putLong (m := user) h)
  unfold putEntry
  rw [putHalf_other (.inl (by omega)), Function.update_of_ne (by omega)]

theorem getHalf_putEntry {ino i : Nat} (h : i < 2 ^ 16) : getHalf (putEntry l a ino i user) (a + l.reclen) = i :=
  getHalf_putHalf h

/-- The buffer of a call holds the entry, with the upper half of a wide inode number as the program left it. -/
theorem read_store : l.read (d.store l a k user) a = { d.entry k with ino := d.slotIno k + 2 ^ 32 * l.high user a } := by
  have hfits := l.ino_fits
  have hname := l.reclen_fits
  have hlen : (d.slotName k).length ≤ 14 := nameAt_length
  have hino : d.slotIno k < 2 ^ 16 := getHalf_lt
  unfold DirentLayout.read store entry
  rw [getLong_putEntry (by omega), getHalf_putEntry (by omega)]
  congr 1
  · congr 2
    unfold DirentLayout.high
    split
    next hwide =>
      rw [if_pos hwide] at hfits
      apply getLong_congr
      intro x hle hlt
      rw [putEntry_below (by omega) hle]
      exact patch_none (if_neg (by omega))
    next => rfl
  · rw [slotName_eq]
    apply nameAt_stored (t := 255) (by decide)
    · intro j hj
      rw [← slotName_eq] at hj ⊢
      rw [putEntry_name (by omega) (by omega), Nat.zero_add]
      exact patch_some (block_inside hj)
    · rw [← slotName_eq]
      exact putEntry_end

/-- What a program has from calls with the memories `users`. -/
def seen (l : DirentLayout) (a : Nat) : (Nat → Nat → UInt8) → List DirentRead → List DirentRead
  | _, [] => []
  | users, e :: es => { e with ino := e.ino + 2 ^ 32 * l.high (users 0) a } :: seen l a (fun i => users (i + 1)) es

/-- The calls come to an end, and the program has the entries `ds` from them. -/
def Lists (call : Nat → Nat → (Nat → UInt8) → Option DirentStop) (read : (Nat → UInt8) → DirentRead) (users : Nat → Nat → UInt8)
    (fPos : Nat) (ds : List DirentRead) : Prop :=
  ∃ n, ∀ fuel rounds, n ≤ fuel → n ≤ rounds → listing (call fuel) read rounds users fPos = some ds

theorem Lists.functional {call : Nat → Nat → (Nat → UInt8) → Option DirentStop} {read : (Nat → UInt8) → DirentRead} {p : Nat}
    {ds ds' : List DirentRead} (h : Lists call read users p ds) (h' : Lists call read users p ds') : ds = ds' := by
  obtain ⟨n, h⟩ := h
  obtain ⟨n', h'⟩ := h'
  exact Option.some.inj ((h (n + n') (n + n') (by omega) (by omega)).symm.trans (h' _ _ (by omega) (by omega)))

theorem Mapped.lists_from (h : d.Mapped) : ∀ users : Nat → Nat → UInt8,
    Lists (getdentsLoop d l a) (fun m => l.read m a) users (16 * k) (seen l a users (d.entriesFrom k)) := by
  induction hm : d.slots - k using Nat.strongRecOn generalizing k with
  | ind m ih =>
    intro users
    rcases h.call l a k (users 0) with ⟨hnone, p, n, hstop⟩ | ⟨k', hle, hlt, hlive, hlist, n, hstop⟩
    · refine ⟨n + 1, fun fuel rounds hfuel hrounds => ?_⟩
      obtain ⟨rounds, rfl⟩ : ∃ m, rounds = m + 1 := ⟨rounds - 1, by omega⟩
      rw [hnone, listing, hstop fuel (by omega)]
      rfl
    · obtain ⟨n', hrest⟩ := ih (d.slots - (k' + 1)) (by omega) rfl fun i => users (i + 1)
      have hlen : (d.slotName k').length ≠ 0 := fun h0 => hlive.2 (List.length_eq_zero_iff.mp h0)
      refine ⟨n + n' + 1, fun fuel rounds hfuel hrounds => ?_⟩
      obtain ⟨rounds, rfl⟩ : ∃ m, rounds = m + 1 := ⟨rounds - 1, by omega⟩
      rw [hlist, listing, hstop fuel (by omega)]
      dsimp only
      rw [if_neg (Int.natCast_ne_zero.mpr hlen), hrest fuel rounds (by omega) (by omega), read_store]
      rfl

theorem seen_eq (ds : List DirentRead) : ∀ users : Nat → Nat → UInt8,
    seen l a users ds = ds ↔ ∀ i, i < ds.length → l.high (users i) a = 0 := by
  induction ds with
  | nil =>
    intro users
    exact ⟨fun _ i hi => absurd hi (Nat.not_lt_zero i), fun _ => rfl⟩
  | cons e es ih =>
    intro users
    unfold seen
    rw [List.cons.injEq, ih]
    constructor
    · intro ⟨hfirst, hrest⟩ i hi
      cases i with
      | zero =>
        have hino : e.ino + 2 ^ 32 * l.high (users 0) a = e.ino := congrArg DirentRead.ino hfirst
        omega
      | succ i => exact hrest i (Nat.lt_of_succ_lt_succ hi)
    · intro h
      refine ⟨?_, fun i hi => h (i + 1) (Nat.succ_lt_succ hi)⟩
      rw [h 0 (Nat.succ_pos _)]
      rfl

/-- Repeated calls of `minix_getdents` and of `minix_getdents64` each deliver the live entries in order and then come to an end. -/
def ListsAll (d : DirFile) (a : Nat) (users : Nat → Nat → UInt8) : Prop :=
  Lists (d.minixGetdents a) (fun m => direntLayout.read m a) users 0 d.entries ∧
  Lists (d.minixGetdents64 a) (fun m => dirent64Layout.read m a) users 0 d.entries

theorem Mapped.lists_iff (h : d.Mapped) : Lists (getdentsWith l d a) (fun m => l.read m a) users 0 d.entries ↔
    ∀ i, i < d.entries.length → l.high (users i) a = 0 := by
  have hcall : getdentsWith l d a = getdentsLoop d l a := by
    funext fuel fPos user
    exact if_pos h.dir
  have hlists := @Mapped.lists_from d l a 0 h users
  rw [← seen_eq d.entries users, hcall]
  constructor
  · intro hall
    exact hlists.functional hall
  · intro hseen
    change Lists _ _ _ _ (seen l a users d.entries) at hlists
    rwa [hseen] at hlists

/-- The narrow listing is complete. In the wide one, an inode number is right just when the program had zeros in its upper half. -/
theorem getdents_lists_iff (h : d.Mapped) :
    d.ListsAll a users ↔ ∀ i, i < d.entries.length → getLong (users i) (a + 4) = 0 := by
  constructor
  · intro hall
    exact h.lists_iff.mp hall.2
  · intro hzero
    exact ⟨h.lists_iff.mpr fun _ _ => rfl, h.lists_iff.mpr hzero⟩

end DirFile

/-- The entry `.`, a deleted one, and one whose name has all 14 bytes. -/
def sampleListingBytes : List UInt8 :=
  [1, 0, 46, 0, 0, 0, 0, 0, 0, 0, 0, 0, 0, 0, 0, 0] ++ [0, 0, 97, 0, 0, 0, 0, 0, 0, 0, 0, 0, 0, 0, 0, 0] ++
    [7, 1, 98, 98, 98, 98, 98, 98, 98, 98, 98, 98, 98, 98, 98, 98]

def sampleListing : DirFile where
  vol :=
    { firstdatazone := 19
      nzones := 100
      zmapBlocks := 1
      zmap := fun _ => true
      word := fun b k => getHalf (fun i => if b = 20 then sampleListingBytes.getD i 0 else 0) (2 * k)
      byte := fun b i => if b = 20 then sampleListingBytes.getD i 0 else 0
      word_byte := fun _ _ _ => rfl }
  ip := ⟨fun k => if k = 0 then 20 else 0⟩
  size := 48
  isDir := true

theorem sampleListing_mapped : sampleListing.Mapped := by
  refine ⟨rfl, by decide, fun n hn => ?_⟩
  have hsize : sampleListing.size = 48 := rfl
  have hn : n = 0 := by omega
  subst hn
  decide

theorem sampleListing_entries : sampleListing.entries = [⟨1, 1, [46]⟩, ⟨263, 14, List.replicate 14 98⟩] := by decide +kernel

theorem getdents_lists_iff_sample : sampleListing.ListsAll 4096 fun _ _ => 0 :=
  (DirFile.getdents_lists_iff sampleListing_mapped).mpr fun _ _ => rfl

/-- A program with a buffer of ones reads wrong inode numbers. -/
theorem getdents_lists_fails : sampleListing.Mapped ∧ ¬ sampleListing.ListsAll 4096 fun _ _ => 255 := by
  refine ⟨sampleListing_mapped, fun h => ?_⟩
  have hzero := sampleListing_mapped.lists_iff.mp h.2 0 (by rw [sampleListing_entries]; decide)
  exact absurd hzero (by decide)

end RheeKernel
