import RheeKernel.Bitmaps
import Mathlib.Tactic.Common
import Mathlib.Order.Bounds.Basic

namespace RheeKernel

namespace CachedDevice

/-- Bit `n` of a bitmap, which is bit `n & 8191` of the block in slot `n >> 13`. -/
def mapBit (v : CachedDevice) (map : Nat → Option Nat) (n : Nat) : Option Bool :=
  (map (n / 8192)).map fun b => BitArray.get (v.data b) (n % 8192)

/-- The bit of a zone. -/
def zoneBit (v : CachedDevice) (z : Nat) : Option Bool := v.mapBit v.zmap (z + 1 - v.firstdatazone)

def inodeBit (v : CachedDevice) (n : Nat) : Option Bool := v.mapBit v.imap n

def FreeZone (v : CachedDevice) (z : Nat) : Prop := v.firstdatazone ≤ z ∧ z < v.nzones ∧ v.zoneBit z = some false

def FreeInode (v : CachedDevice) (n : Nat) : Prop := 1 ≤ n ∧ n ≤ v.ninodes ∧ v.inodeBit n = some false

/-- The slots of a bitmap hold different blocks, whose buffers have been read and are held. -/
structure Slots (v : CachedDevice) (map : Nat → Option Nat) : Prop where
  held : ∀ i b, map i = some b → 0 < v.count b ∧ v.uptodate b = true
  one : ∀ i j b, map i = some b → map j = some b → i = j
  few : ∀ i b, map i = some b → i < 8
  first : v.mapBit map 0 = some true

/-- What `do_mount` sets up. -/
structure Mounted (v : CachedDevice) : Prop where
  imap : v.Slots v.imap
  zmap : v.Slots v.zmap
  apart : ∀ i j b, v.imap i = some b → v.zmap j ≠ some b

/-- A scan of the free list that finds a buffer nobody holds. -/
def Idle (pick : CachedDevice → Option Nat) : Prop := ∀ v a, pick v = some a → ∃ h, v.buf a = some h ∧ h.count = 0

variable {v v' v'' : CachedDevice} {map map' : Nat → Option Nat} {pick : CachedDevice → Option Nat} {h : BlockBuffer}
  {f : BlockBuffer → BlockBuffer} {g : (Nat → BitVec 32) → Nat → BitVec 32} {data : Nat → BitVec 32} {a b c i j k m n z ecx : Nat} {bh : Option Nat}

theorem firstZero_spec (he : ecx + 32 * n = 8192) : firstZero data n ecx ≤ 8192 ∧
    (∀ m, ecx ≤ m → m < firstZero data n ecx → BitArray.get data m = true) ∧
    (firstZero data n ecx < 8192 → BitArray.get data (firstZero data n ecx) = false) := by
  induction n generalizing ecx with
  | zero =>
    unfold firstZero
    exact ⟨by omega, fun m hlow hlt => by omega, fun hlt => by omega⟩
  | succ n ih =>
    have hword : 32 * (ecx / 32) = ecx := by omega
    unfold firstZero
    split
    next edx hl =>
      obtain ⟨hk, hclear, hbelow⟩ := BitArray.lowest_not_some hl
      rw [hword] at hclear hbelow
      exact ⟨by omega, hbelow, fun _ => hclear⟩
    next hl =>
      have hfull : ∀ m, ecx ≤ m → m < ecx + 32 → BitArray.get data m = true := fun m hlow hlt =>
        BitArray.lowest_not_none hl (by omega) (by omega)
      split
      next hmore =>
        obtain ⟨hle, hset, hclear⟩ := @ih (ecx + 32) (by omega)
        refine ⟨hle, fun m hlow hlt => ?_, hclear⟩
        by_cases hm : m < ecx + 32
        · exact hfull m hlow hm
        · exact hset m (by omega) hlt
      next hend => exact ⟨by omega, hfull, fun hlt => by omega⟩

theorem mapBit_slot (hb : map a = some b) (hj : j < 8192) : v.mapBit map (8192 * a + j) = some (BitArray.get (v.data b) j) := by
  unfold mapBit
  rw [show (8192 * a + j) / 8192 = a by omega, show (8192 * a + j) % 8192 = j by omega, hb]
  rfl

/-- How the scan of `n` slots from slot `i` on ends: at the first clear bit, or past the last slot. -/
def ScanEnd (v : CachedDevice) (map : Nat → Option Nat) (n i : Nat) (r : Nat × Option Nat × Nat) : Prop :=
  (∃ a b j, r = (a, some b, j) ∧ (i ≤ a ∧ a < i + n) ∧ j < 8192 ∧ map a = some b ∧ BitArray.get (v.data b) j = false ∧
    ∀ m, 8192 * i ≤ m → m < 8192 * a + j → v.mapBit map m ≠ some false) ∨
  (∃ bh, r = (i + n, bh, 8192) ∧ ∀ m, 8192 * i ≤ m → m < 8192 * (i + n) → v.mapBit map m ≠ some false)

/-- A slot without a clear bit is passed over. -/
theorem ScanEnd.pass {r : Nat × Option Nat × Nat} (h : v.ScanEnd map n (i + 1) r)
    (hslot : ∀ m, 8192 * i ≤ m → m < 8192 * (i + 1) → v.mapBit map m ≠ some false) : v.ScanEnd map (n + 1) i r := by
  rcases h with ⟨a, b, j, hr, hia, hj, hb, hclear, hbefore⟩ | ⟨bh, hr, hfull⟩
  · refine .inl ⟨a, b, j, hr, by omega, hj, hb, hclear, fun m hlow hlt => ?_⟩
    by_cases hm : m < 8192 * (i + 1)
    · exact hslot m hlow hm
    · exact hbefore m (by omega) hlt
  · refine .inr ⟨bh, by rw [hr, Nat.add_right_comm, Nat.add_assoc], fun m hlow hlt => ?_⟩
    by_cases hm : m < 8192 * (i + 1)
    · exact hslot m hlow hm
    · exact hfull m (by omega) (by omega)

theorem scanMap_end (n i : Nat) (bh : Option Nat) : v.ScanEnd map n i (v.scanMap map n i bh 8192) := by
  induction n generalizing i bh with
  | zero => exact .inr ⟨bh, rfl, fun m hlow hlt => by omega⟩
  | succ n ih =>
    cases hb : map i with
    | none =>
      have heq : v.scanMap map (n + 1) i bh 8192 = v.scanMap map n (i + 1) none 8192 := by
        rw [scanMap, hb]
      rw [heq]
      refine (ih (i + 1) none).pass fun m hlow hlt => ?_
      unfold mapBit
      rw [show m / 8192 = i by omega, hb]
      exact nofun
    | some b =>
      obtain ⟨hle, hset, hclear⟩ := @firstZero_spec (v.data b) 256 0 rfl
      have hbits : ∀ m, 8192 * i ≤ m → m < 8192 * i + firstZero (v.data b) 256 0 → v.mapBit map m ≠ some false := by
        intro m hlow hlt
        have hm := mapBit_slot (v := v) hb (j := m - 8192 * i) (by omega)
        rw [show 8192 * i + (m - 8192 * i) = m by omega, hset _ (by omega) (by omega)] at hm
        rw [hm]
        exact nofun
      by_cases hj : firstZero (v.data b) 256 0 < 8192
      · refine .inl ⟨i, b, firstZero (v.data b) 256 0, ?_, by omega, hj, hb, hclear hj, hbits⟩
        simp only [scanMap, hb, hj, if_true]
      · have h8192 : firstZero (v.data b) 256 0 = 8192 := by omega
        have heq : v.scanMap map (n + 1) i bh 8192 = v.scanMap map n (i + 1) (some b) 8192 := by
          simp only [scanMap, hb, h8192, Nat.lt_irrefl, if_false]
        rw [heq]
        exact (ih (i + 1) (some b)).pass fun m hlow hlt => hbits m hlow (by omega)

@[simp] theorem setBuf_self {t : Option BlockBuffer} : (v.setBuf b t).buf b = t := by simp [setBuf]

theorem setBuf_other {t : Option BlockBuffer} (hc : c ≠ b) : (v.setBuf b t).buf c = v.buf c := by simp [setBuf, hc]

theorem edit_self (hb : v.buf b = some h) : (v.edit b f).buf b = some (f h) := by simp [edit, hb]

theorem edit_other (hc : c ≠ b) : (v.edit b f).buf c = v.buf c := setBuf_other hc

theorem rename_self : (v.rename a b h).buf b = some { data := h.data, count := h.count + 1 } := setBuf_self

theorem rename_other (hca : c ≠ a) (hcb : c ≠ b) : (v.rename a b h).buf c = v.buf c := (setBuf_other hcb).trans (setBuf_other hca)

theorem rename_old (hab : a ≠ b) : (v.rename a b h).buf a = none := (setBuf_other hab).trans setBuf_self

theorem cached_of_count (hc : 0 < v.count b) : ∃ h, v.buf b = some h := by
  unfold count at hc
  cases hb : v.buf b with
  | none =>
    rw [hb] at hc
    exact absurd hc (Nat.lt_irrefl 0)
  | some h => exact ⟨h, rfl⟩

theorem data_eq (hb : v.buf b = some h) : v.data b = h.data := by simp [data, hb]
theorem count_eq (hb : v.buf b = some h) : v.count b = h.count := by simp [count, hb]
theorem uptodate_eq (hb : v.buf b = some h) : v.uptodate b = h.uptodate := by simp [uptodate, hb]

theorem data_congr (h : v'.buf b = v.buf b) : v'.data b = v.data b := by simp [data, h]
theorem count_congr (h : v'.buf b = v.buf b) : v'.count b = v.count b := by simp [count, h]
theorem uptodate_congr (h : v'.buf b = v.buf b) : v'.uptodate b = v.uptodate b := by simp [uptodate, h]

/-- Nothing that is held has been lost: the super block is the same, and the buffers that were held and had been read still are
held and hold what they held. -/
structure Keeps (v v' : CachedDevice) : Prop where
  imap : v'.imap = v.imap
  zmap : v'.zmap = v.zmap
  first : v'.firstdatazone = v.firstdatazone
  nzones : v'.nzones = v.nzones
  ninodes : v'.ninodes = v.ninodes
  held : ∀ c, 0 < v.count c → v.uptodate c = true → v.count c ≤ v'.count c ∧ v'.data c = v.data c ∧ v'.uptodate c = true

theorem Keeps.rfl : v.Keeps v := ⟨Eq.refl _, Eq.refl _, Eq.refl _, Eq.refl _, Eq.refl _, fun _ _ hu => ⟨Nat.le_refl _, Eq.refl _, hu⟩⟩

theorem Keeps.trans (h : v.Keeps v') (h' : v'.Keeps v'') : v.Keeps v'' := by
  refine ⟨h'.imap.trans h.imap, h'.zmap.trans h.zmap, h'.first.trans h.first, h'.nzones.trans h.nzones,
    h'.ninodes.trans h.ninodes, fun c hc hu => ?_⟩
  obtain ⟨hcount, hdata, hup⟩ := h.held c hc hu
  obtain ⟨hcount', hdata', hup'⟩ := h'.held c (by omega) hup
  exact ⟨by omega, hdata'.trans hdata, hup'⟩

theorem Slots.mapBit_eq (hs : v.Slots map) (hk : v.Keeps v') (n : Nat) : v'.mapBit map n = v.mapBit map n := by
  unfold mapBit
  cases hb : map (n / 8192) with
  | none => rfl
  | some b =>
    obtain ⟨hcount, hup⟩ := hs.held _ b hb
    simp only [Option.map_some, (hk.held b hcount hup).2.1]

theorem Slots.keeps (hs : v.Slots map) (hk : v.Keeps v') : v'.Slots map := by
  refine ⟨fun i b hb => ?_, hs.one, hs.few, (hs.mapBit_eq hk 0).trans hs.first⟩
  obtain ⟨hcount, hup⟩ := hs.held i b hb
  obtain ⟨hle, _, hup'⟩ := hk.held b hcount hup
  exact ⟨by omega, hup'⟩

theorem Mounted.keeps (hm : v.Mounted) (hk : v.Keeps v') : v'.Mounted := by
  refine ⟨?_, ?_, ?_⟩
  · rw [hk.imap]
    exact hm.imap.keeps hk
  · rw [hk.zmap]
    exact hm.zmap.keeps hk
  · rw [hk.imap, hk.zmap]
    exact hm.apart

theorem keeps_edit (hf : ∀ h, v.buf b = some h → 0 < h.count → h.uptodate = true →
    h.count ≤ (f h).count ∧ (f h).data = h.data ∧ (f h).uptodate = true) : v.Keeps (v.edit b f) := by
  refine ⟨rfl, rfl, rfl, rfl, rfl, fun c hc hu => ?_⟩
  obtain ⟨h, hb⟩ := cached_of_count hc
  by_cases hcb : c = b
  · rw [hcb] at hb hc hu ⊢
    rw [count_eq hb] at hc ⊢
    rw [uptodate_eq hb] at hu
    rw [count_eq (edit_self hb), data_eq (edit_self hb), data_eq hb, uptodate_eq (edit_self hb)]
    exact hf h hb hc hu
  · have hsame := edit_other (f := f) (v := v) hcb
    exact ⟨Nat.le_of_eq (count_congr hsame).symm, data_congr hsame, (uptodate_congr hsame).trans hu⟩

theorem keeps_syncDev : v.Keeps v.syncDev := by
  refine ⟨rfl, rfl, rfl, rfl, rfl, fun c hc hu => ?_⟩
  obtain ⟨h, hb⟩ := cached_of_count hc
  have hsync : v.syncDev.buf c = some { h with dirt := false } := by simp [syncDev, hb]
  rw [uptodate_eq hb] at hu
  rw [count_eq hb, count_eq hsync, data_eq hb, data_eq hsync, uptodate_eq hsync]
  exact ⟨Nat.le_refl _, rfl, hu⟩

theorem syncDev_count : v.syncDev.count c = v.count c := by
  cases hb : v.buf c with
  | none => simp [count, syncDev, hb]
  | some h => simp [count, syncDev, hb]

theorem Keeps.setBuf {t : Option BlockBuffer} (hk : v.Keeps v') (hz : v.count z = 0) : v.Keeps (v'.setBuf z t) := by
  refine ⟨hk.imap, hk.zmap, hk.first, hk.nzones, hk.ninodes, fun c hc hu => ?_⟩
  have hcz : c ≠ z := fun he => by rw [he, hz] at hc; exact Nat.lt_irrefl 0 hc
  obtain ⟨hcount, hdata, hup⟩ := hk.held c hc hu
  have hsame := setBuf_other (v := v') (t := t) hcz
  exact ⟨by rw [count_congr hsame]; exact hcount, (data_congr hsame).trans hdata, (uptodate_congr hsame).trans hup⟩

theorem count_setBuf {t : Option BlockBuffer} : (v.setBuf b t).count c = if c = b then (t.map BlockBuffer.count).getD 0 else v.count c := by
  split
  next hcb => rw [hcb]; simp [count]
  next hcb => exact count_congr (setBuf_other hcb)

theorem count_rename : (v.rename a b h).count c = if c = b then h.count + 1 else if c = a then 0 else v.count c := by
  unfold rename
  rw [count_setBuf, count_setBuf]
  rfl

theorem count_hold (hb : v.buf b = some h) : (v.hold b).count c = if c = b then v.count b + 1 else v.count c := by
  unfold hold edit
  rw [count_setBuf, hb, count_eq hb]
  rfl

/-- `getblk` gives one more reference to the buffer of the block, and takes none away. -/
theorem getblk_spec (hpick : Idle pick) (v : CachedDevice) (z : Nat) : ∃ v', getblk pick v z = some v' ∧ v.Keeps v' ∧
    ∀ c, v'.count c = if c = z then v.count z + 1 else v.count c := by
  unfold getblk
  cases hb : v.buf z with
  | some h =>
    exact ⟨_, rfl, keeps_edit fun _ _ _ hu => ⟨Nat.le_succ _, rfl, hu⟩, fun c => count_hold hb⟩
  | none =>
    have hz : v.count z = 0 := by simp [count, hb]
    dsimp only
    cases hp : pick v with
    | none =>
      refine ⟨_, rfl, Keeps.rfl.setBuf hz, fun c => ?_⟩
      rw [count_setBuf, hz]
      rfl
    | some a =>
      obtain ⟨h, ha, hidle⟩ := hpick v a hp
      have haz : v.count a = 0 := (count_eq ha).trans hidle
      unfold recycle
      dsimp only
      rw [ha]
      have hsync : v.Keeps (if h.dirt = true then v.syncDev else v) ∧
          ∀ c, (if h.dirt = true then v.syncDev else v).count c = v.count c := by
        split
        next => exact ⟨keeps_syncDev, fun _ => syncDev_count⟩
        next => exact ⟨.rfl, fun _ => rfl⟩
      refine ⟨_, rfl, (hsync.1.setBuf haz).setBuf hz, fun c => ?_⟩
      · rw [count_rename, hsync.2, hidle, hz]
        split
        next => rfl
        next =>
          split
          next hca => rw [hca, haz]
          next => rfl

/-- The buffer of a zone that nobody holds ends up clear, and free again. -/
theorem clearNew_spec (hpick : Idle pick) (hz : v.count z = 0) : ∃ v', clearNew pick v z = some (v', z) ∧ v.Keeps v' ∧
    v'.buf z = some { data := fun _ => 0, count := 0, dirt := true, uptodate := true } := by
  obtain ⟨u, hget, hk, hcount⟩ := getblk_spec hpick v z
  have hone : u.count z = 1 := by rw [hcount, if_pos rfl, hz]
  obtain ⟨h, hb⟩ := cached_of_count (show 0 < u.count z by omega)
  unfold clearNew
  rw [hget, Option.bind_some, if_neg (by omega)]
  refine ⟨_, rfl, hk.setBuf hz, ?_⟩
  rw [edit_self hb]
  rw [count_eq hb] at hone
  rw [hone]

theorem data_edit (hb : v.buf b = some h) (hf : ∀ h, (f h).data = g h.data) : (v.edit b f).data b = g (v.data b) := by
  rw [data_eq (edit_self hb), data_eq hb, hf]

/-- One bit of the block in slot `a` is changed. -/
theorem Slots.mapBit_edit (hs : v.Slots map) (hb : map a = some b) (hj : j < 8192) {t : Bool} (hf : ∀ h, (f h).data = g h.data)
    (hg : ∀ d m, BitArray.get (g d) m = if m = j then t else BitArray.get d m) (n : Nat) :
    (v.edit b f).mapBit map n = if n = 8192 * a + j then some t else v.mapBit map n := by
  obtain ⟨h, hcached⟩ := cached_of_count (hs.held a b hb).1
  by_cases ha : n / 8192 = a
  · have hn := mapBit_slot (v := v.edit b f) hb (j := n % 8192) (by omega)
    have hn' := mapBit_slot (v := v) hb (j := n % 8192) (by omega)
    rw [show 8192 * a + n % 8192 = n by omega] at hn hn'
    rw [hn, hn', data_edit hcached hf, hg]
    by_cases hm : n % 8192 = j
    · rw [if_pos hm, if_pos (by omega)]
    · rw [if_neg hm, if_neg (by omega)]
  · rw [if_neg (by omega)]
    unfold mapBit
    cases hc : map (n / 8192) with
    | none => rfl
    | some c =>
      have hcb : c ≠ b := fun he => ha (hs.one _ _ b (he ▸ hc) hb)
      simp only [Option.map_some, data_congr (edit_other (f := f) (v := v) hcb)]

theorem mapBit_edit_other (hno : ∀ i, map i ≠ some b) (n : Nat) : (v.edit b f).mapBit map n = v.mapBit map n := by
  unfold mapBit
  cases hc : map (n / 8192) with
  | none => rfl
  | some c =>
    have hcb : c ≠ b := fun he => hno _ (he ▸ hc)
    simp only [Option.map_some, data_congr (edit_other (f := f) (v := v) hcb)]

theorem count_edit (hf : ∀ h, (f h).count = h.count) : (v.edit b f).count c = v.count c := by
  by_cases hcb : c = b
  · rw [hcb]
    cases hb : v.buf b with
    | none => simp [count, edit, hb]
    | some h => rw [count_eq (edit_self hb), count_eq hb, hf]
  · exact count_congr (edit_other hcb)

theorem uptodate_edit (hf : ∀ h, (f h).uptodate = h.uptodate) : (v.edit b f).uptodate c = v.uptodate c := by
  by_cases hcb : c = b
  · rw [hcb]
    cases hb : v.buf b with
    | none => simp [uptodate, edit, hb]
    | some h => rw [uptodate_eq (edit_self hb), uptodate_eq hb, hf]
  · exact uptodate_congr (edit_other hcb)

theorem Slots.edit (hs : v.Slots map) (hc : ∀ h, (f h).count = h.count) (hu : ∀ h, (f h).uptodate = h.uptodate)
    (hfirst : (v.edit b f).mapBit map 0 = some true) : (v.edit b f).Slots map := by
  refine ⟨fun i c hi => ?_, hs.one, hs.few, hfirst⟩
  rw [count_edit hc, uptodate_edit hu]
  exact hs.held i c hi

/-- Bit `k` of the zone bitmap becomes `t`, and no other bit of the bitmaps changes. -/
structure ZoneBitTo (v v' : CachedDevice) (k : Nat) (t : Bool) : Prop where
  zmap : ∀ n, v'.mapBit v'.zmap n = if n = k then some t else v.mapBit v.zmap n
  imap : ∀ n, v'.mapBit v'.imap n = v.mapBit v.imap n

structure InodeBitTo (v v' : CachedDevice) (k : Nat) (t : Bool) : Prop where
  imap : ∀ n, v'.mapBit v'.imap n = if n = k then some t else v.mapBit v.imap n
  zmap : ∀ n, v'.mapBit v'.zmap n = v.mapBit v.zmap n

/-- A bit of one bitmap is changed, though its bit 0 is never cleared. -/
theorem Slots.edit_bit (hs : v.Slots map) (hs' : v.Slots map') (hno : ∀ i, map' i ≠ some b) (hb : map a = some b) (hj : j < 8192)
    {t : Bool} (hf : ∀ h, (f h).data = g h.data) (hg : ∀ d m, BitArray.get (g d) m = if m = j then t else BitArray.get d m)
    (hc : ∀ h, (f h).count = h.count) (hu : ∀ h, (f h).uptodate = h.uptodate) (ht : 8192 * a + j ≠ 0 ∨ t = true) :
    ((v.edit b f).Slots map ∧ (v.edit b f).Slots map') ∧
      (∀ n, (v.edit b f).mapBit map n = if n = 8192 * a + j then some t else v.mapBit map n) ∧
      ∀ n, (v.edit b f).mapBit map' n = v.mapBit map' n := by
  have hbit := hs.mapBit_edit hb hj hf hg
  have hbit' : ∀ n, (v.edit b f).mapBit map' n = v.mapBit map' n := mapBit_edit_other hno
  refine ⟨⟨hs.edit hc hu ?_, hs'.edit hc hu ((hbit' 0).trans hs'.first)⟩, hbit, hbit'⟩
  rw [hbit]
  split
  next h0 =>
    rcases ht with ht | ht
    · exact absurd h0.symm ht
    · rw [ht]
  next => exact hs.first

theorem get_set_iff (d : Nat → BitVec 32) (m : Nat) : BitArray.get (BitArray.set d j) m = if m = j then true else BitArray.get d m :=
  BitArray.get_set (by decide)

theorem get_clear_iff (d : Nat → BitVec 32) (m : Nat) : BitArray.get (BitArray.clear d j) m = if m = j then false else BitArray.get d m :=
  BitArray.get_clear (by decide)

theorem Mounted.markZone (hm : v.Mounted) (hb : v.zmap a = some b) (hj : j < 8192) :
    (v.markBit b j).Mounted ∧ v.ZoneBitTo (v.markBit b j) (8192 * a + j) true := by
  obtain ⟨⟨hz, hi⟩, hbit, hbit'⟩ := hm.zmap.edit_bit hm.imap (fun i hib => hm.apart i a b hib hb) hb hj
    (f := fun h => { h with data := BitArray.set h.data j, dirt := true }) (fun _ => rfl) get_set_iff (fun _ => rfl) (fun _ => rfl) (.inr rfl)
  exact ⟨⟨hi, hz, hm.apart⟩, hbit, hbit'⟩

theorem Mounted.unmarkZone (hm : v.Mounted) (hb : v.zmap a = some b) (hj : j < 8192) (h0 : 8192 * a + j ≠ 0) :
    (v.unmarkBit b j).Mounted ∧ v.ZoneBitTo (v.unmarkBit b j) (8192 * a + j) false := by
  obtain ⟨⟨hz, hi⟩, hbit, hbit'⟩ := hm.zmap.edit_bit hm.imap (fun i hib => hm.apart i a b hib hb) hb hj
    (f := fun h => { h with data := BitArray.clear h.data j, dirt := true }) (fun _ => rfl) get_clear_iff (fun _ => rfl) (fun _ => rfl) (.inl h0)
  exact ⟨⟨hi, hz, hm.apart⟩, hbit, hbit'⟩

theorem Mounted.markInode (hm : v.Mounted) (hb : v.imap a = some b) (hj : j < 8192) :
    (v.markBit b j).Mounted ∧ v.InodeBitTo (v.markBit b j) (8192 * a + j) true := by
  obtain ⟨⟨hi, hz⟩, hbit, hbit'⟩ := hm.imap.edit_bit hm.zmap (hm.apart a · b hb) hb hj
    (f := fun h => { h with data := BitArray.set h.data j, dirt := true }) (fun _ => rfl) get_set_iff (fun _ => rfl) (fun _ => rfl) (.inr rfl)
  exact ⟨⟨hi, hz, hm.apart⟩, hbit, hbit'⟩

theorem Mounted.unmarkInode (hm : v.Mounted) (hb : v.imap a = some b) (hj : j < 8192) (h0 : 8192 * a + j ≠ 0) :
    (v.unmarkBit b j).Mounted ∧ v.InodeBitTo (v.unmarkBit b j) (8192 * a + j) false := by
  obtain ⟨⟨hi, hz⟩, hbit, hbit'⟩ := hm.imap.edit_bit hm.zmap (hm.apart a · b hb) hb hj
    (f := fun h => { h with data := BitArray.clear h.data j, dirt := true }) (fun _ => rfl) get_clear_iff (fun _ => rfl) (fun _ => rfl) (.inl h0)
  exact ⟨⟨hi, hz, hm.apart⟩, hbit, hbit'⟩

theorem ZoneBitTo.keeps {t : Bool} (h : v.ZoneBitTo v' k t) (hm : v'.Mounted) (hk : v'.Keeps v'') : v.ZoneBitTo v'' k t := by
  refine ⟨fun n => ?_, fun n => ?_⟩
  · rw [hk.zmap, hm.zmap.mapBit_eq hk]
    exact h.zmap n
  · rw [hk.imap, hm.imap.mapBit_eq hk]
    exact h.imap n

/-- What `new_block` does: it finds no clear bit, or sets the first one. -/
theorem newBlock_cases (pick : CachedDevice → Option Nat) (hm : v.Mounted) :
    ((∀ n, v.mapBit v.zmap n ≠ some false) ∧ newBlock pick v = some (v, 0)) ∨
    ∃ k u, (k ≠ 0 ∧ v.mapBit v.zmap k = some false) ∧ (∀ n < k, v.mapBit v.zmap n ≠ some false) ∧ u.Mounted ∧
      v.ZoneBitTo u k true ∧ (∀ c, u.count c = v.count c) ∧ u.firstdatazone = v.firstdatazone ∧ u.nzones = v.nzones ∧
      newBlock pick v = if v.nzones ≤ k + v.firstdatazone - 1 then some (u, 0) else clearNew pick u (k + v.firstdatazone - 1) := by
  unfold newBlock
  rcases @scanMap_end v v.zmap zMapSlots 0 none with ⟨a, b, j, hs, ha, hj, hb, hclear, hbefore⟩ | ⟨bh, hs, hfull⟩
  · rw [hs]
    dsimp only
    rw [if_neg (by unfold zMapSlots at ha; omega)]
    have hbit : v.mapBit v.zmap (8192 * a + j) = some false := by rw [mapBit_slot hb hj, hclear]
    have hne : 8192 * a + j ≠ 0 := by
      intro h0
      rw [h0, hm.zmap.first] at hbit
      cases hbit
    have hm' : v.writable.Mounted := hm.keeps ⟨rfl, rfl, rfl, rfl, rfl, fun _ _ hu => ⟨Nat.le_refl _, rfl, hu⟩⟩
    obtain ⟨hu, hto⟩ := hm'.markZone (a := a) (b := b) (j := j) hb hj
    refine .inr ⟨8192 * a + j, v.writable.markBit b j, ⟨hne, hbit⟩, fun n hn => hbefore n (by omega) hn, hu, ⟨hto.zmap, hto.imap⟩,
      fun c => count_edit fun _ => rfl, rfl, rfl, ?_⟩
    have hget : ¬ BitArray.get (v.writable.data b) j = true := by
      rw [show v.writable.data b = v.data b from rfl, hclear]
      exact nofun
    rw [if_neg hget, show j + a * 8192 = 8192 * a + j by omega]
    rfl
  · refine .inl ⟨fun n hn => ?_, ?_⟩
    · by_cases hlt : n < 8192 * 8
      · exact hfull n (by omega) (by unfold zMapSlots; omega) hn
      · unfold mapBit at hn
        cases hc : v.zmap (n / 8192) with
        | none => rw [hc] at hn; cases hn
        | some c => exact absurd (hm.zmap.few _ c hc) (by omega)
    · rw [hs]
      cases bh with
      | none => rfl
      | some b => rfl

theorem newBlock_least (hm : v.Mounted) (hpick : Idle pick) (hf : 0 < v.firstdatazone) (hz : IsLeast {z | v.FreeZone z} z)
    (hheld : v.count z = 0) : ∃ v', newBlock pick v = some (v', z) ∧ v'.Mounted ∧ v.ZoneBitTo v' (z + 1 - v.firstdatazone) true ∧
      v'.buf z = some { data := fun _ => 0, count := 0, dirt := true, uptodate := true } := by
  obtain ⟨⟨hlow, hhigh, hclear⟩, hleast⟩ := hz
  rcases newBlock_cases pick hm with ⟨hfull, _⟩ | ⟨k, u, ⟨hk, hbit⟩, hbefore, hu, hto, hcount, _, _, heq⟩
  · exact absurd hclear (hfull _)
  · have hle : k ≤ z + 1 - v.firstdatazone := by
      by_contra hlt
      exact hbefore _ (by omega) hclear
    have hfree : v.FreeZone (k + v.firstdatazone - 1) := by
      refine ⟨by omega, by omega, ?_⟩
      unfold zoneBit
      rw [show k + v.firstdatazone - 1 + 1 - v.firstdatazone = k by omega]
      exact hbit
    have hkz : k + v.firstdatazone - 1 = z := Nat.le_antisymm (by omega) (hleast hfree)
    rw [if_neg (by omega), hkz] at heq
    obtain ⟨v', hv', hkeep, hbuf⟩ := clearNew_spec hpick (show u.count z = 0 by rw [hcount, hheld])
    refine ⟨v', heq.trans hv', hu.keeps hkeep, ?_, hbuf⟩
    rw [show z + 1 - v.firstdatazone = k by omega]
    exact hto.keeps hu hkeep

theorem newBlock_none (hm : v.Mounted) (hnone : ∀ z, ¬ v.FreeZone z) : ∃ v', newBlock pick v = some (v', 0) := by
  rcases newBlock_cases pick hm with ⟨_, heq⟩ | ⟨k, u, ⟨hk, hbit⟩, _, _, _, _, _, _, heq⟩
  · exact ⟨v, heq⟩
  · refine ⟨u, ?_⟩
    rw [heq, if_pos]
    by_contra hlt
    refine hnone (k + v.firstdatazone - 1) ⟨by omega, by omega, ?_⟩
    unfold zoneBit
    rw [show k + v.firstdatazone - 1 + 1 - v.firstdatazone = k by omega]
    exact hbit

theorem newInode_cases (hm : v.Mounted) {dev now : Nat} :
    (newInode v dev now = some (v, none) ∧ ∀ n, ¬ v.FreeInode n) ∨
    ∃ n u, IsLeast {n | v.FreeInode n} n ∧ u.Mounted ∧ v.InodeBitTo u n true ∧
      newInode v dev now = some (u, some { count := 1, nlinks := 1, dev := dev, dirt := true, num := n, mtime := now }) := by
  unfold newInode
  rcases @scanMap_end v v.imap iMapSlots 0 none with ⟨a, b, j, hs, ha, hj, hb, hclear, hbefore⟩ | ⟨bh, hs, hfull⟩
  · have hbit : v.mapBit v.imap (8192 * a + j) = some false := by rw [mapBit_slot hb hj, hclear]
    have hne : 8192 * a + j ≠ 0 := by
      intro h0
      rw [h0, hm.imap.first] at hbit
      cases hbit
    have hleast : ∀ n, v.FreeInode n → 8192 * a + j ≤ n := by
      intro n hn
      by_contra hlt
      exact hbefore n (by omega) (by omega) hn.2.2
    rw [hs]
    dsimp only
    by_cases hlast : v.ninodes < j + a * 8192
    · rw [if_pos (.inr hlast)]
      exact .inl ⟨rfl, fun n hn => by have := hleast n hn; have := hn.2.1; omega⟩
    · have hget : ¬ BitArray.get (v.data b) j = true := by
        rw [hclear]
        exact nofun
      rw [if_neg (by omega), if_neg hget, show j + a * 8192 = 8192 * a + j by omega]
      obtain ⟨hu, hto⟩ := hm.markInode hb hj
      exact .inr ⟨8192 * a + j, _, ⟨⟨by omega, by omega, hbit⟩, fun n hn => hleast n hn⟩, hu, hto, rfl⟩
  · refine .inl ⟨?_, fun n hn => ?_⟩
    · rw [hs]
      cases bh with
      | none => rfl
      | some b => rfl
    · by_cases hlt : n < 8192 * 8
      · exact hfull n (by omega) (by unfold iMapSlots; omega) hn.2.2
      · have hbit := hn.2.2
        unfold inodeBit mapBit at hbit
        cases hc : v.imap (n / 8192) with
        | none => rw [hc] at hbit; cases hbit
        | some c => exact absurd (hm.imap.few _ c hc) (by omega)

theorem count_forget : (v.forget b).count c = v.count c := by
  unfold forget
  exact count_edit fun _ => rfl

theorem count_unmarkBit : (v.unmarkBit b j).count c = v.count c := by
  unfold unmarkBit
  exact count_edit fun _ => rfl

theorem uptodate_unmarkBit : (v.unmarkBit b j).uptodate c = v.uptodate c := by
  unfold unmarkBit
  exact uptodate_edit fun _ => rfl

/-- `free_block` of a zone in use whose buffer nobody holds. -/
theorem freeBlock_idle (hm : v.Mounted) (hlow : v.firstdatazone ≤ z) (hhigh : z < v.nzones)
    (hset : v.zoneBit z = some true) (hheld : v.count z = 0) :
    ∃ v', freeBlock v z = some v' ∧ v'.Mounted ∧ v.ZoneBitTo v' (z + 1 - v.firstdatazone) false := by
  -- The buffer of the zone loses its flags first, which no bitmap block does.
  have hfree : ∀ u : CachedDevice, v.Keeps u → ∃ v', u.freeBit z = some v' ∧ v'.Mounted ∧ v.ZoneBitTo v' (z + 1 - v.firstdatazone) false := by
    intro u hk
    have hu := hm.keeps hk
    have hset' : u.mapBit u.zmap (z + 1 - v.firstdatazone) = some true := by
      rw [hk.zmap, hm.zmap.mapBit_eq hk]
      exact hset
    unfold freeBit
    rw [hk.first]
    dsimp only
    generalize hn : z + 1 - v.firstdatazone = n at hset'
    unfold mapBit at hset'
    obtain ⟨b, hb, hget⟩ := Option.map_eq_some_iff.mp hset'
    rw [hb, Option.bind_some, if_pos hget]
    obtain ⟨hv', hto⟩ := hu.unmarkZone hb (Nat.mod_lt n (by decide)) (by omega)
    rw [show 8192 * (n / 8192) + n % 8192 = n by omega] at hto
    refine ⟨_, rfl, hv', ⟨fun m => ?_, fun m => ?_⟩⟩
    · rw [hto.zmap, hk.zmap, hm.zmap.mapBit_eq hk]
    · rw [hto.imap, hk.imap, hm.imap.mapBit_eq hk]
  unfold freeBlock
  rw [if_neg (by omega)]
  cases hb : v.buf z with
  | none => exact hfree v .rfl
  | some h =>
    rw [count_eq hb] at hheld
    dsimp only
    rw [if_neg (by omega)]
    exact hfree _ (Keeps.rfl.setBuf ((count_eq hb).trans hheld))

theorem freeInode_used (hm : v.Mounted) {inode : CoreInode} (hdev : inode.dev ≠ 0) (hcount : inode.count ≤ 1) (hlinks : inode.nlinks = 0)
    (hlow : 1 ≤ inode.num) (hhigh : inode.num ≤ v.ninodes) (hset : v.inodeBit inode.num = some true) :
    ∃ v', freeInode v inode = some (v', {}) ∧ v'.Mounted ∧ v.InodeBitTo v' inode.num false := by
  unfold inodeBit mapBit at hset
  obtain ⟨b, hb, hget⟩ := Option.map_eq_some_iff.mp hset
  obtain ⟨hv', hto⟩ := hm.unmarkInode hb (Nat.mod_lt inode.num (by decide)) (by omega)
  rw [show 8192 * (inode.num / 8192) + inode.num % 8192 = inode.num by omega] at hto
  refine ⟨_, ?_, hv', hto⟩
  unfold freeInode
  rw [if_neg hdev, if_neg (by omega), if_neg (by omega), if_neg (by omega), hb, Option.bind_some, if_pos hget]

theorem Keeps.edit_unread (hk : v.Keeps v') (hb : v'.uptodate b = false) : v.Keeps (v'.edit b f) := by
  refine ⟨hk.imap, hk.zmap, hk.first, hk.nzones, hk.ninodes, fun c hc hu => ?_⟩
  obtain ⟨hcount, hdata, hup⟩ := hk.held c hc hu
  have hcb : c ≠ b := fun he => by rw [he, hb] at hup; cases hup
  have hsame := edit_other (f := f) (v := v') hcb
  exact ⟨by rw [count_congr hsame]; exact hcount, (data_congr hsame).trans hdata, (uptodate_congr hsame).trans hup⟩

/-- `bread` gives one reference to a buffer that holds the block, or none. -/
theorem bread_spec (hpick : Idle pick) (v : CachedDevice) (b : Nat) : ∃ v' ok, bread pick v b = some (v', ok) ∧ v.Keeps v' ∧
    (∀ c, v'.count c = v.count c + if c = b ∧ ok = true then 1 else 0) ∧ (ok = true → v'.uptodate b = true) := by
  obtain ⟨u, hget, hk, hcount⟩ := getblk_spec hpick v b
  have hone : ∀ c, u.count c = v.count c + if c = b ∧ true = true then 1 else 0 := by
    intro c
    rw [hcount]
    by_cases hcb : c = b
    · simp [hcb]
    · simp [hcb]
  have hpos : 0 < u.count b := by
    rw [hone]
    simp
  obtain ⟨h, hb⟩ := cached_of_count hpos
  unfold bread
  rw [hget, Option.bind_some]
  cases hup : u.uptodate b with
  | true => exact ⟨u, true, by rw [if_pos rfl], hk, hone, fun _ => hup⟩
  | false =>
    rw [if_neg Bool.false_ne_true]
    cases u.disk b with
    | some data =>
      have hsame : ∀ h : BlockBuffer, ({ h with data := data, uptodate := true } : BlockBuffer).count = h.count := fun _ => rfl
      exact ⟨_, true, rfl, hk.edit_unread hup, fun c => (count_edit hsame).trans (hone c), fun _ => uptodate_eq (edit_self hb)⟩
    | none =>
      refine ⟨u.edit b fun h => { h with count := h.count - 1 }, false, ?_, hk.edit_unread hup, fun c => ?_, nofun⟩
      · unfold brelse
        rw [if_neg (by omega)]
        rfl
      · by_cases hcb : c = b
        · have hb' := hone b
          rw [if_pos ⟨rfl, rfl⟩, count_eq hb] at hb'
          rw [hcb, count_eq (edit_self hb)]
          simp only [Bool.false_eq_true, and_false, if_false]
          omega
        · rw [count_congr (edit_other hcb), hone, if_neg fun h => hcb h.1, if_neg fun h => hcb h.1]

/-- The slots that a loop of `do_mount` fills in hold consecutive blocks, and it stops at the first one that cannot be read. -/
theorem loadMap_spec (hpick : Idle pick) {block block' : Nat} (h : loadMap pick n i v map block = some (v', map', block')) :
    v.Keeps v' ∧ ∃ l, block' = block + l ∧ (0 < l → i + l ≤ 8) ∧
      (∀ k, map' k = if i ≤ k ∧ k < i + l then some (block + (k - i)) else map k) ∧
      ∀ b, block ≤ b → b < block + l → 0 < v'.count b ∧ v'.uptodate b = true := by
  induction n generalizing i v map block with
  | zero =>
    cases h
    refine ⟨.rfl, 0, rfl, by omega, fun k => ?_, fun b hlow hlt => by omega⟩
    rw [if_neg (by omega)]
  | succ n ih =>
    obtain ⟨u, ok, hread, hk, hcount, hup⟩ := bread_spec hpick v block
    unfold loadMap at h
    rw [hread, Option.bind_some] at h
    dsimp only at h
    cases ok with
    | false =>
      rw [if_neg Bool.false_ne_true] at h
      cases h
      refine ⟨hk, 0, rfl, by omega, fun k => ?_, fun b hlow hlt => by omega⟩
      rw [if_neg (by omega)]
    | true =>
      rw [if_pos rfl] at h
      split at h
      next => cases h
      next hi =>
        obtain ⟨hk', l, hblock, hslots, hmap, hheld⟩ := ih h
        have hpos : 0 < u.count block := by
          rw [hcount]
          simp
        refine ⟨hk.trans hk', l + 1, by omega, fun _ => by omega, fun k => ?_, fun b hlow hlt => ?_⟩
        · rw [hmap]
          by_cases hki : k = i
          · rw [hki, if_neg (by omega), if_pos (by omega), Function.update_self, Nat.sub_self, Nat.add_zero]
          · rw [Function.update_of_ne hki]
            by_cases hin : i + 1 ≤ k ∧ k < i + 1 + l
            · rw [if_pos hin, if_pos (by omega), show block + 1 + (k - (i + 1)) = block + (k - i) by omega]
            · rw [if_neg hin, if_neg (by omega)]
        · by_cases hb : b = block
          · rw [hb]
            obtain ⟨hle, _, hup'⟩ := hk'.held block hpos (hup rfl)
            exact ⟨by omega, hup'⟩
          · exact hheld b (by omega) (by omega)

/-- Bit 0 of the first block of a bitmap is set, and the buffers stay held. -/
theorem reserveFirst_spec (h : v.reserveFirst map = some v') (hheld : ∀ i b, map i = some b → 0 < v.count b) :
    ∃ b, map 0 = some b ∧ v'.mapBit map 0 = some true ∧ (∀ c, v'.count c = v.count c) ∧ (∀ c, v'.uptodate c = v.uptodate c) ∧
      ∀ c, c ≠ b → v'.data c = v.data c := by
  unfold reserveFirst at h
  obtain ⟨b, hb, heq⟩ := Option.map_eq_some_iff.mp h
  obtain ⟨t, ht⟩ := cached_of_count (hheld 0 b hb)
  rw [← heq]
  refine ⟨b, hb, ?_, fun c => count_edit fun _ => rfl, fun c => uptodate_edit fun _ => rfl, fun c hcb => data_congr (edit_other hcb)⟩
  have hbit := mapBit_slot (v := v.edit b fun h => { h with data := BitArray.set h.data 0 }) hb (j := 0) (by omega)
  rw [data_edit (g := fun d => BitArray.set d 0) ht fun _ => rfl, get_set_iff, if_pos rfl] at hbit
  exact hbit

/-- A bitmap whose first `l` slots hold the blocks from `base` on. -/
def Consecutive (map : Nat → Option Nat) (base l : Nat) : Prop :=
  (0 < l → 0 + l ≤ 8) ∧ ∀ k, map k = if 0 ≤ k ∧ k < 0 + l then some (base + (k - 0)) else none

theorem Consecutive.mem {base l : Nat} (h : Consecutive map base l) (hb : map k = some b) : k < l ∧ b = base + k := by
  rw [h.2] at hb
  split at hb
  next hin =>
    cases hb
    exact ⟨by omega, by omega⟩
  next => cases hb

theorem Consecutive.slots {base l : Nat} (h : Consecutive map base l)
    (hheld : ∀ b, base ≤ b → b < base + l → 0 < v.count b ∧ v.uptodate b = true) (hfirst : v.mapBit map 0 = some true) : v.Slots map := by
  refine ⟨fun k b hb => ?_, fun i j b hi hj => ?_, fun k b hb => ?_, hfirst⟩
  · obtain ⟨hk, rfl⟩ := h.mem hb
    exact hheld _ (by omega) (by omega)
  · have := h.mem hi
    have := h.mem hj
    omega
  · have := h.mem hb
    have := h.1
    omega

/-- A mount that succeeds leaves both bitmaps as the allocators need them. -/
theorem loadMaps_mounted (hpick : Idle pick) (h : loadMaps pick v = some (v', true)) : v'.Mounted := by
  unfold loadMaps at h
  obtain ⟨⟨u, imap, block⟩, hi, h⟩ := Option.bind_eq_some_iff.mp h
  obtain ⟨⟨w, zmap, last⟩, hz, h⟩ := Option.bind_eq_some_iff.mp h
  obtain ⟨_, l, hblock, hfew, himap, hiheld⟩ := loadMap_spec hpick hi
  obtain ⟨hk, l', _, hfew', hzmap, hzheld⟩ := loadMap_spec hpick hz
  have hci : Consecutive imap 2 l := ⟨hfew, himap⟩
  have hcz : Consecutive zmap block l' := ⟨hfew', hzmap⟩
  dsimp only at h
  split at h
  next =>
    obtain ⟨_, _, heq⟩ := Option.map_eq_some_iff.mp h
    cases heq
  next =>
    obtain ⟨x, hx, heq⟩ := Option.map_eq_some_iff.mp h
    cases heq
    obtain ⟨y, hy, hx⟩ := Option.bind_eq_some_iff.mp hx
    have hiw : ∀ b, 2 ≤ b → b < 2 + l → 0 < w.count b ∧ w.uptodate b = true := by
      intro b hlow hlt
      obtain ⟨hc, hu⟩ := hiheld b hlow hlt
      obtain ⟨hle, _, hu'⟩ := hk.held _ hc hu
      exact ⟨by omega, hu'⟩
    obtain ⟨b, hb, hbit, hcount, hup, _⟩ := reserveFirst_spec hy fun k b hb => by
      obtain ⟨hlt, rfl⟩ := hci.mem hb
      exact (hiw _ (by omega) (by omega)).1
    obtain ⟨c, hc, hbit', hcount', hup', hdata'⟩ := reserveFirst_spec hx fun k b hb => by
      obtain ⟨hlt, rfl⟩ := hcz.mem hb
      rw [hcount]
      exact (hzheld _ (by omega) (by omega)).1
    -- The first bits are set one after the other, in different blocks.
    have hbc : b ≠ c := by
      have := hci.mem hb
      have := hcz.mem hc
      omega
    have hfirst : x.mapBit imap 0 = some true := by
      rw [← hbit]
      unfold mapBit
      rw [show imap (0 / 8192) = some b from hb, Option.map_some, Option.map_some, hdata' b hbc]
    have hsame : ∀ e, x.count e = w.count e ∧ x.uptodate e = w.uptodate e := fun e =>
      ⟨(hcount' e).trans (hcount e), (hup' e).trans (hup e)⟩
    refine ⟨hci.slots (fun e hlow hlt => ?_) hfirst, hcz.slots (fun e hlow hlt => ?_) hbit', fun k k' e he he' => ?_⟩
    · exact (hsame e).1.symm ▸ (hsame e).2.symm ▸ hiw e hlow hlt
    · exact (hsame e).1.symm ▸ (hsame e).2.symm ▸ hzheld e hlow hlt
    · have := hci.mem he
      have := hcz.mem he'
      omega

end CachedDevice

end RheeKernel
