import RheeKernel.FileBytes
import RheeKernel.SparseLog

namespace RheeKernel

def blockSize : Nat := 1024

/-- The regular files of a device: their zones and their `i_size`. -/
structure FileSys where
  zones : ZoneFs
  size : Nat → Nat

/-- The loop of `file_write`: the position and the number of bytes stored so far go round. Each round stores at least one
byte, so that the length of the data bounds the rounds; `none` is a panic. -/
def fileWriteLoop (i : Nat) : Nat → FileSys → Nat → List UInt8 → Nat → Option (FileSys × Nat × Nat)
  | 0, s, pos, _, n => some (s, pos, n)
  | fuel + 1, s, pos, data, n =>
    if data = [] then some (s, pos, n)
    else (createBlock s.zones.dev (s.zones.inode i) (pos / blockSize : Nat)).bind fun (d, ip, block) =>
      if block = 0 then some ({ s with zones := ⟨d, Function.update s.zones.inode i ip⟩ }, pos, n)
      else
        let c := min (blockSize - pos % blockSize) data.length
        fileWriteLoop i fuel
          { zones := ⟨d.putBytes block (pos % blockSize) (data.take c), Function.update s.zones.inode i ip⟩
            size := if pos + c > s.size i then Function.update s.size i (pos + c) else s.size }
          (pos + c) (data.drop c) (n + c)

/-- What a call gives back: its value, the `f_pos` it leaves and the bytes put into the caller's buffer. -/
structure Reply where
  ret : Int
  pos : Nat
  bytes : List UInt8

def fileWrite (s : FileSys) (i : Nat) (append : Bool) (pos : Nat) (data : List UInt8) : Option (FileSys × Reply) :=
  (fileWriteLoop i data.length s (if append then s.size i else pos) data 0).map fun (s, pos', n) =>
    (s, ⟨if n = 0 then -1 else n, if append then pos else pos', []⟩)

/-- The loop of `file_read`; `none` is a panic. -/
def fileReadLoop (s : FileSys) (i : Nat) : Nat → Nat → Nat → Option (Nat × List UInt8)
  | 0, pos, _ => some (pos, [])
  | fuel + 1, pos, left =>
    if left = 0 then some (pos, [])
    else (bmap s.zones.dev (s.zones.inode i) (pos / blockSize : Nat)).bind fun block =>
      let chars := min (blockSize - pos % blockSize) left
      let bytes := (List.range chars).map fun k => if block = 0 then 0 else s.zones.dev.byteAt block (pos % blockSize + k)
      (fileReadLoop s i fuel (pos + chars) (left - chars)).map fun (pos, rest) => (pos, bytes ++ rest)

def fileRead (s : FileSys) (i pos : Nat) (count : Int) : Option Reply :=
  if count ≤ 0 then some ⟨0, pos, []⟩
  else (fileReadLoop s i count.toNat pos count.toNat).map fun (pos', bytes) =>
    ⟨if bytes.length = 0 then -99 else bytes.length, pos', bytes⟩

/-- `sys_read` of a regular file. -/
def sysReadRegular (s : FileSys) (i pos : Nat) (count : Int) : Option Reply :=
  if count < 0 then some ⟨-22, pos, []⟩
  else if count = 0 then some ⟨0, pos, []⟩
  else
    let count := if count + pos > s.size i then (s.size i : Int) - pos else count
    if count ≤ 0 then some ⟨0, pos, []⟩ else fileRead s i pos count

def truncateFile (s : FileSys) (i : Nat) : Option FileSys :=
  (truncateZones s.zones.dev (s.zones.inode i)).map fun (d, ip) =>
    ⟨⟨d, Function.update s.zones.inode i ip⟩, Function.update s.size i 0⟩

namespace FileSys

def byte (s : FileSys) (i o : Nat) : UInt8 := s.zones.byte i o

/-- The end of the last block that an inode can name. -/
def maxSize : Nat := blockSize * maxFileBlocks

/-- Bytes have been stored into file `i` from `pos` on; everything else reads as before. -/
structure Stored (s s' : FileSys) (i pos : Nat) (bs : List UInt8) : Prop where
  sound : s'.zones.Sound
  byte : ∀ j o, s'.byte j o = if j = i ∧ pos ≤ o then (bs[o - pos]?).getD (s.byte j o) else s.byte j o
  size : ∀ j, s'.size j = if j = i ∧ bs ≠ [] then max (s.size i) (pos + bs.length) else s.size j
  fits : bs ≠ [] → pos + bs.length ≤ maxSize

end FileSys

variable {s s' t : FileSys} {i j n o pos fuel left : Nat} {bs cs data : List UInt8}

theorem FileSys.Stored.nil (h : s'.zones.Sound) (hb : ∀ j o, s'.byte j o = s.byte j o) (hs : s'.size = s.size) :
    s.Stored s' i pos [] := by
  refine ⟨h, fun j o => ?_, fun j => ?_, fun hne => absurd rfl hne⟩
  · rw [hb]
    split
    next => rfl
    next => rfl
  · rw [hs, if_neg fun hc => hc.2 rfl]

theorem FileSys.Stored.append (h : s.Stored t i pos bs) (h' : t.Stored s' i (pos + bs.length) cs) :
    s.Stored s' i pos (bs ++ cs) := by
  refine ⟨h'.sound, fun j o => ?_, fun j => ?_, fun hne => ?_⟩
  · rw [h'.byte, h.byte]
    by_cases hj : j = i
    · by_cases hlow : pos ≤ o
      · by_cases hmid : pos + bs.length ≤ o
        · rw [if_pos ⟨hj, hmid⟩, if_pos ⟨hj, hlow⟩, if_pos ⟨hj, hlow⟩]
          rw [List.getElem?_append_right (by omega), Nat.sub_sub,
            @List.getElem?_eq_none _ bs (o - pos) (by omega), Option.getD_none]
        · rw [if_neg (fun hc => hmid hc.2), if_pos ⟨hj, hlow⟩, if_pos ⟨hj, hlow⟩, List.getElem?_append_left (by omega)]
      · rw [if_neg (by omega), if_neg (fun hc => hlow hc.2), if_neg (fun hc => hlow hc.2)]
    · rw [if_neg fun hc => hj hc.1, if_neg fun hc => hj hc.1, if_neg fun hc => hj hc.1]
  · rw [h'.size, h.size, h.size]
    by_cases hj : j = i
    · subst hj
      by_cases hb : bs = []
      · subst hb
        simp only [List.nil_append, List.length_nil, Nat.add_zero, ne_eq, not_true_eq_false, and_false, if_false]
      · by_cases hc : cs = []
        · rw [hc, List.append_nil, if_neg (by simp), if_pos ⟨rfl, hb⟩]
        · rw [if_pos ⟨rfl, hc⟩, if_pos ⟨rfl, hb⟩, if_pos ⟨rfl, by simp [hb]⟩, List.length_append]
          omega
    · rw [if_neg fun hc => hj hc.1, if_neg fun hc => hj hc.1, if_neg fun hc => hj hc.1]
  · rw [List.length_append]
    by_cases hc : cs = []
    · subst hc
      rw [List.append_nil] at hne
      exact h.fits hne
    · have := h'.fits hc
      omega

/-- One round of `file_write` that gets its block. -/
theorem FileSys.stored_round {d : Device} {ip : ZoneInode} {block : Nat} (h : s.zones.Sound)
    (hn : pos / blockSize < maxFileBlocks)
    (hcreate : createBlock s.zones.dev (s.zones.inode i) (pos / blockSize : Nat) = some (d, ip, block)) (hblock : block ≠ 0)
    (hne : bs ≠ []) (hbs : pos % blockSize + bs.length ≤ blockSize) :
    s.Stored
      { zones := ⟨d.putBytes block (pos % blockSize) bs, Function.update s.zones.inode i ip⟩
        size := if pos + bs.length > s.size i then Function.update s.size i (pos + bs.length) else s.size } i pos bs := by
  obtain ⟨d', ip', r, hcreate', hspec⟩ := @ZoneFs.Sound.createBlock s.zones i (pos / blockSize) h hn
  rw [hcreate] at hcreate'
  cases hcreate'
  have hsound := hspec.sound
  have hlast : ZoneFs.zoneNr ⟨d, Function.update s.zones.inode i ip⟩ i (blockPos (pos / blockSize)) = block := hspec.last
  have hat : ZoneFs.zoneNr ⟨d, Function.update s.zones.inode i ip⟩ i (blockPos (pos / blockSize)) ≠ 0 := by
    rw [hlast]
    exact hblock
  have hstore := hsound.store blockPos_isData hat (@Device.putBytes_same d _ (pos % blockSize) bs)
  have hbyte := fun j o => @ZoneFs.Sound.store_byte _ i j (pos % blockSize) (pos / blockSize) o bs hsound hat
  dsimp only at hstore hbyte
  rw [hlast] at hstore hbyte
  unfold blockSize at *
  refine ⟨hstore, fun j o => ?_, fun j => ?_, fun _ => ?_⟩
  · refine (hbyte j o).trans ?_
    rw [hspec.grows.byte]
    by_cases hin : j = i ∧ o / 1024 = pos / 1024 ∧ pos % 1024 ≤ o % 1024
    · rw [if_pos hin, if_pos ⟨hin.1, by omega⟩, show o % 1024 - pos % 1024 = o - pos by omega]
      rfl
    · rw [if_neg hin]
      by_cases hlow : j = i ∧ pos ≤ o
      · rw [if_pos hlow, List.getElem?_eq_none (by omega), Option.getD_none]
        rfl
      · rw [if_neg hlow]
        rfl
  · dsimp only
    by_cases hgt : pos + bs.length > s.size i
    · rw [if_pos hgt]
      by_cases hj : j = i
      · rw [hj, Function.update_self, if_pos ⟨rfl, hne⟩]
        omega
      · rw [Function.update_of_ne hj, if_neg fun hc => hj hc.1]
    · rw [if_neg hgt]
      split
      next hj =>
        rw [hj.1]
        omega
      next => rfl
  · unfold maxSize blockSize
    omega

/-- `file_write` stores the beginning of the data, all of it unless the zones run out. -/
theorem FileSys.fileWriteLoop_spec (h : s.zones.Sound) (hfuel : data.length ≤ fuel) :
    (pos + data.length ≤ maxSize → (fileWriteLoop i fuel s pos data n).isSome) ∧
    ∀ s' pos' n', fileWriteLoop i fuel s pos data n = some (s', pos', n') →
      ∃ k ≤ data.length, n' = n + k ∧ pos' = pos + k ∧ s.Stored s' i pos (data.take k) ∧
        (k < data.length → s'.zones.dev.freeZones = 0) := by
  induction fuel generalizing s pos data n with
  | zero =>
    refine ⟨fun _ => rfl, fun s' pos' n' hw => ?_⟩
    cases hw
    exact ⟨0, Nat.zero_le _, rfl, rfl, .nil h (fun _ _ => rfl) rfl, fun hlt => by omega⟩
  | succ fuel ih =>
    unfold fileWriteLoop
    by_cases hdata : data = []
    · rw [if_pos hdata]
      refine ⟨fun _ => rfl, fun s' pos' n' hw => ?_⟩
      cases hw
      refine ⟨0, Nat.zero_le _, rfl, rfl, .nil h (fun _ _ => rfl) rfl, fun hlt => ?_⟩
      rw [hdata] at hlt
      exact absurd hlt (Nat.lt_irrefl _)
    · rw [if_neg hdata]
      have hlen : 0 < data.length := List.length_pos_of_ne_nil hdata
      by_cases hn : pos / blockSize < maxFileBlocks
      · obtain ⟨d, ip, block, hcreate, hspec⟩ := @ZoneFs.Sound.createBlock s.zones i (pos / blockSize) h hn
        rw [hcreate]
        dsimp only [Option.bind_some]
        by_cases hblock : block = 0
        · rw [if_pos hblock]
          subst hblock
          refine ⟨fun _ => rfl, fun s' pos' n' hw => ?_⟩
          cases hw
          have hstored : s.Stored { s with zones := ⟨d, Function.update s.zones.inode i ip⟩ } i pos [] :=
            .nil hspec.sound (fun _ _ => hspec.grows.byte) rfl
          exact ⟨0, Nat.zero_le _, rfl, rfl, hstored, fun _ => h.createBlock_dry hn hcreate⟩
        · rw [if_neg hblock]
          generalize hc : min (blockSize - pos % blockSize) data.length = c
          have hsize : pos % blockSize < blockSize := Nat.mod_lt _ (by decide)
          have htake : (data.take c).length = c := by
            rw [List.length_take]
            omega
          have hround := @stored_round s i pos (data.take c) d ip block h hn hcreate hblock
            (List.ne_nil_of_length_pos (by omega)) (by omega)
          rw [htake] at hround
          obtain ⟨hsome, hrest⟩ := @ih _ (n + c) (pos + c) (data.drop c) hround.sound (by rw [List.length_drop]; omega)
          refine ⟨fun hfit => hsome (by rw [List.length_drop]; omega), fun s' pos' n' hw => ?_⟩
          obtain ⟨k, hk, hn', hpos', hstored, hdry⟩ := hrest s' pos' n' hw
          rw [List.length_drop] at hk hdry
          refine ⟨c + k, by omega, by omega, by omega, ?_, fun hlt => hdry (by omega)⟩
          rw [List.take_add]
          refine hround.append ?_
          rw [htake]
          exact hstored
      · have hnone : createBlock s.zones.dev (s.zones.inode i) (pos / blockSize : Nat) = none := by
          unfold createBlock bmapCore
          rw [if_neg (by omega), if_pos (by omega)]
        rw [hnone]
        refine ⟨fun hfit => ?_, fun _ _ _ hw => nomatch hw⟩
        unfold maxSize blockSize at *
        omega

theorem FileSys.bmap_byte {k : Nat} (hn : pos / blockSize < maxFileBlocks) (hk : pos % blockSize + k < blockSize) :
    ∃ block, bmap s.zones.dev (s.zones.inode i) (pos / blockSize : Nat) = some block ∧
      (if block = 0 then 0 else s.zones.dev.byteAt block (pos % blockSize + k)) = s.byte i (pos + k) := by
  refine ⟨s.zones.zoneNr i (blockPos (pos / blockSize)), (bmap_eq hn).trans (congrArg some (zoneOf_eq hn)), ?_⟩
  unfold blockSize at *
  unfold byte ZoneFs.byte
  rw [show (pos + k) / 1024 = pos / 1024 by omega, show (pos + k) % 1024 = pos % 1024 + k by omega]

/-- `file_read` delivers the bytes of the file, holes as zeros. -/
theorem FileSys.fileReadLoop_spec (hfit : pos + left ≤ maxSize) (hfuel : left ≤ fuel) :
    fileReadLoop s i fuel pos left = some (pos + left, (List.range left).map fun k => s.byte i (pos + k)) := by
  induction fuel generalizing pos left with
  | zero =>
    have hleft : left = 0 := by omega
    rw [hleft]
    rfl
  | succ fuel ih =>
    unfold fileReadLoop
    by_cases hleft : left = 0
    · rw [if_pos hleft, hleft]
      rfl
    · rw [if_neg hleft]
      have hsize : pos % blockSize < blockSize := Nat.mod_lt _ (by decide)
      have hn : pos / blockSize < maxFileBlocks := by
        unfold maxSize blockSize at *
        omega
      obtain ⟨block, hmap, _⟩ := @bmap_byte s i pos 0 hn (by omega)
      rw [hmap]
      dsimp only [Option.bind_some]
      generalize hc : min (blockSize - pos % blockSize) left = c
      have hchunk : ((List.range c).map fun k => if block = 0 then 0 else s.zones.dev.byteAt block (pos % blockSize + k)) =
          (List.range c).map fun k => s.byte i (pos + k) := by
        refine List.map_congr_left fun k hk => ?_
        rw [List.mem_range] at hk
        obtain ⟨block', hmap', hbyte⟩ := @bmap_byte s i pos k hn (by omega)
        rw [hmap] at hmap'
        cases hmap'
        exact hbyte
      rw [hchunk, @ih (pos + c) (left - c) (by omega) (by omega), Option.map_some]
      obtain ⟨r, rfl⟩ : ∃ r, left = c + r := ⟨left - c, by omega⟩
      rw [Nat.add_sub_cancel_left, List.range_add, List.map_append, List.map_map, Nat.add_assoc]
      simp only [Function.comp_def, Nat.add_assoc]

theorem FileSys.sysReadRegular_spec {count : Int} (hcount : 0 ≤ count) (hsize : s.size i ≤ maxSize)
    (hn : n = min count.toNat (s.size i - pos)) :
    sysReadRegular s i pos count = some ⟨n, pos + n, (List.range n).map fun k => s.byte i (pos + k)⟩ := by
  unfold sysReadRegular
  rw [if_neg (by omega)]
  by_cases hzero : count = 0
  · have hn0 : n = 0 := by omega
    rw [if_pos hzero, hn0]
    rfl
  · rw [if_neg hzero]
    have hclamp : (if count + pos > s.size i then (s.size i : Int) - pos else count) ≤ 0 ∧ n = 0 ∨
        (if count + pos > s.size i then (s.size i : Int) - pos else count) = n ∧ 0 < n := by
      split <;> omega
    dsimp only
    rcases hclamp with ⟨hle, hn0⟩ | ⟨heq, hpos⟩
    · rw [if_pos hle, hn0]
      rfl
    · rw [heq, if_neg (by omega)]
      unfold fileRead
      rw [if_neg (by omega), Int.toNat_natCast, fileReadLoop_spec (by omega) le_rfl, Option.map_some]
      dsimp only
      rw [List.length_map, List.length_range, if_neg (by omega)]

theorem FileSys.truncate_spec (h : s.zones.Sound) :
    ∃ s', truncateFile s i = some s' ∧ s'.zones.Sound ∧ (∀ j, s'.size j = if j = i then 0 else s.size j) ∧
      ∀ j o, s'.byte j o = if j = i then 0 else s.byte j o := by
  obtain ⟨d', ip', htrunc, hc, hz⟩ := @ZoneFs.Sound.truncateZones s.zones i h
  obtain ⟨hsound, _, hnr⟩ := h.truncate hc hz
  refine ⟨⟨⟨d', Function.update s.zones.inode i ip'⟩, Function.update s.size i 0⟩, ?_, hsound, fun j => ?_, fun j o => ?_⟩
  · unfold truncateFile
    rw [htrunc, Option.map_some]
  · dsimp only
    by_cases hj : j = i
    · rw [hj, Function.update_self, if_pos rfl]
    · rw [Function.update_of_ne hj, if_neg hj]
  · unfold byte ZoneFs.byte
    dsimp only
    rw [hnr]
    by_cases hj : j = i
    · rw [if_pos hj, if_pos hj, if_pos rfl]
    · rw [if_neg hj, if_neg hj]
      unfold Device.byteAt
      rw [hc.word]

end RheeKernel
