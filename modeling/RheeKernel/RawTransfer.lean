import RheeKernel.RawDevice

open ByteMemory

namespace RheeKernel

/-- A copy within the block of a buffer, with the number that the buffer has. -/
structure RawSpan where
  block : Nat
  offset : Nat
  chars : Nat
deriving DecidableEq

/-- What a call leaves: the memory of the kernel and of the process, `*pos`, the value returned and the copies made. -/
structure RawEnd where
  sys : RawSys
  user : Nat → UInt8
  pos : Nat
  ret : Int
  spans : List RawSpan

/-- The inner loop of `block_read` or `block_write`: so many bytes between the address in the kernel and the one in the process. -/
abbrev RawMove := Nat → Nat → Nat → RawSys → (Nat → UInt8) → RawSys × (Nat → UInt8)

def putChars : RawMove := fun chars p buf s user => (s, s.copyOut chars p buf user)

def getChars : RawMove := fun chars p buf s user => (RawSys.copyIn user chars p buf s, user)

/-- `bh->b_dirt = 1; brelse(bh);` -/
def RawSys.release (s : RawSys) (i : Nat) : Option RawSys :=
  ((s.cache.setBh i { s.cache.bh i with bDirt := true }).brelse i).map fun c => { s with cache := c }

/-- The loop that `block_read` and `block_write` share; a turn takes at least one byte of `count`, which bounds the turns.
`none` is a panic. The position of a file is a `long` that is not negative. -/
def rawLoop (move : RawMove) (dev : Nat) : Nat → Nat → Nat → Nat → Nat → Nat → Nat → RawSys → (Nat → UInt8) → Option RawEnd
  | 0, _, _, pos, _, done, _, s, user => some ⟨s, user, pos, done, []⟩
  | turns + 1, block, offset, pos, buf, done, count, s, user =>
    if count = 0 then some ⟨s, user, pos, done, []⟩
    else (Raw.bread s.cache dev block).bind fun
      | (c, none) => some ⟨{ s with cache := c }, user, pos, if done = 0 then -5 else done, []⟩
      | (c, some i) =>
        let moved := move (min count 1024) (offset + bufferAddr i) buf { s with cache := c } user
        (moved.1.release i).bind fun s =>
          (rawLoop move dev turns (block + 1) 0 ((pos + min count 1024) % 2 ^ 32) (buf + min count 1024) (done + min count 1024)
            (count - min count 1024) s moved.2).map fun r =>
              { r with spans := ⟨(c.bh i).bBlocknr, offset, min count 1024⟩ :: r.spans }

def blockRead (s : RawSys) (dev pos buf : Nat) (count : Int) (user : Nat → UInt8) : Option RawEnd :=
  rawLoop putChars dev count.toNat (pos / 1024) (pos % 1024) pos buf 0 count.toNat s user

def blockWrite (s : RawSys) (dev pos buf : Nat) (count : Int) (user : Nat → UInt8) : Option RawEnd :=
  rawLoop getChars dev count.toNat (pos / 1024) (pos % 1024) pos buf 0 count.toNat s user

/-- The number of blocks of a hard disk or partition. -/
def SyncSys.blocks (s : SyncSys) (dev : Nat) : Nat := if dev % 256 < 5 * nrHd then (s.hd (dev % 256)).nrSects / 2 else 0

/-- The data of a block as the cache has them, from the buffer or from the disk. -/
def SyncSys.view (s : SyncSys) (dev block : Nat) : Nat → UInt8 :=
  match (List.range s.nrBuffers).find? fun i => (s.bh i).bDev == dev && (s.bh i).bBlocknr == block && (s.bh i).bUptodate with
  | some i => (s.bh i).bData
  | none => s.disk dev block

/-- The byte at a position of the device. -/
def RawSys.byte (s : RawSys) (dev p : Nat) : UInt8 := s.cache.view dev (p / 1024) (p % 1024)

/-- The copies go through the positions one after the other, each within its block. -/
def Tiles : Nat → List RawSpan → Nat → Prop
  | pos, [], last => pos = last
  | pos, span :: spans, last =>
    1024 * span.block + span.offset = pos ∧ span.offset + span.chars ≤ 1024 ∧ Tiles (pos + span.chars) spans last

/-- The value to be returned: what there is of `count` bytes, or `-EIO` at the end of the device. -/
def rawCount (size pos : Nat) (count : Int) : Int :=
  if count ≤ 0 then 0 else if 1024 * size ≤ pos then -5 else min count (1024 * size - pos)

/-- What both calls do: the value returned, the position, and no copy outside of a block or of the range. -/
structure Transferred (s : RawSys) (dev pos : Nat) (count : Int) (r : RawEnd) : Prop where
  ret : r.ret = rawCount (s.cache.blocks dev) pos count
  advance : r.pos = pos + r.ret.toNat
  tiles : Tiles pos r.spans (pos + r.ret.toNat)
  mem : r.sys.mem = s.mem

/-- `block_read` delivers the bytes of the device from `pos` on, and changes nothing else. -/
def ReadExact (s : RawSys) (dev pos : Nat) (count : Int) : Prop :=
  ∀ buf user, ∃ r, blockRead s dev pos buf count user = some r ∧ Transferred s dev pos count r ∧
    (∀ k < r.ret.toNat, r.user (buf + k) = s.byte dev (pos + k)) ∧ (∀ a, a < buf ∨ buf + r.ret.toNat ≤ a → r.user a = user a) ∧
    ∀ d p, s.cache.OnDisk d (p / 1024) → r.sys.byte d p = s.byte d p

/-- `block_write` stores its data from `pos` on, and changes nothing else. -/
def WriteExact (s : RawSys) (dev pos : Nat) (count : Int) : Prop :=
  ∀ buf user, ∃ r, blockWrite s dev pos buf count user = some r ∧ Transferred s dev pos count r ∧ r.user = user ∧
    (∀ k < r.ret.toNat, r.sys.byte dev (pos + k) = user (buf + k)) ∧
    ∀ d p, s.cache.OnDisk d (p / 1024) → ¬ (d = dev ∧ pos ≤ p ∧ p < pos + r.ret.toNat) → r.sys.byte d p = s.byte d p

/-- A `block_read` at the place of a `block_write` gets what that one has stored. -/
def ReadBack (s : RawSys) (dev pos : Nat) (count : Int) : Prop :=
  ∀ buf user r, blockWrite s dev pos buf count user = some r → ∀ buf' user', ∃ r',
    blockRead r.sys dev pos buf' count user' = some r' ∧ r'.ret = r.ret ∧
    ∀ k < r.ret.toNat, r'.user (buf' + k) = user (buf + k)

/-- Nothing is to be copied; or the first block is not found; or the copy fits into the first block, and the numbers of all blocks that
are reached fit into a buffer head. -/
def RawFits (size pos : Nat) (count : Int) : Prop :=
  count ≤ 0 ∨ size ≤ ushort (pos / 1024) ∨
    ((pos % 1024 : Nat) + min count 1024 ≤ 1024 ∧ (pos + count ≤ 2 ^ 26 ∨ pos < 2 ^ 26 ∧ size < 65536))

instance {size pos : Nat} {count : Int} : Decidable (RawFits size pos count) := inferInstanceAs (Decidable (_ ∨ _ ∨ _))

/-- A block with the bytes of a range of the device replaced. -/
def overwritten (dev pos n : Nat) (src : Nat → UInt8) (d b : Nat) (v : Nat → UInt8) : Nat → UInt8 := fun o =>
  if d = dev ∧ o < 1024 ∧ pos ≤ 1024 * b + o ∧ 1024 * b + o < pos + n then src (1024 * b + o - pos) else v o

variable {s s' : RawSys} {move : RawMove} {i dev block pos buf n o size turns offset done count last : Nat} {user v : Nat → UInt8}
  {r : RawEnd} {c : SyncSys} {spans : List RawSpan}

namespace SyncSys

theorem onDisk_iff (hdev : dev / 256 = 3) : c.OnDisk dev block ↔ block < c.blocks dev := by
  unfold OnDisk blocks
  split
  next hlt =>
    constructor
    · intro h
      have := h.2.2
      omega
    · intro h
      exact ⟨hdev, hlt, by omega⟩
  next hge =>
    constructor
    · intro h
      exact absurd h.2.1 hge
    · intro h
      omega

theorem contents_view : c.Contents dev block (c.view dev block) := by
  unfold view
  cases hfind : (List.range c.nrBuffers).find? fun i =>
      (c.bh i).bDev == dev && (c.bh i).bBlocknr == block && (c.bh i).bUptodate with
  | some i =>
    have hi := List.mem_range.mp (List.mem_of_find?_eq_some hfind)
    have htags := List.find?_some hfind
    simp only [Bool.and_eq_true, beq_iff_eq] at htags
    exact .inl ⟨i, ⟨hi, htags.1.1, htags.1.2⟩, htags.2, rfl⟩
  | none =>
    refine .inr ⟨fun i hi => ?_, rfl⟩
    have hnot := List.find?_eq_none.mp hfind i (List.mem_range.mpr hi.1)
    simpa [hi.2.1, hi.2.2] using hnot

theorem Coherent.view_eq (h : c.Coherent) (hon : c.OnDisk dev block) (hv : c.Contents dev block v) : c.view dev block = v :=
  h.contents_unique hon contents_view hv

end SyncSys

/-- A block gets new data, and every other block holds what it held. -/
structure Turned (s s' : RawSys) (dev block : Nat) (w : Nat → UInt8) : Prop where
  steady : s'.cache.Steady
  mem : s'.mem = s.mem
  hd : s'.cache.hd = s.cache.hd
  contents : s'.cache.Contents dev block w
  others : ∀ d b v, s.cache.OnDisk d b → ¬ (d = dev ∧ b = block) → s.cache.Contents d b v → s'.cache.Contents d b v

/-- A turn of the loop, up to the copy, and what the rest of it makes of any copy within the block. -/
theorem Raw.turn (h : s.cache.Steady) (hon : s.cache.OnDisk dev block) (hb : block < 65536) :
    ∃ c i, Raw.bread s.cache dev block = some (c, some i) ∧ i < c.nrBuffers ∧ c.nrBuffers ≤ maxBuffers ∧
      (c.bh i).bBlocknr = block ∧ (c.bh i).bData = s.cache.view dev block ∧
      ∀ w, ∃ s', (RawSys.setData { s with cache := c } i w).release i = some s' ∧ Turned s s' dev block w := by
  obtain ⟨c, i, hread, hc, hlist, hkeeps, hof, hup, hdata, htag, hcount⟩ := h.bread hon hb SyncSys.contents_view
  have hroom : c.nrBuffers ≤ maxBuffers := by
    rw [hkeeps.nrBuffers]
    exact h.room
  refine ⟨c, i, hread, hof.1, hroom, hof.2.2, hdata, fun w => ?_⟩
  have hone : (c.bh i).bCount = (s.cache.bh i).bCount + 1 := by rw [hcount, if_pos rfl]
  generalize hu : ((RawSys.setData { s with cache := c } i w).cache.setBh i
    { (RawSys.setData { s with cache := c } i w).cache.bh i with bDirt := true }) = u
  have hubh : ∀ j, u.bh j = if j = i then { c.bh i with bData := w, bDirt := true } else c.bh j := by
    intro j
    rw [← hu]
    change Function.update _ i _ j = _
    rw [Function.update_apply, RawSys.setData_bh, if_pos rfl, RawSys.setData_bh]
    split
    next => rfl
    next => rfl
  have hrel : u.brelse i = some (u.recount i (s.cache.bh i).bCount u.freeList) := by
    unfold SyncSys.brelse
    rw [hubh, if_pos rfl]
    dsimp only
    rw [if_neg (by omega), hone, Nat.add_sub_cancel]
    unfold SyncSys.recount
    rw [hubh i, if_pos rfl]
    rfl
  have hbh : ∀ j, (u.recount i (s.cache.bh i).bCount u.freeList).bh j =
      if j = i then { c.bh i with bData := w, bDirt := true, bCount := (s.cache.bh i).bCount } else c.bh j := by
    intro j
    rw [SyncSys.recount_bh, hubh i, if_pos rfl, hubh j]
    split
    next => rfl
    next => rfl
  have hon' := (SyncSys.OnDisk.congr hkeeps.hd).mpr hon
  obtain ⟨hcoh, hnew, hrest⟩ := hc.store hof hon' hup hbh
    (by rw [← hu]; rfl) (by rw [← hu]; rfl) (by rw [← hu]; rfl)
  refine ⟨{ s with cache := u.recount i (s.cache.bh i).bCount u.freeList }, ?_, ⟨⟨hcoh, ⟨?_, ?_, ?_⟩, ⟨fun j hj hup' => ?_, fun j => ?_⟩,
    fun j => ?_, ?_⟩, rfl, ?_, hnew, fun d b v hdb hne hv => ?_⟩⟩
  · unfold RawSys.release
    rw [hu, hrel]
    rfl
  · rw [← hu]
    exact hlist.pos
  · rw [← hu]
    exact hlist.mem
  · rw [← hu]
    exact hlist.distinct
  · have hhd : (u.recount i (s.cache.bh i).bCount u.freeList).hd = c.hd := by rw [← hu]; rfl
    rw [SyncSys.OnDisk.congr hhd]
    rw [hbh] at hj hup' ⊢
    split
    next hji =>
      rw [if_pos hji] at hj hup'
      exact htag.served i hj hup'
    next hji =>
      rw [if_neg hji] at hj hup'
      exact htag.served j hj hup'
  · rw [hbh]
    split
    next => exact htag.short i
    next => exact htag.short j
  · rw [hbh]
    split
    next => exact h.counts i
    next hji =>
      rw [hcount, if_neg hji]
      exact h.counts j
  · rw [← hu]
    exact hroom
  · rw [← hu]
    exact hkeeps.hd
  · exact hrest d b v ((SyncSys.OnDisk.congr hkeeps.hd).mpr hdb) hne (hkeeps.contents d b v hdb hv)

/-- The copy changes the data of the buffer and the memory of the process by these functions of the two. -/
def Transfers (move : RawMove) (data newUser : (Nat → UInt8) → (Nat → UInt8) → Nat → Nat → Nat → Nat → UInt8) : Prop :=
  ∀ (s : RawSys) (i o n buf : Nat) (user : Nat → UInt8), s.cache.nrBuffers ≤ maxBuffers → i < s.cache.nrBuffers → o + n ≤ 1024 →
    move n (o + bufferAddr i) buf s user =
      (s.setData i (data (s.cache.bh i).bData user o n buf), newUser (s.cache.bh i).bData user o n buf)

theorem putChars_moves : Transfers putChars (fun data _ _ _ _ => data)
    fun data user o n buf => patch (ByteMemory.block (fun k => data (o + k)) buf n) user := by
  intro s i o n buf user hn hi ho
  have hset : s.setData i (s.cache.bh i).bData = s := by
    unfold RawSys.setData SyncSys.setBh
    rw [Function.update_eq_self]
  unfold putChars
  rw [Nat.add_comm o, RawSys.copyOut_eq hn hi ho, hset]

theorem getChars_moves : Transfers getChars (fun data user o n buf => patch (ByteMemory.block (fun k => user (buf + k)) o n) data)
    fun _ user _ _ _ => user := by
  intro s i o n buf user hn hi ho
  unfold getChars
  rw [Nat.add_comm o, RawSys.copyIn_eq hn hi ho]

theorem SyncSys.blocks_congr {c' : SyncSys} (h : c'.hd = c.hd) : c'.blocks dev = c.blocks dev := by
  unfold SyncSys.blocks
  rw [h]

/-- A turn that finds its block and copies within it. -/
theorem rawLoop_turn {data newUser : (Nat → UInt8) → (Nat → UInt8) → Nat → Nat → Nat → Nat → UInt8} (hmove : Transfers move data newUser)
    (h : s.cache.Steady) (hon : s.cache.OnDisk dev block) (hb : block < 65536) (hcount : 0 < count)
    (hfit : offset + min count 1024 ≤ 1024) :
    ∃ s', Turned s s' dev block (data (s.cache.view dev block) user offset (min count 1024) buf) ∧
      rawLoop move dev (turns + 1) block offset pos buf done count s user =
        (rawLoop move dev turns (block + 1) 0 ((pos + min count 1024) % 2 ^ 32) (buf + min count 1024) (done + min count 1024)
          (count - min count 1024) s' (newUser (s.cache.view dev block) user offset (min count 1024) buf)).map fun r =>
            { r with spans := ⟨block, offset, min count 1024⟩ :: r.spans } := by
  obtain ⟨c, i, hread, hi, hroom, hnr, hdata, hrel⟩ := Raw.turn h hon hb
  have hmoved := hmove { s with cache := c } i offset (min count 1024) buf user hroom hi hfit
  dsimp only at hmoved
  rw [hdata] at hmoved
  obtain ⟨s', hs', ht⟩ := hrel (data (s.cache.view dev block) user offset (min count 1024) buf)
  refine ⟨s', ht, ?_⟩
  conv => lhs; unfold rawLoop
  rw [if_neg (by omega), hread, Option.bind_some]
  dsimp only
  rw [hmoved]
  dsimp only
  rw [hs', Option.bind_some, hnr]

/-- The run of the loop. What holds after `d` bytes is carried from turn to turn; the copies stay in their blocks, and the blocks
have numbers that fit into a buffer head. -/
theorem rawLoop_run {data newUser : (Nat → UInt8) → (Nat → UInt8) → Nat → Nat → Nat → Nat → UInt8} {start base : Nat}
    {Q : Nat → RawSys → (Nat → UInt8) → Prop} (hmove : Transfers move data newUser) (hdev : dev / 256 = 3)
    (hstep : ∀ s s' user block offset n d, s.cache.Steady → s.cache.OnDisk dev block → offset + n ≤ 1024 →
      1024 * block + offset = start + d → Turned s s' dev block (data (s.cache.view dev block) user offset n (base + d)) →
      Q d s user → Q (d + n) s' (newUser (s.cache.view dev block) user offset n (base + d)))
    (habsent : ∀ s s' user d, s'.mem = s.mem → SyncSys.Keeps s.cache s'.cache → Q d s user → Q d s' user)
    (ht : count ≤ turns) (h : s.cache.Steady) (hsize : s.cache.blocks dev = size)
    (hplace : count = 0 ∨ 1024 * block + offset = start + done ∧ offset + min count 1024 ≤ 1024)
    (hsmall : start + done + count ≤ 2 ^ 26 ∨ size < 65536 ∧ start + done < 2 ^ 26) (hQ : Q done s user) :
    ∃ r, rawLoop move dev turns block offset (start + done) (base + done) done count s user = some r ∧
      r.ret = (if count ≠ 0 ∧ done = 0 ∧ 1024 * size ≤ start + done then -5 else
        ((done + min count (1024 * size - (start + done)) : Nat) : Int)) ∧
      r.pos = start + done + min count (1024 * size - (start + done)) ∧
      Tiles (start + done) r.spans (start + done + min count (1024 * size - (start + done))) ∧
      r.sys.cache.Steady ∧ r.sys.cache.blocks dev = size ∧ Q (done + min count (1024 * size - (start + done))) r.sys r.user := by
  induction turns generalizing block offset done count s user with
  | zero =>
    have hzero : count = 0 := by omega
    subst hzero
    refine ⟨⟨s, user, start + done, done, []⟩, rfl, ?_, ?_, ?_, h, hsize, ?_⟩
    · simp
    · simp
    · simp [Tiles]
    · simpa using hQ
  | succ turns ih =>
    by_cases hzero : count = 0
    · subst hzero
      refine ⟨⟨s, user, start + done, done, []⟩, ?_, ?_, ?_, ?_, h, hsize, ?_⟩
      · unfold rawLoop
        rw [if_pos rfl]
      · simp
      · simp
      · simp [Tiles]
      · simpa using hQ
    · obtain ⟨hpos, hfit⟩ := hplace.resolve_left hzero
      have hb : block < 65536 := by omega
      by_cases hin : block < size
      · have hon : s.cache.OnDisk dev block := (SyncSys.onDisk_iff hdev).mpr (hsize ▸ hin)
        obtain ⟨s', hs', hloop⟩ := @rawLoop_turn s move dev block (start + done) (base + done) turns offset done count user data newUser
          hmove h hon hb (by omega) hfit
        have hQ' := hstep s s' user block offset (min count 1024) done h hon hfit hpos hs' hQ
        generalize hn : min count 1024 = n at *
        have hsum : (start + done + n) % 2 ^ 32 = start + (done + n) := by
          rw [Nat.mod_eq_of_lt (by omega)]
          omega
        rw [hloop, hsum, Nat.add_assoc base]
        have hplace' : count - n = 0 ∨ 1024 * (block + 1) + 0 = start + (done + n) ∧ 0 + min (count - n) 1024 ≤ 1024 := by omega
        obtain ⟨r, hr, hret, hp, htiles, hst, hsz, hQr⟩ := ih (by omega) hs'.steady ((SyncSys.blocks_congr hs'.hd).trans hsize)
          hplace' (by omega) hQ'
        have hgot : n + min (count - n) (1024 * size - (start + (done + n))) = min count (1024 * size - (start + done)) := by omega
        rw [hr]
        refine ⟨_, rfl, ?_, ?_, ⟨hpos, hfit, ?_⟩, hst, hsz, ?_⟩
        · dsimp only
          rw [hret, if_neg (by omega), if_neg (by omega), Nat.add_assoc, hgot]
        · dsimp only
          rw [hp]
          omega
        · dsimp only
          rw [Nat.add_assoc start, show start + done + min count (1024 * size - (start + done)) =
            start + (done + n) + min (count - n) (1024 * size - (start + (done + n))) by omega]
          exact htiles
        · rw [← hgot, ← Nat.add_assoc]
          exact hQr
      · have hoff : ¬ s.cache.OnDisk dev (ushort block) := by
          rw [ushort, Nat.mod_eq_of_lt hb, SyncSys.onDisk_iff hdev, hsize]
          exact hin
        obtain ⟨c, hread, hst, hkeeps⟩ := h.bread_absent hdev hoff
        have hnone : min count (1024 * size - (start + done)) = 0 := by omega
        rw [hnone]
        refine ⟨⟨{ s with cache := c }, user, start + done, if done = 0 then -5 else done, []⟩, ?_, ?_, rfl, rfl, hst,
          (SyncSys.blocks_congr hkeeps.hd).trans hsize, habsent s { s with cache := c } user done rfl hkeeps hQ⟩
        · unfold rawLoop
          rw [if_neg hzero, hread]
          rfl
        · dsimp only
          by_cases hd : done = 0
          · rw [if_pos hd, if_pos ⟨hzero, hd, by omega⟩]
          · rw [if_neg hd, if_neg (by omega), Nat.add_zero]

theorem overwritten_other {src : Nat → UInt8} {d b : Nat} (h : ¬ (d = dev ∧ b = block)) (ho : o + n ≤ 1024)
    (hp : 1024 * block + o = pos + done) :
    overwritten dev pos (done + n) src d b v = overwritten dev pos done src d b v := by
  funext x
  unfold overwritten
  by_cases hx : d = dev ∧ x < 1024 ∧ pos ≤ 1024 * b + x ∧ 1024 * b + x < pos + done
  · rw [if_pos hx, if_pos ⟨hx.1, hx.2.1, hx.2.2.1, by omega⟩]
  · have hne : ¬ (d = dev ∧ x < 1024 ∧ pos ≤ 1024 * b + x ∧ 1024 * b + x < pos + (done + n)) := by
      rintro ⟨hd, hlt, hlo, hhi⟩
      have hb : b ≠ block := fun hb => h ⟨hd, hb⟩
      have hge : ¬ 1024 * b + x < pos + done := fun hc => hx ⟨hd, hlt, hlo, hc⟩
      omega
    rw [if_neg hx, if_neg hne]

theorem overwritten_patch {src : Nat → UInt8} (ho : o + n ≤ 1024) (hp : 1024 * block + o = pos + done) :
    patch (ByteMemory.block (fun k => src (done + k)) o n) (overwritten dev pos done src dev block v) =
      overwritten dev pos (done + n) src dev block v := by
  funext x
  by_cases hx : o ≤ x ∧ x < o + n
  · have hk : x = o + (x - o) := by omega
    rw [patch_some (hk ▸ block_inside (by omega))]
    unfold overwritten
    rw [if_pos ⟨rfl, by omega, by omega, by omega⟩, show 1024 * block + x - pos = done + (x - o) by omega]
  · rw [patch_none (if_neg hx)]
    unfold overwritten
    by_cases hin : x < 1024 ∧ pos ≤ 1024 * block + x ∧ 1024 * block + x < pos + done
    · rw [if_pos ⟨rfl, hin⟩, if_pos ⟨rfl, hin.1, hin.2.1, by omega⟩]
    · rw [if_neg fun hc => hin hc.2, if_neg]
      rintro ⟨-, hlt, hlo, hhi⟩
      exact hin ⟨hlt, hlo, by omega⟩

/-- What a run of `block_read` has done after `d` bytes. -/
structure ReadSoFar (s : RawSys) (dev pos buf : Nat) (user : Nat → UInt8) (d : Nat) (s' : RawSys) (u : Nat → UInt8) : Prop where
  mem : s'.mem = s.mem
  hd : s'.cache.hd = s.cache.hd
  contents : ∀ d b v, s.cache.OnDisk d b → s.cache.Contents d b v → s'.cache.Contents d b v
  user : u = patch (ByteMemory.block (fun k => s.byte dev (pos + k)) buf d) user

/-- What a run of `block_write` has done after `n` bytes. -/
structure WrittenSoFar (s : RawSys) (dev pos buf : Nat) (user : Nat → UInt8) (n : Nat) (s' : RawSys) (u : Nat → UInt8) : Prop where
  mem : s'.mem = s.mem
  hd : s'.cache.hd = s.cache.hd
  contents : ∀ d b v, s.cache.OnDisk d b → s.cache.Contents d b v →
    s'.cache.Contents d b (overwritten dev pos n (fun k => user (buf + k)) d b v)
  user : u = user

theorem ReadSoFar.step {t t' : RawSys} {u : Nat → UInt8} (hst : t.cache.Steady) (hon : t.cache.OnDisk dev block)
    (ho : o + n ≤ 1024) (hp : 1024 * block + o = pos + done) (ht : Turned t t' dev block (t.cache.view dev block))
    (h : ReadSoFar s dev pos buf user done t u) : ReadSoFar s dev pos buf user (done + n) t'
      (patch (ByteMemory.block (fun k => t.cache.view dev block (o + k)) (buf + done) n) u) := by
  have hon' : ∀ {d b}, s.cache.OnDisk d b → t.cache.OnDisk d b := fun hon => (SyncSys.OnDisk.congr h.hd).mpr hon
  refine ⟨ht.mem.trans h.mem, ht.hd.trans h.hd, fun d b v hdb hv => ?_, ?_⟩
  · have hv' := h.contents d b v hdb hv
    by_cases hsame : d = dev ∧ b = block
    · obtain ⟨rfl, rfl⟩ := hsame
      rw [← hst.view_eq hon hv']
      exact ht.contents
    · exact ht.others d b v (hon' hdb) hsame hv'
  · have hview : t.cache.view dev block = s.cache.view dev block :=
      hst.view_eq hon (h.contents dev block _ ((SyncSys.OnDisk.congr h.hd).mp hon) SyncSys.contents_view)
    have hbytes : ∀ k < n, t.cache.view dev block (o + k) = s.byte dev (pos + (done + k)) := by
      intro k hk
      unfold RawSys.byte
      rw [hview, show (pos + (done + k)) / 1024 = block by omega, show (pos + (done + k)) % 1024 = o + k by omega]
    rw [block_congr hbytes, h.user, patch_patch]
    congr 1
    exact @block_append buf (fun k => s.byte dev (pos + k)) done n

theorem WrittenSoFar.step {t t' : RawSys} {u : Nat → UInt8} (hst : t.cache.Steady) (hon : t.cache.OnDisk dev block)
    (ho : o + n ≤ 1024) (hp : 1024 * block + o = pos + done)
    (ht : Turned t t' dev block (patch (ByteMemory.block (fun k => u (buf + done + k)) o n) (t.cache.view dev block)))
    (h : WrittenSoFar s dev pos buf user done t u) : WrittenSoFar s dev pos buf user (done + n) t' u := by
  refine ⟨ht.mem.trans h.mem, ht.hd.trans h.hd, fun d b v hdb hv => ?_, h.user⟩
  have hv' := h.contents d b v hdb hv
  by_cases hsame : d = dev ∧ b = block
  · obtain ⟨rfl, rfl⟩ := hsame
    have hnew := ht.contents
    have hsrc : (fun k => u (buf + done + k)) = fun k => user (buf + (done + k)) := by
      funext k
      rw [h.user, Nat.add_assoc]
    have hpatch : patch (ByteMemory.block (fun k => user (buf + (done + k))) o n)
        (overwritten d pos done (fun k => user (buf + k)) d b v) =
          overwritten d pos (done + n) (fun k => user (buf + k)) d b v :=
      @overwritten_patch d b pos n o done v (fun k => user (buf + k)) ho hp
    rw [hst.view_eq hon hv', hsrc, hpatch] at hnew
    exact hnew
  · rw [overwritten_other hsame ho hp]
    exact ht.others d b _ ((SyncSys.OnDisk.congr h.hd).mpr hdb) hsame hv'

/-- A whole call, for a range that fits. -/
theorem rawLoop_exact {data newUser : (Nat → UInt8) → (Nat → UInt8) → Nat → Nat → Nat → Nat → UInt8} {count : Int}
    {Q : Nat → RawSys → (Nat → UInt8) → Prop} (hmove : Transfers move data newUser) (hdev : dev / 256 = 3)
    (hstep : ∀ t t' u block offset n d, t.cache.Steady → t.cache.OnDisk dev block → offset + n ≤ 1024 →
      1024 * block + offset = pos + d → Turned t t' dev block (data (t.cache.view dev block) u offset n (buf + d)) →
      Q d t u → Q (d + n) t' (newUser (t.cache.view dev block) u offset n (buf + d)))
    (habsent : ∀ t t' u d, t'.mem = t.mem → SyncSys.Keeps t.cache t'.cache → Q d t u → Q d t' u)
    (hmem : ∀ t u d, Q d t u → t.mem = s.mem) (h : s.cache.Steady) (hfits : RawFits (s.cache.blocks dev) pos count) (hQ : Q 0 s user) :
    ∃ r, rawLoop move dev count.toNat (pos / 1024) (pos % 1024) pos buf 0 count.toNat s user = some r ∧
      Transferred s dev pos count r ∧ r.sys.cache.Steady ∧ r.sys.cache.blocks dev = s.cache.blocks dev ∧
      Q r.ret.toNat r.sys r.user := by
  by_cases hpos : count ≤ 0
  · have hzero : count.toNat = 0 := by omega
    rw [hzero]
    refine ⟨⟨s, user, pos, 0, []⟩, rfl, ⟨?_, rfl, rfl, rfl⟩, h, rfl, hQ⟩
    unfold rawCount
    rw [if_pos hpos]
  · obtain ⟨n, hn⟩ : ∃ n, count.toNat = n + 1 := ⟨count.toNat - 1, by omega⟩
    by_cases hmiss : s.cache.blocks dev ≤ ushort (pos / 1024)
    · have hoff : ¬ s.cache.OnDisk dev (ushort (pos / 1024)) := by
        rw [SyncSys.onDisk_iff hdev]
        omega
      obtain ⟨c, hread, hst, hkeeps⟩ := h.bread_absent hdev hoff
      have hend : s.cache.blocks dev ≤ pos / 1024 := by
        unfold ushort at hmiss
        omega
      have hnone : (-5 : Int).toNat = 0 := by decide
      refine ⟨⟨{ s with cache := c }, user, pos, -5, []⟩, ?_, ⟨?_, ?_, ?_, rfl⟩, hst, SyncSys.blocks_congr hkeeps.hd, ?_⟩
      · rw [hn]
        unfold rawLoop
        rw [if_neg (by omega), hread]
        rfl
      · unfold rawCount
        rw [if_neg hpos, if_pos (by omega)]
      · dsimp only
        rw [hnone, Nat.add_zero]
      · dsimp only [Tiles]
        rw [hnone, Nat.add_zero]
      · dsimp only
        rw [hnone]
        exact habsent s { s with cache := c } user 0 rfl hkeeps hQ
    · obtain ⟨hfit, hsmall⟩ := (hfits.resolve_left hpos).resolve_left hmiss
      obtain ⟨r, hr, hret, hp, htiles, hst, hsz, hQr⟩ := @rawLoop_run s move dev (pos / 1024) (s.cache.blocks dev) count.toNat (pos % 1024)
        0 count.toNat user data newUser pos buf Q hmove hdev hstep habsent (Nat.le_refl _) h rfl (by omega) (by omega) hQ
      rw [Nat.add_zero, Nat.add_zero] at hr
      rw [Nat.add_zero, Nat.zero_add] at hret
      rw [Nat.add_zero] at hp htiles
      rw [Nat.add_zero, Nat.zero_add] at hQr
      have hnat : r.ret.toNat = min count.toNat (1024 * s.cache.blocks dev - pos) := by
        rw [hret]
        split
        next hc =>
          rw [Nat.sub_eq_zero_of_le hc.2.2]
          simp
        next => omega
      rw [← hnat] at hp htiles hQr
      refine ⟨r, hr, ⟨?_, hp, htiles, hmem r.sys r.user r.ret.toNat hQr⟩, hst, hsz, hQr⟩
      rw [hret]
      unfold rawCount
      rw [if_neg hpos]
      by_cases hend : 1024 * s.cache.blocks dev ≤ pos
      · rw [if_pos ⟨by omega, rfl, hend⟩, if_pos hend]
      · rw [if_neg (by omega), if_neg hend]
        omega

theorem ReadSoFar.refl : ReadSoFar s dev pos buf user 0 s user := by
  refine ⟨rfl, rfl, fun _ _ _ _ hv => hv, ?_⟩
  rw [patch_block_zero]

theorem WrittenSoFar.refl : WrittenSoFar s dev pos buf user 0 s user := by
  refine ⟨rfl, rfl, fun d b v _ hv => ?_, rfl⟩
  have hsame : overwritten dev pos 0 (fun k => user (buf + k)) d b v = v := by
    funext o
    unfold overwritten
    rw [if_neg (by omega)]
  rw [hsame]
  exact hv

theorem ReadSoFar.keeps {t t' : RawSys} {u : Nat → UInt8} (hmem : t'.mem = t.mem) (hk : SyncSys.Keeps t.cache t'.cache)
    (h : ReadSoFar s dev pos buf user n t u) : ReadSoFar s dev pos buf user n t' u :=
  ⟨hmem.trans h.mem, hk.hd.trans h.hd, fun d b v hon hv =>
    hk.contents d b v ((SyncSys.OnDisk.congr h.hd).mpr hon) (h.contents d b v hon hv), h.user⟩

theorem WrittenSoFar.keeps {t t' : RawSys} {u : Nat → UInt8} (hmem : t'.mem = t.mem) (hk : SyncSys.Keeps t.cache t'.cache)
    (h : WrittenSoFar s dev pos buf user n t u) : WrittenSoFar s dev pos buf user n t' u :=
  ⟨hmem.trans h.mem, hk.hd.trans h.hd, fun d b v hon hv =>
    hk.contents d b _ ((SyncSys.OnDisk.congr h.hd).mpr hon) (h.contents d b v hon hv), h.user⟩

theorem RawFits.readExact {count : Int} (h : s.cache.Steady) (hdev : dev / 256 = 3) (hfits : RawFits (s.cache.blocks dev) pos count) :
    ReadExact s dev pos count := by
  intro buf user
  obtain ⟨r, hr, ht, hst, _, hQ⟩ := rawLoop_exact putChars_moves hdev
    (fun _ _ _ _ _ _ _ hst hon ho hp ht hQ => hQ.step hst hon ho hp ht)
    (fun _ _ _ _ hm hk hQ => hQ.keeps hm hk) (fun _ _ _ hQ => hQ.mem) h hfits (@ReadSoFar.refl s dev pos buf user)
  refine ⟨r, hr, ht, fun k hk => ?_, fun a ha => ?_, fun d p hon => ?_⟩
  · rw [hQ.user, patch_some (block_inside hk)]
  · rw [hQ.user, patch_none (if_neg (by omega))]
  · unfold RawSys.byte
    rw [hst.view_eq ((SyncSys.OnDisk.congr hQ.hd).mpr hon) (hQ.contents d _ _ hon SyncSys.contents_view)]

theorem RawFits.blockWrite {count : Int} (h : s.cache.Steady) (hdev : dev / 256 = 3) (hfits : RawFits (s.cache.blocks dev) pos count) :
    ∃ r, blockWrite s dev pos buf count user = some r ∧ Transferred s dev pos count r ∧ r.sys.cache.Steady ∧
      r.sys.cache.blocks dev = s.cache.blocks dev ∧ WrittenSoFar s dev pos buf user r.ret.toNat r.sys r.user :=
  rawLoop_exact getChars_moves hdev
    (fun _ _ _ _ _ _ _ hst hon ho hp ht hQ => hQ.step hst hon ho hp ht)
    (fun _ _ _ _ hm hk hQ => hQ.keeps hm hk) (fun _ _ _ hQ => hQ.mem) h hfits WrittenSoFar.refl

theorem WrittenSoFar.byte {u : Nat → UInt8} {d p : Nat} (h : WrittenSoFar s dev pos buf user n s' u) (hst : s'.cache.Steady)
    (hon : s.cache.OnDisk d (p / 1024)) :
    s'.byte d p = if d = dev ∧ pos ≤ p ∧ p < pos + n then user (buf + (p - pos)) else s.byte d p := by
  unfold RawSys.byte
  rw [hst.view_eq ((SyncSys.OnDisk.congr h.hd).mpr hon) (h.contents d _ _ hon SyncSys.contents_view)]
  unfold overwritten
  have hp : 1024 * (p / 1024) + p % 1024 = p := by omega
  rw [hp]
  by_cases hin : d = dev ∧ pos ≤ p ∧ p < pos + n
  · rw [if_pos ⟨hin.1, by omega, hin.2⟩, if_pos hin]
  · rw [if_neg fun hc => hin ⟨hc.1, hc.2.2⟩, if_neg hin]

/-- The bytes that a call has moved are on the device. -/
theorem Transferred.onDisk {count : Int} {k : Nat} (h : Transferred s dev pos count r) (hdev : dev / 256 = 3) (hk : k < r.ret.toNat) :
    s.cache.OnDisk dev ((pos + k) / 1024) := by
  rw [SyncSys.onDisk_iff hdev]
  have hret := h.ret
  unfold rawCount at hret
  split at hret
  next => omega
  next =>
    split at hret
    next => omega
    next => omega

theorem RawFits.writeExact {count : Int} (h : s.cache.Steady) (hdev : dev / 256 = 3) (hfits : RawFits (s.cache.blocks dev) pos count) :
    WriteExact s dev pos count := by
  intro buf user
  obtain ⟨r, hr, ht, hst, _, hQ⟩ := @RawFits.blockWrite s dev pos buf user count h hdev hfits
  refine ⟨r, hr, ht, hQ.user, fun k hk => ?_, fun d p hon hout => ?_⟩
  · rw [hQ.byte hst (ht.onDisk hdev hk), if_pos (by omega), Nat.add_sub_cancel_left]
  · rw [hQ.byte hst hon, if_neg hout]

theorem RawFits.readBack {count : Int} (h : s.cache.Steady) (hdev : dev / 256 = 3) (hfits : RawFits (s.cache.blocks dev) pos count) :
    ReadBack s dev pos count := by
  intro buf user r hr buf' user'
  obtain ⟨r₁, hr₁, ht, hst, hblocks, hQ⟩ := @RawFits.blockWrite s dev pos buf user count h hdev hfits
  rw [hr] at hr₁
  cases hr₁
  obtain ⟨r', hr', ht', hdata, _⟩ := RawFits.readExact hst hdev (hblocks ▸ hfits) buf' user'
  have hret : r'.ret = r.ret := by rw [ht'.ret, ht.ret, hblocks]
  refine ⟨r', hr', hret, fun k hk => ?_⟩
  rw [hdata k (hret ▸ hk), hQ.byte hst (ht.onDisk hdev hk), if_pos (by omega), Nat.add_sub_cancel_left]

/-- The first copy of a call is made where it stands, whether it fits into the block or not. -/
theorem rawLoop_first (h : s.cache.Tagged) (hdev : dev / 256 = 3) (hcount : 0 < count) (hon : s.cache.OnDisk dev (ushort block))
    (hr : rawLoop move dev (turns + 1) block offset pos buf done count s user = some r) :
    ∃ spans, r.spans = ⟨ushort block, offset, min count 1024⟩ :: spans := by
  unfold rawLoop at hr
  rw [if_neg (by omega)] at hr
  obtain ⟨⟨c, bh⟩, hread, hr⟩ := Option.bind_eq_some_iff.mp hr
  obtain ⟨_, _, hsome, hnone⟩ := h.bread hon.dev_ne (by omega) hread
  cases bh with
  | none => exact absurd hon (hnone rfl)
  | some i =>
    obtain ⟨u, _, hr⟩ := Option.bind_eq_some_iff.mp hr
    obtain ⟨r', _, heq⟩ := Option.map_eq_some_iff.mp hr
    rw [← heq, (hsome i rfl).1]
    exact ⟨r'.spans, rfl⟩

/-- A loop of aligned copies that reaches a block with a number too large copies at another block. -/
theorem rawLoop_misplaced {data newUser : (Nat → UInt8) → (Nat → UInt8) → Nat → Nat → Nat → Nat → UInt8} (hmove : Transfers move data newUser)
    (hdev : dev / 256 = 3) (h : s.cache.Steady) (ht : count ≤ turns) (hplace : 1024 * block + offset = pos)
    (hfit : offset + min count 1024 ≤ 1024) (hfar : 2 ^ 26 < pos + count)
    (hfound : 65536 ≤ block ∧ ushort block < s.cache.blocks dev ∨ block < 65536 ∧ 65536 ≤ s.cache.blocks dev) (hcount : 0 < count)
    (hr : rawLoop move dev turns block offset pos buf done count s user = some r) : ¬ Tiles pos r.spans last := by
  induction turns generalizing block offset pos buf done count s user r with
  | zero => omega
  | succ turns ih =>
    rcases hfound with ⟨hbig, hblock⟩ | ⟨hb, hsize⟩
    · obtain ⟨spans, hspans⟩ := rawLoop_first h.toTagged hdev hcount ((SyncSys.onDisk_iff hdev).mpr hblock) hr
      rw [hspans]
      rintro ⟨htag, -⟩
      dsimp only at htag
      have : ushort block < 65536 := Nat.mod_lt _ (by omega)
      omega
    · have hon : s.cache.OnDisk dev block := (SyncSys.onDisk_iff hdev).mpr (by omega)
      obtain ⟨s', hs', hloop⟩ := @rawLoop_turn s move dev block pos buf turns offset done count user data newUser hmove h hon hb hcount hfit
      have hwhole : min count 1024 = 1024 := by omega
      rw [hloop] at hr
      obtain ⟨r', hr', heq⟩ := Option.map_eq_some_iff.mp hr
      rw [← heq]
      rintro ⟨-, -, hrest⟩
      dsimp only at hrest
      rw [hwhole] at hr' hrest
      have hblocks : s'.cache.blocks dev = s.cache.blocks dev := SyncSys.blocks_congr hs'.hd
      rw [Nat.mod_eq_of_lt (by omega)] at hr'
      have hnext : 65536 ≤ block + 1 ∧ ushort (block + 1) < s'.cache.blocks dev ∨ block + 1 < 65536 ∧ 65536 ≤ s'.cache.blocks dev := by
        rw [hblocks]
        unfold ushort
        omega
      exact ih hs'.steady (by omega) (by omega) (by omega) (by omega) hnext (by omega) hr' hrest

theorem ReadExact.fits {count : Int} (h : s.cache.Steady) (hdev : dev / 256 = 3) (hexact : ReadExact s dev pos count) :
    RawFits (s.cache.blocks dev) pos count := by
  by_contra hnot
  unfold RawFits at hnot
  push Not at hnot
  obtain ⟨hpos, hfound, hbad⟩ := hnot
  obtain ⟨r, hr, ht, -⟩ := hexact 0 fun _ => 0
  have htiles := ht.tiles
  by_cases hfit : pos % 1024 + min count.toNat 1024 ≤ 1024
  · have hbad' := hbad (by omega)
    refine rawLoop_misplaced putChars_moves hdev h (Nat.le_refl _) (by omega) hfit (by omega) ?_ (by omega) hr htiles
    unfold ushort at hfound ⊢
    omega
  · obtain ⟨n, hn⟩ : ∃ n, count.toNat = n + 1 := ⟨count.toNat - 1, by omega⟩
    unfold blockRead at hr
    rw [hn] at hr
    obtain ⟨spans, hspans⟩ := rawLoop_first h.toTagged hdev (by omega) ((SyncSys.onDisk_iff hdev).mpr hfound) hr
    rw [hspans] at htiles
    have := htiles.2.1
    dsimp only at this
    omega

/-- Raw transfers are exact, byte for byte, just where no copy has to be cut at the end of its first block and no block has a number
of more than 16 bits. -/
theorem raw_exact_iff {count : Int} (hdev : dev / 256 = 3) (h : s.cache.Steady) :
    ReadExact s dev pos count ∧ WriteExact s dev pos count ∧ ReadBack s dev pos count ↔ RawFits (s.cache.blocks dev) pos count := by
  constructor
  · rintro ⟨hread, -, -⟩
    exact hread.fits h hdev
  · intro hfits
    exact ⟨hfits.readExact h hdev, hfits.writeExact h hdev, hfits.readBack h hdev⟩

/-- A disk of 50 blocks and one buffer, dirty. -/
def rawSample : RawSys := ⟨syncSample, fun _ => 0⟩

theorem rawSample_steady : rawSample.cache.Steady := by
  refine ⟨syncSample_consistent.toSound.coherent, syncSample_consistent.toListed, ⟨fun _ _ _ => syncSample_onDisk.2, fun _ => ?_⟩,
    syncSample_consistent.counts, ?_⟩
  · change 9 < 65536
    omega
  · change 1 ≤ 1664
    omega

theorem raw_exact_iff_sample : ReadExact rawSample 0x301 2048 1500 ∧ WriteExact rawSample 0x301 2048 1500 ∧
    ReadBack rawSample 0x301 2048 1500 :=
  (raw_exact_iff (by decide) rawSample_steady).mpr (by decide)

/-- 100 bytes from position 1000 on: all of them are copied from or to the buffer of block 0, which has 24 left. -/
theorem raw_exact_fails : ¬ (ReadExact rawSample 0x301 1000 100 ∧ WriteExact rawSample 0x301 1000 100 ∧
    ReadBack rawSample 0x301 1000 100) := by
  rintro ⟨hread, -, -⟩
  have hfits := hread.fits rawSample_steady (by decide)
  exact absurd hfits (by decide)

end RheeKernel
