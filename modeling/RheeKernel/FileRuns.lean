import RheeKernel.FileArrays

namespace RheeKernel

inductive FileCall
  | write (i : Nat) (append : Bool) (pos : Nat) (data : List UInt8)
  | read (i pos : Nat) (count : Int)
  | truncate (i : Nat)

/-- The files, beside them the writes that each of them has seen since its last `truncate`, the last one first. -/
structure FileRun where
  fs : FileSys
  log : Nat → List (Nat × List UInt8)

/-- Where a write begins. -/
def FileSys.start (s : FileSys) (i : Nat) (append : Bool) (pos : Nat) : Nat := if append then s.size i else pos

def fileCall (s : FileSys) : FileCall → Option (FileSys × Reply)
  | .write i append pos data => fileWrite s i append pos data
  | .read i pos count => (sysReadRegular s i pos count).map fun r => (s, r)
  | .truncate i => (truncateFile s i).map fun s => (s, ⟨0, 0, []⟩)

def FileRun.logAfter (t : FileRun) (r : Reply) : FileCall → Nat → List (Nat × List UInt8)
  | .write i append pos data =>
    Function.update t.log i ((t.fs.start i append pos, data.take r.ret.toNat) :: t.log i)
  | .read _ _ _ => t.log
  | .truncate i => Function.update t.log i []

def fileRunStep (t : FileRun) (c : FileCall) : Option FileRun :=
  (fileCall t.fs c).map fun (s, r) => ⟨s, t.logAfter r c⟩

/-- The files are the arrays that their writes make. -/
structure FileRun.Faithful (t : FileRun) : Prop where
  sound : t.fs.zones.Sound
  fits : ∀ i, t.fs.size i ≤ FileSys.maxSize
  size : ∀ i, t.fs.size i = SparseLog.extent (t.log i)
  byte : ∀ i o, t.fs.byte i o = SparseLog.read (t.log i) o

variable {s s' : FileSys} {t t' : FileRun} {i pos : Nat} {append : Bool} {data : List UInt8} {r : Reply} {c : FileCall}

theorem FileSys.fileWrite_spec (h : s.zones.Sound) :
    (s.start i append pos + data.length ≤ maxSize → (fileWrite s i append pos data).isSome) ∧
    ∀ s' r, fileWrite s i append pos data = some (s', r) →
      ∃ k ≤ data.length, r.ret = (if k = 0 then -1 else (k : Int)) ∧ r.pos = (if append then pos else pos + k) ∧
        s.Stored s' i (s.start i append pos) (data.take k) ∧ (k < data.length → s'.zones.dev.freeZones = 0) := by
  obtain ⟨hsome, hspec⟩ := @fileWriteLoop_spec s i 0 (s.start i append pos) data.length data h le_rfl
  unfold fileWrite
  refine ⟨fun hfit => ?_, fun s' r hw => ?_⟩
  · rw [Option.isSome_map]
    exact hsome hfit
  · obtain ⟨⟨s₁, pos', n⟩, hloop, heq⟩ := Option.map_eq_some_iff.mp hw
    cases heq
    obtain ⟨k, hk, hn, hpos, hstored, hdry⟩ := hspec _ _ _ hloop
    refine ⟨k, hk, ?_, ?_, hstored, hdry⟩
    · rw [hn, Nat.zero_add]
    · dsimp only
      unfold start at hpos
      cases append with
      | true => rfl
      | false => exact hpos

/-- The array of a file after a write is that of its writes with the new one. -/
theorem FileRun.Faithful.stored {bs : List UInt8} (h : t.Faithful) (hs : t.fs.Stored s' i pos bs) :
    FileRun.Faithful ⟨s', Function.update t.log i ((pos, bs) :: t.log i)⟩ := by
  refine ⟨hs.sound, fun j => ?_, fun j => ?_, fun j o => ?_⟩
  · dsimp only
    rw [hs.size]
    split
    next hj =>
      have := h.fits i
      have := hs.fits hj.2
      omega
    next => exact h.fits j
  · dsimp only
    rw [hs.size]
    by_cases hj : j = i
    · rw [hj, Function.update_self]
      by_cases hbs : bs = []
      · rw [if_neg fun hc => hc.2 hbs, hbs, SparseLog.extent_nil_write]
        exact h.size i
      · rw [if_pos ⟨rfl, hbs⟩, SparseLog.extent_write hbs, h.size]
    · rw [Function.update_of_ne hj, if_neg fun hc => hj hc.1]
      exact h.size j
  · dsimp only
    rw [hs.byte]
    by_cases hj : j = i
    · subst hj
      rw [Function.update_self, h.byte]
      simp only [true_and]
      rfl
    · rw [Function.update_of_ne hj, if_neg fun hc => hj hc.1]
      exact h.byte j o

theorem FileRun.Faithful.step (h : t.Faithful) (hs : fileRunStep t c = some t') : t'.Faithful := by
  obtain ⟨⟨s', r⟩, hcall, rfl⟩ := Option.map_eq_some_iff.mp hs
  cases c with
  | write i append pos data =>
    obtain ⟨k, hk, hret, _, hstored, _⟩ := (FileSys.fileWrite_spec h.sound).2 _ _ hcall
    have htake : r.ret.toNat = k := by
      rw [hret]
      split <;> omega
    simp only [FileRun.logAfter, htake]
    exact h.stored hstored
  | read i pos count =>
    obtain ⟨r', _, heq⟩ := Option.map_eq_some_iff.mp hcall
    cases heq
    exact h
  | truncate i =>
    obtain ⟨s₁, htrunc, heq⟩ := Option.map_eq_some_iff.mp hcall
    cases heq
    obtain ⟨s₂, htrunc', hsound, hsize, hbyte⟩ := @FileSys.truncate_spec t.fs i h.sound
    rw [htrunc] at htrunc'
    cases htrunc'
    refine ⟨hsound, fun j => ?_, fun j => ?_, fun j o => ?_⟩
    · rw [hsize]
      split
      next => exact Nat.zero_le _
      next => exact h.fits j
    · change s'.size j = SparseLog.extent (Function.update t.log i [] j)
      rw [hsize]
      by_cases hj : j = i
      · rw [if_pos hj, hj, Function.update_self]
        rfl
      · rw [if_neg hj, Function.update_of_ne hj]
        exact h.size j
    · change s'.byte j o = SparseLog.read (Function.update t.log i [] j) o
      rw [hbyte]
      by_cases hj : j = i
      · rw [if_pos hj, hj, Function.update_self]
        rfl
      · rw [if_neg hj, Function.update_of_ne hj]
        exact h.byte j o

/-- Regular files are sparse byte arrays: in every state of every run of writes, reads and truncations, a read delivers the
bytes last written, zeros where nothing was, up to the greatest end written; a write stores a beginning of its data and nothing
else, all of it unless the device is left without a free zone, and returns the number of bytes stored, or -1 for none; the file
position moves by the bytes read or stored. -/
theorem sparse_array_files {t₀ : FileRun} (h₀ : t₀.Faithful) (hreach : Machine.Reach fileRunStep (fun _ _ => True) t₀ t) :
    t.Faithful ∧
    (∀ i pos (count : Int), 0 ≤ count → ∃ n, n = min count.toNat (SparseLog.extent (t.log i) - pos) ∧
      sysReadRegular t.fs i pos count = some ⟨n, pos + n, (List.range n).map fun k => SparseLog.read (t.log i) (pos + k)⟩) ∧
    (∀ i append pos data,
      (t.fs.start i append pos + data.length ≤ FileSys.maxSize → (fileWrite t.fs i append pos data).isSome) ∧
      ∀ s' r, fileWrite t.fs i append pos data = some (s', r) →
        ∃ k ≤ data.length, r.ret = (if k = 0 then -1 else (k : Int)) ∧ r.pos = (if append then pos else pos + k) ∧
          t.fs.Stored s' i (t.fs.start i append pos) (data.take k) ∧ (k < data.length → s'.zones.dev.freeZones = 0)) ∧
    ∀ i, (truncateFile t.fs i).isSome := by
  have h : t.Faithful := hreach.invariant h₀ fun _ _ _ ht _ hstep => ht.step hstep
  refine ⟨h, fun i pos count hcount => ⟨_, rfl, ?_⟩, fun i append pos data => FileSys.fileWrite_spec h.sound, fun i => ?_⟩
  · rw [FileSys.sysReadRegular_spec hcount (h.fits i) rfl, h.size]
    simp only [h.byte]
  · obtain ⟨s', htrunc, _⟩ := @FileSys.truncate_spec t.fs i h.sound
    rw [htrunc]
    rfl

/-- Inode 1 owns the only zone of the device; nothing has been written yet. -/
def oneZoneRun : FileRun := ⟨⟨oneZoneFs, fun _ => 0⟩, fun _ => []⟩

theorem oneZoneRun_faithful : oneZoneRun.Faithful := by
  refine ⟨(ZoneFs.exact_iff.mp oneZoneFs_exact).1, fun _ => Nat.zero_le _, fun _ => rfl, fun i o => ?_⟩
  change oneZoneFs.byte i o = 0
  unfold ZoneFs.byte Device.byteAt
  split
  next => rfl
  next =>
    change UInt8.ofNat (0 / _) = 0
    rw [Nat.zero_div]
    rfl

theorem sparse_array_files_sample :
    ∃ t, fileRunStep oneZoneRun (.write 1 false 2 [7]) = some t ∧ sysReadRegular t.fs 1 1 10 = some ⟨2, 3, [0, 7]⟩ := by
  obtain ⟨t, ht, hlog⟩ : ∃ t, fileRunStep oneZoneRun (.write 1 false 2 [7]) = some t ∧ t.log 1 = [(2, [7])] :=
    Option.map_eq_some_iff.mp (show (fileRunStep oneZoneRun (.write 1 false 2 [7])).map (fun t => t.log 1) = some [(2, [7])] by
      decide +kernel)
  have hreach : Machine.Reach fileRunStep (fun _ _ => True) oneZoneRun t := .next .start trivial ht
  obtain ⟨_, hread, _⟩ := sparse_array_files oneZoneRun_faithful hreach
  obtain ⟨n, hn, hr⟩ := hread 1 1 10 (by decide)
  rw [hlog] at hn hr
  have hn2 : n = 2 := hn
  rw [hn2] at hr
  exact ⟨t, ht, hr⟩

/-- A write that stores nothing returns -1, and the position stays. -/
theorem sparse_array_files_fails :
    ¬ ∀ t₀ t, t₀.Faithful → Machine.Reach fileRunStep (fun _ _ => True) t₀ t →
      ∀ i pos data s' r, pos + data.length ≤ FileSys.maxSize → fileWrite t.fs i false pos data = some (s', r) →
        (r.pos : Int) = pos + r.ret := by
  intro hall
  obtain ⟨⟨s', r⟩, hw, hr⟩ : ∃ x, fileWrite oneZoneRun.fs 1 false 1024 [7] = some x ∧ (x.2.ret, x.2.pos) = (-1, 1024) :=
    Option.map_eq_some_iff.mp (show (fileWrite oneZoneRun.fs 1 false 1024 [7]).map (fun x => (x.2.ret, x.2.pos)) =
      some (-1, 1024) by decide +kernel)
  have heq := hall oneZoneRun oneZoneRun oneZoneRun_faithful .start 1 1024 [7] s' r (by decide) hw
  simp only [Prod.mk.injEq] at hr
  rw [hr.1, hr.2] at heq
  exact absurd heq (by decide)

end RheeKernel
