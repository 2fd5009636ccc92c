import RheeKernel.BufferRuns

namespace RheeKernel

open Machine (Reach exec)

/-- What `getblk` is to leave alone in a buffer that is in use. -/
structure BufferHead.Kept (b b' : BufferHead) : Prop where
  dev : b'.bDev = b.bDev
  blocknr : b'.bBlocknr = b.bBlocknr
  dirt : b'.bDirt = b.bDirt
  uptodate : b'.bUptodate = b.bUptodate
  lo : b'.dataLo = b.dataLo
  hi : b'.dataHi = b.dataHi

theorem BufferHead.Kept.trans {b c d : BufferHead} (h : Kept b c) (h' : Kept c d) : Kept b d :=
  ⟨h'.dev.trans h.dev, h'.blocknr.trans h.blocknr, h'.dirt.trans h.dirt, h'.uptodate.trans h.uptodate,
    h'.lo.trans h.lo, h'.hi.trans h.hi⟩

namespace Cache

/-- Somebody holds the buffer, or a call that is not about to recycle it. -/
def Referenced (s : Cache) (i : Nat) : Prop :=
  ∃ p < s.nrTasks, (∃ r ∈ (s.tasks p).refs, r.bh = i) ∨ (s.tasks p).pc.counted = some i ∧ (s.tasks p).pc.victim = none

/-- What a task leaves alone when it goes on, `D` being the head that it gives another block. -/
structure Goes (s s' : Cache) (p : Nat) (D : Nat → Prop) : Prop where
  kept : ∀ i, ¬ D i → BufferHead.Kept (s.bh i) (s'.bh i)
  other : ∀ q, q ≠ p → s'.tasks q = s.tasks q
  nrBuffers : s'.nrBuffers = s.nrBuffers
  nrTasks : s'.nrTasks = s.nrTasks
  hd : s'.hd = s.hd
  disk : s'.disk = s.disk
  stored : s'.stored = s.stored

variable {s s' u : Cache} {p i : Nat} {t : Task} {pc : Pc} {g : Goal} {dev block tmp : Nat} {D : Nat → Prop}

theorem Goes.trans (h : Goes s u p D) (h' : Goes u s' p D) : Goes s s' p D :=
  ⟨fun i hi => (h.kept i hi).trans (h'.kept i hi), fun q hq => (h'.other q hq).trans (h.other q hq),
    h'.nrBuffers.trans h.nrBuffers, h'.nrTasks.trans h.nrTasks, h'.hd.trans h.hd, h'.disk.trans h.disk,
    h'.stored.trans h.stored⟩

theorem Goes.setTask (t : Task) : Goes s (s.setTask p t) p D := by
  refine ⟨fun i _ => ⟨rfl, rfl, rfl, rfl, rfl, rfl⟩, fun q hq => ?_, rfl, rfl, rfl, rfl, rfl⟩
  simp [Cache.setTask, hq]

theorem Goes.setPc (pc : Pc) : Goes s (s.setPc p pc) p D := .setTask _

theorem Goes.setBh {b : BufferHead} (h : ¬ D i → BufferHead.Kept (s.bh i) b) : Goes s (s.setBh i b) p D := by
  refine ⟨fun a ha => ?_, fun _ _ => rfl, rfl, rfl, rfl, rfl, rfl⟩
  simp only [Cache.setBh]
  rcases eq_or_ne a i with rfl | hai
  · simpa using h ha
  · simp only [Function.update_of_ne hai]
    exact ⟨rfl, rfl, rfl, rfl, rfl, rfl⟩

theorem Goes.setCount (c : Nat) : Goes s (s.setBh i { s.bh i with bCount := c }) p D := by
  refine .setBh fun _ => ?_
  exact ⟨rfl, rfl, rfl, rfl, rfl, rfl⟩

theorem Goes.lockBuffer (i : Nat) : Goes s (s.lockBuffer i) p D := by
  refine .setBh fun _ => ?_
  exact ⟨rfl, rfl, rfl, rfl, rfl, rfl⟩

theorem Goes.relinked (h : Relinked s s') : Goes s s' p D := by
  refine ⟨fun i _ => ?_, fun q _ => ?_, ?_, ?_, ?_, ?_, ?_⟩
  · rw [h.heads i]
    exact ⟨rfl, rfl, rfl, rfl, rfl, rfl⟩
  all_goals rw [h.rest]

theorem Goes.issue : Goes s s.issue p D := by
  have hport : ∀ d, Goes s { s with port := d } p D :=
    fun d => ⟨fun _ _ => ⟨rfl, rfl, rfl, rfl, rfl, rfl⟩, fun _ _ => rfl, rfl, rfl, rfl, rfl, rfl⟩
  unfold Cache.issue
  split
  next =>
    split
    next => exact hport _
    next => exact hport s.port
  next => exact hport s.port

theorem Goes.enqueue (read : Bool) : Goes s (s.enqueue i read) p D := by
  have hqueue : Goes s { s with queue := addRequest (s.request i read) s.queue } p D :=
    ⟨fun _ _ => ⟨rfl, rfl, rfl, rfl, rfl, rfl⟩, fun _ _ => rfl, rfl, rfl, rfl, rfl, rfl⟩
  unfold Cache.enqueue
  dsimp only
  split
  next => exact hqueue.trans .issue
  next => exact hqueue

theorem Goes.dropCount (h : ((s.dropCount tmp).map fun s => s.setPc p pc) = some s') : Goes s s' p D := by
  obtain ⟨u, hu, hs'⟩ := Option.map_eq_some_iff.mp h
  cases hs'
  unfold Cache.dropCount at hu
  split at hu
  next => simp at hu
  next =>
    cases Option.some.inj hu
    exact (Goes.setCount _).trans (.setPc pc)

theorem Goes.gotBuffer (h : s.gotBuffer p tmp g = some s') : Goes s s' p D := by
  cases g with
  | hash =>
    cases Option.some.inj h
    exact .setTask _
  | get =>
    cases Option.some.inj h
    exact .setTask _
  | read =>
    simp only [Cache.gotBuffer] at h
    split at h
    next =>
      cases Option.some.inj h
      exact .setTask _
    next =>
      split at h
      next => simp at h
      next => exact .dropCount h
      next =>
        cases Option.some.inj h
        exact (Goes.lockBuffer tmp).trans (.setPc _)

theorem Goes.take (h : s.take p g dev block tmp = some s') : Goes s s' p D := by
  obtain ⟨u, hu, hs'⟩ := Option.map_eq_some_iff.mp h
  have hgo : Goes s u p D := (Goes.setCount _).trans (.relinked (removeFromQueues_relinked hu))
  split at hs'
  next =>
    cases hs'
    exact hgo.trans (.setPc _)
  next =>
    cases hs'
    exact hgo.trans (.setPc _)

theorem Goes.scanNext (h : s.scanNext p g dev block tmp = some s') : Goes s s' p D := by
  unfold Cache.scanNext at h
  split at h
  next => simp at h
  next =>
    split at h
    next => exact .take h
    next =>
      cases Option.some.inj h
      exact .setPc _

theorem Goes.loopStep {inside : Loop → Pc} {done : Pc} {l : Loop} (h : s.loopStep p inside done l = some s') :
    Goes s s' p D := by
  unfold Cache.loopStep at h
  dsimp only at h
  split at h
  next =>
    split at h
    next => cases Option.some.inj h; exact .setPc _
    next => split at h <;> cases Option.some.inj h <;> exact .setPc _
  next =>
    split at h
    next =>
      split at h
      next => simp at h
      next => cases Option.some.inj h; exact .setPc _
      next => cases Option.some.inj h; exact (Goes.lockBuffer l.i).trans (.setPc _)
    next => cases Option.some.inj h; exact .setPc _
  next => cases Option.some.inj h; exact (Goes.enqueue false).trans (.setPc _)
  next => cases Option.some.inj h; exact .setPc _

theorem Goes.reinit (h : s.reinit p g dev block tmp = some s') (hD : D tmp) : Goes s s' p D := by
  have hset : ∀ {s : Cache} (b : BufferHead), Goes s (s.setBh tmp b) p D := fun b => .setBh fun hn => absurd hD hn
  unfold Cache.reinit at h
  dsimp only at h
  split at h
  next =>
    obtain ⟨u, hu, hs'⟩ := Option.map_eq_some_iff.mp h
    cases hs'
    exact (((hset _).trans (hset _)).trans (.relinked (insertIntoQueues_relinked hu))).trans (.setPc _)
  next =>
    obtain ⟨u, hu, hgot⟩ := Option.bind_eq_some_iff.mp h
    exact ((hset _).trans (.relinked (insertIntoQueues_relinked hu))).trans (.gotBuffer hgot)

/-- Only the head that is given another block can change. -/
theorem Goes.advance (h : s.advance p = some s') :
    Goes s s' p fun i => ∃ g dev block, (s.tasks p).pc = .reinit g dev block i := by
  unfold Cache.advance at h
  split at h
  next => simp at h
  next =>
    split at h
    next => cases Option.some.inj h; exact (Goes.setCount _).trans (.setPc _)
    next =>
      split at h
      next => cases Option.some.inj h; exact .setPc _
      next =>
        obtain ⟨tmp, -, hs'⟩ := Option.map_eq_some_iff.mp h
        cases hs'
        exact .setPc _
  next =>
    split at h
    next => exact .dropCount h
    next => exact .gotBuffer h
  next =>
    split at h
    next => cases Option.some.inj h; exact .setPc _
    next => exact .scanNext h
  next =>
    split at h
    next => exact .take h
    next => exact .scanNext h
  next => cases Option.some.inj h; exact .setPc _
  next => exact .loopStep h
  next g dev block tmp hpc => exact .reinit h ⟨g, dev, block, hpc⟩
  next => cases Option.some.inj h; exact (Goes.enqueue true).trans (.setPc _)
  next =>
    split at h
    next => cases Option.some.inj h; exact .setTask _
    next => exact .dropCount h
  next => exact .dropCount h
  next => exact .loopStep h

theorem take_victim (h : s.take p g dev block tmp = some s') : (s'.tasks p).pc.victim = some tmp := by
  obtain ⟨u, hu, hs'⟩ := Option.map_eq_some_iff.mp h
  split at hs'
  next =>
    cases hs'
    simp [Cache.setPc, Cache.setTask, Pc.victim]
  next =>
    cases hs'
    simp [Cache.setPc, Cache.setTask, Pc.victim]

@[simp] theorem setPc_pc (pc : Pc) : ((s.setPc p pc).tasks p).pc = pc := by
  simp [Cache.setPc, Cache.setTask]

theorem dropCount_pc (h : ((s.dropCount tmp).map fun s => s.setPc p pc) = some s') : (s'.tasks p).pc = pc := by
  obtain ⟨u, -, hs'⟩ := Option.map_eq_some_iff.mp h
  cases hs'
  simp

/-- A task that has its buffer is done, or reads it. -/
theorem gotBuffer_pc (h : s.gotBuffer p tmp g = some s') : (s'.tasks p).pc = .idle ∨ (s'.tasks p).pc = .readSlot tmp := by
  have hgive : ∀ read, ((s.giveRef p tmp read).tasks p).pc = .idle ∨ ((s.giveRef p tmp read).tasks p).pc = .readSlot tmp := by
    intro read
    simp [Cache.giveRef, Cache.setTask]
  cases g with
  | hash => cases Option.some.inj h; exact hgive false
  | get => cases Option.some.inj h; exact hgive false
  | read =>
    simp only [Cache.gotBuffer] at h
    split at h
    next => cases Option.some.inj h; exact hgive true
    next =>
      split at h
      next => simp at h
      next => exact .inl (dropCount_pc h)
      next =>
        cases Option.some.inj h
        exact .inr (setPc_pc _)

theorem gotBuffer_victim (h : s.gotBuffer p tmp g = some s') : (s'.tasks p).pc.victim = none := by
  rcases gotBuffer_pc h with hpc | hpc
  · rw [hpc]
    rfl
  · rw [hpc]
    rfl

theorem loopStep_pc {inside : Loop → Pc} {done : Pc} {l : Loop} (h : s.loopStep p inside done l = some s') :
    (s'.tasks p).pc = done ∨ ∃ l', (s'.tasks p).pc = inside l' := by
  unfold Cache.loopStep at h
  dsimp only at h
  split at h
  next =>
    split at h
    next => cases Option.some.inj h; exact Or.inl (setPc_pc done)
    next => split at h <;> cases Option.some.inj h <;> exact Or.inr ⟨_, setPc_pc _⟩
  next =>
    split at h
    next =>
      split at h
      next => simp at h
      next => cases Option.some.inj h; exact Or.inr ⟨_, setPc_pc _⟩
      next => cases Option.some.inj h; exact Or.inr ⟨_, setPc_pc _⟩
    next => cases Option.some.inj h; exact Or.inr ⟨_, setPc_pc _⟩
  next => cases Option.some.inj h; exact Or.inr ⟨_, setPc_pc _⟩
  next => cases Option.some.inj h; exact Or.inr ⟨_, setPc_pc _⟩

/-- A buffer is taken out only by the end of a scan. -/
theorem advance_victim (h : s.advance p = some s') (hv : (s'.tasks p).pc.victim = some i) :
    (s.tasks p).pc.victim = some i ∨ s.chooses (s.tasks p).pc = some i := by
  have hnext : ∀ {g dev block tmp}, s.scanNext p g dev block tmp = some s' → s.roundTrip tmp = some i := by
    intro g dev block tmp hn
    unfold Cache.scanNext at hn
    split at hn
    next => simp at hn
    next n hnf =>
      split at hn
      next hround =>
        cases Option.some.inj ((take_victim hn).symm.trans hv)
        simp [roundTrip, hnf, hround]
      next =>
        cases Option.some.inj hn
        simp [Pc.victim] at hv
  unfold Cache.advance at h
  split at h
  next => simp at h
  next =>
    split at h
    next => cases Option.some.inj h; simp [Pc.victim] at hv
    next =>
      split at h
      next => cases Option.some.inj h; simp [Pc.victim] at hv
      next =>
        obtain ⟨tmp, -, hs'⟩ := Option.map_eq_some_iff.mp h
        cases hs'
        simp [Pc.victim] at hv
  next =>
    split at h
    next => simp [dropCount_pc h, Pc.victim] at hv
    next => simp [gotBuffer_victim h] at hv
  next g dev block tmp hpc =>
    split at h
    next => cases Option.some.inj h; simp [Pc.victim] at hv
    next hbusy => exact Or.inr (by simpa [hpc, chooses, hbusy] using hnext h)
  next g dev block tmp hpc =>
    split at h
    next hfree =>
      cases Option.some.inj ((take_victim h).symm.trans hv)
      exact Or.inr (by simp [hpc, chooses, hfree])
    next hbusy => exact Or.inr (by simpa [hpc, chooses, hbusy] using hnext h)
  next => cases Option.some.inj h; simp [Pc.victim] at hv
  next g dev block tmp l hpc =>
    rcases loopStep_pc h with he | ⟨l', he⟩
    · rw [he] at hv
      exact Or.inl (by rw [hpc]; exact hv)
    · rw [he] at hv
      exact Or.inl (by rw [hpc]; exact hv)
  next g dev block tmp hpc =>
    unfold Cache.reinit at h
    dsimp only at h
    split at h
    next =>
      obtain ⟨u, -, hs'⟩ := Option.map_eq_some_iff.mp h
      cases hs'
      simp [Pc.victim] at hv
    next =>
      obtain ⟨u, -, hgot⟩ := Option.bind_eq_some_iff.mp h
      simp [gotBuffer_victim hgot] at hv
  next => cases Option.some.inj h; simp [Pc.victim] at hv
  next =>
    split at h
    next => cases Option.some.inj h; simp [Cache.giveRef, Cache.setTask, Pc.victim] at hv
    next => simp [dropCount_pc h, Pc.victim] at hv
  next => simp [dropCount_pc h, Pc.victim] at hv
  next =>
    rcases loopStep_pc h with he | ⟨l', he⟩
    · simp [he, Pc.victim] at hv
    · simp [he, Pc.victim] at hv

theorem Inv.referenced (h : s.Inv) (hi : s.Referenced i) : (s.bh i).bCount ≠ 0 ∧ ¬ s.Detached i := by
  obtain ⟨p, hp, hcase⟩ := hi
  rcases hcase with ⟨r, hr, rfl⟩ | ⟨hc, hv⟩
  · have hle := Counting.le_sum_of_mem (Finset.mem_range.mpr hp) fun q => (s.tasks q).refsTo r.bh
    have hone := refsTo_of_ref hr
    have hcount := h.counts r.bh
    simp only [Task.refsTo] at hle hcount
    exact ⟨by omega, h.ref_attached hp hr⟩
  · have := h.counted_pos hp hc
    exact ⟨by omega, h.not_detached hp hc hv⟩

end Cache

/-- Who has got a buffer keeps it: no step changes the block of a buffer that somebody holds, `getblk`
changes nothing in a buffer that is in use, and it takes only buffers that nobody uses. -/
theorem getblk_spares_referenced {n tasks : Nat} {hd : Nat → HdStruct} {disk : Nat → Nat → Bool → Sector}
    {data : Nat → Sector × Sector} {s : Cache} (hn : 0 < n)
    (h : Reach cacheStep Cache.Orderly (bufferInit n tasks hd disk data) s) :
    (∀ p < s.nrTasks, ∀ r ∈ (s.tasks p).refs, (s.bh r.bh).bDev = r.dev ∧ (s.bh r.bh).bBlocknr = r.block) ∧
    (∀ i, s.Referenced i → (s.bh i).bCount ≠ 0) ∧
    ∀ p s', s.Orderly (.run p) → cacheStep s (.run p) = some s' →
      (∀ i, s.Referenced i → BufferHead.Kept (s.bh i) (s'.bh i)) ∧
      ∀ i, (s'.tasks p).pc.victim = some i → (s.tasks p).pc.victim ≠ some i → (s.bh i).bCount = 0 := by
  have hinv : s.Inv := h.invariant (Cache.bufferInit_inv hn) fun s op s' => Cache.cacheStep_inv
  refine ⟨fun p hp r hr => (hinv.known p hp r hr).2, fun i hi => (hinv.referenced hi).1, ?_⟩
  intro p s' hok hs
  obtain ⟨hp, -, u, hu, rfl⟩ := Cache.run_cases hs
  constructor
  · intro i hi
    refine (Cache.Goes.advance hu).kept i ?_
    intro hre
    obtain ⟨g, dev, block, hpc⟩ := hre
    exact (hinv.referenced hi).2 ⟨p, hp, by rw [hpc]; rfl⟩
  · intro i hv hnew
    have hchosen := (Cache.advance_victim hu hv).resolve_left hnew
    exact (hok.1 i hchosen).1

/-- A task gets a block of the first disk: the lookup fails, the first buffer of the free list is free. -/
def getFresh (p block : Nat) : List CacheOp := .getblk p 0x301 block :: List.replicate 4 (.run p)

theorem getblk_spares_referenced_first : ∃ s,
    Reach cacheStep Cache.Orderly (bufferInit 3 2 (fun _ => ⟨0, 1000⟩) (fun _ _ _ => 0) fun _ => (0, 0)) s ∧
    (s.tasks 0).refs = [⟨0, 0x301, 1, false⟩] ∧ (s.bh 0).bDev = 0x301 ∧ (s.bh 0).bBlocknr = 1 := by
  obtain ⟨s, hs, hN, hrefs⟩ : ∃ s, Machine.execOk cacheStep Cache.Orderly
      (bufferInit 3 2 (fun _ => ⟨0, 1000⟩) (fun _ _ _ => 0) fun _ => (0, 0)) (getFresh 0 1) = some s ∧
      0 < s.nrTasks ∧ (s.tasks 0).refs = [⟨0, 0x301, 1, false⟩] := ⟨_, rfl, by decide, rfl⟩
  have hreach := Reach.execOk .start hs
  have hkeep := (getblk_spares_referenced (by decide) hreach).1 0 hN ⟨0, 0x301, 1, false⟩ (by simp [hrefs])
  exact ⟨s, hreach, hrefs, hkeep⟩

/-- The first task holds every buffer; the scan of the second comes round to the first buffer and takes it. -/
theorem getblk_recycles_busy : ∃ s,
    exec cacheStep (bufferInit 3 2 (fun _ => ⟨0, 1000⟩) (fun _ _ _ => 0) fun _ => (0, 0))
      (getFresh 0 1 ++ getFresh 0 2 ++ getFresh 0 3 ++ .getblk 1 0x301 4 :: List.replicate 5 (.run 1)) = some s ∧
    ⟨0, 0x301, 1, false⟩ ∈ (s.tasks 0).refs ∧ (s.bh 0).bBlocknr = 4 ∧ (s.tasks 1).refs = [⟨0, 0x301, 4, false⟩] :=
  ⟨_, rfl, by decide, rfl, rfl⟩

end RheeKernel
