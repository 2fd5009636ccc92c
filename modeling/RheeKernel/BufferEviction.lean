import RheeKernel.BufferContents

namespace RheeKernel

namespace Cache

/-- Nothing of the buffer is left to be written. -/
def Written (s : Cache) (i : Nat) : Prop := (s.bh i).bDirt = false ∧ (s.bh i).bLock = false

/-- How far `sync_dev` has come with the buffer that a `getblk` is about to recycle. -/
def Flushing (s : Cache) : Pc → Prop
  | .evict _ _ _ tmp l =>
    l.dev = some (s.bh tmp).bDev ∧ (tmp < l.i → s.Written tmp) ∧
      (l.i = tmp → l.pos = .io → (s.bh tmp).bLock = true ∨ (s.bh tmp).bDirt = false)
  | .reinit _ _ _ tmp => s.Written tmp
  | _ => True

structure Coherent (s : Cache) : Prop where
  io : s.Io
  current : s.Current
  inFlight : s.InFlight
  held : ∀ p < s.nrTasks, ∀ r ∈ (s.tasks p).refs, r.read = true → (s.bh r.bh).bUptodate = true
  flushing : ∀ p < s.nrTasks, s.Flushing (s.tasks p).pc

/-- No transfer starts or ends. -/
structure Still (s s' : Cache) : Prop where
  lock : ∀ i, (s'.bh i).bLock = (s.bh i).bLock
  queue : s'.queue = s.queue
  port : s'.port = s.port

variable {s s' u : Cache} {p i : Nat} {t : Task} {pc : Pc} {g : Goal} {dev block tmp : Nat} {read : Bool}

theorem Still.trans (h : Still s u) (h' : Still u s') : Still s s' :=
  ⟨fun i => (h'.lock i).trans (h.lock i), h'.queue.trans h.queue, h'.port.trans h.port⟩

theorem Still.setTask (t : Task) : Still s (s.setTask p t) := ⟨fun _ => rfl, rfl, rfl⟩

theorem Still.setBh {b : BufferHead} (h : b.bLock = (s.bh i).bLock) : Still s (s.setBh i b) := by
  refine ⟨fun a => ?_, rfl, rfl⟩
  simp only [Cache.setBh]
  rcases eq_or_ne a i with rfl | ha
  · simpa using h
  · simp [ha]

theorem Still.relinked (h : Relinked s s') : Still s s' := by
  refine ⟨fun i => ?_, ?_, ?_⟩
  · rw [h.heads i]
    rfl
  all_goals rw [h.rest]

theorem Still.dropCount (h : ((s.dropCount tmp).map fun s => s.setPc p pc) = some s') : Still s s' := by
  obtain ⟨u, hu, hs'⟩ := Option.map_eq_some_iff.mp h
  cases hs'
  unfold Cache.dropCount at hu
  split at hu
  next => simp at hu
  next =>
    cases Option.some.inj hu
    exact (Still.setBh (by rfl)).trans (.setTask _)

theorem Flushing.mono (h : s.Flushing pc) (hv : ∀ i, pc.victim = some i → (s'.bh i).bDev = (s.bh i).bDev ∧
    ((s'.bh i).bDirt = true → (s.bh i).bDirt = true) ∧ ((s'.bh i).bLock = (s.bh i).bLock ∨
      (s'.bh i).bLock = true ∧ (s.bh i).bDirt = true ∨ (s'.bh i).bLock = false ∧ (s'.bh i).bDirt = false)) :
    s'.Flushing pc := by
  have hwritten : ∀ i, pc.victim = some i → s.Written i → s'.Written i := by
    intro i hi hw
    obtain ⟨-, hdirt, hlock⟩ := hv i hi
    have hclean : (s'.bh i).bDirt = false := by
      by_contra hc
      have hd := hdirt (by simpa using hc)
      simp [hw.1] at hd
    refine ⟨hclean, ?_⟩
    rcases hlock with hl | ⟨-, hd⟩ | ⟨hl, -⟩
    · rw [hl]
      exact hw.2
    · simp [hw.1] at hd
    · exact hl
  cases pc with
  | evict g dev block tmp l =>
    obtain ⟨hldev, hpast, hio⟩ := h
    obtain ⟨hdev, hdirt, hlock⟩ := hv tmp rfl
    refine ⟨by rw [hdev]; exact hldev, fun hlt => hwritten tmp rfl (hpast hlt), ?_⟩
    intro hli hpos
    rcases hlock with hl | ⟨hl, -⟩ | ⟨-, hd⟩
    · rcases hio hli hpos with hlk | hcl
      · exact Or.inl (hl.trans hlk)
      · refine Or.inr ?_
        by_contra hc
        simp [hdirt (by simpa using hc)] at hcl
    · exact Or.inl hl
    · exact Or.inr hd
  | reinit g dev block tmp => exact hwritten tmp rfl h
  | _ => trivial

/-- Buffers that are being recycled stay so while one task goes on. -/
theorem Goes.detached_mono {S : Nat → Prop} (hgo : Goes s s' p S)
    (hv : ∀ i, (s.tasks p).pc.victim = some i → (s'.tasks p).pc.victim = some i) (hi : s.Detached i) : s'.Detached i := by
  obtain ⟨q, hq, hvq⟩ := hi
  refine ⟨q, hgo.nrTasks.symm ▸ hq, ?_⟩
  rcases eq_or_ne q p with rfl | hne
  · exact hv i hvq
  · rw [hgo.other q hne]
    exact hvq

theorem Coherent.held_goes {S : Nat → Prop} (h : s.Coherent) (hgo : Goes s s' p S) (hup : ∀ i, (s'.bh i).bUptodate = (s.bh i).bUptodate)
    (hrefs : ∀ r ∈ (s'.tasks p).refs, r.read = true → (s.bh r.bh).bUptodate = true) :
    ∀ q < s'.nrTasks, ∀ r ∈ (s'.tasks q).refs, r.read = true → (s'.bh r.bh).bUptodate = true := by
  intro q hq r hr hrd
  rw [hgo.nrTasks] at hq
  rw [hup]
  rcases eq_or_ne q p with rfl | hne
  · exact hrefs r hr hrd
  · rw [hgo.other q hne] at hr
    exact h.held q hq r hr hrd

theorem Goes.flushing {S : Nat → Prop} (hgo : Goes s s' p S) (hflush : s'.Flushing (s'.tasks p).pc)
    (hother : ∀ q < s.nrTasks, q ≠ p → s'.Flushing (s.tasks q).pc) : ∀ q < s'.nrTasks, s'.Flushing (s'.tasks q).pc := by
  intro q hq
  rw [hgo.nrTasks] at hq
  rcases eq_or_ne q p with rfl | hne
  · exact hflush
  · rw [hgo.other q hne]
    exact hother q hq hne

/-- A task goes on between two transfers. -/
theorem Coherent.quiet (h : s.Coherent) (hgo : Goes s s' p fun _ => False) (hst : Still s s')
    (hold : (s.tasks p).pc.slot = none) (hnew : (s'.tasks p).pc.slot = none)
    (hread : ∀ i, (s.tasks p).pc.reads = some i → (s.bh i).bLock = false)
    (hv : ∀ i, (s.tasks p).pc.victim = some i → (s'.tasks p).pc.victim = some i)
    (hrefs : ∀ r ∈ (s'.tasks p).refs, r.read = true → (s.bh r.bh).bUptodate = true)
    (hflush : s'.Flushing (s'.tasks p).pc) : s'.Coherent := by
  have hk : ∀ i, BufferHead.Kept (s.bh i) (s'.bh i) := fun i => hgo.kept i id
  refine ⟨?_, h.current.goes hgo fun i => hgo.detached_mono hv, ?_, ?_, ?_⟩
  · exact h.io.quiet hgo.nrTasks hgo.hd hgo.other hst.queue hst.lock
      (fun i _ => ⟨(hk i).dev, (hk i).blocknr, fun hd => (hk i).dirt.trans hd, (hk i).uptodate⟩) hold hnew hread
  · exact h.inFlight.keep hst.queue hst.port hgo.disk fun r _ => ⟨(hk r.bh).lo, (hk r.bh).hi⟩
  · exact h.held_goes hgo (fun i => (hk i).uptodate) hrefs
  · refine hgo.flushing hflush fun q hq _ => ?_
    exact (h.flushing q hq).mono fun i _ => ⟨(hk i).dev, fun hd => (hk i).dirt ▸ hd, Or.inl (hst.lock i)⟩

/-- A task starts a transfer. -/
theorem Coherent.lockBuffer (h : s.Coherent) (hp : p < s.nrTasks) (hl : (s.bh i).bLock = false)
    (hold : (s.tasks p).pc.slot = none) (hreads : (s.tasks p).pc.reads = none) (hslot : pc.slot = some (i, read))
    (hdirty : read = false → (s.bh i).bDirt = true)
    (hstale : read = true → (s.bh i).bUptodate = false ∧ llRwBlock s i = .started ∧ pc.reads = some i)
    (hatt : read = true → ¬ s.Detached i) (hv : ∀ j, (s.tasks p).pc.victim = some j → pc.victim = some j)
    (hflush : ((s.lockBuffer i).setPc p pc).Flushing pc) : ((s.lockBuffer i).setPc p pc).Coherent := by
  have hgo : Goes s ((s.lockBuffer i).setPc p pc) p fun _ => False := (Goes.lockBuffer i).trans (.setPc pc)
  have hk : ∀ a, BufferHead.Kept (s.bh a) (((s.lockBuffer i).setPc p pc).bh a) := fun a => hgo.kept a id
  have hlock : ∀ a, a ≠ i → (((s.lockBuffer i).setPc p pc).bh a).bLock = (s.bh a).bLock := by
    intro a ha
    simp [Cache.setPc, Cache.setTask, Cache.lockBuffer, Cache.setBh, ha]
  have hlocki : (((s.lockBuffer i).setPc p pc).bh i).bLock = true := by
    simp [Cache.setPc, Cache.setTask, Cache.lockBuffer, Cache.setBh]
  have htask : ((s.lockBuffer i).setPc p pc).tasks p = { s.tasks p with pc := pc } := by
    simp [Cache.setPc, Cache.setTask, Cache.lockBuffer, Cache.setBh]
  have hio := h.io.lockBuffer hp hl hold hreads hslot hdirty hstale
  have hfl : ((s.lockBuffer i).setPc p pc).InFlight :=
    h.inFlight.keep rfl rfl rfl fun r _ => ⟨(hk r.bh).lo, (hk r.bh).hi⟩
  generalize (s.lockBuffer i).setPc p pc = s' at *
  refine ⟨hio, h.current.goes hgo fun j => hgo.detached_mono fun i hi => ?_, hfl, h.held_goes hgo (fun a => (hk a).uptodate) ?_,
    hgo.flushing ?_ fun q hq _ => ?_⟩
  · rw [htask]
    exact hv i hi
  · rw [htask]
    exact h.held p hp
  · rw [htask]
    exact hflush
  · refine (h.flushing q hq).mono ?_
    intro j hj
    refine ⟨(hk j).dev, fun hd => (hk j).dirt ▸ hd, ?_⟩
    rcases eq_or_ne j i with rfl | hji
    · refine Or.inr (Or.inl ⟨hlocki, ?_⟩)
      cases read with
      | false => exact hdirty rfl
      | true => exact absurd ⟨q, hq, hj⟩ (hatt rfl)
    · exact Or.inl (hlock j hji)

/-- A task puts its request into the queue. -/
theorem Coherent.enqueue (h : s.Coherent) (hp : p < s.nrTasks) (hold : (s.tasks p).pc.slot = some (i, read))
    (hnew : pc.slot = none) (hreads : pc.reads = (s.tasks p).pc.reads) (hv : pc.victim = (s.tasks p).pc.victim)
    (hflush : ((s.enqueue i read).setPc p pc).Flushing pc) : ((s.enqueue i read).setPc p pc).Coherent := by
  have hgo : Goes s ((s.enqueue i read).setPc p pc) p fun _ => False := (Goes.enqueue read).trans (.setPc pc)
  have hbh : ((s.enqueue i read).setPc p pc).bh = s.bh := enqueue_bh
  have htask : ((s.enqueue i read).setPc p pc).tasks p = { s.tasks p with pc := pc } := by
    simp [Cache.setPc, Cache.setTask, enqueue_tasks]
  have hio := h.io.enqueue hp hold hnew hreads
  have hfl : ((s.enqueue i read).setPc p pc).InFlight :=
    (h.inFlight.enqueue).keep rfl rfl rfl fun _ _ => ⟨rfl, rfl⟩
  generalize (s.enqueue i read).setPc p pc = s' at *
  refine ⟨hio, h.current.goes hgo fun j => hgo.detached_mono fun i hi => ?_, hfl, h.held_goes hgo (fun a => by rw [hbh]) ?_,
    hgo.flushing ?_ fun q hq _ => ?_⟩
  · rw [htask]
    exact hv.trans hi
  · rw [htask]
    exact h.held p hp
  · rw [htask]
    exact hflush
  · refine (h.flushing q hq).mono ?_
    intro j _
    rw [hbh]
    exact ⟨rfl, id, Or.inl rfl⟩

theorem Coherent.setPc (h : s.Coherent) (hp : p < s.nrTasks) (hold : (s.tasks p).pc.slot = none) (hnew : pc.slot = none)
    (hread : ∀ i, (s.tasks p).pc.reads = some i → (s.bh i).bLock = false)
    (hv : ∀ i, (s.tasks p).pc.victim = some i → pc.victim = some i) (hflush : s.Flushing pc) :
    (s.setPc p pc).Coherent := by
  have hpc : ((s.setPc p pc).tasks p).pc = pc := setPc_pc pc
  refine h.quiet (.setPc pc) (.setTask _) hold (by rw [hpc]; exact hnew) hread (by rw [hpc]; exact hv) ?_ ?_
  · intro r hr
    have : r ∈ (s.tasks p).refs := by simpa [Cache.setPc, Cache.setTask] using hr
    exact h.held p hp r this
  · rw [hpc]
    exact hflush.mono fun _ _ => ⟨rfl, id, Or.inl rfl⟩

theorem Coherent.dropCount (h : s.Coherent) (hp : p < s.nrTasks) (hold : (s.tasks p).pc.slot = none)
    (hread : ∀ i, (s.tasks p).pc.reads = some i → (s.bh i).bLock = false) (hvo : (s.tasks p).pc.victim = none)
    (hnew : pc.slot = none) (hv : pc.victim = none)
    (hd : ((s.dropCount i).map fun s => s.setPc p pc) = some s') : s'.Coherent := by
  have hpc := dropCount_pc hd
  have hgo : Goes s s' p fun _ => False := .dropCount hd
  refine h.quiet hgo (.dropCount hd) hold (by rw [hpc]; exact hnew) hread (by simp [hvo]) ?_ ?_
  · intro r hr
    obtain ⟨u, hu, hs'⟩ := Option.map_eq_some_iff.mp hd
    have hut : u.tasks = s.tasks := by
      unfold Cache.dropCount at hu
      split at hu
      next => simp at hu
      next =>
        cases Option.some.inj hu
        rfl
    have hrp : r ∈ (s.tasks p).refs := by simpa [← hs', Cache.setPc, Cache.setTask, hut] using hr
    exact h.held p hp r hrp
  · rw [hpc]
    cases pc <;> trivial

theorem Coherent.giveRef (h : s.Coherent) (hp : p < s.nrTasks) (hold : (s.tasks p).pc.slot = none)
    (hread : ∀ i, (s.tasks p).pc.reads = some i → (s.bh i).bLock = false) (hvo : (s.tasks p).pc.victim = none)
    (hup : read = true → (s.bh i).bUptodate = true) : (s.giveRef p i read).Coherent := by
  have htask : (s.giveRef p i read).tasks p =
      ⟨.idle, ⟨i, (s.bh i).bDev, (s.bh i).bBlocknr, read⟩ :: (s.tasks p).refs⟩ := by
    simp [Cache.giveRef, Cache.setTask]
  refine h.quiet (.setTask _) (.setTask _) hold (by rw [htask]; rfl) hread (by simp [hvo]) ?_ (by rw [htask]; trivial)
  intro r hr hrd
  rw [htask] at hr
  rcases List.mem_cons.mp hr with rfl | hr
  · exact hup hrd
  · exact h.held p hp r hr hrd

theorem Coherent.gotBuffer (h : s.Coherent) (hinv : s.Inv) (hp : p < s.nrTasks)
    (hpc : (s.tasks p).pc = .hashWait g dev block i) (hl : (s.bh i).bLock = false)
    (hg : s.gotBuffer p i g = some s') : s'.Coherent := by
  have hold : (s.tasks p).pc.slot = none := by rw [hpc]; rfl
  have hreads : (s.tasks p).pc.reads = none := by rw [hpc]; rfl
  have hvo : (s.tasks p).pc.victim = none := by rw [hpc]; rfl
  have hread : ∀ i, (s.tasks p).pc.reads = some i → (s.bh i).bLock = false := by simp [hreads]
  cases g with
  | hash =>
    cases Option.some.inj hg
    exact h.giveRef hp hold hread hvo (by simp)
  | get =>
    cases Option.some.inj hg
    exact h.giveRef hp hold hread hvo (by simp)
  | read =>
    simp only [Cache.gotBuffer] at hg
    split at hg
    next hup =>
      cases Option.some.inj hg
      exact h.giveRef hp hold hread hvo fun _ => hup
    next hup =>
      split at hg
      next => simp at hg
      next => exact h.dropCount hp hold hread hvo rfl rfl hg
      next hrw =>
        cases Option.some.inj hg
        have hatt := hinv.not_detached hp (by rw [hpc]; rfl) hvo
        exact h.lockBuffer hp hl hold hreads rfl (by simp) (fun _ => ⟨by simpa using hup, hrw, rfl⟩) (fun _ => hatt)
          (by simp [hvo]) trivial

theorem Coherent.take (h : s.Coherent) (hinv : s.Inv) (hp : p < s.nrTasks) (hold : (s.tasks p).pc.slot = none)
    (hreads : (s.tasks p).pc.reads = none) (hvo : (s.tasks p).pc.victim = none) (hfree : (s.bh tmp).bCount = 0)
    (ht : s.take p g dev block tmp = some s') : s'.Coherent := by
  have hgo : Goes s s' p fun _ => False := .take ht
  obtain ⟨u, hu, hs'⟩ := Option.map_eq_some_iff.mp ht
  have hrel := removeFromQueues_relinked hu
  have hgou : Goes s u p fun _ => False := (Goes.setCount _).trans (.relinked hrel)
  have hstu : Still s u := (Still.setBh (by rfl)).trans (.relinked hrel)
  have hut : u.tasks = s.tasks := hrel.tasks
  have hk := hgou.kept tmp id
  have hpc : ∀ pc : Pc, pc.slot = none → u.Flushing pc → (u.setPc p pc).Coherent := by
    intro pc hslot hfl
    have htask : (u.setPc p pc).tasks p = { s.tasks p with pc := pc } := by
      simp [Cache.setPc, Cache.setTask, hut]
    refine h.quiet (hgou.trans (.setPc pc)) (hstu.trans (.setTask _)) hold (by rw [htask]; exact hslot)
      (by simp [hreads]) (by simp [hvo]) ?_ ?_
    · intro r hr
      rw [htask] at hr
      exact h.held p hp r hr
    · rw [htask]
      exact hfl.mono fun _ _ => ⟨rfl, id, Or.inl rfl⟩
  split at hs'
  next =>
    cases hs'
    exact hpc _ rfl ⟨rfl, by simp, by simp⟩
  next hclean =>
    cases hs'
    have hdirt : (s.bh tmp).bDirt = false := by
      rw [← hk.dirt]
      simpa using hclean
    refine hpc _ rfl ⟨by simpa using hclean, ?_⟩
    rw [hstu.lock]
    by_contra hl
    have := h.io.locked_dirty hinv (by simpa using hl) hfree
    simp [hdirt] at this

theorem Coherent.scanNext (h : s.Coherent) (hinv : s.Inv) (hp : p < s.nrTasks) (hold : (s.tasks p).pc.slot = none)
    (hreads : (s.tasks p).pc.reads = none) (hvo : (s.tasks p).pc.victim = none)
    (hfree : ∀ n ∈ s.roundTrip tmp, (s.bh n).bCount = 0) (hs : s.scanNext p g dev block tmp = some s') :
    s'.Coherent := by
  unfold Cache.scanNext at hs
  split at hs
  next => simp at hs
  next n hn =>
    split at hs
    next hround => exact h.take hinv hp hold hreads hvo (hfree n (by simp [roundTrip, hn, hround])) hs
    next =>
      cases Option.some.inj hs
      exact h.setPc hp hold rfl (by simp [hreads]) (by simp [hvo]) trivial

/-- A step of `sys_sync` or `sync_dev`. -/
theorem Coherent.loopStep {inside : Loop → Pc} {done : Pc} {l : Loop} (h : s.Coherent) (hp : p < s.nrTasks)
    (hpc : (s.tasks p).pc = inside l) (hs : s.loopStep p inside done l = some s') (hb : s.loopBlocked l = false)
    (hin : ∀ l', (inside l').slot = l'.slot ∧ (inside l').reads = none ∧ (inside l').victim = (inside l).victim)
    (hdone : done.slot = none ∧ done.victim = (inside l).victim) (hflush : s'.Flushing (s'.tasks p).pc) :
    s'.Coherent := by
  have hreads : (s.tasks p).pc.reads = none := by rw [hpc, (hin l).2.1]
  have hold : (s.tasks p).pc.slot = l.slot := by rw [hpc, (hin l).1]
  have hmove : ∀ pc : Pc, l.slot = none → pc.slot = none → pc.victim = (inside l).victim →
      (s.setPc p pc).Flushing ((s.setPc p pc).tasks p).pc → (s.setPc p pc).Coherent := by
    intro pc hl hslot hv hfl
    rw [setPc_pc] at hfl
    refine h.setPc hp (hold.trans hl) hslot (by simp [hreads]) (by rw [hpc, hv]; exact fun _ => id) ?_
    exact hfl.mono fun _ _ => ⟨rfl, id, Or.inl rfl⟩
  unfold Cache.loopStep at hs
  dsimp only at hs
  split at hs
  next hpos =>
    have hl : l.slot = none := by simp [Loop.slot, hpos]
    split at hs
    next =>
      cases Option.some.inj hs
      exact hmove _ hl hdone.1 hdone.2 hflush
    next =>
      split at hs
      next =>
        cases Option.some.inj hs
        exact hmove _ hl ((hin _).1) (hin _).2.2 hflush
      next =>
        cases Option.some.inj hs
        exact hmove _ hl ((hin _).1) (hin _).2.2 hflush
  next hpos =>
    have hl : l.slot = none := by simp [Loop.slot, hpos]
    split at hs
    next hdirt =>
      split at hs
      next => simp at hs
      next =>
        cases Option.some.inj hs
        exact hmove _ hl ((hin _).1) (hin _).2.2 hflush
      next =>
        cases Option.some.inj hs
        have hunlocked : (s.bh l.i).bLock = false := by simpa [loopBlocked, hpos] using hb
        rw [setPc_pc] at hflush
        exact h.lockBuffer hp hunlocked (hold.trans hl) hreads (hin _).1 (fun _ => hdirt) (by simp) (by simp)
          (fun j hj => by rw [(hin _).2.2, ← hpc]; exact hj) hflush
    next =>
      cases Option.some.inj hs
      exact hmove _ hl ((hin _).1) (hin _).2.2 hflush
  next hpos =>
    cases Option.some.inj hs
    rw [setPc_pc] at hflush
    have hslot : (s.tasks p).pc.slot = some (l.i, false) := by rw [hold]; simp [Loop.slot, hpos]
    exact h.enqueue hp hslot (hin _).1 (by rw [hreads, (hin _).2.1]) (by rw [hpc, (hin _).2.2]) hflush
  next hpos =>
    have hl : l.slot = none := by simp [Loop.slot, hpos]
    cases Option.some.inj hs
    exact hmove _ hl ((hin _).1) (hin _).2.2 hflush

/-- `sync_dev` does not pass the buffer that is being recycled before it is written. -/
theorem Coherent.evict_flushing {l : Loop} (h : s.Coherent) (hp : p < s.nrTasks)
    (hpc : (s.tasks p).pc = .evict g dev block tmp l) (htmp : tmp < s.nrBuffers) (hb : s.loopBlocked l = false)
    (hs : s.loopStep p (.evict g dev block tmp) (.reinit g dev block tmp) l = some s') :
    s'.Flushing (s'.tasks p).pc := by
  have hfl := h.flushing p hp
  rw [hpc] at hfl
  obtain ⟨hldev, hpast, hio⟩ := hfl
  -- on to the next buffer, `tmp` being written if it was the one of this step
  have hnext : (l.i = tmp → s.Written tmp) →
      (s.setPc p (.evict g dev block tmp ⟨l.dev, l.i + 1, .check⟩)).Flushing
        (.evict g dev block tmp ⟨l.dev, l.i + 1, .check⟩) := by
    intro hthis
    refine ⟨hldev, ?_, by simp⟩
    intro hlt
    rcases Nat.lt_or_ge tmp l.i with hlti | hge
    · exact hpast hlti
    · exact hthis (by dsimp only at hlt; omega)
  unfold Cache.loopStep at hs
  dsimp only at hs
  split at hs
  next hpos =>
    split at hs
    next hend =>
      cases Option.some.inj hs
      rw [setPc_pc]
      exact hpast (by omega)
    next =>
      split at hs
      next hskip =>
        cases Option.some.inj hs
        rw [setPc_pc]
        refine hnext ?_
        intro hi
        simp [hldev, hi] at hskip
      next =>
        cases Option.some.inj hs
        rw [setPc_pc]
        exact ⟨hldev, hpast, by simp⟩
  next hpos =>
    have hunlocked : (s.bh l.i).bLock = false := by simpa [loopBlocked, hpos] using hb
    split at hs
    next hdirt =>
      split at hs
      next => simp at hs
      next hrw =>
        -- a dirty buffer has a place on the disk
        rw [h.current.onDisk l.i (h.current.read l.i hdirt)] at hrw
        simp at hrw
      next =>
        cases Option.some.inj hs
        rw [setPc_pc]
        have hdev : ∀ a, (((s.lockBuffer l.i).setPc p (.evict g dev block tmp ⟨l.dev, l.i, .slot⟩)).bh a).bDev =
            (s.bh a).bDev := by
          intro a
          simp only [Cache.setPc, Cache.setTask, Cache.lockBuffer, Cache.setBh, Function.update_apply]
          split
          next ha => rw [ha]
          next => rfl
        refine ⟨by rw [hdev]; exact hldev, ?_, by simp⟩
        intro hlt
        have hne : tmp ≠ l.i := by
          dsimp only at hlt
          omega
        have hw := hpast hlt
        simpa [Written, Cache.setPc, Cache.setTask, Cache.lockBuffer, Cache.setBh, hne] using hw
    next hdirt =>
      cases Option.some.inj hs
      rw [setPc_pc]
      refine hnext ?_
      intro hi
      rw [hi] at hdirt hunlocked
      exact ⟨by simpa using hdirt, hunlocked⟩
  next hpos =>
    have hbh : ((s.enqueue l.i false).setPc p (.evict g dev block tmp ⟨l.dev, l.i, .io⟩)).bh = s.bh := enqueue_bh
    cases Option.some.inj hs
    rw [setPc_pc]
    have hslot : (s.tasks p).pc.slot = some (l.i, false) := by
      rw [hpc]
      simp [Pc.slot, Loop.slot, hpos]
    have hlock : (s.bh l.i).bLock = true := h.io.pending_lock (Or.inr ⟨p, hp, hslot⟩)
    refine ⟨by rw [hbh]; exact hldev, ?_, ?_⟩
    · intro hlt
      simpa only [Written, hbh] using hpast hlt
    · intro hi _
      rw [hbh, ← hi]
      exact Or.inl hlock
  next hpos =>
    cases Option.some.inj hs
    rw [setPc_pc]
    have hunlocked : (s.bh l.i).bLock = false := by simpa [loopBlocked, hpos] using hb
    refine hnext ?_
    intro hi
    rw [hi] at hunlocked
    rcases hio hi hpos with hl | hc
    · simp [hl] at hunlocked
    · exact ⟨hc, hunlocked⟩

theorem Current.dev_ne (h : s.Current) (hup : (s.bh i).bUptodate = true) : (s.bh i).bDev ≠ 0 := by
  intro h0
  have hrw := h.onDisk i hup
  simp [llRwBlock, h0] at hrw

/-- The buffer that was being recycled comes back with nothing in it. -/
theorem Coherent.reset (h : s.Coherent) (hinv : s.Inv) (hp : p < s.nrTasks)
    (hpc : (s.tasks p).pc = .reinit g dev block tmp) (hgo : Goes s s' p (· = tmp)) (hst : Still s s')
    (ht : s'.tasks p = { s.tasks p with pc := pc }) (hslot : pc.slot = none) (hv : pc.victim = none)
    (hdirt : (s'.bh tmp).bDirt = false) (hup : (s'.bh tmp).bUptodate = false)
    (hother : ∀ j, (s.bh j).bDirt = true → ¬ (s'.bh tmp).Of (s.bh j).bDev (s.bh j).bBlocknr) : s'.Coherent := by
  have hvo : (s.tasks p).pc.victim = some tmp := by rw [hpc]; rfl
  have hw : s.Written tmp := by
    have := h.flushing p hp
    rwa [hpc] at this
  have hD : ∀ i, i ≠ tmp → s.Detached i → s'.Detached i := by
    intro i hi hd
    obtain ⟨q, hq, hvq⟩ := hd
    refine ⟨q, hgo.nrTasks.symm ▸ hq, ?_⟩
    rcases eq_or_ne q p with rfl | hne
    · exact absurd (Option.some.inj (hvq.symm.trans hvo)) hi
    · rw [hgo.other q hne]
      exact hvq
  have hlocked : ∀ i, (s.bh i).bLock = true → i ≠ tmp := by
    intro i hi he
    rw [he, hw.2] at hi
    simp at hi
  refine ⟨?_, h.current.reset hgo hD hw.1 hdirt hup hother, ?_, ?_, ?_⟩
  · refine h.io.quiet hgo.nrTasks hgo.hd hgo.other hst.queue hst.lock ?_ (by rw [hpc]; rfl) (by rw [ht]; exact hslot)
      (by simp [hpc, Pc.reads])
    intro i hi
    have hk := hgo.kept i (hlocked i hi)
    exact ⟨hk.dev, hk.blocknr, fun hd => hk.dirt.trans hd, hk.uptodate⟩
  · refine h.inFlight.keep hst.queue hst.port hgo.disk ?_
    intro r hr
    have hk := hgo.kept r.bh (hlocked r.bh (h.io.pending_lock (Or.inl ⟨r, hr, rfl, rfl⟩)))
    exact ⟨hk.lo, hk.hi⟩
  · intro q hq r hr hrd
    rw [hgo.nrTasks] at hq
    have hr' : r ∈ (s.tasks q).refs := by
      rcases eq_or_ne q p with rfl | hne
      · rw [ht] at hr
        exact hr
      · rw [hgo.other q hne] at hr
        exact hr
    have hk := hgo.kept r.bh ((hinv.only_victim hp hvo q hq).1 r hr')
    rw [hk.uptodate]
    exact h.held q hq r hr' hrd
  · intro q hq
    rw [hgo.nrTasks] at hq
    rcases eq_or_ne q p with rfl | hne
    · rw [ht]
      cases pc <;> trivial
    · rw [hgo.other q hne]
      refine (h.flushing q hq).mono ?_
      intro i hi
      have hitmp : i ≠ tmp := by
        intro he
        subst he
        exact hne ((hinv.only_victim hp hvo q hq).2 (counted_of_victim hi))
      have hk := hgo.kept i hitmp
      exact ⟨hk.dev, fun hd => hk.dirt ▸ hd, Or.inl (hst.lock i)⟩

/-- The buffer taken by `getblk` is clean and gets another label. -/
theorem Coherent.relabel {b : BufferHead} (h : s.Coherent) (hinv : s.Inv) (hp : p < s.nrTasks)
    (hpc : (s.tasks p).pc = .reinit g dev block tmp) (hre : Relinked (s.setBh tmp b) u) (hlock : b.bLock = (s.bh tmp).bLock)
    (hdirt : b.bDirt = false) (hup : b.bUptodate = false) (hslot : pc.slot = none) (hv : pc.victim = none)
    (hother : ∀ j, (s.bh j).bDirt = true → ¬ b.Of (s.bh j).bDev (s.bh j).bBlocknr) :
    Goes s (u.setPc p pc) p (· = tmp) ∧ Still s (u.setPc p pc) ∧ (u.setPc p pc).Coherent := by
  have hset : Goes s (s.setBh tmp b) p (· = tmp) := .setBh fun hn => absurd rfl hn
  have hgo : Goes s (u.setPc p pc) p (· = tmp) := (hset.trans (.relinked hre)).trans (.setPc _)
  have hst : Still s (u.setPc p pc) := ((Still.setBh hlock).trans (.relinked hre)).trans (.setTask _)
  have ht : (u.setPc p pc).tasks p = { s.tasks p with pc := pc } := by
    simp only [Cache.setPc, Cache.setTask, Function.update_self, hre.tasks]
    rfl
  have hat : (u.setPc p pc).bh tmp = u.bh tmp := rfl
  have hdev := hre.dev tmp
  have hblock := hre.blocknr tmp
  simp only [Cache.setBh, Function.update_self] at hdev hblock
  refine ⟨hgo, hst, h.reset hinv hp hpc hgo hst ht hslot hv ?_ ?_ ?_⟩
  · rw [hat, hre.heads tmp]
    simp [BufferHead.withLinks, Cache.setBh, hdirt]
  · rw [hat, hre.heads tmp]
    simp [BufferHead.withLinks, Cache.setBh, hup]
  · intro j hj hof
    rw [hat] at hof
    exact hother j hj ⟨hdev.symm.trans hof.1, hblock.symm.trans hof.2⟩

theorem Coherent.reinit (h : s.Coherent) (hinv : s.Inv) (hp : p < s.nrTasks)
    (hpc : (s.tasks p).pc = .reinit g dev block tmp) (hfit : dev < 65536 ∧ block < 65536)
    (hapart : ∀ q < s.nrTasks, ∀ j ∈ (s.tasks q).pc.victim, (s.bh j).bDirt = true → ¬ (s.bh j).Of dev block)
    (hr : s.reinit p g dev block tmp = some s') : s'.Coherent := by
  rcases hinv.reinit_cases hp hpc hr with ⟨u, hre, rfl, -⟩ | ⟨u, hre, habsent, hinv', hgot⟩
  · refine (h.relabel hinv hp hpc hre rfl rfl rfl rfl rfl ?_).2.2
    intro j hj hof
    exact h.current.dev_ne (h.current.read j hj) hof.1.symm
  · have hw : s.Written tmp := by
      have := h.flushing p hp
      rwa [hpc] at this
    obtain ⟨hgo, hst, hcoh⟩ : Goes s (u.setPc p (.hashWait g dev block tmp)) p (· = tmp) ∧
        Still s (u.setPc p (.hashWait g dev block tmp)) ∧ (u.setPc p (.hashWait g dev block tmp)).Coherent := by
      refine h.relabel hinv hp hpc hre rfl rfl rfl rfl rfl ?_
      intro j hj hof
      simp only [BufferHead.Of, ushort, Nat.mod_eq_of_lt hfit.1, Nat.mod_eq_of_lt hfit.2] at hof
      have hofj : (s.bh j).Of dev block := ⟨hof.1.symm, hof.2.symm⟩
      by_cases hDj : s.Detached j
      · obtain ⟨q, hq, hvq⟩ := hDj
        exact hapart q hq j hvq hj hofj
      · have hne := h.current.dev_ne (h.current.read j hj)
        exact habsent j (h.current.below j hj) hDj (hofj.1 ▸ hne) hofj
    have hp' : p < (u.setPc p (.hashWait g dev block tmp)).nrTasks := hgo.nrTasks.symm ▸ hp
    exact hcoh.gotBuffer hinv' hp' (setPc_pc _) ((hst.lock tmp).trans hw.2) hgot

end Cache

end RheeKernel
