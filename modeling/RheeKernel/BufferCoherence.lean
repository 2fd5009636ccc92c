import RheeKernel.BufferEviction

namespace RheeKernel

open Machine (Reach exec)

namespace Cache

/-- The write that is going on has already sent this half of the buffer to the controller. -/
def Copied (s : Cache) (i : Nat) (second : Bool) : Prop :=
  match s.queue with
  | [] => False
  | r :: _ => r.cmd = .winWrite ∧ r.bh = i ∧ (second = false ∨ r.nsector = 1)

/-- A step without an I/O error that stores nothing behind the back of a write, and that brings no block
back into the cache whose dirty buffer another `getblk` has taken out and not yet written. -/
def Careful (s : Cache) : CacheOp → Prop
  | .store p k second _ => ∀ r ∈ (s.tasks p).refs[k]?, ¬ s.Copied r.bh second
  | .run p =>
    match (s.tasks p).pc with
    | .reinit _ dev block _ =>
      ∀ q < s.nrTasks, ∀ j ∈ (s.tasks q).pc.victim, (s.bh j).bDirt = true → ¬ (s.bh j).Of dev block
    | _ => True
  | .ioError => False
  | _ => True

instance (s : Cache) (i : Nat) (second : Bool) : Decidable (s.Copied i second) := by
  unfold Copied
  split <;> infer_instance

instance (s : Cache) : (op : CacheOp) → Decidable (s.Careful op)
  | .store p k second _ => inferInstanceAs (Decidable (∀ r ∈ (s.tasks p).refs[k]?, ¬ s.Copied r.bh second))
  | .run p =>
    match h : (s.tasks p).pc with
    | .reinit _ dev block _ =>
      decidable_of_iff (∀ q < s.nrTasks, ∀ j ∈ (s.tasks q).pc.victim, (s.bh j).bDirt = true → ¬ (s.bh j).Of dev block)
        (by simp [Careful, h])
    | .idle | .find _ _ _ | .hashWait _ _ _ _ | .scan _ _ _ _ | .scanWait _ _ _ _ | .bufferWait _ _ _ | .evict _ _ _ _ _
    | .readSlot _ | .readIo _ | .relse _ | .sync _ => .isTrue (by simp [Careful, h])
  | .ioError => inferInstanceAs (Decidable False)
  | .getHashTable _ _ _ | .getblk _ _ _ | .bread _ _ _ | .brelse _ _ | .sysSync _ | .interrupt =>
    inferInstanceAs (Decidable True)

variable {s s' u : Cache} {p i : Nat} {t : Task} {pc : Pc} {g : Goal} {dev block tmp : Nat} {read : Bool}

theorem Coherent.settle (h : s.Coherent) (p : Nat) : (s.settle p).Coherent :=
  ⟨⟨h.io.balance, h.io.ids, h.io.cmds, h.io.whole, h.io.dirty, h.io.stale⟩,
    ⟨h.current.below, h.current.read, h.current.onDisk, h.current.current, h.current.twin, h.current.flushed⟩,
    ⟨h.inFlight.write, h.inFlight.read⟩, h.held,
    fun q hq => (h.flushing q hq).mono fun _ _ => ⟨rfl, id, Or.inl rfl⟩⟩

theorem Coherent.advance (h : s.Coherent) (hinv : s.Inv) (hnamed : s.Named) (hp : p < s.nrTasks)
    (hb : s.blocked (s.tasks p).pc = false) (hok : s.Orderly (.run p)) (hcare : s.Careful (.run p))
    (hs : s.advance p = some s') : s'.Coherent := by
  have hchoice := hok.1
  unfold Cache.advance at hs
  split at hs
  next => simp at hs
  next g dev block hpc =>
    have hold : (s.tasks p).pc.slot = none := by rw [hpc]; rfl
    have hreads : ∀ i, (s.tasks p).pc.reads = some i → (s.bh i).bLock = false := by simp [hpc, Pc.reads]
    have hvo : (s.tasks p).pc.victim = none := by rw [hpc]; rfl
    split at hs
    next j hf =>
      cases Option.some.inj hs
      have hgo : Goes s ((s.setBh j { s.bh j with bCount := uchar ((s.bh j).bCount + 1) }).setPc p
          (.hashWait g dev block j)) p fun _ => False := (Goes.setCount _).trans (.setPc _)
      refine h.quiet hgo ((Still.setBh (by rfl)).trans (.setTask _)) hold (by rw [setPc_pc]; rfl) hreads
        (by simp [hvo]) ?_ (by rw [setPc_pc]; trivial)
      intro r hr
      have hrp : r ∈ (s.tasks p).refs := by simpa [Cache.setPc, Cache.setTask, Cache.setBh] using hr
      exact h.held p hp r hrp
    next =>
      split at hs
      next =>
        cases Option.some.inj hs
        exact h.setPc hp hold rfl hreads (by simp [hvo]) trivial
      next =>
        obtain ⟨tmp, -, hs'⟩ := Option.map_eq_some_iff.mp hs
        cases hs'
        exact h.setPc hp hold rfl hreads (by simp [hvo]) trivial
  next g dev block i hpc =>
    have hl : (s.bh i).bLock = false := by simpa [hpc, Cache.blocked] using hb
    split at hs
    next =>
      exact h.dropCount hp (by rw [hpc]; rfl) (by simp [hpc, Pc.reads]) (by rw [hpc]; rfl) rfl rfl hs
    next => exact h.gotBuffer hinv hp hpc hl hs
  next g dev block tmp hpc =>
    have hold : (s.tasks p).pc.slot = none := by rw [hpc]; rfl
    have hreads : (s.tasks p).pc.reads = none := by rw [hpc]; rfl
    have hvo : (s.tasks p).pc.victim = none := by rw [hpc]; rfl
    split at hs
    next =>
      cases Option.some.inj hs
      exact h.setPc hp hold rfl (by simp [hreads]) (by simp [hvo]) trivial
    next hbusy =>
      refine h.scanNext hinv hp hold hreads hvo ?_ hs
      intro n hn
      exact (hchoice n (by simpa [hpc, chooses, hbusy] using hn)).1
  next g dev block tmp hpc =>
    have hold : (s.tasks p).pc.slot = none := by rw [hpc]; rfl
    have hreads : (s.tasks p).pc.reads = none := by rw [hpc]; rfl
    have hvo : (s.tasks p).pc.victim = none := by rw [hpc]; rfl
    split at hs
    next hfree => exact h.take hinv hp hold hreads hvo hfree hs
    next hbusy =>
      refine h.scanNext hinv hp hold hreads hvo ?_ hs
      intro n hn
      exact (hchoice n (by simpa [hpc, chooses, hbusy] using hn)).1
  next g dev block hpc =>
    cases Option.some.inj hs
    exact h.setPc hp (by rw [hpc]; rfl) rfl (by simp [hpc, Pc.reads]) (by simp [hpc, Pc.victim]) trivial
  next g dev block tmp l hpc =>
    have hbl : s.loopBlocked l = false := by simpa [hpc, Cache.blocked] using hb
    have htmp := hinv.bound p hp tmp (Or.inl (by rw [hpc]; rfl))
    exact h.loopStep hp hpc hs hbl (fun _ => ⟨rfl, rfl, rfl⟩) ⟨rfl, rfl⟩ (h.evict_flushing hp hpc htmp hbl hs)
  next g dev block tmp hpc =>
    have hfit := hnamed.narrow p hp (dev, block) (by rw [hpc]; rfl)
    have hapart := hcare
    simp only [Careful, hpc] at hapart
    exact h.reinit hinv hp hpc hfit hapart hs
  next i hpc =>
    cases Option.some.inj hs
    exact h.enqueue hp (by rw [hpc]; rfl) rfl (by rw [hpc]; rfl) (by rw [hpc]; rfl) trivial
  next i hpc =>
    have hl : (s.bh i).bLock = false := by simpa [hpc, Cache.blocked] using hb
    have hreads : ∀ j, (s.tasks p).pc.reads = some j → (s.bh j).bLock = false := by
      intro j hj
      rw [hpc] at hj
      cases Option.some.inj hj
      exact hl
    split at hs
    next hup =>
      cases Option.some.inj hs
      exact h.giveRef hp (by rw [hpc]; rfl) hreads (by rw [hpc]; rfl) fun _ => hup
    next => exact h.dropCount hp (by rw [hpc]; rfl) hreads (by rw [hpc]; rfl) rfl rfl hs
  next i hpc =>
    exact h.dropCount hp (by rw [hpc]; rfl) (by simp [hpc, Pc.reads]) (by rw [hpc]; rfl) rfl rfl hs
  next l hpc =>
    have hbl : s.loopBlocked l = false := by simpa [hpc, Cache.blocked] using hb
    refine h.loopStep hp hpc hs hbl (fun _ => ⟨rfl, rfl, rfl⟩) ⟨rfl, rfl⟩ ?_
    rcases loopStep_pc hs with he | ⟨l', he⟩
    · rw [he]
      trivial
    · rw [he]
      trivial

theorem Coherent.call (h : s.Coherent) (hcall : s.call p t = some s') (hslot : t.pc.slot = none)
    (hv : t.pc.victim = none) (hsub : ∀ r ∈ t.refs, r ∈ (s.tasks p).refs) : s'.Coherent := by
  obtain ⟨hp, hidle, rfl⟩ := call_cases hcall
  have ht : (s.setTask p t).tasks p = t := by simp [Cache.setTask]
  have hset : (s.setTask p t).Coherent := by
    refine h.quiet (.setTask t) (.setTask t) (by rw [hidle]; rfl) (by rw [ht]; exact hslot)
      (by simp [hidle, Pc.reads]) (by simp [hidle, Pc.victim]) ?_ ?_
    · intro r hr
      rw [ht] at hr
      exact h.held p hp r (hsub r hr)
    · rw [ht]
      generalize t.pc = pc at hv
      cases pc <;> trivial
  exact hset.settle p

/-- A store that is not behind the back of a write, before the task goes on. -/
theorem Coherent.stored {r : Ref} {second : Bool} {data : Sector} (h : s.Coherent) (hinv : s.Inv) (hu : s.Unique)
    (hp : p < s.nrTasks) (hidle : (s.tasks p).pc = .idle) (hr : r ∈ (s.tasks p).refs) (hread : r.read = true)
    (hcare : ¬ s.Copied r.bh second) :
    ({ s with stored := setSector s.stored r.dev r.block second data }.setBh r.bh
      (if second then { s.bh r.bh with bDirt := true, dataHi := data }
        else { s.bh r.bh with bDirt := true, dataLo := data })).Coherent := by
  have hatt := hinv.ref_attached hp hr
  obtain ⟨hN, hdev, hblock⟩ := hinv.known p hp r hr
  have hup := h.held p hp r hr hread
  have hcur := @Current.store s r second data h.current hu hN hatt ⟨hdev, hblock⟩ hup
  have hbh : ∀ i, i ≠ r.bh → ({ s with stored := setSector s.stored r.dev r.block second data }.setBh r.bh
      (if second then { s.bh r.bh with bDirt := true, dataHi := data }
        else { s.bh r.bh with bDirt := true, dataLo := data })).bh i = s.bh i := by
    intro i hi
    simp [Cache.setBh, hi]
  have hat : ({ s with stored := setSector s.stored r.dev r.block second data }.setBh r.bh
      (if second then { s.bh r.bh with bDirt := true, dataHi := data }
        else { s.bh r.bh with bDirt := true, dataLo := data })).bh r.bh =
      if second then { s.bh r.bh with bDirt := true, dataHi := data }
        else { s.bh r.bh with bDirt := true, dataLo := data } := by
    simp [Cache.setBh]
  have hrest : ∀ s' : Cache, s' = { s with stored := setSector s.stored r.dev r.block second data }.setBh r.bh
      (if second then { s.bh r.bh with bDirt := true, dataHi := data }
        else { s.bh r.bh with bDirt := true, dataLo := data }) →
      s'.nrTasks = s.nrTasks ∧ s'.hd = s.hd ∧ s'.tasks = s.tasks ∧ s'.queue = s.queue ∧ s'.port = s.port ∧
        s'.disk = s.disk := by
    intro s' hs'
    rw [hs']
    exact ⟨rfl, rfl, rfl, rfl, rfl, rfl⟩
  generalize hs' : Cache.setBh _ r.bh _ = s' at *
  obtain ⟨hT, hhd, htasks, hq, hport, hdisk⟩ := hrest s' rfl
  have hflags : ∀ i, (s'.bh i).bLock = (s.bh i).bLock ∧ (s'.bh i).bDev = (s.bh i).bDev ∧
      (s'.bh i).bBlocknr = (s.bh i).bBlocknr ∧ ((s.bh i).bDirt = true → (s'.bh i).bDirt = true) ∧
      (s'.bh i).bUptodate = (s.bh i).bUptodate := by
    intro i
    rcases eq_or_ne i r.bh with rfl | hne
    · rw [hat]
      split <;> exact ⟨rfl, rfl, rfl, fun _ => rfl, rfl⟩
    · rw [hbh i hne]
      exact ⟨rfl, rfl, rfl, id, rfl⟩
  refine ⟨?_, hcur, ?_, ?_, ?_⟩
  · refine h.io.quiet (p := p) hT hhd (fun q _ => by rw [htasks]) hq (fun i => (hflags i).1) (fun i _ => (hflags i).2)
      ?_ ?_ ?_
    · rw [hidle]
      rfl
    · rw [htasks, hidle]
      rfl
    · simp [hidle, Pc.reads]
  · refine ⟨?_, ?_⟩
    · intro x q hxq hcmd
      rw [hq] at hxq
      have hold := h.inFlight.write x q hxq hcmd
      rw [hport, hdisk]
      rcases eq_or_ne x.bh r.bh with hxr | hne
      · -- only the second half can be stored, while the first one is being written
        have hlate : ¬ (second = false ∨ x.nsector = 1) := by
          intro hc
          refine hcare ?_
          simp only [Copied, hxq]
          exact ⟨hcmd, hxr, hc⟩
        have hsecond : second = true := by simpa using fun hc => hlate (Or.inl hc)
        refine ⟨fun h2 => ?_, fun h1 => absurd (Or.inr h1) hlate⟩
        rw [hxr, hat, if_pos hsecond, hold.1 h2, hxr]
      · rw [hbh x.bh hne]
        exact hold
    · intro x q hxq hcmd hns
      rw [hq] at hxq
      have hxmem : x ∈ s.queue := by simp [hxq]
      have hstale : (s.bh x.bh).bUptodate = false := by
        have hrd : x.read = true := by
          have hspec := (h.io.cmds x hxmem).1
          cases hc : x.cmd with
          | winRead => simp [IoRequest.read, hc]
          | winWrite => exact absurd hc hcmd
          | winSpecify => exact absurd hc hspec
        exact (h.io.stale x.bh (Or.inl ⟨x, hxmem, rfl, hrd⟩)).1
      have hne : x.bh ≠ r.bh := by
        intro he
        rw [he, hup] at hstale
        simp at hstale
      rw [hdisk, hbh x.bh hne]
      exact h.inFlight.read x q hxq hcmd hns
  · intro q hqT x hx hxr
    rw [hT] at hqT
    rw [htasks] at hx
    rw [(hflags x.bh).2.2.2.2]
    exact h.held q hqT x hx hxr
  · intro q hqT
    rw [hT] at hqT
    rw [htasks]
    refine (h.flushing q hqT).mono ?_
    intro i hi
    have hne : i ≠ r.bh := by
      intro he
      exact hatt ⟨q, hqT, he ▸ hi⟩
    rw [hbh i hne]
    exact ⟨rfl, id, Or.inl rfl⟩

theorem Coherent.intr (h : s.Coherent) (hinv : s.Inv) (hs : s.intr = some s') : s'.Coherent := by
  obtain ⟨hf, ht⟩ := Flagged.intr hs
  obtain ⟨r, q, hq, hcase⟩ := intr_cases hs
  -- a transfer ends clean, and nothing else about the flags changes
  have hflags : ∀ i, ((s.bh i).bUptodate = true → (s'.bh i).bUptodate = true) ∧
      ((s'.bh i).bDirt = true → (s.bh i).bDirt = true) ∧
      ((s'.bh i).bLock = (s.bh i).bLock ∨ (s'.bh i).bLock = false ∧ (s'.bh i).bDirt = false) := by
    intro i
    rcases hcase with ⟨-, -, rfl⟩ | ⟨-, -, rfl⟩ | ⟨-, -, rfl⟩ | ⟨-, -, rfl⟩
    · simp only [Cache.setBh, Function.update_apply]
      split
      next hi =>
        subst hi
        exact ⟨id, id, Or.inl rfl⟩
      next => exact ⟨id, id, Or.inl rfl⟩
    · rw [endIo_bh]
      split
      next => exact ⟨fun _ => rfl, by simp, Or.inr ⟨rfl, rfl⟩⟩
      next => exact ⟨id, id, Or.inl rfl⟩
    · exact ⟨id, id, Or.inl rfl⟩
    · rw [endIo_bh]
      split
      next => exact ⟨fun _ => rfl, by simp, Or.inr ⟨rfl, rfl⟩⟩
      next => exact ⟨id, id, Or.inl rfl⟩
  refine ⟨h.io.intr hs, h.current.intr h.inFlight h.io hinv hs, h.inFlight.intr h.io hs, ?_, ?_⟩
  · intro p hp x hx hxr
    rw [hf.nrTasks] at hp
    rw [ht] at hx
    exact (hflags x.bh).1 (h.held p hp x hx hxr)
  · intro p hp
    rw [hf.nrTasks] at hp
    rw [ht]
    refine (h.flushing p hp).mono ?_
    intro i _
    obtain ⟨-, hdirt, hlock⟩ := hflags i
    refine ⟨hf.dev i, hdirt, ?_⟩
    rcases hlock with hl | hl
    · exact Or.inl hl
    · exact Or.inr (Or.inr hl)

theorem cacheStep_coherent {op : CacheOp} (h : s.Coherent) (hinv : s.Inv) (hnamed : s.Named) (hok : s.Orderly op)
    (hcare : s.Careful op) (hs : cacheStep s op = some s') : s'.Coherent := by
  cases op with
  | getHashTable p dev block => exact h.call hs rfl rfl fun _ hr => hr
  | getblk p dev block => exact h.call hs rfl rfl fun _ hr => hr
  | bread p dev block => exact h.call hs rfl rfl fun _ hr => hr
  | sysSync p => exact h.call hs rfl rfl fun _ hr => hr
  | brelse p k =>
    obtain ⟨r, _, hcall⟩ := brelse_cases hs
    exact h.call hcall rfl rfl fun _ hr => List.mem_of_mem_eraseIdx hr
  | store p k second data =>
    obtain ⟨r, hr, hread, hcall⟩ := store_cases hs
    obtain ⟨hp, hidle, _⟩ := call_cases hcall
    have hidle : (s.tasks p).pc = .idle := hidle
    have hstored := @Coherent.stored s p r second data h hinv hnamed.unique hp hidle (List.mem_of_getElem? hr) hread
      (hcare r hr)
    exact hstored.call hcall (by rw [hidle]; rfl) (by rw [hidle]; rfl) fun _ hr => hr
  | run p =>
    obtain ⟨hp, hb, u, hu, rfl⟩ := run_cases hs
    exact (h.advance hinv hnamed hp hb hok hcare hu).settle p
  | interrupt => exact h.intr hinv hs
  | ioError => exact absurd hcare id

theorem bufferInit_coherent {n tasks : Nat} {hd : Nat → HdStruct} {disk : Nat → Nat → Bool → Sector}
    {data : Nat → Sector × Sector} : (bufferInit n tasks hd disk data).Coherent := by
  have hclean : ∀ i, ((bufferInit n tasks hd disk data).bh i).bDirt = false ∧
      ((bufferInit n tasks hd disk data).bh i).bUptodate = false ∧
      ((bufferInit n tasks hd disk data).bh i).bLock = false := by
    intro i
    rw [bufferInit_head]
    exact ⟨rfl, rfl, rfl⟩
  have hrest : ∀ s, s = bufferInit n tasks hd disk data → s.queue = [] ∧ s.tasks = (fun _ => {}) ∧ s.disk = s.stored := by
    intro s hs
    rw [hs]
    exact ⟨rfl, rfl, rfl⟩
  generalize bufferInit n tasks hd disk data = s at *
  obtain ⟨hq, ht, hdisk⟩ := hrest s rfl
  have hpend : ∀ i read, ¬ s.Pending i read := by
    intro i read hp
    rcases hp with ⟨r, hr, -⟩ | ⟨p, -, hslot⟩
    · simp [hq] at hr
    · simp [ht, Pc.slot] at hslot
  refine ⟨⟨?_, ?_, ?_, ?_, ?_, ?_⟩, ⟨?_, ?_, ?_, ?_, ?_, ?_⟩, ⟨?_, ?_⟩, ?_, ?_⟩
  · intro i
    simp [hq, ht, hclean, Pc.slotsOn, Pc.slot]
  · simp [hq]
  · simp [hq]
  · simp [hq]
  · intro i hi
    exact absurd hi (hpend i false)
  · intro i hi
    exact absurd hi (hpend i true)
  · simp [hclean]
  · simp [hclean]
  · simp [hclean]
  · simp [hclean]
  · simp [hclean]
  · simp [hdisk]
  · simp [hq]
  · simp [hq]
  · simp [ht]
  · simp [ht, Flushing]

end Cache

/-- The steps on which the contents of the cache can be relied. -/
def Cache.Safe (s : Cache) (op : CacheOp) : Prop := s.Orderly op ∧ Cache.Fits op ∧ s.Careful op

instance (s : Cache) (op : CacheOp) : Decidable (s.Safe op) := inferInstanceAs (Decidable (_ ∧ _))

theorem coherent_of_safe {n tasks : Nat} {hd : Nat → HdStruct} {disk : Nat → Nat → Bool → Sector}
    {data : Nat → Sector × Sector} {s : Cache} (hn : 0 < n)
    (h : Reach cacheStep Cache.Safe (bufferInit n tasks hd disk data) s) : s.Inv ∧ s.Named ∧ s.Coherent := by
  refine h.invariant (I := fun s => s.Inv ∧ s.Named ∧ s.Coherent)
    ⟨Cache.bufferInit_inv hn, Cache.bufferInit_named, Cache.bufferInit_coherent⟩ ?_
  intro s op s' hi hok hs
  obtain ⟨hinv, hnamed, hcoh⟩ := hi
  obtain ⟨hord, hfit, hcare⟩ := hok
  exact ⟨Cache.cacheStep_inv hinv hord hs, Cache.cacheStep_named hnamed hinv hfit hs,
    Cache.cacheStep_coherent hcoh hinv hnamed hord hcare hs⟩

/-- A task reads a block of the first disk that is not in the cache. -/
def readFresh (p block : Nat) : List CacheOp :=
  .bread p 0x301 block :: List.replicate 5 (.run p) ++ [.interrupt, .interrupt, .run p]

/-- Block 2 is dirty and its buffer is being evicted: `sync_dev` is still writing block 1. The other task
reads block 2 again, from the disk. -/
def readDuringEviction : List CacheOp :=
  readFresh 0 1 ++ readFresh 0 2 ++ [.store 0 1 false 7, .store 0 0 false 9, .brelse 0 0, .run 0] ++
    readFresh 1 3 ++ readFresh 1 4 ++ [.brelse 1 1, .run 1, .bread 1 0x301 5] ++ List.replicate 7 (.run 1) ++
    .bread 0 0x301 2 :: List.replicate 6 (.run 0) ++ [.interrupt, .interrupt, .interrupt, .interrupt, .run 0]

end RheeKernel
