import RheeKernel.BufferRecycling

namespace RheeKernel

open Machine (Reach exec)

/-- The block that a running `getblk` is to find a buffer for. -/
def Pc.wants : Pc → Option (Nat × Nat)
  | .find g dev block => if g = .hash then none else some (dev, block)
  | .hashWait g dev block _ => if g = .hash then none else some (dev, block)
  | .scan _ dev block _ => some (dev, block)
  | .scanWait _ dev block _ => some (dev, block)
  | .bufferWait _ dev block => some (dev, block)
  | .evict _ dev block _ _ => some (dev, block)
  | .reinit _ dev block _ => some (dev, block)
  | _ => none

namespace Cache

/-- No block is in two buffers of the hash table. -/
def Unique (s : Cache) : Prop :=
  ∀ i < s.nrBuffers, ∀ j < s.nrBuffers, ¬ s.Detached i → ¬ s.Detached j → (s.bh i).bDev ≠ 0 →
    (s.bh i).bDev = (s.bh j).bDev → (s.bh i).bBlocknr = (s.bh j).bBlocknr → i = j

/-- The device and block numbers that `b_dev` and `b_blocknr` can hold. -/
def Fits : CacheOp → Prop
  | .getblk _ dev block => dev < 65536 ∧ block < 65536
  | .bread _ dev block => dev < 65536 ∧ block < 65536
  | _ => True

/-- A step in which no busy buffer is taken and no count overflows. -/
def Unbusy (s : Cache) : CacheOp → Prop
  | .run p =>
    (∀ tmp ∈ s.chooses (s.tasks p).pc, (s.bh tmp).bCount = 0) ∧ ∀ i ∈ s.finds (s.tasks p).pc, (s.bh i).bCount < 255
  | _ => True

instance : (op : CacheOp) → Decidable (Fits op)
  | .getblk _ _ _ | .bread _ _ _ => inferInstanceAs (Decidable (_ ∧ _))
  | .getHashTable _ _ _ | .brelse _ _ | .sysSync _ | .store _ _ _ _ | .run _ | .interrupt | .ioError =>
    inferInstanceAs (Decidable True)

instance (s : Cache) : (op : CacheOp) → Decidable (s.Unbusy op)
  | .run _ => inferInstanceAs (Decidable (_ ∧ _))
  | .getHashTable _ _ _ | .getblk _ _ _ | .bread _ _ _ | .brelse _ _ | .sysSync _ | .store _ _ _ _ | .interrupt
  | .ioError => inferInstanceAs (Decidable True)

structure Named (s : Cache) : Prop where
  unique : s.Unique
  narrow : ∀ p < s.nrTasks, ∀ x ∈ (s.tasks p).pc.wants, x.1 < 65536 ∧ x.2 < 65536

variable {s s' u : Cache} {p i : Nat} {t : Task} {pc : Pc} {g : Goal} {dev block tmp : Nat}

theorem gotBuffer_wants (h : s.gotBuffer p tmp g = some s') : (s'.tasks p).pc.wants = none := by
  rcases gotBuffer_pc h with hpc | hpc
  · rw [hpc]
    rfl
  · rw [hpc]
    rfl

theorem take_wants (h : s.take p g dev block tmp = some s') : (s'.tasks p).pc.wants = some (dev, block) := by
  obtain ⟨u, hu, hs'⟩ := Option.map_eq_some_iff.mp h
  split at hs'
  next => cases hs'; rw [setPc_pc]; rfl
  next => cases hs'; rw [setPc_pc]; rfl

theorem scanNext_wants (h : s.scanNext p g dev block tmp = some s') : (s'.tasks p).pc.wants = some (dev, block) := by
  unfold Cache.scanNext at h
  split at h
  next => simp at h
  next =>
    split at h
    next => exact take_wants h
    next => cases Option.some.inj h; rw [setPc_pc]; rfl

theorem find_wants (g : Goal) (dev block : Nat) :
    (Pc.find g dev block).wants = none ∨ (Pc.find g dev block).wants = some (dev, block) := by
  cases g <;> simp [Pc.wants]

theorem advance_wants (h : s.advance p = some s') :
    (s'.tasks p).pc.wants = none ∨ (s'.tasks p).pc.wants = (s.tasks p).pc.wants := by
  unfold Cache.advance at h
  split at h
  next => simp at h
  next g dev block hpc =>
    rw [hpc]
    split at h
    next => cases Option.some.inj h; rw [setPc_pc]; exact Or.inr rfl
    next =>
      split at h
      next => cases Option.some.inj h; rw [setPc_pc]; exact Or.inl rfl
      next hg =>
        obtain ⟨tmp, -, hs'⟩ := Option.map_eq_some_iff.mp h
        cases hs'
        rw [setPc_pc]
        exact Or.inr (if_neg hg).symm
  next g dev block i hpc =>
    rw [hpc]
    split at h
    next => rw [dropCount_pc h]; exact Or.inr rfl
    next => exact Or.inl (gotBuffer_wants h)
  next g dev block tmp hpc =>
    rw [hpc]
    split at h
    next => cases Option.some.inj h; rw [setPc_pc]; exact Or.inr rfl
    next => exact Or.inr (scanNext_wants h)
  next g dev block tmp hpc =>
    rw [hpc]
    split at h
    next => exact Or.inr (take_wants h)
    next => exact Or.inr (scanNext_wants h)
  next g dev block hpc =>
    rw [hpc]
    cases Option.some.inj h
    rw [setPc_pc]
    exact find_wants g dev block
  next g dev block tmp l hpc =>
    rw [hpc]
    rcases loopStep_pc h with he | ⟨l', he⟩
    · exact Or.inr (by rw [he]; rfl)
    · exact Or.inr (by rw [he]; rfl)
  next g dev block tmp hpc =>
    rw [hpc]
    unfold Cache.reinit at h
    dsimp only at h
    split at h
    next =>
      obtain ⟨u, -, hs'⟩ := Option.map_eq_some_iff.mp h
      cases hs'
      rw [setPc_pc]
      exact find_wants g dev block
    next =>
      obtain ⟨u, -, hgot⟩ := Option.bind_eq_some_iff.mp h
      exact Or.inl (gotBuffer_wants hgot)
  next => cases Option.some.inj h; rw [setPc_pc]; exact Or.inl rfl
  next =>
    split at h
    next => cases Option.some.inj h; exact Or.inl (by simp [Cache.giveRef, Cache.setTask, Pc.wants])
    next => rw [dropCount_pc h]; exact Or.inl rfl
  next => rw [dropCount_pc h]; exact Or.inl rfl
  next =>
    rcases loopStep_pc h with he | ⟨l', he⟩
    · exact Or.inl (by rw [he]; rfl)
    · exact Or.inl (by rw [he]; rfl)

/-- A step that keeps the blocks of the heads and takes no head back into the queues. -/
theorem Unique.mono (h : s.Unique) (hN : s'.nrBuffers = s.nrBuffers) (hD : ∀ i, s.Detached i → s'.Detached i)
    (hdev : ∀ i, (s'.bh i).bDev = (s.bh i).bDev) (hblock : ∀ i, (s'.bh i).bBlocknr = (s.bh i).bBlocknr) :
    s'.Unique := by
  intro i hi j hj hDi hDj hne hd hb
  rw [hN] at hi hj
  rw [hdev] at hne
  rw [hdev, hdev] at hd
  rw [hblock, hblock] at hb
  exact h i hi j hj (fun hc => hDi (hD i hc)) (fun hc => hDj (hD j hc)) hne hd hb

theorem Goes.detached (h : Goes s s' p fun i => ∃ g dev block, (s.tasks p).pc = .reinit g dev block i)
    (hv : ∀ i, (s.tasks p).pc.victim = some i → (s'.tasks p).pc.victim = some i) (i : Nat) (hi : s.Detached i) :
    s'.Detached i := by
  obtain ⟨q, hq, hvq⟩ := hi
  refine ⟨q, h.nrTasks.symm ▸ hq, ?_⟩
  rcases eq_or_ne q p with rfl | hne
  · exact hv i hvq
  · rw [h.other q hne]
    exact hvq

/-- The buffer that comes back has a block that no other buffer of the hash table has. -/
theorem Unique.reinit (h : s.Unique) (hinv : s.Inv) (hp : p < s.nrTasks)
    (hpc : (s.tasks p).pc = .reinit g dev block tmp) (hfit : dev < 65536 ∧ block < 65536)
    (hs : s.reinit p g dev block tmp = some s') : s'.Unique := by
  have hgo : Goes s s' p (· = tmp) := .reinit hs rfl
  have hv : (s.tasks p).pc.victim = some tmp := by rw [hpc]; rfl
  -- every other head that is in the queues was in them before
  have hother : ∀ i, i ≠ tmp → ¬ s'.Detached i → ¬ s.Detached i := by
    intro i hi hD hc
    obtain ⟨q, hq, hvq⟩ := hc
    refine hD ⟨q, hgo.nrTasks.symm ▸ hq, ?_⟩
    rcases eq_or_ne q p with rfl | hne
    · exact absurd (Option.some.inj (hvq.symm.trans hv)) hi
    · rw [hgo.other q hne]
      exact hvq
  have hnew : (s'.bh tmp).bDev = 0 ∨ (∀ i < s.nrBuffers, i ≠ tmp → ¬ s.Detached i →
      ¬ ((s.bh i).bDev ≠ 0 ∧ (s.bh i).bDev = (s'.bh tmp).bDev ∧ (s.bh i).bBlocknr = (s'.bh tmp).bBlocknr)) := by
    rcases hinv.reinit_cases hp hpc hs with ⟨u, hre, rfl, -⟩ | ⟨u, hre, habsent, -, hgot⟩
    · refine Or.inl ?_
      have hdev := hre.dev tmp
      simp only [Cache.setBh, Function.update_self] at hdev
      exact hdev
    · refine Or.inr fun i hi hne hD hsame => ?_
      have hk := (Goes.gotBuffer (D := fun _ => False) hgot).kept tmp id
      have hdev := hk.dev.trans (hre.dev tmp)
      have hblock := hk.blocknr.trans (hre.blocknr tmp)
      simp only [Cache.setBh, Function.update_self, ushort, Nat.mod_eq_of_lt hfit.1, Nat.mod_eq_of_lt hfit.2]
        at hdev hblock
      rw [hdev, hblock] at hsame
      exact habsent i hi hD (hsame.2.1 ▸ hsame.1) hsame.2
  intro i hi j hj hDi hDj hne hd hb
  rw [hgo.nrBuffers] at hi hj
  rcases eq_or_ne i tmp with rfl | hitmp
  · rcases eq_or_ne j i with rfl | hji
    · rfl
    · have hk := hgo.kept j hji
      rw [hk.dev] at hd
      rw [hk.blocknr] at hb
      exact absurd ⟨by rw [← hd]; exact hne, hd.symm, hb.symm⟩ (hnew.resolve_left hne j hj hji (hother j hji hDj))
  · have hki := hgo.kept i hitmp
    rcases eq_or_ne j tmp with rfl | hjtmp
    · rw [hki.dev] at hd hne
      rw [hki.blocknr] at hb
      exact absurd ⟨hne, hd, hb⟩ (hnew.resolve_left (by rw [← hd]; exact hne) i hi hitmp (hother i hitmp hDi))
    · have hkj := hgo.kept j hjtmp
      rw [hki.dev, hkj.dev] at hd
      rw [hki.blocknr, hkj.blocknr] at hb
      rw [hki.dev] at hne
      exact h i hi j hj (hother i hitmp hDi) (hother j hjtmp hDj) hne hd hb

theorem advance_keeps_victim (h : s.advance p = some s') (hre : ¬ ∃ g dev block tmp, (s.tasks p).pc = .reinit g dev block tmp)
    (hv : (s.tasks p).pc.victim = some i) : (s'.tasks p).pc.victim = some i := by
  cases hpc : (s.tasks p).pc with
  | evict g dev block tmp l =>
    rw [hpc] at hv
    simp only [Cache.advance, hpc] at h
    rcases loopStep_pc h with he | ⟨l', he⟩
    · rw [he]
      exact hv
    · rw [he]
      exact hv
  | reinit g dev block tmp => exact absurd ⟨g, dev, block, tmp, hpc⟩ hre
  | _ => simp [hpc, Pc.victim] at hv

theorem Named.advance (h : s.Named) (hinv : s.Inv) (hp : p < s.nrTasks) (hs : s.advance p = some s') : s'.Named := by
  have hgo := Goes.advance hs
  refine ⟨?_, ?_⟩
  · by_cases hre : ∃ g dev block tmp, (s.tasks p).pc = .reinit g dev block tmp
    · obtain ⟨g, dev, block, tmp, hpc⟩ := hre
      simp only [Cache.advance, hpc] at hs
      exact h.unique.reinit hinv hp hpc (h.narrow p hp (dev, block) (by rw [hpc]; rfl)) hs
    · have hkept : ∀ i, BufferHead.Kept (s.bh i) (s'.bh i) := by
        intro i
        refine hgo.kept i ?_
        intro hc
        obtain ⟨g, dev, block, hpc⟩ := hc
        exact hre ⟨g, dev, block, i, hpc⟩
      exact h.unique.mono hgo.nrBuffers (hgo.detached fun i => advance_keeps_victim hs hre) (fun i => (hkept i).dev)
        fun i => (hkept i).blocknr
  · intro q hq x hx
    rw [hgo.nrTasks] at hq
    rcases eq_or_ne q p with rfl | hne
    · rcases advance_wants hs with hw | hw
      · simp [hw] at hx
      · exact h.narrow q hq x (hw ▸ hx)
    · rw [hgo.other q hne] at hx
      exact h.narrow q hq x hx

theorem Named.flagged (h : s.Named) (hf : Flagged s s') (ht : s'.tasks = s.tasks) : s'.Named := by
  refine ⟨h.unique.mono hf.nrBuffers ?_ hf.dev hf.blocknr, ?_⟩
  · intro i hi
    obtain ⟨q, hq, hv⟩ := hi
    exact ⟨q, hf.nrTasks.symm ▸ hq, by rw [ht]; exact hv⟩
  · intro q hq
    rw [hf.nrTasks] at hq
    rw [ht]
    exact h.narrow q hq

theorem Named.call (h : s.Named) (hcall : s.call p t = some s')
    (hw : ∀ x ∈ t.pc.wants, x.1 < 65536 ∧ x.2 < 65536) : s'.Named := by
  obtain ⟨hp, hidle, rfl⟩ := call_cases hcall
  have hother : ∀ q, q ≠ p → (((s.setTask p t).settle p).tasks q) = s.tasks q := by
    intro q hq
    simp [Cache.settle, Cache.setTask, hq]
  refine ⟨h.unique.mono rfl ?_ (fun _ => rfl) fun _ => rfl, ?_⟩
  · intro i hi
    obtain ⟨q, hq, hv⟩ := hi
    refine ⟨q, hq, ?_⟩
    have hne : q ≠ p := by
      intro he
      subst he
      simp [hidle, Pc.victim] at hv
    rw [hother q hne]
    exact hv
  · intro q hq x hx
    rcases eq_or_ne q p with rfl | hne
    · exact hw x (by simpa [Cache.settle, Cache.setTask] using hx)
    · rw [hother q hne] at hx
      exact h.narrow q hq x hx

theorem cacheStep_named {op : CacheOp} (h : s.Named) (hinv : s.Inv) (hfit : Fits op) (hs : cacheStep s op = some s') :
    s'.Named := by
  have hempty : ∀ pc : Pc, pc.wants = none → ∀ x ∈ pc.wants, x.1 < 65536 ∧ x.2 < 65536 := by
    intro pc hpc x hx
    simp [hpc] at hx
  cases op with
  | getHashTable p dev block => exact h.call hs (hempty _ rfl)
  | getblk p dev block =>
    refine h.call hs ?_
    intro x hx
    cases Option.some.inj hx
    exact hfit
  | bread p dev block =>
    refine h.call hs ?_
    intro x hx
    cases Option.some.inj hx
    exact hfit
  | sysSync p => exact h.call hs (hempty _ rfl)
  | brelse p k =>
    obtain ⟨r, _, hcall⟩ := brelse_cases hs
    exact h.call hcall (hempty _ rfl)
  | store p k second data =>
    obtain ⟨r, _, _, hcall⟩ := store_cases hs
    exact (h.flagged .store rfl).call hcall (h.narrow p (call_cases hcall).1)
  | run p =>
    obtain ⟨hp, -, u, hu, rfl⟩ := run_cases hs
    exact (h.advance hinv hp hu).flagged ⟨fun _ => rfl, rfl, rfl, rfl, rfl⟩ rfl
  | interrupt =>
    obtain ⟨hf, ht⟩ := Flagged.intr hs
    exact h.flagged hf ht
  | ioError =>
    obtain ⟨hf, ht⟩ := Flagged.intrError hs
    exact h.flagged hf ht

/-- With fewer tasks than buffers, a task that looks for a free buffer leaves another one on the free list. -/
theorem Inv.more (h : s.Inv) (hfew : s.nrTasks < s.nrBuffers) (hp : p < s.nrTasks) (hv : (s.tasks p).pc.victim = none)
    (htmp : tmp < s.nrBuffers) (hD : ¬ s.Detached tmp) : (s.bh tmp).bNextFree ≠ some tmp := by
  intro hself
  obtain ⟨l, f, hring, -, -, hmem⟩ := h.wf.ring
  obtain ⟨m, ⟨hnd, hwalk⟩, hm⟩ := hring.start_at ((hmem tmp).mpr ⟨htmp, hD⟩)
  have hnil : m = [] := by
    cases m with
    | nil => rfl
    | cons c m =>
      cases Option.some.inj (hwalk.1.symm.trans hself)
      simp at hnd
  subst hnil
  -- all other heads are out of the queues, each with a task of its own
  have hout : ∀ i < s.nrBuffers, i ≠ tmp → s.Detached i := by
    intro i hi hne
    by_contra hDi
    have := (hm i).mpr ((hmem i).mpr ⟨hi, hDi⟩)
    exact hne (by simpa using this)
  have hsub : (Finset.range s.nrBuffers).erase tmp ⊆
      ((Finset.range s.nrTasks).erase p).image fun q => ((s.tasks q).pc.victim).getD 0 := by
    intro i hi
    obtain ⟨hne, hiN⟩ := Finset.mem_erase.mp hi
    obtain ⟨q, hq, hvq⟩ := hout i (Finset.mem_range.mp hiN) hne
    refine Finset.mem_image.mpr ⟨q, Finset.mem_erase.mpr ⟨?_, Finset.mem_range.mpr hq⟩, by simp [hvq]⟩
    intro he
    subst he
    simp [hv] at hvq
  have hcard := (Finset.card_le_card hsub).trans Finset.card_image_le
  rw [Finset.card_erase_of_mem (by simpa using htmp), Finset.card_erase_of_mem (by simpa using hp)] at hcard
  simp only [Finset.card_range] at hcard
  omega

theorem Inv.chooses_lt (h : s.Inv) (hp : p < s.nrTasks) (hc : s.chooses (s.tasks p).pc = some tmp) :
    tmp < s.nrBuffers ∧ (s.tasks p).pc.victim = none := by
  have hround : ∀ i, i < s.nrBuffers → s.roundTrip i = some tmp → tmp < s.nrBuffers := by
    intro i hi hr
    obtain ⟨n, hn, hnext⟩ := h.wf.inside i hi
    unfold roundTrip at hr
    split at hr
    next he =>
      cases Option.some.inj (hnext.symm.trans (he.trans hr))
      exact hn
    next => simp at hr
  cases hpc : (s.tasks p).pc with
  | scan g dev block i =>
    have hi := h.bound p hp i (Or.inr (by rw [hpc]; rfl))
    simp only [hpc, chooses] at hc
    split at hc
    next => simp at hc
    next => exact ⟨hround i hi hc, rfl⟩
  | scanWait g dev block i =>
    have hi := h.bound p hp i (Or.inr (by rw [hpc]; rfl))
    simp only [hpc, chooses] at hc
    split at hc
    next => exact ⟨Option.some.inj hc ▸ hi, rfl⟩
    next => exact ⟨hround i hi hc, rfl⟩
  | _ => simp [hpc, chooses] at hc

theorem Inv.orderly {op : CacheOp} (h : s.Inv) (hfew : s.nrTasks < s.nrBuffers) (hok : s.Unbusy op)
    (hs : cacheStep s op = some s') : s.Orderly op := by
  cases op with
  | run p =>
    obtain ⟨hp, -, -, -, -⟩ := run_cases hs
    refine ⟨?_, hok.2⟩
    intro tmp hc
    obtain ⟨htmp, hv⟩ := h.chooses_lt hp hc
    have hfree := hok.1 tmp hc
    have hD : ¬ s.Detached tmp := fun hd => absurd (h.alone tmp hd) (by simp [hfree])
    exact ⟨hfree, h.more hfew hp hv htmp hD⟩
  | _ => trivial

theorem cacheStep_size {op : CacheOp} (hs : cacheStep s op = some s') :
    s'.nrTasks = s.nrTasks ∧ s'.nrBuffers = s.nrBuffers := by
  have hcall : ∀ {u : Cache} {p t}, u.call p t = some s' → s'.nrTasks = u.nrTasks ∧ s'.nrBuffers = u.nrBuffers := by
    intro u p t hc
    obtain ⟨_, _, rfl⟩ := call_cases hc
    exact ⟨rfl, rfl⟩
  cases op with
  | getHashTable p dev block => exact hcall hs
  | getblk p dev block => exact hcall hs
  | bread p dev block => exact hcall hs
  | sysSync p => exact hcall hs
  | brelse p k =>
    obtain ⟨r, _, hs⟩ := brelse_cases hs
    exact hcall hs
  | store p k second data =>
    obtain ⟨r, _, _, hs⟩ := store_cases hs
    have hsize := hcall hs
    exact hsize
  | run p =>
    obtain ⟨hp, -, u, hu, rfl⟩ := run_cases hs
    have hgo := Goes.advance hu
    exact ⟨hgo.nrTasks, hgo.nrBuffers⟩
  | interrupt => exact ⟨(Flagged.intr hs).1.nrTasks, (Flagged.intr hs).1.nrBuffers⟩
  | ioError => exact ⟨(Flagged.intrError hs).1.nrTasks, (Flagged.intrError hs).1.nrBuffers⟩

/-- Both queues are in order and no block is in them twice. -/
def WellFormed (s : Cache) : Prop := s.Wf s.Detached ∧ s.Unique

theorem bufferInit_named {n tasks : Nat} {hd : Nat → HdStruct} {disk : Nat → Nat → Bool → Sector}
    {data : Nat → Sector × Sector} : (bufferInit n tasks hd disk data).Named := by
  refine ⟨?_, ?_⟩
  · intro i _ j _ _ _ hne
    exact absurd (by rw [bufferInit_head]; rfl) hne
  · intro p _ x hx
    exact absurd hx (by simp [bufferInit, Cache.setBh, Pc.wants])

end Cache

theorem buffer_queues_wellFormed {n tasks : Nat} {hd : Nat → HdStruct} {disk : Nat → Nat → Bool → Sector}
    {data : Nat → Sector × Sector} (hfew : tasks < n) :
    (bufferInit n tasks hd disk data).WellFormed ∧
    ∀ s, Reach cacheStep (fun s op => s.Unbusy op ∧ Cache.Fits op) (bufferInit n tasks hd disk data) s →
      s.WellFormed := by
  have hinit : (bufferInit n tasks hd disk data).Inv := Cache.bufferInit_inv (by omega)
  refine ⟨⟨hinit.wf, Cache.bufferInit_named.unique⟩, ?_⟩
  intro s h
  have hall : s.Inv ∧ s.Named ∧ s.nrTasks < s.nrBuffers := by
    refine h.invariant (I := fun s => s.Inv ∧ s.Named ∧ s.nrTasks < s.nrBuffers) ⟨hinit, Cache.bufferInit_named, hfew⟩ ?_
    intro s op s' hi hok hs
    obtain ⟨hinv, hnamed, hlt⟩ := hi
    obtain ⟨hT, hB⟩ := Cache.cacheStep_size hs
    exact ⟨Cache.cacheStep_inv hinv (hinv.orderly hlt hok.1 hs) hs, Cache.cacheStep_named hnamed hinv hok.2 hs,
      by rw [hT, hB]; exact hlt⟩
  exact ⟨hall.1.wf, hall.2.1.unique⟩

theorem buffer_queues_wellFormed_first : ∃ s,
    exec cacheStep (bufferInit 3 2 (fun _ => ⟨0, 1000⟩) (fun _ _ _ => 0) fun _ => (0, 0))
      (getFresh 0 1 ++ getFresh 1 5) = some s ∧
    (s.tasks 0).refs = [⟨0, 0x301, 1, false⟩] ∧ (s.tasks 1).refs = [⟨1, 0x301, 5, false⟩] ∧ s.WellFormed := by
  obtain ⟨s, hs, hexec, hrefs⟩ : ∃ s, Machine.execOk cacheStep (fun s op => s.Unbusy op ∧ Cache.Fits op)
      (bufferInit 3 2 (fun _ => ⟨0, 1000⟩) (fun _ _ _ => 0) fun _ => (0, 0)) (getFresh 0 1 ++ getFresh 1 5) = some s ∧
      exec cacheStep (bufferInit 3 2 (fun _ => ⟨0, 1000⟩) (fun _ _ _ => 0) fun _ => (0, 0))
        (getFresh 0 1 ++ getFresh 1 5) = some s ∧
      (s.tasks 0).refs = [⟨0, 0x301, 1, false⟩] ∧ (s.tasks 1).refs = [⟨1, 0x301, 5, false⟩] := ⟨_, rfl, rfl, rfl, rfl⟩
  exact ⟨s, hexec, hrefs.1, hrefs.2, (buffer_queues_wellFormed (by decide)).2 s (Reach.execOk .start hs)⟩

/-- `find_buffer` compares the whole block number, of which the buffer keeps 16 bits: the second call does
not find what the first has loaded. -/
theorem wide_block_hashed_twice : ∃ s,
    exec cacheStep (bufferInit 3 1 (fun _ => ⟨0, 1000⟩) (fun _ _ _ => 0) fun _ => (0, 0))
      (getFresh 0 65541 ++ getFresh 0 65541) = some s ∧
    (s.tasks 0).refs = [⟨1, 0x301, 5, false⟩, ⟨0, 0x301, 5, false⟩] ∧ ¬ s.WellFormed := by
  obtain ⟨s, hs, hN, hT, hpc, hrefs, hids⟩ : ∃ s,
      exec cacheStep (bufferInit 3 1 (fun _ => ⟨0, 1000⟩) (fun _ _ _ => 0) fun _ => (0, 0))
        (getFresh 0 65541 ++ getFresh 0 65541) = some s ∧
      s.nrBuffers = 3 ∧ s.nrTasks = 1 ∧ (s.tasks 0).pc = .idle ∧
      (s.tasks 0).refs = [⟨1, 0x301, 5, false⟩, ⟨0, 0x301, 5, false⟩] ∧
      ((s.bh 0).bDev, (s.bh 0).bBlocknr, (s.bh 1).bDev, (s.bh 1).bBlocknr) = (0x301, 5, 0x301, 5) :=
    ⟨_, rfl, rfl, rfl, rfl, rfl, rfl⟩
  refine ⟨s, hs, hrefs, ?_⟩
  intro hwf
  have hD : ∀ i, ¬ s.Detached i := by
    intro i hi
    obtain ⟨p, hp, hv⟩ := hi
    rw [hT, Nat.lt_one_iff] at hp
    simp [hp, hpc, Pc.victim] at hv
  simp only [Prod.mk.injEq] at hids
  obtain ⟨hd0, hb0, hd1, hb1⟩ := hids
  have := hwf.2 0 (by omega) 1 (by omega) (hD 0) (hD 1) (by omega) (by omega) (by omega)
  simp at this

end RheeKernel
