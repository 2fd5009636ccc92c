import RheeKernel.BufferCoherence

namespace RheeKernel

open Machine (Reach exec)

namespace Cache

/-- No block is brought back into the cache while a buffer that another `getblk` has taken out still
stands for it. -/
def Apart (s : Cache) : CacheOp → Prop
  | .run p =>
    match (s.tasks p).pc with
    | .reinit _ dev block tmp => ∀ q < s.nrTasks, ∀ j ∈ (s.tasks q).pc.victim, j ≠ tmp → ¬ (s.bh j).Of dev block
    | _ => True
  | _ => True

/-- `Apart` of a task that is at `pc`. -/
def decidableApartAt (s : Cache) : (pc : Pc) → Decidable (match pc with
    | .reinit _ dev block tmp => ∀ q < s.nrTasks, ∀ j ∈ (s.tasks q).pc.victim, j ≠ tmp → ¬ (s.bh j).Of dev block
    | _ => True)
  | .reinit _ dev block tmp =>
    inferInstanceAs (Decidable (∀ q < s.nrTasks, ∀ j ∈ (s.tasks q).pc.victim, j ≠ tmp → ¬ (s.bh j).Of dev block))
  | .idle | .find _ _ _ | .hashWait _ _ _ _ | .scan _ _ _ _ | .scanWait _ _ _ _ | .bufferWait _ _ _ | .evict _ _ _ _ _
  | .readSlot _ | .readIo _ | .relse _ | .sync _ => .isTrue trivial

instance (s : Cache) : (op : CacheOp) → Decidable (s.Apart op)
  | .run p => decidableApartAt s (s.tasks p).pc
  | .getHashTable _ _ _ | .getblk _ _ _ | .bread _ _ _ | .brelse _ _ | .sysSync _ | .store _ _ _ _ | .interrupt
  | .ioError => inferInstanceAs (Decidable True)

/-- No block has two buffers, whether in the queues or out of them, and every buffer that is up to date
holds what was last stored. -/
structure Solo (s : Cache) : Prop where
  distinct : ∀ i < s.nrBuffers, ∀ j < s.nrBuffers, (s.bh i).bDev ≠ 0 → (s.bh i).Of (s.bh j).bDev (s.bh j).bBlocknr → i = j
  fresh : ∀ i < s.nrBuffers, (s.bh i).bUptodate = true → (s.bh i).Holds s.stored

variable {s s' u : Cache} {p i : Nat} {t : Task} {g : Goal} {dev block tmp : Nat}

theorem Solo.kept (h : s.Solo) (hk : ∀ i, BufferHead.Kept (s.bh i) (s'.bh i)) (hN : s'.nrBuffers = s.nrBuffers)
    (hst : s'.stored = s.stored) : s'.Solo := by
  refine ⟨?_, ?_⟩
  · intro i hi j hj hne hof
    rw [hN] at hi hj
    rw [(hk i).dev] at hne
    simp only [BufferHead.Of, (hk i).dev, (hk i).blocknr, (hk j).dev, (hk j).blocknr] at hof
    exact h.distinct i hi j hj hne hof
  · intro i hi hup
    rw [hN] at hi
    rw [(hk i).uptodate] at hup
    have hold := h.fresh i hi hup
    simpa only [BufferHead.Holds, (hk i).lo, (hk i).hi, (hk i).dev, (hk i).blocknr, hst] using hold

theorem Solo.reinit (h : s.Solo) (hinv : s.Inv) (hp : p < s.nrTasks) (hpc : (s.tasks p).pc = .reinit g dev block tmp)
    (hfit : dev < 65536 ∧ block < 65536)
    (hapart : ∀ q < s.nrTasks, ∀ j ∈ (s.tasks q).pc.victim, j ≠ tmp → ¬ (s.bh j).Of dev block)
    (hr : s.reinit p g dev block tmp = some s') : s'.Solo := by
  have hgo : Goes s s' p (· = tmp) := .reinit hr rfl
  have hat : (s'.bh tmp).bUptodate = false ∧ ((s'.bh tmp).bDev = 0 ∨
      ∀ j < s.nrBuffers, j ≠ tmp → (s'.bh tmp).bDev ≠ 0 → ¬ (s'.bh tmp).Of (s.bh j).bDev (s.bh j).bBlocknr) := by
    rcases hinv.reinit_cases hp hpc hr with ⟨u, hre, rfl, -⟩ | ⟨u, hre, habsent, -, hgot⟩
    · have hbh : (u.setPc p (.find g dev block)).bh tmp = u.bh tmp := rfl
      rw [hbh, hre.heads tmp]
      simp [BufferHead.withLinks, Cache.setBh]
    · have hk := (Goes.gotBuffer (D := fun _ => False) hgot).kept tmp id
      have hbh : (u.setPc p (.hashWait g dev block tmp)).bh tmp = u.bh tmp := rfl
      rw [hbh] at hk
      have hdev := hk.dev.trans (hre.dev tmp)
      have hblock := hk.blocknr.trans (hre.blocknr tmp)
      simp only [Cache.setBh, Function.update_self, ushort, Nat.mod_eq_of_lt hfit.1, Nat.mod_eq_of_lt hfit.2]
        at hdev hblock
      refine ⟨?_, Or.inr fun j hj hjtmp hne hof => ?_⟩
      · rw [hk.uptodate, hre.heads tmp]
        simp [BufferHead.withLinks, Cache.setBh]
      · have hofj : (s.bh j).Of dev block := ⟨hof.1.symm.trans hdev, hof.2.symm.trans hblock⟩
        by_cases hDj : s.Detached j
        · obtain ⟨q, hq, hvq⟩ := hDj
          exact hapart q hq j hvq hjtmp hofj
        · exact habsent j hj hDj (hdev ▸ hne) hofj
  refine ⟨?_, ?_⟩
  · intro i hi j hj hne hof
    rw [hgo.nrBuffers] at hi hj
    rcases eq_or_ne i tmp with rfl | hitmp
    · rcases eq_or_ne j i with rfl | hji
      · rfl
      · have hk := hgo.kept j hji
        rw [hk.dev, hk.blocknr] at hof
        exact absurd hof (hat.2.resolve_left hne j hj hji hne)
    · have hki := hgo.kept i hitmp
      rw [hki.dev] at hne
      simp only [BufferHead.Of, hki.dev, hki.blocknr] at hof
      rcases eq_or_ne j tmp with rfl | hjtmp
      · have hne' : (s'.bh j).bDev ≠ 0 := hof.1 ▸ hne
        exact absurd ⟨hof.1.symm, hof.2.symm⟩ (hat.2.resolve_left hne' i hi hitmp hne')
      · have hkj := hgo.kept j hjtmp
        rw [hkj.dev, hkj.blocknr] at hof
        exact h.distinct i hi j hj hne hof
  · intro i hi hup
    rw [hgo.nrBuffers] at hi
    have hitmp : i ≠ tmp := by
      intro he
      rw [he, hat.1] at hup
      simp at hup
    have hk := hgo.kept i hitmp
    rw [hk.uptodate] at hup
    have hold := h.fresh i hi hup
    simpa only [BufferHead.Holds, hk.lo, hk.hi, hk.dev, hk.blocknr, hgo.stored] using hold

theorem Solo.stored {r : Ref} {second : Bool} {data : Sector} (h : s.Solo) (hcoh : s.Coherent) (hinv : s.Inv) (hu : s.Unique)
    (hp : p < s.nrTasks) (hr : r ∈ (s.tasks p).refs) (hread : r.read = true) :
    ({ s with stored := setSector s.stored r.dev r.block second data }.setBh r.bh
      (if second then { s.bh r.bh with bDirt := true, dataHi := data }
        else { s.bh r.bh with bDirt := true, dataLo := data })).Solo := by
  have hatt := hinv.ref_attached hp hr
  obtain ⟨hN, hdev, hblock⟩ := hinv.known p hp r hr
  have hup := hcoh.held p hp r hr hread
  have hcur := @Current.store s r second data hcoh.current hu hN hatt ⟨hdev, hblock⟩ hup
  have hne0 := hcoh.current.dev_ne hup
  have hid : ∀ i, ∀ dev block, (({ s with stored := setSector s.stored r.dev r.block second data }.setBh r.bh
      (if second then { s.bh r.bh with bDirt := true, dataHi := data }
        else { s.bh r.bh with bDirt := true, dataLo := data })).bh i).Of dev block ↔ (s.bh i).Of dev block := by
    intro i dev block
    simp only [Cache.setBh, Function.update_apply]
    split
    next hi =>
      subst hi
      split <;> exact Iff.rfl
    next => exact Iff.rfl
  have hbh : ∀ i, i ≠ r.bh → ({ s with stored := setSector s.stored r.dev r.block second data }.setBh r.bh
      (if second then { s.bh r.bh with bDirt := true, dataHi := data }
        else { s.bh r.bh with bDirt := true, dataLo := data })).bh i = s.bh i := by
    intro i hi
    simp [Cache.setBh, hi]
  have hrest : ∀ s' : Cache, s' = { s with stored := setSector s.stored r.dev r.block second data }.setBh r.bh
      (if second then { s.bh r.bh with bDirt := true, dataHi := data }
        else { s.bh r.bh with bDirt := true, dataLo := data }) → s'.nrBuffers = s.nrBuffers ∧
      s'.Detached = s.Detached ∧ s'.stored = setSector s.stored r.dev r.block second data := by
    intro s' hs'
    rw [hs']
    exact ⟨rfl, rfl, rfl⟩
  generalize hs' : Cache.setBh _ r.bh _ = s' at *
  obtain ⟨hNB, hD, hst⟩ := hrest s' rfl
  refine ⟨?_, ?_⟩
  · intro i hi j hj hne hof
    rw [hNB] at hi hj
    have hsi := (hid i _ _).mpr ⟨rfl, rfl⟩
    have hsj := (hid j _ _).mpr ⟨rfl, rfl⟩
    rw [hsi.1] at hne
    rw [hsj.1, hsj.2] at hof
    exact h.distinct i hi j hj hne ((hid i _ _).mp hof)
  · intro i hi hui
    rcases eq_or_ne i r.bh with rfl | hne
    · exact hcur.current _ hi hui fun hd => absurd (hD ▸ hd) hatt
    · rw [hbh i hne] at hui ⊢
      rw [hNB] at hi
      obtain ⟨hlo, hhi⟩ := h.fresh i hi hui
      have hsame : ∀ half, s'.stored (s.bh i).bDev (s.bh i).bBlocknr half = s.stored (s.bh i).bDev (s.bh i).bBlocknr half := by
        intro half
        rw [hst, setSector_apply, if_neg]
        intro hc
        exact hne (h.distinct r.bh hN i hi hne0 ⟨hdev.trans hc.1.symm, hblock.trans hc.2.1.symm⟩).symm
      exact ⟨hlo.trans (hsame false).symm, hhi.trans (hsame true).symm⟩

theorem Solo.intr (h : s.Solo) (hcoh : s.Coherent) (hinv : s.Inv) (hs : s.intr = some s') : s'.Solo := by
  obtain ⟨hf, ht⟩ := Flagged.intr hs
  have hD : s'.Detached = s.Detached := by
    funext i
    simp only [Detached, hf.nrTasks, ht]
  have hcur := hcoh.current.intr hcoh.inFlight hcoh.io hinv hs
  have hst : s'.stored = s.stored := by
    obtain ⟨r, q, -, hcase⟩ := intr_cases hs
    rcases hcase with ⟨-, -, rfl⟩ | ⟨-, -, rfl⟩ | ⟨-, -, rfl⟩ | ⟨-, -, rfl⟩
    · rfl
    · exact endIo_rest.2.2.2.2.2.2
    · rfl
    · exact endIo_rest.2.2.2.2.2.2
  refine ⟨?_, ?_⟩
  · intro i hi j hj hne hof
    rw [hf.nrBuffers] at hi hj
    rw [hf.dev] at hne
    simp only [BufferHead.Of, hf.dev, hf.blocknr] at hof
    exact h.distinct i hi j hj hne hof
  · intro i hi hup
    by_cases hDi : s.Detached i
    · -- a buffer that is out of the queues is not read
      have hkeep : (s.bh i).bUptodate = true ∧ (s'.bh i).dataLo = (s.bh i).dataLo ∧ (s'.bh i).dataHi = (s.bh i).dataHi := by
        obtain ⟨r, q, hq, hcase⟩ := intr_cases hs
        have hmem : r ∈ s.queue := by simp [hq]
        have hpend : s.Pending r.bh r.read := Or.inl ⟨r, hmem, rfl, rfl⟩
        have hnot : r.cmd = .winRead → i ≠ r.bh := by
          intro hcmd he
          have hread : s.Pending r.bh true := by simpa [IoRequest.read, hcmd] using hpend
          exact (hcoh.io.reading_attached hinv hread).2 (he ▸ hDi)
        rcases hcase with ⟨hcmd, -, rfl⟩ | ⟨hcmd, -, rfl⟩ | ⟨hcmd, -, rfl⟩ | ⟨hcmd, -, rfl⟩
        · have hne := hnot hcmd
          simpa [Cache.setBh, hne] using hup
        · have hne := hnot hcmd
          simpa [endIo_bh, hne] using hup
        · exact ⟨hup, rfl, rfl⟩
        · rcases eq_or_ne i r.bh with rfl | hne
          · have hwrite : s.Pending r.bh false := by simpa [IoRequest.read, hcmd] using hpend
            simp [endIo_bh, hcoh.current.read r.bh (hcoh.io.dirty r.bh hwrite)]
          · simpa [endIo_bh, hne] using hup
      have hold := h.fresh i (hf.nrBuffers ▸ hi) hkeep.1
      simpa only [BufferHead.Holds, hkeep.2.1, hkeep.2.2, hf.dev, hf.blocknr, hst] using hold
    · exact hcur.current i hi hup fun hd => absurd (hD ▸ hd) hDi

theorem Solo.call (h : s.Solo) (hcall : s.call p t = some s') : s'.Solo := by
  obtain ⟨_, _, rfl⟩ := call_cases hcall
  exact h.kept (fun _ => ⟨rfl, rfl, rfl, rfl, rfl, rfl⟩) rfl rfl

theorem cacheStep_solo {op : CacheOp} (h : s.Solo) (hinv : s.Inv) (hnamed : s.Named) (hcoh : s.Coherent)
    (hsafe : s.Safe op) (hapart : s.Apart op) (hs : cacheStep s op = some s') : s'.Solo := by
  cases op with
  | getHashTable p dev block => exact h.call hs
  | getblk p dev block => exact h.call hs
  | bread p dev block => exact h.call hs
  | sysSync p => exact h.call hs
  | brelse p k =>
    obtain ⟨r, _, hcall⟩ := brelse_cases hs
    exact h.call hcall
  | store p k second data =>
    obtain ⟨r, hr, hread, hcall⟩ := store_cases hs
    have hstored := @Solo.stored s p r second data h hcoh hinv hnamed.unique (call_cases hcall).1
      (List.mem_of_getElem? hr) hread
    exact hstored.call hcall
  | run p =>
    obtain ⟨hp, -, u, hu, rfl⟩ := run_cases hs
    have hu' : u.Solo := by
      by_cases hre : ∃ g dev block tmp, (s.tasks p).pc = .reinit g dev block tmp
      · obtain ⟨g, dev, block, tmp, hpc⟩ := hre
        simp only [Cache.advance, hpc] at hu
        have hfit := hnamed.narrow p hp (dev, block) (by rw [hpc]; rfl)
        simp only [Apart, hpc] at hapart
        exact h.reinit hinv hp hpc hfit hapart hu
      · have hgo := Goes.advance hu
        refine h.kept (fun i => hgo.kept i ?_) hgo.nrBuffers hgo.stored
        intro hc
        obtain ⟨g, dev, block, hpc⟩ := hc
        exact hre ⟨g, dev, block, i, hpc⟩
    exact hu'.kept (fun _ => ⟨rfl, rfl, rfl, rfl, rfl, rfl⟩) rfl rfl
  | interrupt => exact h.intr hcoh hinv hs
  | ioError => exact absurd hsafe.2.2 id

theorem bufferInit_solo {n tasks : Nat} {hd : Nat → HdStruct} {disk : Nat → Nat → Bool → Sector}
    {data : Nat → Sector × Sector} : (bufferInit n tasks hd disk data).Solo := by
  refine ⟨?_, ?_⟩
  · intro i _ j _ hne
    exact absurd (by rw [bufferInit_head]; rfl) hne
  · intro i _ hup
    rw [bufferInit_head] at hup
    simp [initHead] at hup

end Cache

/-- A store between the start of a write and its end: the first half is already with the controller, and the
end of the write takes `b_dirt` away. -/
def storeDuringWrite : List CacheOp :=
  readFresh 0 1 ++ [.store 0 0 false 1, .sysSync 1] ++ List.replicate 3 (.run 1) ++
    [.store 0 0 false 2, .interrupt, .interrupt]

end RheeKernel
