import RheeKernel.BufferSteps

namespace RheeKernel

open Finset

namespace Cache

/-- The scan has come round to the head of the free list without finding a free buffer. -/
def roundTrip (s : Cache) (tmp : Nat) : Option Nat :=
  if (s.bh tmp).bNextFree = s.freeList then s.freeList else none

/-- The buffer that the next step of a scan takes for recycling. -/
def chooses (s : Cache) : Pc → Option Nat
  | .scan _ _ _ tmp => if (s.bh tmp).bCount = 0 then none else s.roundTrip tmp
  | .scanWait _ _ _ tmp => if (s.bh tmp).bCount = 0 then some tmp else s.roundTrip tmp
  | _ => none

/-- The buffer of which the next step takes a reference. -/
def finds (s : Cache) : Pc → Option Nat
  | .find _ dev block => findBuffer s dev block
  | _ => none

/-- A step in which no busy buffer and not the last buffer of the free list is taken, and no count overflows. -/
def Orderly (s : Cache) : CacheOp → Prop
  | .run p =>
    (∀ tmp ∈ s.chooses (s.tasks p).pc, (s.bh tmp).bCount = 0 ∧ (s.bh tmp).bNextFree ≠ some tmp) ∧
      ∀ i ∈ s.finds (s.tasks p).pc, (s.bh i).bCount < 255
  | _ => True

instance (s : Cache) : (op : CacheOp) → Decidable (s.Orderly op)
  | .run _ => inferInstanceAs (Decidable (_ ∧ _))
  | .getHashTable _ _ _ | .getblk _ _ _ | .bread _ _ _ | .brelse _ _ | .sysSync _ | .store _ _ _ _ | .interrupt
  | .ioError => inferInstanceAs (Decidable True)

variable {s s' : Cache} {p i : Nat} {t : Task} {pc : Pc} {g : Goal} {dev block tmp : Nat}

theorem gotBuffer_setPc (pc : Pc) : (s.setPc p pc).gotBuffer p i g = s.gotBuffer p i g := by
  have hgive : ∀ read, (s.setPc p pc).giveRef p i read = s.giveRef p i read := by
    intro read
    simp [Cache.giveRef, Cache.setPc, setTask]
  have hbh : (s.setPc p pc).bh = s.bh := rfl
  have hrw : llRwBlock (s.setPc p pc) i = llRwBlock s i := rfl
  cases g with
  | hash => simp only [Cache.gotBuffer, hgive]
  | get => simp only [Cache.gotBuffer, hgive]
  | read =>
    simp only [Cache.gotBuffer, hgive, hrw, hbh]
    split
    next => rfl
    next =>
      split
      next => rfl
      next =>
        simp only [Cache.dropCount, hbh]
        split <;> simp [Cache.setPc, setTask, Cache.setBh]
      next => simp [Cache.setPc, setTask, Cache.setBh, lockBuffer]

/-- The buffer comes back without a block if another task has loaded the block; else it is as if the
task had just found it. -/
theorem Inv.reinit_cases (h : s.Inv) (hp : p < s.nrTasks) (hpc : (s.tasks p).pc = .reinit g dev block tmp)
    (hr : s.reinit p g dev block tmp = some s') :
    (∃ u, Relinked (s.setBh tmp { s.bh tmp with
        bDev := 0, bBlocknr := 0, bDirt := false, bUptodate := false, bCount := 0 }) u ∧
      s' = u.setPc p (.find g dev block) ∧ s'.Inv) ∨
    ∃ u, Relinked (s.setBh tmp { s.bh tmp with
        bDev := ushort dev, bBlocknr := ushort block, bDirt := false, bUptodate := false }) u ∧
      (∀ i < s.nrBuffers, ¬ s.Detached i → dev ≠ 0 → ¬ ((s.bh i).bDev = dev ∧ (s.bh i).bBlocknr = block)) ∧
      (u.setPc p (.hashWait g dev block tmp)).Inv ∧ (u.setPc p (.hashWait g dev block tmp)).gotBuffer p tmp g = some s' := by
  have hv : (s.tasks p).pc.victim = some tmp := by
    rw [hpc]
    rfl
  have hD : s.Detached tmp := ⟨p, hp, hv⟩
  have hone := h.alone tmp hD
  have hidem : ∀ b c : BufferHead, (s.setBh tmp b).setBh tmp c = s.setBh tmp c := by
    intro b c
    simp [Cache.setBh]
  have hget : ∀ b : BufferHead, (s.setBh tmp b).bh tmp = b := by
    intro b
    simp [Cache.setBh]
  simp only [Cache.reinit, hidem, hget] at hr
  split at hr
  next =>
    obtain ⟨u, hu, hs'⟩ := Option.map_eq_some_iff.mp hr
    have hback : Relinked _ u ∧ (u.setPc p (.find g dev block)).Inv :=
      h.putBack hp hv hu rfl rfl rfl (Or.inl ⟨rfl, rfl⟩)
    exact Or.inl ⟨u, hback.1, hs'.symm, hs' ▸ hback.2⟩
  next hnone =>
    obtain ⟨u, hu, hgot⟩ := Option.bind_eq_some_iff.mp hr
    have hback : Relinked _ u ∧ (u.setPc p (.hashWait g dev block tmp)).Inv :=
      h.putBack hp hv hu rfl rfl rfl (Or.inr ⟨rfl, hone⟩)
    refine Or.inr ⟨u, hback.1, ?_, hback.2, (gotBuffer_setPc _).trans hgot⟩
    intro i hi hDi hne
    have hitmp : i ≠ tmp := fun he => hDi (he ▸ hD)
    have habsent := (h.wf_setBh hD rfl).findBuffer_none hnone hi hDi hne
    simpa [Cache.setBh, hitmp] using habsent

theorem Inv.reinit (h : s.Inv) (hp : p < s.nrTasks) (hpc : (s.tasks p).pc = .reinit g dev block tmp)
    (hr : s.reinit p g dev block tmp = some s') : s'.Inv := by
  rcases h.reinit_cases hp hpc hr with ⟨u, -, -, hinv⟩ | ⟨u, hre, -, hinv, hgot⟩
  · exact hinv
  · have hN : (u.setPc p (.hashWait g dev block tmp)).nrTasks = s.nrTasks := hre.nrTasks
    have hpcu : ((u.setPc p (.hashWait g dev block tmp)).tasks p).pc = .hashWait g dev block tmp := by
      simp [Cache.setPc, setTask]
    exact hinv.gotBuffer (hN ▸ hp) (by rw [hpcu]; rfl) (by rw [hpcu]; rfl) hgot

theorem Inv.scanNext (h : s.Inv) (hp : p < s.nrTasks) (hc : (s.tasks p).pc.counted = none) (hi : i < s.nrBuffers)
    (hfree : ∀ tmp, s.roundTrip i = some tmp → (s.bh tmp).bCount = 0 ∧ (s.bh tmp).bNextFree ≠ some tmp)
    (hs : s.scanNext p g dev block i = some s') : s'.Inv := by
  obtain ⟨n, hn, hnext⟩ := h.wf.inside i hi
  have hv : (s.tasks p).pc.victim = none := by
    rw [Option.eq_none_iff_forall_ne_some]
    intro a ha
    simp [counted_of_victim ha] at hc
  simp only [Cache.scanNext, hnext] at hs
  split at hs
  next hround =>
    obtain ⟨hcount, hmore⟩ := hfree n (by simp [roundTrip, hnext, hround])
    exact h.take hp hc hn hcount hmore hs
  next =>
    cases Option.some.inj hs
    exact h.setPc hp hc.symm hv.symm (by simpa [Pc.scanned] using hn)

theorem issue_tasks : s.issue.tasks = s.tasks := by
  unfold Cache.issue
  split
  next => split <;> rfl
  next => rfl

theorem enqueue_tasks {read : Bool} : (s.enqueue i read).tasks = s.tasks := by
  unfold Cache.enqueue
  dsimp only
  split
  next => exact issue_tasks
  next => rfl

theorem Inv.loopStep {inside : Loop → Pc} {done : Pc} {l : Loop} (h : s.Inv) (hp : p < s.nrTasks)
    (hpc : (s.tasks p).pc = inside l) (hs : s.loopStep p inside done l = some s')
    (hin : ∀ l', (inside l').counted = (inside l).counted ∧ (inside l').victim = (inside l).victim ∧
      (inside l').scanned = none)
    (hdone : done.counted = (inside l).counted ∧ done.victim = (inside l).victim ∧ done.scanned = none) : s'.Inv := by
  have hmove : ∀ u l', Flagged s u → u.tasks = s.tasks → (u.setPc p (inside l')).Inv := by
    intro u l' hf ht
    refine h.move hp (hf.trans (.tasks _)) ?_ (by rw [hpc, (hin l').1]) (by rw [hpc, (hin l').2.1]) (by simp [hin l'])
    simp only [Cache.setPc, setTask, ht]
  have hlock : Flagged s (s.lockBuffer l.i) := .setBh rfl
  unfold Cache.loopStep at hs
  dsimp only at hs
  split at hs
  next =>
    split at hs
    next =>
      cases Option.some.inj hs
      exact h.setPc hp (by rw [hpc, hdone.1]) (by rw [hpc, hdone.2.1]) (by simp [hdone.2.2])
    next =>
      split at hs
      next =>
        cases Option.some.inj hs
        exact hmove s _ (.tasks _) rfl
      next =>
        cases Option.some.inj hs
        exact hmove s _ (.tasks _) rfl
  next =>
    split at hs
    next =>
      split at hs
      next => simp at hs
      next =>
        cases Option.some.inj hs
        exact hmove s _ (.tasks _) rfl
      next =>
        cases Option.some.inj hs
        exact hmove _ _ hlock rfl
    next =>
      cases Option.some.inj hs
      exact hmove s _ (.tasks _) rfl
  next =>
    cases Option.some.inj hs
    exact hmove _ _ (.enqueue false) enqueue_tasks
  next =>
    cases Option.some.inj hs
    exact hmove s _ (.tasks _) rfl

theorem Inv.find (h : s.Inv) (hp : p < s.nrTasks) (hpc : (s.tasks p).pc = .find g dev block)
    (hf : findBuffer s dev block = some i) (hroom : (s.bh i).bCount < 255) :
    ((s.setBh i { s.bh i with bCount := uchar ((s.bh i).bCount + 1) }).setPc p (.hashWait g dev block i)).Inv := by
  obtain ⟨hi, hD, -, -⟩ := h.wf.findBuffer_some hf
  refine h.recount hp hD ?_ ?_ (by rw [hpc]; rfl) (h.known p hp) ?_
  · rw [uchar, Nat.mod_eq_of_lt (by omega)]
    simp only [Task.refsTo, hpc, Pc.counted, Cache.setBh, reduceCtorEq, if_true, if_false]
    omega
  · intro a hai
    have hne : i ≠ a := hai.symm
    simp [Task.refsTo, hpc, Pc.counted, Cache.setBh, hne]
  · intro a ha
    simp only [Pc.counted, Pc.scanned, Option.some.injEq, reduceCtorEq, or_false] at ha
    exact ha ▸ hi

theorem Inv.advance (h : s.Inv) (hp : p < s.nrTasks)
    (hfree : ∀ tmp ∈ s.chooses (s.tasks p).pc, (s.bh tmp).bCount = 0 ∧ (s.bh tmp).bNextFree ≠ some tmp)
    (hroom : ∀ i ∈ s.finds (s.tasks p).pc, (s.bh i).bCount < 255) (hs : s.advance p = some s') : s'.Inv := by
  unfold Cache.advance at hs
  split at hs
  next => simp at hs
  next g dev block hpc =>
    split at hs
    next i hf =>
      cases Option.some.inj hs
      exact h.find hp hpc hf (hroom i (by rw [hpc]; exact hf))
    next =>
      split at hs
      next =>
        cases Option.some.inj hs
        exact h.setPc hp (by rw [hpc]; rfl) (by rw [hpc]; rfl) (by simp [Pc.scanned])
      next =>
        obtain ⟨tmp, htmp, hs'⟩ := Option.map_eq_some_iff.mp hs
        cases hs'
        obtain ⟨l, f, -, hfl, hfm, hmem⟩ := h.wf.ring
        cases Option.some.inj (hfl.symm.trans htmp)
        exact h.setPc hp (by rw [hpc]; rfl) (by rw [hpc]; rfl) (by simpa [Pc.scanned] using ((hmem tmp).mp hfm).1)
  next g dev block i hpc =>
    have hc : (s.tasks p).pc.counted = some i := by rw [hpc]; rfl
    have hv : (s.tasks p).pc.victim = none := by rw [hpc]; rfl
    split at hs
    next => exact h.dropCount hp hc hv rfl rfl rfl hs
    next => exact h.gotBuffer hp hc hv hs
  next g dev block tmp hpc =>
    have hc : (s.tasks p).pc.counted = none := by rw [hpc]; rfl
    have hi := h.bound p hp tmp (Or.inr (by rw [hpc]; rfl))
    split at hs
    next =>
      cases Option.some.inj hs
      exact h.setPc hp (by rw [hpc]; rfl) (by rw [hpc]; rfl) (by simpa [Pc.scanned] using hi)
    next hbusy =>
      exact h.scanNext hp hc hi (fun n hn => hfree n (by simpa [hpc, chooses, hbusy] using hn)) hs
  next g dev block tmp hpc =>
    have hc : (s.tasks p).pc.counted = none := by rw [hpc]; rfl
    have hi := h.bound p hp tmp (Or.inr (by rw [hpc]; rfl))
    split at hs
    next hidle =>
      obtain ⟨hcount, hmore⟩ := hfree tmp (by simp [hpc, chooses, hidle])
      exact h.take hp hc hi hcount hmore hs
    next hbusy =>
      exact h.scanNext hp hc hi (fun n hn => hfree n (by simpa [hpc, chooses, hbusy] using hn)) hs
  next g dev block hpc =>
    cases Option.some.inj hs
    exact h.setPc hp (by rw [hpc]; rfl) (by rw [hpc]; rfl) (by simp [Pc.scanned])
  next g dev block tmp l hpc =>
    exact h.loopStep hp hpc hs (fun _ => ⟨rfl, rfl, rfl⟩) ⟨rfl, rfl, rfl⟩
  next g dev block tmp hpc => exact h.reinit hp hpc hs
  next i hpc =>
    cases Option.some.inj hs
    have ht : ((s.enqueue i true).setPc p (.readIo i)).tasks =
        Function.update s.tasks p { s.tasks p with pc := .readIo i } := by
      simp only [Cache.setPc, setTask, enqueue_tasks]
    exact h.move hp ((Flagged.enqueue true).trans (.tasks _)) ht (by rw [hpc]; rfl) (by rw [hpc]; rfl)
      (by simp [Pc.scanned])
  next i hpc =>
    have hc : (s.tasks p).pc.counted = some i := by rw [hpc]; rfl
    have hv : (s.tasks p).pc.victim = none := by rw [hpc]; rfl
    split at hs
    next =>
      cases Option.some.inj hs
      exact h.giveRef hp hc hv
    next => exact h.dropCount hp hc hv rfl rfl rfl hs
  next i hpc => exact h.dropCount hp (by rw [hpc]; rfl) (by rw [hpc]; rfl) rfl rfl rfl hs
  next l hpc => exact h.loopStep hp hpc hs (fun _ => ⟨rfl, rfl, rfl⟩) ⟨rfl, rfl, rfl⟩

/-- A call is made by an idle task. -/
theorem call_cases (hcall : s.call p t = some s') :
    p < s.nrTasks ∧ (s.tasks p).pc = .idle ∧ s' = (s.setTask p t).settle p := by
  obtain ⟨hcan, heq⟩ := Option.ite_none_right_eq_some.mp hcall
  exact ⟨hcan.1, hcan.2.2, (Option.some.inj heq).symm⟩

theorem brelse_cases {k : Nat} (hs : cacheStep s (.brelse p k) = some s') :
    ∃ r, (s.tasks p).refs[k]? = some r ∧ s.call p { pc := .relse r.bh, refs := (s.tasks p).refs.eraseIdx k } = some s' := by
  simp only [cacheStep] at hs
  split at hs
  next => simp at hs
  next r hr => exact ⟨r, hr, hs⟩

theorem store_cases {k : Nat} {second : Bool} {data : Sector} (hs : cacheStep s (.store p k second data) = some s') :
    ∃ r, (s.tasks p).refs[k]? = some r ∧ r.read = true ∧
      ({ s with stored := setSector s.stored r.dev r.block second data }.setBh r.bh
        (if second then { s.bh r.bh with bDirt := true, dataHi := data }
          else { s.bh r.bh with bDirt := true, dataLo := data })).call p (s.tasks p) = some s' := by
  simp only [cacheStep] at hs
  split at hs
  next => simp at hs
  next r hr =>
    obtain ⟨hread, hs⟩ := Option.ite_none_right_eq_some.mp hs
    exact ⟨r, hr, hread, hs⟩

theorem run_cases (h : cacheStep s (.run p) = some s') : p < s.nrTasks ∧ s.blocked (s.tasks p).pc = false ∧
    ∃ u, s.advance p = some u ∧ s' = u.settle p := by
  obtain ⟨hcan, h⟩ := Option.ite_none_right_eq_some.mp h
  obtain ⟨u, hu, hs'⟩ := Option.map_eq_some_iff.mp h
  exact ⟨hcan.1, hcan.2.2, u, hu, hs'.symm⟩

/-- A call that counts and holds as much as before. -/
theorem Inv.call (h : s.Inv) (hcall : s.call p t = some s')
    (hrefs : ∀ i, t.refsTo i = (s.tasks p).refsTo i) (hsub : ∀ r ∈ t.refs, r ∈ (s.tasks p).refs)
    (hv : t.pc.victim = (s.tasks p).pc.victim)
    (hbound : p < s.nrTasks → ∀ i, t.pc.counted = some i ∨ t.pc.scanned = some i → i < s.nrBuffers) : s'.Inv := by
  obtain ⟨hp, _, rfl⟩ := call_cases hcall
  have hset : (s.setTask p t).Inv :=
    h.change hp ⟨fun _ => rfl, fun _ => rfl, fun _ => rfl, fun _ => rfl, rfl, rfl, rfl⟩ (fun _ => ⟨rfl, rfl⟩) rfl rfl
      (fun i => by rw [hrefs]; rfl) hv (fun _ _ => rfl) (fun r hr => h.known p hp r (hsub r hr)) (hbound hp)
  exact hset.settle p

theorem Inv.callPc (h : s.Inv) (hcall : s.call p { s.tasks p with pc := pc } = some s') (hc : pc.counted = none)
    (hv : pc.victim = none) (hps : pc.scanned = none) : s'.Inv := by
  obtain ⟨_, hidle, _⟩ := call_cases hcall
  refine h.call hcall (fun i => refsTo_setPc i pc ?_) (fun r hr => hr) ?_ ?_
  · rw [hidle, hc]
    rfl
  · rw [hidle, hv]
    rfl
  · simp [hc, hps]

theorem Inv.brelse {k : Nat} {r : Ref} (h : s.Inv) (hr : (s.tasks p).refs[k]? = some r)
    (hcall : s.call p { pc := .relse r.bh, refs := (s.tasks p).refs.eraseIdx k } = some s') : s'.Inv := by
  obtain ⟨_, hidle, _⟩ := call_cases hcall
  refine h.call hcall ?_ ?_ ?_ ?_
  · intro i
    obtain ⟨hk, hget⟩ := List.getElem?_eq_some_iff.mp hr
    have hcount := (List.getElem_cons_eraseIdx_perm hk).countP_eq fun x => decide (x.bh = i)
    rw [hget, List.countP_cons] at hcount
    simp only [Task.refsTo, hidle, Pc.counted, Option.some.injEq, reduceCtorEq, if_false]
    simp only [decide_eq_true_eq] at hcount
    omega
  · intro x hx
    exact List.mem_of_mem_eraseIdx hx
  · rw [hidle]
    rfl
  · intro hp i hi
    simp only [Pc.counted, Pc.scanned, Option.some.injEq, reduceCtorEq, or_false] at hi
    exact hi ▸ (h.known p hp r (List.mem_of_getElem? hr)).1

theorem Flagged.store {r : Ref} {second : Bool} {data : Sector} :
    Flagged s ({ s with stored := setSector s.stored r.dev r.block second data }.setBh r.bh
      (if second then { s.bh r.bh with bDirt := true, dataHi := data }
        else { s.bh r.bh with bDirt := true, dataLo := data })) := by
  refine ⟨(Flagged.setBh ?_).heads, rfl, rfl, rfl, rfl⟩
  split <;> rfl

theorem cacheStep_inv {op : CacheOp} (h : s.Inv) (hok : s.Orderly op) (hs : cacheStep s op = some s') : s'.Inv := by
  cases op with
  | getHashTable p dev block => exact h.callPc hs rfl rfl rfl
  | getblk p dev block => exact h.callPc hs rfl rfl rfl
  | bread p dev block => exact h.callPc hs rfl rfl rfl
  | sysSync p => exact h.callPc hs rfl rfl rfl
  | brelse p k =>
    obtain ⟨r, hr, hcall⟩ := brelse_cases hs
    exact h.brelse hr hcall
  | store p k second data =>
    obtain ⟨r, _, _, hcall⟩ := store_cases hs
    exact (h.flagged .store rfl).call hcall (fun _ => rfl) (fun _ hr => hr) rfl fun hp => h.bound p hp
  | run p =>
    obtain ⟨hp, _, u, hu, rfl⟩ := run_cases hs
    exact (h.advance hp hok.1 hok.2 hu).settle p
  | interrupt =>
    obtain ⟨hf, ht⟩ := Flagged.intr hs
    exact h.flagged hf ht
  | ioError =>
    obtain ⟨hf, ht⟩ := Flagged.intrError hs
    exact h.flagged hf ht

theorem bufferInit_head (n tasks : Nat) (hd : Nat → HdStruct) (disk : Nat → Nat → Bool → Sector)
    (data : Nat → Sector × Sector) (i : Nat) :
    (bufferInit n tasks hd disk data).bh i =
      { initHead data i with
        bNextFree := if i = n - 1 then some 0 else some (i + 1)
        bPrevFree := if i = 0 then some (n - 1) else some (i - 1) } := by
  simp only [bufferInit, Cache.setBh, Function.update_apply, initHead]
  split
  next hi =>
    subst hi
    split
    next h0 => simp [h0]
    next => simp
  next hi =>
    split
    next h0 => simp [h0]
    next => simp

theorem bufferInit_inv {n tasks : Nat} {hd : Nat → HdStruct} {disk : Nat → Nat → Bool → Sector}
    {data : Nat → Sector × Sector} (hn : 0 < n) : (bufferInit n tasks hd disk data).Inv := by
  generalize hs : bufferInit n tasks hd disk data = s
  have hbh := bufferInit_head n tasks hd disk data
  rw [hs] at hbh
  have hrest : s.nrBuffers = n ∧ s.freeList = some 0 ∧ s.hashTable = (fun _ => none) ∧ s.tasks = fun _ => {} := by
    rw [← hs]
    exact ⟨rfl, rfl, rfl, rfl⟩
  obtain ⟨hN, hfree, hhash, htasks⟩ := hrest
  have hD : ∀ i, ¬ s.Detached i := by
    rintro i ⟨p, hp, hv⟩
    simp [htasks, Pc.victim] at hv
  refine ⟨⟨⟨0 :: List.range' 1 (n - 1), 0, ⟨?_, ?_⟩, hfree, by simp, ?_⟩, ?_, ?_, ?_, ?_⟩, ?_, ?_, ?_, ?_⟩
  · simp [List.nodup_range']
  · refine Linked.walk_range' ?_ ?_ ?_
    · intro i _ hi
      simp only [hbh]
      refine ⟨if_neg (by omega), ?_⟩
      simp
    · simp [hbh]
    · simp [hbh]
  · intro i
    simp only [hN, hD, not_false_eq_true, and_true, List.mem_cons, List.mem_range'_1]
    omega
  · intro k
    refine ⟨[], by simp [hhash, Linked.DPath], ?_⟩
    intro i
    simp [hbh, initHead]
  · intro i _ _ _
    simp [hbh, initHead]
  · intro i hi
    simp only [hbh]
    split
    next => exact ⟨0, by omega, rfl⟩
    next => exact ⟨i + 1, by omega, rfl⟩
  · intro i hi
    exact absurd hi (hD i)
  · intro i
    simp [hbh, htasks, initHead, Task.refsTo, Pc.counted]
  · intro i hi
    exact absurd hi (hD i)
  · intro p _ r hr
    simp [htasks] at hr
  · intro p _ i hi
    simp [htasks, Pc.counted, Pc.scanned] at hi

end Cache

end RheeKernel
