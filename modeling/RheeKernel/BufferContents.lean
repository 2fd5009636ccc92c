import RheeKernel.BufferLocks

namespace RheeKernel

/-- The data of a buffer are those of its block in `d`. -/
def BufferHead.Holds (b : BufferHead) (d : Nat → Nat → Bool → Sector) : Prop :=
  b.dataLo = d b.bDev b.bBlocknr false ∧ b.dataHi = d b.bDev b.bBlocknr true

/-- The buffer stands for the block. -/
def BufferHead.Of (b : BufferHead) (dev block : Nat) : Prop := b.bDev = dev ∧ b.bBlocknr = block

instance (b : BufferHead) (dev block : Nat) : Decidable (b.Of dev block) := inferInstanceAs (Decidable (_ ∧ _))

namespace Cache

/-- What was stored for a block is in its dirty buffer, and on the disk if it has none. A buffer that is
being recycled may be behind, once it has been written. -/
structure Current (s : Cache) : Prop where
  below : ∀ i, (s.bh i).bDirt = true → i < s.nrBuffers
  read : ∀ i, (s.bh i).bDirt = true → (s.bh i).bUptodate = true
  onDisk : ∀ i, (s.bh i).bUptodate = true → llRwBlock s i = .started
  current : ∀ i < s.nrBuffers, (s.bh i).bUptodate = true → (s.Detached i → (s.bh i).bDirt = true) → (s.bh i).Holds s.stored
  twin : ∀ i < s.nrBuffers, ∀ j, i ≠ j → (s.bh j).bDirt = true → (s.bh i).Of (s.bh j).bDev (s.bh j).bBlocknr →
    s.Detached i ∧ (s.bh i).bDirt = false
  flushed : ∀ dev block, (∀ i, (s.bh i).bDirt = true → ¬ (s.bh i).Of dev block) →
    ∀ half, s.disk dev block half = s.stored dev block half

/-- The half of a block that the controller has got, and the half that it has delivered. -/
structure InFlight (s : Cache) : Prop where
  write : ∀ r q, s.queue = r :: q → r.cmd = .winWrite → (r.nsector = 2 → s.port = (s.bh r.bh).dataLo) ∧
    (r.nsector = 1 → s.port = (s.bh r.bh).dataHi ∧ s.disk r.dev r.block false = (s.bh r.bh).dataLo)
  read : ∀ r q, s.queue = r :: q → r.cmd ≠ .winWrite → r.nsector = 1 →
    (s.bh r.bh).dataLo = s.disk r.dev r.block false

variable {s s' u : Cache} {p i : Nat} {t : Task} {pc : Pc} {g : Goal} {dev block tmp : Nat} {read : Bool}

theorem setSector_apply (d : Nat → Nat → Bool → Sector) (dev block : Nat) (second : Bool) (data : Sector)
    (dev' block' : Nat) (half : Bool) : setSector d dev block second data dev' block' half =
      if dev' = dev ∧ block' = block ∧ half = second then data else d dev' block' half := by
  unfold setSector
  rcases eq_or_ne dev' dev with rfl | hd
  · rcases eq_or_ne block' block with rfl | hb
    · rcases eq_or_ne half second with rfl | hh
      · simp
      · simp [hh]
    · simp [hb]
  · simp [hd]

/-- A task goes on and no buffer gets another block. -/
theorem Current.goes (h : s.Current) (hgo : Goes s s' p fun _ => False) (hD : ∀ i, s.Detached i → s'.Detached i) :
    s'.Current := by
  have hk : ∀ i, BufferHead.Kept (s.bh i) (s'.bh i) := fun i => hgo.kept i id
  refine ⟨?_, ?_, ?_, ?_, ?_, ?_⟩
  · intro i hi
    rw [hgo.nrBuffers]
    exact h.below i ((hk i).dirt ▸ hi)
  · intro i hi
    rw [(hk i).uptodate]
    exact h.read i ((hk i).dirt ▸ hi)
  · intro i hi
    rw [llRwBlock_congr hgo.hd (hk i).dev (hk i).blocknr]
    exact h.onDisk i ((hk i).uptodate ▸ hi)
  · intro i hi hup hdirt
    rw [hgo.nrBuffers] at hi
    rw [(hk i).uptodate] at hup
    rw [(hk i).dirt] at hdirt
    have hold := h.current i hi hup fun hd => hdirt (hD i hd)
    simpa only [BufferHead.Holds, (hk i).lo, (hk i).hi, (hk i).dev, (hk i).blocknr, hgo.stored] using hold
  · intro i hi j hne hj hof
    rw [hgo.nrBuffers] at hi
    rw [(hk j).dirt] at hj
    simp only [BufferHead.Of, (hk i).dev, (hk i).blocknr, (hk j).dev, (hk j).blocknr] at hof
    obtain ⟨hd, hc⟩ := h.twin i hi j hne hj hof
    exact ⟨hD i hd, (hk i).dirt.trans hc⟩
  · intro dev block hnone half
    rw [hgo.disk, hgo.stored]
    refine h.flushed dev block ?_ half
    intro i hi hof
    refine hnone i ((hk i).dirt.trans hi) ?_
    simpa only [BufferHead.Of, (hk i).dev, (hk i).blocknr] using hof

/-- A clean buffer that was out of the queues comes back for a block that no dirty buffer has. -/
theorem Current.reset (h : s.Current) (hgo : Goes s s' p (· = tmp)) (hD : ∀ i, i ≠ tmp → s.Detached i → s'.Detached i)
    (hclean : (s.bh tmp).bDirt = false) (hdirt : (s'.bh tmp).bDirt = false) (hup : (s'.bh tmp).bUptodate = false)
    (hother : ∀ j, (s.bh j).bDirt = true → ¬ (s'.bh tmp).Of (s.bh j).bDev (s.bh j).bBlocknr) : s'.Current := by
  have hne : ∀ i, (s'.bh i).bDirt = true ∨ (s'.bh i).bUptodate = true ∨ (s.bh i).bDirt = true → i ≠ tmp := by
    intro i hi he
    subst he
    simp [hdirt, hup, hclean] at hi
  refine ⟨?_, ?_, ?_, ?_, ?_, ?_⟩
  · intro i hi
    have hk := hgo.kept i (hne i (Or.inl hi))
    rw [hgo.nrBuffers]
    exact h.below i (hk.dirt ▸ hi)
  · intro i hi
    have hk := hgo.kept i (hne i (Or.inl hi))
    rw [hk.uptodate]
    exact h.read i (hk.dirt ▸ hi)
  · intro i hi
    have hk := hgo.kept i (hne i (Or.inr (Or.inl hi)))
    rw [llRwBlock_congr hgo.hd hk.dev hk.blocknr]
    exact h.onDisk i (hk.uptodate ▸ hi)
  · intro i hi hui hdi
    have hitmp := hne i (Or.inr (Or.inl hui))
    have hk := hgo.kept i hitmp
    rw [hgo.nrBuffers] at hi
    rw [hk.uptodate] at hui
    rw [hk.dirt] at hdi
    have hold := h.current i hi hui fun hd => hdi (hD i hitmp hd)
    simpa only [BufferHead.Holds, hk.lo, hk.hi, hk.dev, hk.blocknr, hgo.stored] using hold
  · intro i hi j hij hj hof
    have hkj := hgo.kept j (hne j (Or.inl hj))
    rw [hgo.nrBuffers] at hi
    rw [hkj.dirt] at hj
    rw [hkj.dev, hkj.blocknr] at hof
    rcases eq_or_ne i tmp with rfl | hitmp
    · exact absurd hof (hother j hj)
    · have hki := hgo.kept i hitmp
      simp only [BufferHead.Of, hki.dev, hki.blocknr] at hof
      obtain ⟨hd, hc⟩ := h.twin i hi j hij hj hof
      exact ⟨hD i hitmp hd, hki.dirt.trans hc⟩
  · intro dev block hnone half
    rw [hgo.disk, hgo.stored]
    refine h.flushed dev block ?_ half
    intro i hi hof
    have hki := hgo.kept i (hne i (Or.inr (Or.inr hi)))
    refine hnone i (hki.dirt.trans hi) ?_
    simpa only [BufferHead.Of, hki.dev, hki.blocknr] using hof

theorem InFlight.keep (h : s.InFlight) (hq : s'.queue = s.queue) (hport : s'.port = s.port) (hdisk : s'.disk = s.disk)
    (hdata : ∀ r ∈ s.queue, (s'.bh r.bh).dataLo = (s.bh r.bh).dataLo ∧ (s'.bh r.bh).dataHi = (s.bh r.bh).dataHi) :
    s'.InFlight := by
  refine ⟨?_, ?_⟩
  · intro r q hrq hcmd
    rw [hq] at hrq
    obtain ⟨hlo, hhi⟩ := hdata r (by simp [hrq])
    rw [hport, hdisk, hlo, hhi]
    exact h.write r q hrq hcmd
  · intro r q hrq hcmd hns
    rw [hq] at hrq
    obtain ⟨hlo, -⟩ := hdata r (by simp [hrq])
    rw [hdisk, hlo]
    exact h.read r q hrq hcmd hns

/-- The request that comes to the head of the queue has its first half before it. -/
theorem InFlight.issue (hwhole : ∀ r q, s.queue = r :: q → r.nsector = 2) : s.issue.InFlight := by
  refine ⟨?_, ?_⟩
  · intro r q hrq hcmd
    rw [issue_queue] at hrq
    have hns := hwhole r q hrq
    refine ⟨fun _ => ?_, fun h1 => ?_⟩
    · simp [Cache.issue, hrq, hcmd]
    · rw [hns] at h1
      simp at h1
  · intro r q hrq _ h1
    rw [issue_queue] at hrq
    rw [hwhole r q hrq] at h1
    simp at h1

theorem InFlight.enqueue (h : s.InFlight) : (s.enqueue i read).InFlight := by
  unfold Cache.enqueue
  dsimp only
  split
  next hempty =>
    refine .issue ?_
    intro r q hrq
    rw [List.isEmpty_iff.mp hempty] at hrq
    cases hrq
    rfl
  next hne =>
    cases hqs : s.queue with
    | nil => simp [hqs] at hne
    | cons first q =>
      obtain ⟨q', hadd, -⟩ := addRequest_cons (s.request i read) first q
      refine ⟨?_, ?_⟩
      · intro r qr hrq hcmd
        simp only [hadd, List.cons.injEq] at hrq
        obtain ⟨rfl, -⟩ := hrq
        exact h.write first q hqs hcmd
      · intro r qr hrq hcmd hns
        simp only [hadd, List.cons.injEq] at hrq
        obtain ⟨rfl, -⟩ := hrq
        exact h.read first q hqs hcmd hns

/-- The holder of a buffer that is up to date changes a half of it. -/
theorem Current.store {r : Ref} {second : Bool} {data : Sector} (h : s.Current) (hu : s.Unique)
    (hr : r.bh < s.nrBuffers) (hD : ¬ s.Detached r.bh) (hof : (s.bh r.bh).Of r.dev r.block)
    (hup : (s.bh r.bh).bUptodate = true) :
    ({ s with stored := setSector s.stored r.dev r.block second data }.setBh r.bh
      (if second then { s.bh r.bh with bDirt := true, dataHi := data }
        else { s.bh r.bh with bDirt := true, dataLo := data })).Current := by
  generalize hs' : Cache.setBh _ r.bh _ = s'
  have hD' : s'.Detached = s.Detached := by rw [← hs']; rfl
  have hN : s'.nrBuffers = s.nrBuffers := by rw [← hs']; rfl
  have hhd : s'.hd = s.hd := by rw [← hs']; rfl
  have hdisk : s'.disk = s.disk := by rw [← hs']; rfl
  have hst : s'.stored = setSector s.stored r.dev r.block second data := by rw [← hs']; rfl
  have hbh : ∀ i, i ≠ r.bh → s'.bh i = s.bh i := by
    intro i hi
    simp [← hs', Cache.setBh, hi]
  have hat : s'.bh r.bh = if second then { s.bh r.bh with bDirt := true, dataHi := data }
      else { s.bh r.bh with bDirt := true, dataLo := data } := by
    simp [← hs', Cache.setBh]
  have hat' : (s'.bh r.bh).bDev = r.dev ∧ (s'.bh r.bh).bBlocknr = r.block ∧
      (s'.bh r.bh).bUptodate = true ∧ (s'.bh r.bh).bDirt = true := by
    rw [hat]
    split <;> exact ⟨hof.1, hof.2, hup, rfl⟩
  obtain ⟨hdev, hblock, hup', hdirt'⟩ := hat'
  have hdev0 : r.dev ≠ 0 := by
    intro h0
    have hrw := h.onDisk r.bh hup
    simp [llRwBlock, hof.1, h0] at hrw
  -- every other buffer of the block is out of the queues and clean
  have hother : ∀ i < s.nrBuffers, i ≠ r.bh → (s.bh i).Of r.dev r.block → s.Detached i ∧ (s.bh i).bDirt = false := by
    intro i hi hne hofi
    have hDi : s.Detached i := by
      by_contra hDi
      exact hne (hu i hi r.bh hr hDi hD (by rw [hofi.1]; exact hdev0) (hofi.1.trans hof.1.symm) (hofi.2.trans hof.2.symm))
    refine ⟨hDi, ?_⟩
    by_contra hdi
    have := (h.twin r.bh hr i hne.symm (by simpa using hdi) ⟨hof.1.trans hofi.1.symm, hof.2.trans hofi.2.symm⟩).1
    exact hD this
  refine ⟨?_, ?_, ?_, ?_, ?_, ?_⟩
  · intro i hi
    rw [hN]
    rcases eq_or_ne i r.bh with rfl | hne
    · exact hr
    · exact h.below i (hbh i hne ▸ hi)
  · intro i hi
    rcases eq_or_ne i r.bh with rfl | hne
    · exact hup'
    · rw [hbh i hne] at hi ⊢
      exact h.read i hi
  · intro i hi
    rcases eq_or_ne i r.bh with rfl | hne
    · rw [llRwBlock_congr hhd (hdev.trans hof.1.symm) (hblock.trans hof.2.symm)]
      exact h.onDisk _ hup
    · rw [llRwBlock_congr hhd (by rw [hbh i hne]) (by rw [hbh i hne])]
      exact h.onDisk i (hbh i hne ▸ hi)
  · intro i hi hui hdi
    rw [hN] at hi
    rcases eq_or_ne i r.bh with rfl | hne
    · obtain ⟨hlo, hhi⟩ := h.current r.bh hr hup fun hd => absurd hd hD
      rw [hof.1, hof.2] at hlo hhi
      rw [BufferHead.Holds, hdev, hblock, hst, setSector_apply, setSector_apply, hat]
      cases second with
      | false => exact ⟨by simp, by simpa using hhi⟩
      | true => exact ⟨by simpa using hlo, by simp⟩
    · rw [hD'] at hdi
      rw [hbh i hne] at hui hdi ⊢
      have hnot : ¬ (s.bh i).Of r.dev r.block := by
        intro hofi
        obtain ⟨hDi, hci⟩ := hother i hi hne hofi
        simp [hdi hDi] at hci
      obtain ⟨hlo, hhi⟩ := h.current i hi hui hdi
      have hsame : ∀ half, s'.stored (s.bh i).bDev (s.bh i).bBlocknr half = s.stored (s.bh i).bDev (s.bh i).bBlocknr half := by
        intro half
        rw [hst, setSector_apply, if_neg]
        intro hc
        exact hnot ⟨hc.1, hc.2.1⟩
      exact ⟨hlo.trans (hsame false).symm, hhi.trans (hsame true).symm⟩
  · intro i hi j hij hj hofj
    rw [hN] at hi
    rw [hD']
    rcases eq_or_ne j r.bh with rfl | hjr
    · rw [hbh i hij, hdev, hblock] at hofj
      rw [hbh i hij]
      exact hother i hi hij hofj
    · rw [hbh j hjr] at hj hofj
      rcases eq_or_ne i r.bh with rfl | hir
      · rw [BufferHead.Of, hdev, hblock] at hofj
        have := (h.twin r.bh hi j hij hj ⟨hof.1.trans hofj.1, hof.2.trans hofj.2⟩).1
        exact absurd this hD
      · rw [hbh i hir] at hofj ⊢
        exact h.twin i hi j hij hj hofj
  · intro dev block hnone half
    have hne : ¬ (r.dev = dev ∧ r.block = block) := by
      intro he
      exact hnone r.bh hdirt' ⟨hdev.trans he.1, hblock.trans he.2⟩
    rw [hdisk, hst, setSector_apply, if_neg (fun hc => hne ⟨hc.1.symm, hc.2.1.symm⟩)]
    refine h.flushed dev block ?_ half
    intro i hi hofi
    rcases eq_or_ne i r.bh with rfl | hir
    · exact hne ⟨hof.1.symm.trans hofi.1, hof.2.symm.trans hofi.2⟩
    · exact hnone i (by rw [hbh i hir]; exact hi) (by rw [hbh i hir]; exact hofi)

/-- A transfer changes one buffer and its block on the disk. -/
theorem Current.transfer (h : s.Current) (hbh : ∀ a, a ≠ i → s'.bh a = s.bh a) (hD : s'.Detached = s.Detached)
    (hN : s'.nrBuffers = s.nrBuffers) (hhd : s'.hd = s.hd) (hst : s'.stored = s.stored)
    (hof : (s'.bh i).Of (s.bh i).bDev (s.bh i).bBlocknr)
    (hdisk : ∀ dev block, ¬ (s.bh i).Of dev block → s'.disk dev block = s.disk dev block)
    (hdirt : (s'.bh i).bDirt = true → (s.bh i).bDirt = true ∧ (s'.bh i).bUptodate = true)
    (hup : (s'.bh i).bUptodate = true → llRwBlock s i = .started)
    (hcur : i < s.nrBuffers → (s'.bh i).bUptodate = true → (s.Detached i → (s'.bh i).bDirt = true) →
      (s'.bh i).Holds s.stored)
    (hflush : (∀ j, (s'.bh j).bDirt = true → ¬ (s'.bh j).Of (s.bh i).bDev (s.bh i).bBlocknr) →
      ∀ half, s'.disk (s.bh i).bDev (s.bh i).bBlocknr half = s.stored (s.bh i).bDev (s.bh i).bBlocknr half) :
    s'.Current := by
  have hdirty : ∀ j, (s'.bh j).bDirt = true → (s.bh j).bDirt = true := by
    intro j hj
    rcases eq_or_ne j i with rfl | hji
    · exact (hdirt hj).1
    · exact hbh j hji ▸ hj
  have hids : ∀ j dev block, (s'.bh j).Of dev block ↔ (s.bh j).Of dev block := by
    intro j dev block
    rcases eq_or_ne j i with rfl | hji
    · rw [BufferHead.Of, hof.1, hof.2]
      exact Iff.rfl
    · rw [hbh j hji]
  refine ⟨?_, ?_, ?_, ?_, ?_, ?_⟩
  · intro j hj
    rw [hN]
    exact h.below j (hdirty j hj)
  · intro j hj
    rcases eq_or_ne j i with rfl | hji
    · exact (hdirt hj).2
    · rw [hbh j hji] at hj ⊢
      exact h.read j hj
  · intro j hj
    have hsame := (hids j _ _).mpr ⟨rfl, rfl⟩
    rw [llRwBlock_congr hhd hsame.1 hsame.2]
    rcases eq_or_ne j i with rfl | hji
    · exact hup hj
    · exact h.onDisk j (hbh j hji ▸ hj)
  · intro j hjN hj hdj
    rw [hN] at hjN
    rw [hD] at hdj
    rw [hst]
    rcases eq_or_ne j i with rfl | hji
    · exact hcur hjN hj hdj
    · rw [hbh j hji] at hj hdj ⊢
      exact h.current j hjN hj hdj
  · intro j hjN k hjk hk hofk
    rw [hN] at hjN
    have hsame := (hids k _ _).mpr ⟨rfl, rfl⟩
    rw [hsame.1, hsame.2] at hofk
    obtain ⟨hDj, hcj⟩ := h.twin j hjN k hjk (hdirty k hk) ((hids j _ _).mp hofk)
    rw [hD]
    refine ⟨hDj, ?_⟩
    by_contra hdj
    simp [hdirty j (by simpa using hdj)] at hcj
  · intro dev block hnone half
    rw [hst]
    by_cases hX : (s.bh i).Of dev block
    · rw [← hX.1, ← hX.2] at hnone ⊢
      exact hflush hnone half
    · rw [hdisk dev block hX]
      refine h.flushed dev block ?_ half
      intro j hj hofj
      have hji : j ≠ i := by
        intro he
        exact hX (he ▸ hofj)
      exact hnone j (by rw [hbh j hji]; exact hj) ((hids j dev block).mpr hofj)

theorem issue_rest (s : Cache) : s.issue.nrBuffers = s.nrBuffers ∧ s.issue.nrTasks = s.nrTasks ∧ s.issue.hd = s.hd ∧
    s.issue.disk = s.disk ∧ s.issue.stored = s.stored := by
  unfold Cache.issue
  split
  next => split <;> exact ⟨rfl, rfl, rfl, rfl, rfl⟩
  next => exact ⟨rfl, rfl, rfl, rfl, rfl⟩

/-- A buffer that is being read is in the hash table. -/
theorem Io.reading_attached (h : s.Io) (hinv : s.Inv) (hp : s.Pending i true) : i < s.nrBuffers ∧ ¬ s.Detached i := by
  obtain ⟨-, -, p, hpN, hr⟩ := h.stale i hp
  have hcounted : (s.tasks p).pc.counted = some i ∧ (s.tasks p).pc.victim = none := by
    cases hpc : (s.tasks p).pc <;> simp_all [Pc.reads, Pc.counted, Pc.victim]
  exact ⟨hinv.bound p hpN i (Or.inl hcounted.1), hinv.not_detached hpN hcounted.1 hcounted.2⟩

theorem endIo_bh {b : BufferHead} {q : List IoRequest} (a : Nat) :
    (s.endIo i b q).bh a = if a = i then { b with bLock := false } else s.bh a := by
  unfold Cache.endIo
  rw [issue_bh]
  simp only [Cache.setBh, Function.update_apply]

/-- What stays the same when a request ends. -/
theorem endIo_rest {b : BufferHead} {q : List IoRequest} : (s.endIo i b q).queue = q ∧ (s.endIo i b q).tasks = s.tasks ∧
    (s.endIo i b q).nrBuffers = s.nrBuffers ∧ (s.endIo i b q).nrTasks = s.nrTasks ∧ (s.endIo i b q).hd = s.hd ∧
    (s.endIo i b q).disk = s.disk ∧ (s.endIo i b q).stored = s.stored := by
  unfold Cache.endIo
  obtain ⟨hN, hT, hhd, hdisk, hst⟩ := issue_rest { s.setBh i { b with bLock := false } with queue := q }
  exact ⟨issue_queue, issue_tasks, hN, hT, hhd, hdisk, hst⟩

theorem intr_cases (h : s.intr = some s') : ∃ r q, s.queue = r :: q ∧
    (r.cmd = .winRead ∧ r.nsector = 2 ∧ s' = { s.setBh r.bh { s.bh r.bh with dataLo := s.disk r.dev r.block false } with
        queue := { r with nsector := 1 } :: q } ∨
      r.cmd = .winRead ∧ r.nsector ≠ 2 ∧ s' = s.endIo r.bh
        { s.bh r.bh with dataHi := s.disk r.dev r.block true, bUptodate := true, bDirt := false } q ∨
      r.cmd = .winWrite ∧ r.nsector = 2 ∧ s' = { s with
        disk := setSector s.disk r.dev r.block false s.port
        port := (s.bh r.bh).dataHi
        queue := { r with nsector := 1 } :: q } ∨
      r.cmd = .winWrite ∧ r.nsector ≠ 2 ∧ s' = { s with disk := setSector s.disk r.dev r.block true s.port }.endIo r.bh
        { s.bh r.bh with bUptodate := true, bDirt := false } q) := by
  unfold Cache.intr at h
  split at h
  next => simp at h
  next r q hq =>
    refine ⟨r, q, hq, ?_⟩
    dsimp only at h
    split at h
    next hcmd =>
      split at h
      next hns => exact Or.inl ⟨hcmd, hns, (Option.some.inj h).symm⟩
      next hns => exact Or.inr (Or.inl ⟨hcmd, hns, (Option.some.inj h).symm⟩)
    next hcmd =>
      split at h
      next hns =>
        refine Or.inr (Or.inr (Or.inl ⟨hcmd, hns, ?_⟩))
        simpa [hns] using (Option.some.inj h).symm
      next hns =>
        refine Or.inr (Or.inr (Or.inr ⟨hcmd, hns, ?_⟩))
        simpa [hns] using (Option.some.inj h).symm
    next => simp at h

theorem Io.intr (h : s.Io) (hs : s.intr = some s') : s'.Io := by
  obtain ⟨r, q, hq, hcase⟩ := intr_cases hs
  rcases hcase with ⟨-, -, rfl⟩ | ⟨-, -, rfl⟩ | ⟨-, -, rfl⟩ | ⟨-, -, rfl⟩
  · refine h.half hq rfl rfl rfl rfl ?_
    intro a
    simp only [Cache.setBh, Function.update_apply]
    split
    next ha =>
      subst ha
      exact ⟨rfl, rfl, rfl, rfl, rfl⟩
    next => exact ⟨rfl, rfl, rfl, rfl, rfl⟩
  · obtain ⟨hq', ht, -, hT, hhd, -, -⟩ := endIo_rest (s := s) (i := r.bh) (q := q)
    refine h.pop hq hq' hT hhd ht ?_ ?_
    · intro a ha
      simp [endIo_bh, ha]
    · simp [endIo_bh]
  · exact h.half hq rfl rfl rfl rfl fun a => ⟨rfl, rfl, rfl, rfl, rfl⟩
  · obtain ⟨hq', ht, -, hT, hhd, -, -⟩ :=
      endIo_rest (s := { s with disk := setSector s.disk r.dev r.block true s.port }) (i := r.bh) (q := q)
    refine h.pop hq hq' hT hhd ht ?_ ?_
    · intro a ha
      simp [endIo_bh, ha]
    · simp [endIo_bh]

theorem InFlight.endIo {b : BufferHead} {q : List IoRequest} (hwhole : ∀ r ∈ q, r.nsector = 2) :
    (s.endIo i b q).InFlight := by
  refine .issue ?_
  intro r q' hrq
  have hq : q = r :: q' := hrq
  exact hwhole r (by simp [hq])

theorem InFlight.intr (h : s.InFlight) (hio : s.Io) (hs : s.intr = some s') : s'.InFlight := by
  obtain ⟨r, q, hq, hcase⟩ := intr_cases hs
  have hwhole : ∀ r ∈ q, r.nsector = 2 := by
    intro x hx
    exact hio.whole x (by rw [hq]; exact hx)
  rcases hcase with ⟨hcmd, -, rfl⟩ | ⟨-, -, rfl⟩ | ⟨hcmd, hns, rfl⟩ | ⟨-, -, rfl⟩
  · refine ⟨?_, ?_⟩
    · intro x qx hx hxc
      cases hx
      simp [hcmd] at hxc
    · intro x qx hx _ _
      cases hx
      simp [Cache.setBh]
  · exact .endIo hwhole
  · refine ⟨?_, ?_⟩
    · intro x qx hx _
      cases hx
      refine ⟨fun h2 => by simp at h2, fun _ => ⟨rfl, ?_⟩⟩
      have hport := (h.write r q hq hcmd).1 hns
      simp [setSector_apply, hport]
    · intro x qx hx hxc
      cases hx
      exact absurd hcmd hxc
  · exact .endIo hwhole

theorem Current.clean_of_stale (h : s.Current) (hup : (s.bh i).bUptodate = false) :
    (s.bh i).bDirt = false := by
  by_contra hd
  have := h.read i (by simpa using hd)
  simp [hup] at this

/-- A block is read that has no dirty buffer. -/
theorem Current.read_flushed (h : s.Current) (hio : s.Io) (hinv : s.Inv) (hp : s.Pending i true) (half : Bool) :
    s.disk (s.bh i).bDev (s.bh i).bBlocknr half = s.stored (s.bh i).bDev (s.bh i).bBlocknr half := by
  obtain ⟨hi, hD⟩ := hio.reading_attached hinv hp
  have hclean := h.clean_of_stale (hio.stale i hp).1
  refine h.flushed _ _ ?_ half
  intro j hj hofj
  have hij : i ≠ j := by
    intro he
    subst he
    simp [hclean] at hj
  exact hD (h.twin i hi j hij hj ⟨hofj.1.symm, hofj.2.symm⟩).1

theorem Current.intr (h : s.Current) (hfl : s.InFlight) (hio : s.Io) (hinv : s.Inv) (hs : s.intr = some s') :
    s'.Current := by
  obtain ⟨r, q, hq, hcase⟩ := intr_cases hs
  have hmem : r ∈ s.queue := by simp [hq]
  obtain ⟨hdev, hblock⟩ := hio.ids r hmem
  have hpend : s.Pending r.bh r.read := Or.inl ⟨r, hmem, rfl, rfl⟩
  have hns1 : r.nsector ≠ 2 → r.nsector = 1 := (hio.cmds r hmem).2.resolve_left
  have hsame : ∀ second dev block, ¬ (s.bh r.bh).Of dev block →
      setSector s.disk r.dev r.block second s.port dev block = s.disk dev block := by
    intro second dev block hne
    funext half
    rw [setSector_apply, if_neg]
    intro hc
    exact hne ⟨hdev.trans hc.1.symm, hblock.trans hc.2.1.symm⟩
  rcases hcase with ⟨hcmd, hns, rfl⟩ | ⟨hcmd, hns, rfl⟩ | ⟨hcmd, hns, rfl⟩ | ⟨hcmd, hns, rfl⟩
  · -- the first half of a block that is read
    have hread : s.Pending r.bh true := by simpa [IoRequest.read, hcmd] using hpend
    have hup := (hio.stale r.bh hread).1
    have hclean := h.clean_of_stale hup
    refine h.transfer (i := r.bh) ?_ rfl rfl rfl rfl ?_ (fun _ _ _ => rfl) ?_ ?_ ?_ ?_
    · intro a ha
      simp [Cache.setBh, ha]
    · simp [Cache.setBh, BufferHead.Of]
    · simp [Cache.setBh, hclean]
    · simp [Cache.setBh, hup]
    · simp [Cache.setBh, hup]
    · intro _ half
      exact h.read_flushed hio hinv hread half
  · -- the second half
    have hread : s.Pending r.bh true := by simpa [IoRequest.read, hcmd] using hpend
    have hlo := hfl.read r q hq (by simp [hcmd]) (hns1 hns)
    obtain ⟨-, ht, hN, hT, hhd, hdisk, hst⟩ := endIo_rest (s := s) (i := r.bh) (q := q)
      (b := { s.bh r.bh with dataHi := s.disk r.dev r.block true, bUptodate := true, bDirt := false })
    have hflushed := h.read_flushed hio hinv hread
    refine h.transfer (i := r.bh) ?_ ?_ hN hhd hst ?_ ?_ ?_ ?_ ?_ ?_
    · intro a ha
      simp [endIo_bh, ha]
    · funext a
      simp only [Detached, ht, hT]
    · simp [endIo_bh, BufferHead.Of]
    · intro dev block _
      rw [hdisk]
    · simp [endIo_bh]
    · intro _
      exact (hio.stale r.bh hread).2.1
    · intro _ _ _
      simp only [BufferHead.Holds, endIo_bh, if_true]
      rw [← hflushed false, ← hflushed true, hlo, hdev, hblock]
      exact ⟨rfl, rfl⟩
    · intro _ half
      rw [hdisk]
      exact hflushed half
  · -- the first half of a block that is written
    have hwrite : s.Pending r.bh false := by simpa [IoRequest.read, hcmd] using hpend
    have hdirty := hio.dirty r.bh hwrite
    have hup := h.read r.bh hdirty
    refine h.transfer (i := r.bh) (fun _ _ => rfl) rfl rfl rfl rfl ⟨rfl, rfl⟩ (hsame false)
      (fun _ => ⟨hdirty, hup⟩) (fun _ => h.onDisk r.bh hup) ?_ ?_
    · intro hN _ _
      exact h.current r.bh hN hup fun _ => hdirty
    · intro hnone
      exact absurd ⟨rfl, rfl⟩ (hnone r.bh hdirty)
  · -- the second half
    have hwrite : s.Pending r.bh false := by simpa [IoRequest.read, hcmd] using hpend
    have hdirty := hio.dirty r.bh hwrite
    have hup := h.read r.bh hdirty
    obtain ⟨hport, hlo⟩ := (hfl.write r q hq hcmd).2 (hns1 hns)
    have hcur := h.current r.bh (h.below r.bh hdirty) hup fun _ => hdirty
    obtain ⟨-, ht, hN, hT, hhd, hdisk, hst⟩ :=
      endIo_rest (s := { s with disk := setSector s.disk r.dev r.block true s.port }) (i := r.bh) (q := q)
        (b := { s.bh r.bh with bUptodate := true, bDirt := false })
    refine h.transfer (i := r.bh) ?_ ?_ hN hhd hst ?_ ?_ ?_ ?_ ?_ ?_
    · intro a ha
      simp [endIo_bh, ha]
    · funext a
      simp only [Detached, ht, hT]
    · simp [endIo_bh, BufferHead.Of]
    · intro dev block hne
      rw [hdisk]
      exact hsame true dev block hne
    · simp [endIo_bh]
    · intro _
      exact h.onDisk r.bh hup
    · intro _ _ _
      simpa only [BufferHead.Holds, endIo_bh, if_true] using hcur
    · intro _ half
      rw [hdisk, hdev, hblock]
      show setSector s.disk r.dev r.block true s.port r.dev r.block half = s.stored r.dev r.block half
      rw [setSector_apply]
      obtain ⟨hclo, hchi⟩ := hcur
      rw [hdev, hblock] at hclo hchi
      cases half with
      | false => simpa using hlo.trans hclo
      | true => simpa using hport.trans hchi

end Cache

end RheeKernel
