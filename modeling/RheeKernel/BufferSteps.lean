import RheeKernel.BufferRefs

namespace RheeKernel

open Finset

namespace Cache

variable {s s' : Cache} {p i : Nat} {t : Task} {pc : Pc} {g : Goal} {dev block tmp : Nat}

theorem refsTo_setPc (i : Nat) (pc : Pc) (h : pc.counted = t.pc.counted) : Task.refsTo { t with pc := pc } i = t.refsTo i := by
  simp [Task.refsTo, h]

/-- A task goes on and keeps what it holds. -/
theorem Inv.move (h : s.Inv) (hp : p < s.nrTasks) (hf : Flagged s s')
    (ht : s'.tasks = Function.update s.tasks p { s.tasks p with pc := pc })
    (hc : pc.counted = (s.tasks p).pc.counted) (hv : pc.victim = (s.tasks p).pc.victim)
    (hb : ∀ i, pc.scanned = some i → i < s.nrBuffers) : s'.Inv := by
  refine h.change hp hf.links (fun i => ⟨hf.dev i, hf.blocknr i⟩) hf.nrTasks ht ?_ hv (fun i _ => hf.count i)
    (h.known p hp) ?_
  · intro i
    rw [hf.count, refsTo_setPc i pc hc]
  · rintro i (hi | hi)
    · exact h.bound p hp i (Or.inl (hc ▸ hi))
    · exact hb i hi

theorem Inv.setPc (h : s.Inv) (hp : p < s.nrTasks) (hc : pc.counted = (s.tasks p).pc.counted)
    (hv : pc.victim = (s.tasks p).pc.victim) (hb : ∀ i, pc.scanned = some i → i < s.nrBuffers) : (s.setPc p pc).Inv :=
  h.move hp (.tasks _) rfl hc hv hb

/-- The CPU changes hands. -/
theorem Inv.settle (h : s.Inv) (p : Nat) : (s.settle p).Inv :=
  h.flagged ⟨fun _ => rfl, rfl, rfl, rfl, rfl⟩ rfl

theorem Inv.counted_pos (h : s.Inv) (hp : p < s.nrTasks) (hc : (s.tasks p).pc.counted = some i) :
    1 ≤ (s.bh i).bCount := by
  have hle := Counting.le_sum_of_mem (mem_range.mpr hp) fun q => (s.tasks q).refsTo i
  have hone := refsTo_of_counted hc
  rw [h.counts i]
  omega

theorem Inv.not_detached (h : s.Inv) (hp : p < s.nrTasks) (hc : (s.tasks p).pc.counted = some i)
    (hv : (s.tasks p).pc.victim = none) : ¬ s.Detached i := by
  rintro ⟨q, hq, hvq⟩
  cases (h.only_victim hq hvq p hp).2 hc
  simp [hv] at hvq

/-- One head gets another count, its task another state. -/
theorem Inv.recount {c : Nat} (h : s.Inv) (hp : p < s.nrTasks) (hi : ¬ s.Detached i)
    (hc : c + (s.tasks p).refsTo i = (s.bh i).bCount + t.refsTo i)
    (hother : ∀ a, a ≠ i → t.refsTo a = (s.tasks p).refsTo a) (hv : t.pc.victim = (s.tasks p).pc.victim)
    (hknown : ∀ r ∈ t.refs, r.bh < s.nrBuffers ∧ (s.bh r.bh).bDev = r.dev ∧ (s.bh r.bh).bBlocknr = r.block)
    (hbound : ∀ i, t.pc.counted = some i ∨ t.pc.scanned = some i → i < s.nrBuffers) :
    ((s.setBh i { s.bh i with bCount := c }).setTask p t).Inv := by
  have hfields : ∀ (α : Type) (f : BufferHead → α), f { s.bh i with bCount := c } = f (s.bh i) →
      ∀ a, f (((s.setBh i { s.bh i with bCount := c }).setTask p t).bh a) = f (s.bh a) := by
    intro α f hf a
    simp only [setTask, Cache.setBh]
    rcases eq_or_ne a i with rfl | hai
    · simpa using hf
    · simp [hai]
  refine h.change hp ⟨hfields _ _ rfl, hfields _ _ rfl, hfields _ _ rfl, hfields _ _ rfl, rfl, rfl, rfl⟩
    (fun a => ⟨hfields _ _ rfl a, hfields _ _ rfl a⟩) rfl rfl ?_ hv ?_ hknown hbound
  · intro a
    simp only [setTask, Cache.setBh]
    rcases eq_or_ne a i with rfl | hai
    · simpa using hc
    · simp [hai, hother a hai]
  · intro a ha
    have hai : a ≠ i := fun he => hi (he ▸ ha)
    simp [setTask, Cache.setBh, hai]

/-- `brelse` of the head that the call has counted. -/
theorem Inv.dropCount (h : s.Inv) (hp : p < s.nrTasks) (hc : (s.tasks p).pc.counted = some i)
    (hv : (s.tasks p).pc.victim = none) (hpc : pc.counted = none) (hpv : pc.victim = none) (hps : pc.scanned = none)
    (hd : ((s.dropCount i).map fun s => s.setPc p pc) = some s') : s'.Inv := by
  obtain ⟨u, hu, rfl⟩ := Option.map_eq_some_iff.mp hd
  unfold Cache.dropCount at hu
  split at hu
  next => simp at hu
  next hpos =>
    cases Option.some.inj hu
    refine h.recount (t := { s.tasks p with pc := pc }) hp (h.not_detached hp hc hv) ?_ ?_ (by simp [hpv, hv])
      (h.known p hp) (by simp [hpc, hps])
    · have := refsTo_of_counted hc
      simp only [Task.refsTo, hpc, reduceCtorEq, if_false] at this ⊢
      omega
    · intro a hai
      have : (s.tasks p).pc.counted ≠ some a := by
        rw [hc]
        simpa using hai.symm
      simp [Task.refsTo, hpc, this]

/-- The head that the call has counted is handed to the caller. -/
theorem Inv.giveRef {read : Bool} (h : s.Inv) (hp : p < s.nrTasks) (hc : (s.tasks p).pc.counted = some i)
    (hv : (s.tasks p).pc.victim = none) : (s.giveRef p i read).Inv := by
  refine h.change hp ⟨fun _ => rfl, fun _ => rfl, fun _ => rfl, fun _ => rfl, rfl, rfl, rfl⟩ (fun _ => ⟨rfl, rfl⟩) rfl rfl
    ?_ hv.symm (fun _ _ => rfl) ?_ (by simp [Pc.counted, Pc.scanned])
  · intro a
    have hidle : Pc.counted .idle = none := rfl
    simp only [Cache.giveRef, setTask, Task.refsTo, hidle, hc, List.countP_cons, reduceCtorEq, if_false, Option.some.injEq]
    rcases eq_or_ne i a with rfl | hai
    · simp only [if_true, decide_true]
      omega
    · simp [hai]
  · intro r hr
    rcases List.mem_cons.mp hr with rfl | hr
    · exact ⟨h.bound p hp i (Or.inl hc), rfl, rfl⟩
    · exact h.known p hp r hr

theorem Inv.gotBuffer (h : s.Inv) (hp : p < s.nrTasks) (hc : (s.tasks p).pc.counted = some i)
    (hv : (s.tasks p).pc.victim = none) (hg : s.gotBuffer p i g = some s') : s'.Inv := by
  cases g with
  | hash =>
    cases Option.some.inj hg
    exact h.giveRef hp hc hv
  | get =>
    cases Option.some.inj hg
    exact h.giveRef hp hc hv
  | read =>
    simp only [Cache.gotBuffer] at hg
    split at hg
    next =>
      cases Option.some.inj hg
      exact h.giveRef hp hc hv
    next =>
      split at hg
      next => simp at hg
      next => exact h.dropCount hp hc hv rfl rfl rfl hg
      next =>
        cases Option.some.inj hg
        have hlock : Flagged s (s.lockBuffer i) := .setBh rfl
        exact h.move hp (hlock.trans (.tasks _)) rfl hc.symm hv.symm (by simp [Pc.scanned])

theorem Relinked.count (h : Relinked s s') (a : Nat) : (s'.bh a).bCount = (s.bh a).bCount := by
  rw [h.heads a]
  rfl

theorem Relinked.tasks (h : Relinked s s') : s'.tasks = s.tasks := by
  rw [h.rest]

theorem Relinked.nrTasks (h : Relinked s s') : s'.nrTasks = s.nrTasks := by
  rw [h.rest]

theorem detached_update (hp : p < s.nrTasks) (hN : s'.nrTasks = s.nrTasks)
    (hf : s'.tasks = Function.update s.tasks p t) (i : Nat) :
    s'.Detached i ↔ t.pc.victim = some i ∨ ∃ q < s.nrTasks, q ≠ p ∧ (s.tasks q).pc.victim = some i := by
  unfold Detached
  rw [hN, hf]
  constructor
  · rintro ⟨q, hq, hv⟩
    rcases eq_or_ne q p with rfl | hne
    · exact Or.inl (by simpa using hv)
    · exact Or.inr ⟨q, hq, hne, by simpa [hne] using hv⟩
  · rintro (hv | ⟨q, hq, hne, hv⟩)
    · exact ⟨p, hp, by simpa using hv⟩
    · exact ⟨q, hq, by simpa [hne] using hv⟩

/-- A free head that is not the only one is taken out for recycling. -/
theorem Inv.take (h : s.Inv) (hp : p < s.nrTasks) (hc : (s.tasks p).pc.counted = none)
    (htmp : tmp < s.nrBuffers) (hfree : (s.bh tmp).bCount = 0) (hmore : (s.bh tmp).bNextFree ≠ some tmp)
    (hd : s.take p g dev block tmp = some s') : s'.Inv := by
  have hD : ¬ s.Detached tmp := fun hd => absurd (h.alone tmp hd) (by simp [hfree])
  have hv : (s.tasks p).pc.victim = none := by
    rw [Option.eq_none_iff_forall_ne_some]
    intro a ha
    simp [counted_of_victim ha] at hc
  obtain ⟨u, hu, rfl⟩ := Option.map_eq_some_iff.mp hd
  generalize h1 : s.setBh tmp { s.bh tmp with bCount := uchar ((s.bh tmp).bCount + 1) } = s1 at hu
  have hone : (s1.bh tmp).bCount = 1 := by simp [← h1, Cache.setBh, hfree, uchar]
  have hbh : ∀ a, a ≠ tmp → s1.bh a = s.bh a := by
    intro a ha
    simp [← h1, Cache.setBh, ha]
  have hfields : ∀ (α : Type) (f : BufferHead → α),
      f { s.bh tmp with bCount := uchar ((s.bh tmp).bCount + 1) } = f (s.bh tmp) → ∀ a, f (s1.bh a) = f (s.bh a) := by
    intro α f hf a
    rcases eq_or_ne a tmp with rfl | ha
    · simpa [← h1, Cache.setBh] using hf
    · rw [hbh a ha]
  have hs1 : s1.nrBuffers = s.nrBuffers ∧ s1.nrTasks = s.nrTasks ∧ s1.tasks = s.tasks := by
    rw [← h1]
    exact ⟨rfl, rfl, rfl⟩
  obtain ⟨hN1, hT1, ht1⟩ := hs1
  have hwf1 : s1.Wf s.Detached := by
    refine h.wf.congr ⟨hfields _ _ rfl, hfields _ _ rfl, hfields _ _ rfl, hfields _ _ rfl, ?_, ?_, hN1⟩
      fun a _ => ⟨hfields _ _ rfl a, hfields _ _ rfl a⟩
    · rw [← h1]
      rfl
    · rw [← h1]
      rfl
  have htmp1 : tmp < s1.nrBuffers := by rw [hN1]; exact htmp
  obtain ⟨u', hu', hun⟩ := removeFromQueues_spec (hwf1.prevFree htmp1 hD) (hwf1.nextFree htmp1)
  cases Option.some.inj (hu.symm.trans hu')
  have hwf2 := hwf1.remove htmp1 hD (by rw [hfields _ BufferHead.bNextFree rfl]; exact hmore) hun
  -- the two branches differ only in where the task goes on
  have hgoal : ∀ pc : Pc, pc.victim = some tmp → pc.scanned = none → (u.setPc p pc).Inv := by
    intro pc hpv hps
    have htasks : (u.setPc p pc).tasks = Function.update s.tasks p { s.tasks p with pc := pc } := by
      simp only [Cache.setPc, setTask, hun.relinked.tasks, ht1]
    have hNT : (u.setPc p pc).nrTasks = s.nrTasks := hun.relinked.nrTasks.trans hT1
    have hNB : (u.setPc p pc).nrBuffers = s.nrBuffers := hun.relinked.nrBuffers.trans hN1
    have hdet : ∀ a, (u.setPc p pc).Detached a ↔ s.Detached a ∨ a = tmp := by
      intro a
      rw [detached_update hp hNT htasks a]
      constructor
      · rintro (ha | ⟨q, hq, -, ha⟩)
        · exact Or.inr (Option.some.inj (ha.symm.trans hpv))
        · exact Or.inl ⟨q, hq, ha⟩
      · rintro (⟨q, hq, ha⟩ | rfl)
        · refine Or.inr ⟨q, hq, ?_, ha⟩
          rintro rfl
          simp [hv] at ha
        · exact Or.inl hpv
    have hcnt : ∀ a, ((u.setPc p pc).bh a).bCount = (s1.bh a).bCount := hun.relinked.count
    have hcp := counted_of_victim hpv
    have hDeq : (u.setPc p pc).Detached = fun a => s.Detached a ∨ a = tmp := by
      funext a
      exact propext (hdet a)
    have hsame : ∀ a, ((u.setPc p pc).bh a).bDev = (s.bh a).bDev ∧ ((u.setPc p pc).bh a).bBlocknr = (s.bh a).bBlocknr :=
      fun a => ⟨(hun.relinked.dev a).trans (hfields _ BufferHead.bDev rfl a),
        (hun.relinked.blocknr a).trans (hfields _ BufferHead.bBlocknr rfl a)⟩
    refine h.rebuild hp ?_ hNB hNT htasks ?_ ?_ (fun q _ r _ => hsame r.bh) ?_ ?_
    · rw [hDeq]
      exact hwf2.congr ⟨fun _ => rfl, fun _ => rfl, fun _ => rfl, fun _ => rfl, rfl, rfl, rfl⟩ fun _ _ => ⟨rfl, rfl⟩
    · intro a
      rw [hcnt]
      simp only [Task.refsTo, hcp, hc, reduceCtorEq, if_false, Option.some.injEq]
      rcases eq_or_ne tmp a with rfl | ha
      · rw [hone, hfree]
        simp only [if_true]
        omega
      · rw [hbh a ha.symm]
        simp only [ha, if_false]
    · intro a ha
      rw [hcnt]
      rcases eq_or_ne a tmp with rfl | hne
      · exact hone
      · rw [hbh a hne]
        exact h.alone a (((hdet a).mp ha).resolve_right hne)
    · intro r hr
      rw [(hsame r.bh).1, (hsame r.bh).2]
      exact h.known p hp r hr
    · intro a ha
      simp only [hcp, hps, reduceCtorEq, or_false, Option.some.injEq] at ha
      exact ha ▸ htmp
  split
  next => exact hgoal _ rfl rfl
  next => exact hgoal _ rfl rfl

/-- A head that is out of the queues may change, except for its links. -/
theorem Inv.wf_setBh {b : BufferHead} (h : s.Inv) (hD : s.Detached tmp) (hb : b.withLinks (s.bh tmp) = b) :
    (s.setBh tmp b).Wf s.Detached := by
  have hfields : ∀ (f : BufferHead → Option Nat), f (b.withLinks (s.bh tmp)) = f (s.bh tmp) →
      ∀ a, f ((s.setBh tmp b).bh a) = f (s.bh a) := by
    intro f hf a
    simp only [Cache.setBh]
    rcases eq_or_ne a tmp with rfl | ha
    · simpa [hb] using hf
    · simp [ha]
  refine h.wf.congr ⟨hfields _ rfl, hfields _ rfl, hfields _ rfl, hfields _ rfl, rfl, rfl, rfl⟩ ?_
  intro a ha
  have hne : a ≠ tmp := fun he => ha (he ▸ hD)
  simp [Cache.setBh, hne]

/-- The head that a call has taken out comes back with another block; the call may keep it. -/
theorem Inv.putBack {b : BufferHead} {u : Cache} (h : s.Inv) (hp : p < s.nrTasks)
    (hv : (s.tasks p).pc.victim = some tmp) (hu : insertIntoQueues (s.setBh tmp b) tmp = some u)
    (hb : b.withLinks (s.bh tmp) = b) (hpv : pc.victim = none) (hps : pc.scanned = none)
    (hpc : pc.counted = none ∧ b.bCount = 0 ∨ pc.counted = some tmp ∧ b.bCount = 1) :
    Relinked (s.setBh tmp b) u ∧ (u.setPc p pc).Inv := by
  have hD : s.Detached tmp := ⟨p, hp, hv⟩
  have hold : (s.bh tmp).bCount = 1 := h.alone tmp hD
  have hbh : ∀ a, a ≠ tmp → (s.setBh tmp b).bh a = s.bh a := by
    intro a ha
    simp [Cache.setBh, ha]
  have htmp : (s.setBh tmp b).bh tmp = b := by simp [Cache.setBh]
  obtain ⟨u', hu', hre, hwfu⟩ := (h.wf_setBh hD hb).insert hD
  cases Option.some.inj (hu.symm.trans hu')
  refine ⟨hre, ?_⟩
  have htasks : (u.setPc p pc).tasks = Function.update s.tasks p { s.tasks p with pc := pc } := by
    simp only [Cache.setPc, setTask, hre.tasks]
    rfl
  have hNT : (u.setPc p pc).nrTasks = s.nrTasks := hre.nrTasks
  have hNB : (u.setPc p pc).nrBuffers = s.nrBuffers := hre.nrBuffers
  have hdet : ∀ a, (u.setPc p pc).Detached a ↔ s.Detached a ∧ a ≠ tmp := by
    intro a
    rw [detached_update hp hNT htasks a]
    simp only [hpv, reduceCtorEq, false_or]
    constructor
    · rintro ⟨q, hq, hne, ha⟩
      refine ⟨⟨q, hq, ha⟩, ?_⟩
      rintro rfl
      exact hne ((h.only_victim hp hv q hq).2 (counted_of_victim ha))
    · rintro ⟨⟨q, hq, ha⟩, hne⟩
      refine ⟨q, hq, ?_, ha⟩
      rintro rfl
      exact hne (Option.some.inj (ha.symm.trans hv))
  have hDeq : (u.setPc p pc).Detached = fun a => s.Detached a ∧ a ≠ tmp := by
    funext a
    exact propext (hdet a)
  have hcnt : ∀ a, ((u.setPc p pc).bh a).bCount = ((s.setBh tmp b).bh a).bCount := hre.count
  have hkeep : ∀ q < s.nrTasks, ∀ r ∈ (s.tasks q).refs, ((u.setPc p pc).bh r.bh).bDev = (s.bh r.bh).bDev ∧
      ((u.setPc p pc).bh r.bh).bBlocknr = (s.bh r.bh).bBlocknr := by
    intro q hq r hr
    have hne := (h.only_victim hp hv q hq).1 r hr
    exact ⟨(hre.dev r.bh).trans (by rw [hbh r.bh hne]), (hre.blocknr r.bh).trans (by rw [hbh r.bh hne])⟩
  refine h.rebuild hp ?_ hNB hNT htasks ?_ ?_ hkeep ?_ ?_
  · rw [hDeq]
    exact hwfu.congr ⟨fun _ => rfl, fun _ => rfl, fun _ => rfl, fun _ => rfl, rfl, rfl, rfl⟩ fun _ _ => ⟨rfl, rfl⟩
  · intro a
    rw [hcnt]
    have hcp := counted_of_victim hv
    simp only [Task.refsTo, hcp, Option.some.injEq]
    rcases eq_or_ne tmp a with rfl | ha
    · rw [htmp, hold]
      rcases hpc with ⟨hpc, hb0⟩ | ⟨hpc, hb1⟩
      · simp only [hpc, hb0, reduceCtorEq, if_true, if_false]
        omega
      · simp only [hpc, hb1, if_true]
    · rw [hbh a ha.symm]
      rcases hpc with ⟨hpc, -⟩ | ⟨hpc, -⟩
      · simp only [hpc, ha, reduceCtorEq, if_false]
      · simp only [hpc, ha, Option.some.injEq, if_false]
  · intro a ha
    obtain ⟨haD, hne⟩ := (hdet a).mp ha
    rw [hcnt, hbh a hne]
    exact h.alone a haD
  · intro r hr
    have hk := h.known p hp r hr
    rw [(hkeep p hp r hr).1, (hkeep p hp r hr).2]
    exact hk
  · intro a ha
    simp only [hps, reduceCtorEq, or_false] at ha
    rcases hpc with ⟨hpc, -⟩ | ⟨hpc, -⟩
    · simp [hpc] at ha
    · cases Option.some.inj (hpc.symm.trans ha)
      exact h.wf.below tmp hD

end Cache

end RheeKernel
