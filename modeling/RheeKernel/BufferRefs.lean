import RheeKernel.Machine
import RheeKernel.Counting
import RheeKernel.BufferQueues

namespace RheeKernel

open Finset

/-- The head that a `getblk` has taken out of the queues. -/
def Pc.victim : Pc → Option Nat
  | .evict _ _ _ tmp _ => some tmp
  | .reinit _ _ _ tmp => some tmp
  | _ => none

/-- The head that the running call itself has counted. -/
def Pc.counted : Pc → Option Nat
  | .hashWait _ _ _ i => some i
  | .evict _ _ _ tmp _ => some tmp
  | .reinit _ _ _ tmp => some tmp
  | .readSlot i => some i
  | .readIo i => some i
  | .relse i => some i
  | _ => none

/-- The head that a scan of the free list has come to. -/
def Pc.scanned : Pc → Option Nat
  | .scan _ _ _ tmp => some tmp
  | .scanWait _ _ _ tmp => some tmp
  | _ => none

def Task.refsTo (t : Task) (i : Nat) : Nat :=
  (if t.pc.counted = some i then 1 else 0) + t.refs.countP fun r => r.bh = i

namespace Cache

def Detached (s : Cache) (i : Nat) : Prop := ∃ p < s.nrTasks, (s.tasks p).pc.victim = some i

/-- The counts are the references, and a reference keeps its block. -/
structure Inv (s : Cache) : Prop where
  wf : s.Wf s.Detached
  counts : ∀ i, (s.bh i).bCount = ∑ p ∈ range s.nrTasks, (s.tasks p).refsTo i
  alone : ∀ i, s.Detached i → (s.bh i).bCount = 1
  known : ∀ p < s.nrTasks, ∀ r ∈ (s.tasks p).refs,
    r.bh < s.nrBuffers ∧ (s.bh r.bh).bDev = r.dev ∧ (s.bh r.bh).bBlocknr = r.block
  bound : ∀ p < s.nrTasks, ∀ i, (s.tasks p).pc.counted = some i ∨ (s.tasks p).pc.scanned = some i → i < s.nrBuffers

variable {s s' : Cache} {p i : Nat} {t : Task}

theorem counted_of_victim {pc : Pc} (h : pc.victim = some i) : pc.counted = some i := by
  cases pc <;> simp_all [Pc.victim, Pc.counted]

theorem refsTo_of_ref {r : Ref} (h : r ∈ t.refs) : 1 ≤ t.refs.countP fun x => x.bh = r.bh := by
  exact List.countP_pos_iff.mpr ⟨r, h, by simp⟩

theorem refsTo_of_counted (h : t.pc.counted = some i) : t.refsTo i = 1 + t.refs.countP fun r => r.bh = i := by
  simp [Task.refsTo, h]

/-- A head that is out of the queues is known to the call that took it out and to nobody else. -/
theorem Inv.only_victim (h : s.Inv) (hp : p < s.nrTasks) (hv : (s.tasks p).pc.victim = some i) :
    ∀ q < s.nrTasks, (∀ r ∈ (s.tasks q).refs, r.bh ≠ i) ∧ ((s.tasks q).pc.counted = some i → q = p) := by
  have hone := h.alone i ⟨p, hp, hv⟩
  rw [h.counts i] at hone
  have hown := refsTo_of_counted (counted_of_victim hv)
  have hle : (s.tasks p).refsTo i ≤ ∑ q ∈ range s.nrTasks, (s.tasks q).refsTo i :=
    Counting.le_sum_of_mem (mem_range.mpr hp) fun q => (s.tasks q).refsTo i
  have hother : ∀ q < s.nrTasks, q ≠ p → (s.tasks q).refsTo i = 0 := by
    intro q hq hne
    have := Counting.add_le_sum_of_ne (mem_range.mpr hq) (mem_range.mpr hp) hne fun q => (s.tasks q).refsTo i
    omega
  intro q hq
  rcases eq_or_ne q p with rfl | hne
  · refine ⟨?_, fun _ => rfl⟩
    rintro r hr rfl
    have := refsTo_of_ref hr
    omega
  · have hzero := hother q hq hne
    unfold Task.refsTo at hzero
    constructor
    · rintro r hr rfl
      have := refsTo_of_ref hr
      omega
    · intro hc
      rw [if_pos hc] at hzero
      omega

theorem Inv.ref_attached {r : Ref} (h : s.Inv) (hp : p < s.nrTasks) (hr : r ∈ (s.tasks p).refs) :
    ¬ s.Detached r.bh := by
  rintro ⟨q, hq, hv⟩
  exact (h.only_victim hq hv p hp).1 r hr rfl

/-- Two states whose heads differ in data and flags only; nothing is said about the tasks. -/
structure Flagged (s s' : Cache) : Prop where
  heads : ∀ i, s'.bh i = (s.bh i).withFlags (s'.bh i)
  hashTable : s'.hashTable = s.hashTable
  freeList : s'.freeList = s.freeList
  nrBuffers : s'.nrBuffers = s.nrBuffers
  nrTasks : s'.nrTasks = s.nrTasks

theorem Flagged.trans {u : Cache} (h : Flagged s u) (h' : Flagged u s') : Flagged s s' := by
  refine ⟨fun i => ?_, h'.hashTable.trans h.hashTable, h'.freeList.trans h.freeList, h'.nrBuffers.trans h.nrBuffers,
    h'.nrTasks.trans h.nrTasks⟩
  rw [h'.heads i, h.heads i]
  rfl

theorem Flagged.tasks (f : Nat → Task) : Flagged s { s with tasks := f } := ⟨fun _ => rfl, rfl, rfl, rfl, rfl⟩

theorem Flagged.setBh {b : BufferHead} (hb : b = (s.bh i).withFlags b) : Flagged s (s.setBh i b) := by
  refine ⟨fun a => ?_, rfl, rfl, rfl, rfl⟩
  simp only [Cache.setBh]
  rcases eq_or_ne a i with rfl | hai
  · simpa using hb
  · simp only [Function.update_of_ne hai]
    rfl

theorem Flagged.issue : Flagged s s.issue := by
  unfold Cache.issue
  split
  next =>
    split
    next => exact ⟨fun _ => rfl, rfl, rfl, rfl, rfl⟩
    next => exact ⟨fun _ => rfl, rfl, rfl, rfl, rfl⟩
  next => exact ⟨fun _ => rfl, rfl, rfl, rfl, rfl⟩

theorem Flagged.enqueue (read : Bool) : Flagged s (s.enqueue i read) := by
  have hq : Flagged s { s with queue := addRequest (s.request i read) s.queue } := ⟨fun _ => rfl, rfl, rfl, rfl, rfl⟩
  unfold Cache.enqueue
  dsimp only
  split
  next => exact hq.trans .issue
  next => exact hq

theorem Flagged.endIo {b : BufferHead} {q : List IoRequest} (hb : b = (s.bh i).withFlags b) :
    Flagged s (s.endIo i b q) := by
  have hset : Flagged s (s.setBh i { b with bLock := false }) := by
    refine .setBh ?_
    rw [hb]
    rfl
  have hq : Flagged (s.setBh i { b with bLock := false }) { s.setBh i { b with bLock := false } with queue := q } :=
    ⟨fun _ => rfl, rfl, rfl, rfl, rfl⟩
  exact (hset.trans hq).trans .issue

theorem Flagged.intr (h : s.intr = some s') : Flagged s s' ∧ s'.tasks = s.tasks := by
  have htasks : ∀ (u : Cache), u.issue.tasks = u.tasks := by
    intro u
    unfold Cache.issue
    split
    next => split <;> rfl
    next => rfl
  unfold Cache.intr at h
  split at h
  next => simp at h
  next r q hq =>
    dsimp only at h
    split at h
    next =>
      split at h
      next =>
        cases Option.some.inj h
        exact ⟨⟨(Flagged.setBh rfl).heads, rfl, rfl, rfl, rfl⟩, rfl⟩
      next =>
        cases Option.some.inj h
        exact ⟨.endIo rfl, htasks _⟩
    next =>
      have hdisk : ∀ d, Flagged s { s with disk := d } := fun d => ⟨fun _ => rfl, rfl, rfl, rfl, rfl⟩
      split at h
      next =>
        cases Option.some.inj h
        exact ⟨⟨fun _ => rfl, rfl, rfl, rfl, rfl⟩, rfl⟩
      next =>
        cases Option.some.inj h
        exact ⟨(hdisk _).trans (.endIo rfl), htasks _⟩
    next => simp at h

theorem Flagged.intrError (h : s.intrError = some s') : Flagged s s' ∧ s'.tasks = s.tasks := by
  unfold Cache.intrError at h
  split at h
  next => simp at h
  next r q hq =>
    cases Option.some.inj h
    refine ⟨.endIo rfl, ?_⟩
    unfold Cache.endIo Cache.issue
    split
    next => split <;> rfl
    next => rfl

theorem Flagged.links (h : Flagged s s') : SameLinks s s' := by
  refine ⟨fun i => ?_, fun i => ?_, fun i => ?_, fun i => ?_, h.hashTable, h.freeList, h.nrBuffers⟩
  all_goals
    rw [h.heads i]
    rfl

theorem Flagged.dev (h : Flagged s s') (i : Nat) : (s'.bh i).bDev = (s.bh i).bDev := by
  rw [h.heads i]
  rfl

theorem Flagged.blocknr (h : Flagged s s') (i : Nat) : (s'.bh i).bBlocknr = (s.bh i).bBlocknr := by
  rw [h.heads i]
  rfl

theorem Flagged.count (h : Flagged s s') (i : Nat) : (s'.bh i).bCount = (s.bh i).bCount := by
  rw [h.heads i]
  rfl

/-- Interrupts do not touch what the invariant is about. -/
theorem Inv.flagged (h : s.Inv) (hf : Flagged s s') (ht : s'.tasks = s.tasks) : s'.Inv := by
  have hD : s'.Detached = s.Detached := by
    funext i
    simp only [Detached, hf.nrTasks, ht]
  refine ⟨?_, ?_, ?_, ?_, ?_⟩
  · rw [hD]
    exact h.wf.congr hf.links fun i _ => ⟨hf.dev i, hf.blocknr i⟩
  · intro i
    rw [hf.count, hf.nrTasks, ht]
    exact h.counts i
  · intro i hi
    rw [hD] at hi
    rw [hf.count]
    exact h.alone i hi
  · intro p hp r hr
    rw [hf.nrTasks] at hp
    rw [ht] at hr
    rw [hf.nrBuffers, hf.dev, hf.blocknr]
    exact h.known p hp r hr
  · intro p hp i hi
    rw [hf.nrTasks] at hp
    rw [ht] at hi
    rw [hf.nrBuffers]
    exact h.bound p hp i hi

/-- The rest of the invariant, once the queues are known to be right: a task goes from one state to
another, and no head that is referred to changes its block. -/
theorem Inv.rebuild (h : s.Inv) (hp : p < s.nrTasks) (hwf : s'.Wf s'.Detached) (hNB : s'.nrBuffers = s.nrBuffers)
    (hNT : s'.nrTasks = s.nrTasks) (ht : s'.tasks = Function.update s.tasks p t)
    (hcount : ∀ i, (s'.bh i).bCount + (s.tasks p).refsTo i = (s.bh i).bCount + t.refsTo i)
    (halone : ∀ i, s'.Detached i → (s'.bh i).bCount = 1)
    (hkeep : ∀ q < s.nrTasks, ∀ r ∈ (s.tasks q).refs,
      (s'.bh r.bh).bDev = (s.bh r.bh).bDev ∧ (s'.bh r.bh).bBlocknr = (s.bh r.bh).bBlocknr)
    (hknown : ∀ r ∈ t.refs, r.bh < s.nrBuffers ∧ (s'.bh r.bh).bDev = r.dev ∧ (s'.bh r.bh).bBlocknr = r.block)
    (hbound : ∀ i, t.pc.counted = some i ∨ t.pc.scanned = some i → i < s.nrBuffers) : s'.Inv := by
  refine ⟨hwf, ?_, halone, ?_, ?_⟩
  · intro i
    have hsum := Counting.sum_update_add (mem_range.mpr hp) (fun t : Task => t.refsTo i) s.tasks t
    have hold := h.counts i
    have hc := hcount i
    rw [hNT, ht]
    omega
  · intro q hq r hr
    rw [hNT] at hq
    rw [hNB]
    rw [ht] at hr
    rcases eq_or_ne q p with rfl | hne
    · exact hknown r (by simpa using hr)
    · have hr' : r ∈ (s.tasks q).refs := by simpa [hne] using hr
      rw [(hkeep q hq r hr').1, (hkeep q hq r hr').2]
      exact h.known q hq r hr'
  · intro q hq i hi
    rw [hNT] at hq
    rw [hNB]
    rw [ht] at hi
    rcases eq_or_ne q p with rfl | hne
    · exact hbound i (by simpa using hi)
    · exact h.bound q hq i (by simpa [hne] using hi)

/-- A task moves and takes or gives back references; no head changes its block or its place in the queues. -/
theorem Inv.change (h : s.Inv) (hp : p < s.nrTasks) (hl : SameLinks s s')
    (hid : ∀ i, (s'.bh i).bDev = (s.bh i).bDev ∧ (s'.bh i).bBlocknr = (s.bh i).bBlocknr)
    (hN : s'.nrTasks = s.nrTasks) (ht : s'.tasks = Function.update s.tasks p t)
    (hcount : ∀ i, (s'.bh i).bCount + (s.tasks p).refsTo i = (s.bh i).bCount + t.refsTo i)
    (hv : t.pc.victim = (s.tasks p).pc.victim) (halone : ∀ i, s.Detached i → (s'.bh i).bCount = (s.bh i).bCount)
    (hknown : ∀ r ∈ t.refs, r.bh < s.nrBuffers ∧ (s.bh r.bh).bDev = r.dev ∧ (s.bh r.bh).bBlocknr = r.block)
    (hbound : ∀ i, t.pc.counted = some i ∨ t.pc.scanned = some i → i < s.nrBuffers) : s'.Inv := by
  have hvictim : ∀ q, (s'.tasks q).pc.victim = (s.tasks q).pc.victim := by
    intro q
    rw [ht]
    rcases eq_or_ne q p with rfl | hne
    · simpa using hv
    · simp [hne]
  have hD : s'.Detached = s.Detached := by
    funext i
    simp only [Detached, hN, hvictim]
  refine h.rebuild hp ?_ hl.nrBuffers hN ht hcount ?_ (fun q _ r _ => hid r.bh) ?_ hbound
  · rw [hD]
    exact h.wf.congr hl fun i _ => hid i
  · intro i hi
    rw [hD] at hi
    rw [halone i hi]
    exact h.alone i hi
  · intro r hr
    rw [(hid r.bh).1, (hid r.bh).2]
    exact hknown r hr

end Cache

end RheeKernel
