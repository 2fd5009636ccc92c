import Mathlib.Data.List.Perm.Subperm
import RheeKernel.BufferCache
import RheeKernel.LinkedDouble

namespace RheeKernel

open Linked (Path DPath Ring)

namespace Cache

/-- The two queues through the buffer heads, `D` being the heads that a `getblk` has taken out. -/
structure Wf (s : Cache) (D : Nat → Prop) : Prop where
  ring : ∃ l f, Ring (fun i => (s.bh i).bNextFree) (fun i => (s.bh i).bPrevFree) l ∧ s.freeList = some f ∧ f ∈ l ∧
    ∀ i, i ∈ l ↔ i < s.nrBuffers ∧ ¬ D i
  chains : ∀ k, ∃ l, DPath (fun i => (s.bh i).bNext) (fun i => (s.bh i).bPrev) none (s.hashTable k) l ∧
    ∀ i, i ∈ l ↔ i < s.nrBuffers ∧ ¬ D i ∧ (s.bh i).bDev ≠ 0 ∧ hashfn (s.bh i).bDev (s.bh i).bBlocknr = k
  unhashed : ∀ i < s.nrBuffers, ¬ D i → (s.bh i).bDev = 0 → (s.bh i).bNext = none ∧ (s.bh i).bPrev = none
  inside : ∀ i < s.nrBuffers, ∃ n < s.nrBuffers, (s.bh i).bNextFree = some n
  below : ∀ i, D i → i < s.nrBuffers

/-- Everything about a head but the links. -/
structure SameLinks (s s' : Cache) : Prop where
  nextFree : ∀ i, (s'.bh i).bNextFree = (s.bh i).bNextFree
  prevFree : ∀ i, (s'.bh i).bPrevFree = (s.bh i).bPrevFree
  next : ∀ i, (s'.bh i).bNext = (s.bh i).bNext
  prev : ∀ i, (s'.bh i).bPrev = (s.bh i).bPrev
  hashTable : s'.hashTable = s.hashTable
  freeList : s'.freeList = s.freeList
  nrBuffers : s'.nrBuffers = s.nrBuffers

variable {s s' : Cache} {D : Nat → Prop} {i : Nat}

theorem Wf.congr (h : s.Wf D) (hl : SameLinks s s')
    (hid : ∀ i, ¬ D i → (s'.bh i).bDev = (s.bh i).bDev ∧ (s'.bh i).bBlocknr = (s.bh i).bBlocknr) : s'.Wf D := by
  have hnf : (fun i => (s'.bh i).bNextFree) = fun i => (s.bh i).bNextFree := funext hl.nextFree
  have hpf : (fun i => (s'.bh i).bPrevFree) = fun i => (s.bh i).bPrevFree := funext hl.prevFree
  have hn : (fun i => (s'.bh i).bNext) = fun i => (s.bh i).bNext := funext hl.next
  have hp : (fun i => (s'.bh i).bPrev) = fun i => (s.bh i).bPrev := funext hl.prev
  refine ⟨?_, ?_, ?_, ?_, ?_⟩
  · rw [hnf, hpf, hl.freeList, hl.nrBuffers]
    exact h.ring
  · intro k
    obtain ⟨l, hpath, hmem⟩ := h.chains k
    refine ⟨l, by rw [hn, hp, hl.hashTable]; exact hpath, ?_⟩
    intro i
    rw [hmem i, hl.nrBuffers]
    constructor
    · rintro ⟨hi, hD, hrest⟩
      rw [(hid i hD).1, (hid i hD).2]
      exact ⟨hi, hD, hrest⟩
    · rintro ⟨hi, hD, hrest⟩
      rw [(hid i hD).1, (hid i hD).2] at hrest
      exact ⟨hi, hD, hrest⟩
  · intro i hi hD hdev
    rw [hl.nrBuffers] at hi
    rw [(hid i hD).1] at hdev
    rw [hl.next, hl.prev]
    exact h.unhashed i hi hD hdev
  · intro i hi
    rw [hl.nrBuffers] at hi ⊢
    rw [hl.nextFree]
    exact h.inside i hi
  · intro i hi
    rw [hl.nrBuffers]
    exact h.below i hi

@[simp] theorem onHead_bh (a : Option Nat) (f : BufferHead → BufferHead) (x : Nat) :
    (s.onHead a f).bh x = if a = some x then f (s.bh x) else s.bh x := by
  cases a with
  | none => simp [onHead]
  | some c =>
    rcases eq_or_ne x c with rfl | hx
    · simp [onHead, setBh]
    · simp [onHead, setBh, hx, hx.symm]

@[simp] theorem onHead_hashTable (a : Option Nat) (f : BufferHead → BufferHead) :
    (s.onHead a f).hashTable = s.hashTable := by
  cases a <;> rfl

@[simp] theorem onHead_freeList (a : Option Nat) (f : BufferHead → BufferHead) :
    (s.onHead a f).freeList = s.freeList := by
  cases a <;> rfl

/-- Two states that differ in the links only. -/
structure Relinked (s s' : Cache) : Prop where
  heads : ∀ a, s'.bh a = (s.bh a).withLinks (s'.bh a)
  rest : s' = { s with bh := s'.bh, hashTable := s'.hashTable, freeList := s'.freeList }

/-- What `remove_from_queues` does to the links. -/
structure Unlinked (s s' : Cache) (i : Nat) : Prop where
  relinked : Relinked s s'
  next : ∀ a, (s'.bh a).bNext = if (s.bh i).bPrev = some a then (s.bh i).bNext else (s.bh a).bNext
  prev : ∀ a, (s'.bh a).bPrev = if (s.bh i).bNext = some a then (s.bh i).bPrev else (s.bh a).bPrev
  nextFree : ∀ a, (s'.bh a).bNextFree = if (s.bh i).bPrevFree = some a then (s.bh i).bNextFree else (s.bh a).bNextFree
  prevFree : ∀ a, (s'.bh a).bPrevFree = if (s.bh i).bNextFree = some a then (s.bh i).bPrevFree else (s.bh a).bPrevFree
  hashTable : ∀ k, s'.hashTable k = if k = hashfn (s.bh i).bDev (s.bh i).bBlocknr ∧ s.hashTable k = some i
    then (s.bh i).bNext else s.hashTable k
  freeList : s'.freeList = if s.freeList = some i then (s.bh i).bNextFree else s.freeList

theorem removeFromQueues_spec (hp : (s.bh i).bPrevFree ≠ none) (hn : (s.bh i).bNextFree ≠ none) :
    ∃ s', removeFromQueues s i = some s' ∧ Unlinked s s' i := by
  simp only [removeFromQueues, hp, hn, or_self, if_false]
  refine ⟨_, rfl, ⟨fun a => ?_, ?_⟩, fun a => ?_, fun a => ?_, fun a => ?_, fun a => ?_, fun k => ?_, ?_⟩
  · simp only [onHead_bh, BufferHead.withLinks]
    split <;> split <;> split <;> split <;> rfl
  · cases (s.bh i).bNext <;> cases (s.bh i).bPrev <;> cases (s.bh i).bPrevFree <;> cases (s.bh i).bNextFree <;> rfl
  · simp only [onHead_bh]
    split <;> split <;> split <;> split <;> rfl
  · simp only [onHead_bh]
    split <;> split <;> split <;> split <;> rfl
  · simp only [onHead_bh]
    split <;> split <;> split <;> split <;> rfl
  · simp only [onHead_bh]
    split <;> split <;> split <;> split <;> rfl
  · simp only [onHead_hashTable, Function.update_apply]
    split
    next hk => simp [hk]
    next hk => simp [hk]
  · simp only [onHead_freeList]

theorem removeFromQueues_relinked (h : removeFromQueues s i = some s') : Relinked s s' := by
  have hnull : ¬((s.bh i).bPrevFree = none ∨ (s.bh i).bNextFree = none) := by
    intro hnull
    simp [removeFromQueues, hnull] at h
  obtain ⟨u, hu, hun⟩ := removeFromQueues_spec (fun hp => hnull (Or.inl hp)) (fun hn => hnull (Or.inr hn))
  cases Option.some.inj (h.symm.trans hu)
  exact hun.relinked

theorem Relinked.onHead {u : Cache} (h : Relinked s u) (a : Option Nat) (f : BufferHead → BufferHead)
    (hf : ∀ b, f b = b.withLinks (f b)) : Relinked s (u.onHead a f) := by
  refine ⟨fun c => ?_, ?_⟩
  · simp only [onHead_bh]
    split
    next =>
      rw [hf (u.bh c), h.heads c]
      rfl
    next => exact h.heads c
  · rw [h.rest]
    cases a <;> rfl

theorem insertIntoQueues_relinked (h : insertIntoQueues s i = some s') : Relinked s s' := by
  have hrefl : Relinked s s := ⟨fun _ => rfl, rfl⟩
  unfold insertIntoQueues at h
  split at h
  next => simp at h
  next f hf =>
    dsimp only at h
    split at h
    next => simp at h
    next =>
      have hfree := (((hrefl.onHead (some i) (fun h => { h with bNextFree := some f, bPrevFree := (s.bh f).bPrevFree })
        fun _ => rfl).onHead (s.bh f).bPrevFree (fun h => { h with bNextFree := some i }) fun _ => rfl).onHead
        (some f) (fun h => { h with bPrevFree := some i }) fun _ => rfl).onHead
        (some i) (fun h => { h with bPrev := none, bNext := none }) fun _ => rfl
      split at h
      next =>
        cases Option.some.inj h
        exact hfree
      next =>
        cases Option.some.inj h
        refine Relinked.onHead ?_ _ _ fun _ => rfl
        have hfirst := fun c => hfree.onHead (some i) (fun h => { h with bNext := c }) fun _ => rfl
        exact ⟨(hfirst _).heads, by rw [(hfirst _).rest]⟩

theorem Relinked.dev (h : Relinked s s') (a : Nat) : (s'.bh a).bDev = (s.bh a).bDev := by
  rw [h.heads a]
  rfl

theorem Relinked.blocknr (h : Relinked s s') (a : Nat) : (s'.bh a).bBlocknr = (s.bh a).bBlocknr := by
  rw [h.heads a]
  rfl

theorem Relinked.nrBuffers (h : Relinked s s') : s'.nrBuffers = s.nrBuffers := by
  rw [h.rest]

/-- The neighbours of a head in its hash chain are in the same chain. -/
theorem Wf.neighbour {a : Nat} (h : s.Wf D) (hi : i < s.nrBuffers) (hD : ¬ D i)
    (ha : (s.bh i).bPrev = some a ∨ (s.bh i).bNext = some a) :
    (s.bh a).bDev ≠ 0 ∧ hashfn (s.bh a).bDev (s.bh a).bBlocknr = hashfn (s.bh i).bDev (s.bh i).bBlocknr := by
  have hdev : (s.bh i).bDev ≠ 0 := by
    intro hdev
    obtain ⟨hn, hp⟩ := h.unhashed i hi hD hdev
    simp [hn, hp] at ha
  obtain ⟨l, hpath, hmem⟩ := h.chains (hashfn (s.bh i).bDev (s.bh i).bBlocknr)
  have hil : i ∈ l := (hmem i).mpr ⟨hi, hD, hdev, rfl⟩
  have hal : a ∈ l := by
    rcases ha with hp | hn
    · rcases hpath.prev_mem hil hp with hb | ha
      · simp at hb
      · exact ha
    · exact hpath.path.next_mem hil hn
  obtain ⟨-, -, hadev, hak⟩ := (hmem a).mp hal
  exact ⟨hadev, hak⟩

theorem Wf.nextFree (h : s.Wf D) (hi : i < s.nrBuffers) : (s.bh i).bNextFree ≠ none := by
  obtain ⟨n, -, hn⟩ := h.inside i hi
  simp [hn]

theorem Wf.prevFree (h : s.Wf D) (hi : i < s.nrBuffers) (hD : ¬ D i) : (s.bh i).bPrevFree ≠ none := by
  obtain ⟨l, f, hring, -, -, hmem⟩ := h.ring
  obtain ⟨y, -, hy⟩ := hring.prev_mem ((hmem i).mpr ⟨hi, hD⟩)
  simp [hy]

/-- A head that is not the only one is taken out of both queues. -/
theorem Wf.remove (h : s.Wf D) (hi : i < s.nrBuffers) (hD : ¬ D i) (hmore : (s.bh i).bNextFree ≠ some i)
    (hu : Unlinked s s' i) : s'.Wf fun a => D a ∨ a = i := by
  have hN := hu.relinked.nrBuffers
  refine ⟨?_, ?_, ?_, ?_, ?_⟩
  · obtain ⟨l, f, hring, hf, hfl, hmem⟩ := h.ring
    have hil : i ∈ l := (hmem i).mpr ⟨hi, hD⟩
    obtain ⟨m, hm, hmm⟩ : ∃ m, Ring (fun a => (s'.bh a).bNextFree) (fun a => (s'.bh a).bPrevFree) m ∧
        ∀ c, c ∈ m ↔ c ∈ l ∧ c ≠ i := hring.remove hil hmore (fun c hc => by rw [hu.nextFree, if_neg hc]) (fun c hc => by rw [hu.nextFree, if_pos hc])
      (fun c hc => by rw [hu.prevFree, if_neg hc]) (fun c hc => by rw [hu.prevFree, if_pos hc])
    obtain ⟨n, hnl, hn⟩ := hring.next_mem hil
    have hfree : ∃ f', s'.freeList = some f' ∧ f' ∈ m := by
      rw [hu.freeList]
      split
      next => exact ⟨n, hn, (hmm n).mpr ⟨hnl, fun he => hmore (he ▸ hn)⟩⟩
      next hne => exact ⟨f, hf, (hmm f).mpr ⟨hfl, fun he => hne (he ▸ hf)⟩⟩
    obtain ⟨f', hf', hfm⟩ := hfree
    refine ⟨m, f', hm, hf', hfm, ?_⟩
    intro a
    rw [hmm a, hmem a, hN]
    tauto
  · intro k
    obtain ⟨l, hpath, hmem⟩ := h.chains k
    by_cases hk : (s.bh i).bDev ≠ 0 ∧ hashfn (s.bh i).bDev (s.bh i).bBlocknr = k
    · have hil : i ∈ l := (hmem i).mpr ⟨hi, hD, hk⟩
      obtain ⟨l', hl', hmem'⟩ : ∃ l', DPath (fun a => (s'.bh a).bNext) (fun a => (s'.bh a).bPrev) none
          (if s.hashTable k = some i then (s.bh i).bNext else s.hashTable k) l' ∧ ∀ c, c ∈ l' ↔ c ∈ l ∧ c ≠ i :=
        hpath.remove hil (fun c hc => by rw [hu.next, if_neg hc]) (fun c hc => by rw [hu.next, if_pos hc])
        (fun c hc => by rw [hu.prev, if_neg hc]) (fun c hc => by rw [hu.prev, if_pos hc])
      refine ⟨l', ?_, ?_⟩
      · rw [hu.hashTable k]
        simpa [hk.2] using hl'
      · intro a
        rw [hmem' a, hmem a, hN, hu.relinked.dev, hu.relinked.blocknr]
        tauto
    · have hil : i ∉ l := fun hm => hk ((hmem i).mp hm).2.2
      have hout : ∀ a ∈ l, (s.bh i).bPrev ≠ some a ∧ (s.bh i).bNext ≠ some a := by
        intro a ha
        obtain ⟨-, -, hadev, hak⟩ := (hmem a).mp ha
        have hnot : ¬ ((s.bh i).bPrev = some a ∨ (s.bh i).bNext = some a) := by
          intro hor
          obtain ⟨-, heq⟩ := h.neighbour hi hD hor
          refine hk ⟨?_, heq.symm.trans hak⟩
          intro hdev
          obtain ⟨hn, hp⟩ := h.unhashed i hi hD hdev
          simp [hn, hp] at hor
        exact ⟨fun hp => hnot (Or.inl hp), fun hn => hnot (Or.inr hn)⟩
      have hhead : s'.hashTable k = s.hashTable k := by
        rw [hu.hashTable k, if_neg]
        rintro ⟨-, hki⟩
        have := hpath.path.head_eq
        rw [hki] at this
        exact hil (List.mem_of_mem_head? this.symm)
      refine ⟨l, ?_, ?_⟩
      · rw [hhead]
        refine hpath.congr (fun a ha => ?_) (fun a ha => ?_)
        · rw [hu.next, if_neg (hout a ha).1]
        · rw [hu.prev, if_neg (hout a ha).2]
      · intro a
        rw [hmem a, hN, hu.relinked.dev, hu.relinked.blocknr]
        constructor
        · rintro ⟨ha, haD, hrest⟩
          refine ⟨ha, ?_, hrest⟩
          rintro (hd | rfl)
          · exact haD hd
          · exact hk hrest
        · rintro ⟨ha, haD, hrest⟩
          exact ⟨ha, fun hd => haD (Or.inl hd), hrest⟩
  · intro a ha haD hdev
    rw [hN] at ha
    rw [hu.relinked.dev] at hdev
    have hout : ¬ ((s.bh i).bPrev = some a ∨ (s.bh i).bNext = some a) :=
      fun hor => (h.neighbour hi hD hor).1 hdev
    rw [hu.next, hu.prev, if_neg (fun hp => hout (Or.inl hp)), if_neg (fun hn => hout (Or.inr hn))]
    exact h.unhashed a ha (fun hd => haD (Or.inl hd)) hdev
  · intro a ha
    rw [hN] at ha ⊢
    rw [hu.nextFree]
    split
    next => exact h.inside i hi
    next => exact h.inside a ha
  · rintro a (ha | rfl)
    · rw [hN]
      exact h.below a ha
    · rw [hN]
      exact hi

/-- What `insert_into_queues` does to the links, `f` being the first of the free list and `z` the last. -/
structure Inserted (s s' : Cache) (i f z : Nat) : Prop where
  relinked : Relinked s s'
  next : ∀ a, (s'.bh a).bNext = if a = i then
      if (s.bh i).bDev = 0 then none else s.hashTable (hashfn (s.bh i).bDev (s.bh i).bBlocknr)
    else (s.bh a).bNext
  prev : ∀ a, (s'.bh a).bPrev = if a = i then none
    else if (s.bh i).bDev ≠ 0 ∧ s.hashTable (hashfn (s.bh i).bDev (s.bh i).bBlocknr) = some a then some i
    else (s.bh a).bPrev
  nextFree : ∀ a, (s'.bh a).bNextFree = if a = i then some f else if a = z then some i else (s.bh a).bNextFree
  prevFree : ∀ a, (s'.bh a).bPrevFree = if a = i then some z else if a = f then some i else (s.bh a).bPrevFree
  hashTable : ∀ k, s'.hashTable k = if (s.bh i).bDev ≠ 0 ∧ k = hashfn (s.bh i).bDev (s.bh i).bBlocknr
    then some i else s.hashTable k
  freeList : s'.freeList = s.freeList

theorem insertIntoQueues_spec {f z : Nat} (hf : s.freeList = some f) (hz : (s.bh f).bPrevFree = some z)
    (hfi : f ≠ i) (hzi : z ≠ i) (hk : ∀ k, s.hashTable k ≠ some i) :
    ∃ s', insertIntoQueues s i = some s' ∧ Inserted s s' i f z := by
  simp only [insertIntoQueues, hf, hz, reduceCtorEq, if_false, onHead_bh, onHead_hashTable, Option.some.injEq, hfi, hzi,
    if_true]
  split
  next hd =>
    refine ⟨_, rfl, ⟨fun a => ?_, rfl⟩, fun a => ?_, fun a => ?_, fun a => ?_, fun a => ?_, fun k => ?_, rfl⟩
    · simp only [onHead_bh, BufferHead.withLinks, Option.some.injEq]
      split <;> split <;> split <;> rfl
    · rcases eq_or_ne a i with rfl | hai
      · simp [hd]
      · simp only [onHead_bh, Option.some.injEq, hai, hai.symm, if_false]
        split <;> split <;> rfl
    · rcases eq_or_ne a i with rfl | hai
      · simp
      · simp only [onHead_bh, Option.some.injEq, hai, hai.symm, hd, ne_eq, not_true_eq_false, false_and, if_false]
        split <;> split <;> rfl
    · rcases eq_or_ne a i with rfl | hai
      · simp [hfi, hzi]
      · simp only [onHead_bh, Option.some.injEq, hai, hai.symm, if_false, @eq_comm _ a]
        split <;> split <;> rfl
    · rcases eq_or_ne a i with rfl | hai
      · simp [hfi, hzi]
      · simp only [onHead_bh, Option.some.injEq, hai, hai.symm, if_false, @eq_comm _ a]
        split <;> split <;> rfl
    · simp [hd]
  next hd =>
    refine ⟨_, rfl, ⟨fun a => ?_, ?_⟩, fun a => ?_, fun a => ?_, fun a => ?_, fun a => ?_, fun k => ?_, ?_⟩
    · simp only [onHead_bh, BufferHead.withLinks, Option.some.injEq]
      split <;> split <;> split <;> split <;> rfl
    · cases s.hashTable (hashfn (s.bh i).bDev (s.bh i).bBlocknr) <;> rfl
    · rcases eq_or_ne a i with rfl | hai
      · simp [hd, hk]
      · simp only [onHead_bh, Option.some.injEq, hai, hai.symm, if_false]
        split <;> split <;> split <;> rfl
    · rcases eq_or_ne a i with rfl | hai
      · simp [hk]
      · simp only [onHead_bh, Option.some.injEq, hai, hai.symm, hd, ne_eq, not_false_eq_true, true_and, if_false]
        split <;> split <;> split <;> rfl
    · rcases eq_or_ne a i with rfl | hai
      · simp [hfi, hzi, hk]
      · simp only [onHead_bh, Option.some.injEq, hai, hai.symm, if_false, @eq_comm _ a]
        split <;> split <;> split <;> rfl
    · rcases eq_or_ne a i with rfl | hai
      · simp [hfi, hzi, hk]
      · simp only [onHead_bh, Option.some.injEq, hai, hai.symm, if_false, @eq_comm _ a]
        split <;> split <;> split <;> rfl
    · simp only [onHead_hashTable, Function.update_apply, hd, ne_eq, not_false_eq_true, true_and]
    · simp only [onHead_freeList]

/-- A head that was taken out comes back, in the chain of the identity it now has. -/
theorem Wf.insert (h : s.Wf D) (hD : D i) : ∃ s', insertIntoQueues s i = some s' ∧ Relinked s s' ∧
    s'.Wf fun a => D a ∧ a ≠ i := by
  have hi := h.below i hD
  obtain ⟨l, f, hring, hf, hfl, hmem⟩ := h.ring
  obtain ⟨z, hzl, hz⟩ := hring.prev_mem hfl
  have hil : i ∉ l := fun hm => ((hmem i).mp hm).2 hD
  have hfi : f ≠ i := fun he => hil (he ▸ hfl)
  have hzi : z ≠ i := fun he => hil (he ▸ hzl)
  have hk : ∀ k, s.hashTable k ≠ some i := by
    intro k hki
    obtain ⟨lk, hpath, hmemk⟩ := h.chains k
    have := hpath.path.head_eq
    rw [hki] at this
    exact ((hmemk i).mp (List.mem_of_mem_head? this.symm)).2.1 hD
  obtain ⟨s', hs', hins⟩ := insertIntoQueues_spec hf hz hfi hzi hk
  have hN := hins.relinked.nrBuffers
  refine ⟨s', hs', hins.relinked, ?_, ?_, ?_, ?_, ?_⟩
  · obtain ⟨m, hm, hmm⟩ : ∃ m, Ring (fun a => (s'.bh a).bNextFree) (fun a => (s'.bh a).bPrevFree) m ∧
        ∀ c, c ∈ m ↔ c ∈ l ∨ c = i := by
      refine hring.insert hfl hil ?_ ?_ ?_ ?_ ?_ ?_
      · rw [hins.nextFree, if_pos rfl]
      · rw [hins.prevFree, if_pos rfl, hz]
      · rw [hins.prevFree, if_neg hfi, if_pos rfl]
      · intro c hc
        cases Option.some.inj (hz.symm.trans hc)
        rw [hins.nextFree, if_neg hzi, if_pos rfl]
      · intro c hci hcz
        have hne : c ≠ z := fun he => hcz (he ▸ hz)
        rw [hins.nextFree, if_neg hci, if_neg hne]
      · intro c hci hcf
        rw [hins.prevFree, if_neg hci, if_neg hcf]
    refine ⟨m, f, hm, hins.freeList.trans hf, (hmm f).mpr (Or.inl hfl), ?_⟩
    intro a
    rw [hmm a, hmem a, hN]
    constructor
    · rintro (⟨ha, haD⟩ | rfl)
      · exact ⟨ha, fun hd => haD hd.1⟩
      · exact ⟨hi, fun hd => hd.2 rfl⟩
    · rintro ⟨ha, haD⟩
      by_cases hai : a = i
      · exact Or.inr hai
      · exact Or.inl ⟨ha, fun hd => haD ⟨hd, hai⟩⟩
  · intro k
    obtain ⟨lk, hpath, hmemk⟩ := h.chains k
    have hilk : i ∉ lk := fun hm => ((hmemk i).mp hm).2.1 hD
    have hne : ∀ a ∈ lk, a ≠ i := fun a ha he => hilk (he ▸ ha)
    by_cases hki : (s.bh i).bDev ≠ 0 ∧ k = hashfn (s.bh i).bDev (s.bh i).bBlocknr
    · refine ⟨i :: lk, ?_, ?_⟩
      · rw [hins.hashTable, if_pos hki]
        refine hpath.push hilk ?_ ?_ ?_ ?_ ?_
        · rw [hins.prev, if_pos rfl]
        · rw [hins.next, if_pos rfl, if_neg hki.1, ← hki.2]
        · intro a ha
          have hai : a ≠ i := fun he => hk k (he ▸ ha)
          rw [hins.prev, if_neg hai, if_pos ⟨hki.1, by rw [← hki.2]; exact ha⟩]
        · intro a hai
          rw [hins.next, if_neg hai]
        · intro a hai hka
          rw [hins.prev, if_neg hai, if_neg]
          rintro ⟨-, hka'⟩
          rw [← hki.2] at hka'
          exact hka hka'
      · intro a
        rw [List.mem_cons, hmemk a, hN, hins.relinked.dev, hins.relinked.blocknr]
        constructor
        · rintro (rfl | ⟨ha, haD, hrest⟩)
          · exact ⟨hi, fun hd => hd.2 rfl, hki.1, hki.2.symm⟩
          · exact ⟨ha, fun hd => haD hd.1, hrest⟩
        · rintro ⟨ha, haD, hrest⟩
          by_cases hai : a = i
          · exact Or.inl hai
          · exact Or.inr ⟨ha, fun hd => haD ⟨hd, hai⟩, hrest⟩
    · refine ⟨lk, ?_, ?_⟩
      · rw [hins.hashTable, if_neg hki]
        refine hpath.congr (fun a ha => ?_) (fun a ha => ?_)
        · rw [hins.next, if_neg (hne a ha)]
        · rw [hins.prev, if_neg (hne a ha), if_neg]
          rintro ⟨hdev, hfirst⟩
          obtain ⟨l0, hpath0, hmem0⟩ := h.chains (hashfn (s.bh i).bDev (s.bh i).bBlocknr)
          have hhead := hpath0.path.head_eq
          rw [hfirst] at hhead
          have ha0 := (hmem0 a).mp (List.mem_of_mem_head? hhead.symm)
          exact hki ⟨hdev, ((hmemk a).mp ha).2.2.2.symm.trans ha0.2.2.2⟩
      · intro a
        rw [hmemk a, hN, hins.relinked.dev, hins.relinked.blocknr]
        constructor
        · rintro ⟨ha, haD, hrest⟩
          exact ⟨ha, fun hd => haD hd.1, hrest⟩
        · rintro ⟨ha, haD, hrest⟩
          refine ⟨ha, fun hd => haD ⟨hd, ?_⟩, hrest⟩
          rintro rfl
          exact hki ⟨hrest.1, hrest.2.symm⟩
  · intro a ha haD hdev
    rw [hN] at ha
    rw [hins.relinked.dev] at hdev
    rcases eq_or_ne a i with rfl | hai
    · rw [hins.next, hins.prev, if_pos rfl, if_pos rfl, if_pos hdev]
      exact ⟨rfl, rfl⟩
    · have hold := h.unhashed a ha (fun hd => haD ⟨hd, hai⟩) hdev
      rw [hins.next, hins.prev, if_neg hai, if_neg hai, if_neg]
      · exact hold
      · rintro ⟨-, hfirst⟩
        obtain ⟨l0, hpath0, hmem0⟩ := h.chains (hashfn (s.bh i).bDev (s.bh i).bBlocknr)
        have hhead := hpath0.path.head_eq
        rw [hfirst] at hhead
        exact ((hmem0 a).mp (List.mem_of_mem_head? hhead.symm)).2.2.1 hdev
  · intro a ha
    rw [hN] at ha ⊢
    rw [hins.nextFree]
    split
    next => exact ⟨f, ((hmem f).mp hfl).1, rfl⟩
    next =>
      split
      next => exact ⟨i, hi, rfl⟩
      next => exact h.inside a ha
  · intro a ha
    rw [hN]
    exact h.below a ha.1

theorem findFrom_some {dev block n a : Nat} {start : Option Nat} {l : List Nat}
    (h : Path (fun i => (s.bh i).bNext) start l) (hf : findFrom s dev block n start = some a) :
    a ∈ l ∧ (s.bh a).bDev = dev ∧ (s.bh a).bBlocknr = block := by
  induction l generalizing start n with
  | nil =>
    cases h
    cases n <;> simp [findFrom] at hf
  | cons c l ih =>
    obtain ⟨rfl, hl⟩ := h
    cases n with
    | zero => simp [findFrom] at hf
    | succ n =>
      simp only [findFrom] at hf
      split at hf
      next hc =>
        cases Option.some.inj hf
        exact ⟨by simp, hc⟩
      next =>
        obtain ⟨ha, hm⟩ := ih hl hf
        exact ⟨by simp [ha], hm⟩

theorem findFrom_none {dev block n : Nat} {start : Option Nat} {l : List Nat}
    (h : Path (fun i => (s.bh i).bNext) start l) (hn : l.length ≤ n) (hf : findFrom s dev block n start = none) :
    ∀ a ∈ l, ¬ ((s.bh a).bDev = dev ∧ (s.bh a).bBlocknr = block) := by
  induction l generalizing start n with
  | nil => simp
  | cons c l ih =>
    obtain ⟨rfl, hl⟩ := h
    cases n with
    | zero => simp at hn
    | succ n =>
      simp only [findFrom] at hf
      split at hf
      next => simp at hf
      next hc =>
        intro a ha
        rcases List.mem_cons.mp ha with rfl | ha
        · exact hc
        · exact ih hl (by simpa using hn) hf a ha

/-- `find_buffer` returns a head of the queues that stands for the block. -/
theorem Wf.findBuffer_some {dev block a : Nat} (h : s.Wf D) (hf : findBuffer s dev block = some a) :
    a < s.nrBuffers ∧ ¬ D a ∧ (s.bh a).bDev = dev ∧ (s.bh a).bBlocknr = block ∧ dev ≠ 0 := by
  obtain ⟨l, hpath, hmem⟩ := h.chains (hashfn dev block)
  obtain ⟨hal, hdev, hblock⟩ := findFrom_some hpath.path hf
  obtain ⟨ha, haD, hne, -⟩ := (hmem a).mp hal
  exact ⟨ha, haD, hdev, hblock, hdev ▸ hne⟩

/-- and it only fails when there is none. -/
theorem Wf.findBuffer_none {dev block a : Nat} (h : s.Wf D) (hf : findBuffer s dev block = none)
    (ha : a < s.nrBuffers) (haD : ¬ D a) (hne : dev ≠ 0) : ¬ ((s.bh a).bDev = dev ∧ (s.bh a).bBlocknr = block) := by
  rintro ⟨rfl, rfl⟩
  obtain ⟨l, hpath, hmem⟩ := h.chains (hashfn (s.bh a).bDev (s.bh a).bBlocknr)
  have hlen : l.length ≤ s.nrBuffers := by
    have hsub : l ⊆ List.range s.nrBuffers := fun c hc => List.mem_range.mpr ((hmem c).mp hc).1
    simpa using (List.subperm_of_subset hpath.path.nodup hsub).length_le
  exact findFrom_none hpath.path hlen hf a ((hmem a).mpr ⟨ha, haD, hne, rfl⟩) ⟨rfl, rfl⟩

end Cache

end RheeKernel
