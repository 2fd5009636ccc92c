import RheeKernel.BufferUnique

namespace RheeKernel

open Finset

def Loop.slot (l : Loop) : Option (Nat × Bool) :=
  match l.pos with
  | .slot => some (l.i, false)
  | _ => none

/-- The buffer for which a task is to make a request, and whether it is to be read. -/
def Pc.slot : Pc → Option (Nat × Bool)
  | .readSlot i => some (i, true)
  | .evict _ _ _ _ l => l.slot
  | .sync l => l.slot
  | _ => none

/-- The buffer that a task is reading. -/
def Pc.reads : Pc → Option Nat
  | .readSlot i => some i
  | .readIo i => some i
  | _ => none

def Pc.slotsOn (pc : Pc) (i : Nat) : Nat := if pc.slot.map Prod.fst = some i then 1 else 0

def IoRequest.read (r : IoRequest) : Bool := decide (r.cmd = .winRead)

theorem insertAfter_perm (req tmp : IoRequest) (q : List IoRequest) : (insertAfter req tmp q).Perm (req :: q) := by
  induction q generalizing tmp with
  | nil => exact .refl _
  | cons n q ih =>
    unfold insertAfter
    split
    next => exact .refl _
    next => exact ((ih n).cons n).trans (.swap req n q)

theorem addRequest_perm (req : IoRequest) (q : List IoRequest) : (addRequest req q).Perm (req :: q) := by
  match q with
  | [] => exact .refl _
  | [first] => exact .swap req first []
  | first :: tmp :: q =>
    have hrest : (tmp :: insertAfter req tmp q).Perm (req :: tmp :: q) :=
      ((insertAfter_perm req tmp q).cons tmp).trans (.swap req tmp q)
    exact (hrest.cons first).trans (.swap req first (tmp :: q))

/-- The request that is being served stays at the head. -/
theorem addRequest_cons (req first : IoRequest) (q : List IoRequest) :
    ∃ q', addRequest req (first :: q) = first :: q' ∧ q'.Perm (req :: q) := by
  cases q with
  | nil => exact ⟨[req], rfl, .refl _⟩
  | cons tmp q => exact ⟨_, rfl, ((insertAfter_perm req tmp q).cons tmp).trans (.swap req tmp q)⟩

namespace Cache

/-- A transfer of the buffer has been started and has not ended. -/
def Pending (s : Cache) (i : Nat) (read : Bool) : Prop :=
  (∃ r ∈ s.queue, r.bh = i ∧ r.read = read) ∨ ∃ p < s.nrTasks, (s.tasks p).pc.slot = some (i, read)

/-- A lock is a pending transfer; only dirty buffers are written, only buffers that are not up to date
are read. -/
structure Io (s : Cache) : Prop where
  balance : ∀ i, s.queue.countP (fun r => r.bh = i) + ∑ p ∈ range s.nrTasks, (s.tasks p).pc.slotsOn i =
    if (s.bh i).bLock then 1 else 0
  ids : ∀ r ∈ s.queue, (s.bh r.bh).bDev = r.dev ∧ (s.bh r.bh).bBlocknr = r.block
  cmds : ∀ r ∈ s.queue, r.cmd ≠ .winSpecify ∧ (r.nsector = 2 ∨ r.nsector = 1)
  whole : ∀ r ∈ s.queue.tail, r.nsector = 2
  dirty : ∀ i, s.Pending i false → (s.bh i).bDirt = true
  stale : ∀ i, s.Pending i true → (s.bh i).bUptodate = false ∧ llRwBlock s i = .started ∧
    ∃ p < s.nrTasks, (s.tasks p).pc.reads = some i

variable {s s' u : Cache} {p i : Nat} {t : Task} {pc : Pc} {g : Goal} {dev block tmp : Nat} {read : Bool}

theorem Goes.tasks {D : Nat → Prop} (h : Goes s s' p D) : s'.tasks = Function.update s.tasks p (s'.tasks p) := by
  funext q
  rcases eq_or_ne q p with rfl | hne
  · simp
  · simp [hne, h.other q hne]

theorem llRwBlock_congr (hhd : s'.hd = s.hd) (hdev : (s'.bh i).bDev = (s.bh i).bDev)
    (hblock : (s'.bh i).bBlocknr = (s.bh i).bBlocknr) : llRwBlock s' i = llRwBlock s i := by
  simp only [llRwBlock, hhd, hdev, hblock]

theorem Io.pending_lock (h : s.Io) (hp : s.Pending i read) : (s.bh i).bLock = true := by
  have hpos : 0 < s.queue.countP (fun r => r.bh = i) + ∑ p ∈ range s.nrTasks, (s.tasks p).pc.slotsOn i := by
    rcases hp with ⟨r, hr, hri, -⟩ | ⟨p, hp, hslot⟩
    · have : 0 < s.queue.countP fun r => r.bh = i := List.countP_pos_iff.mpr ⟨r, hr, by simpa using hri⟩
      omega
    · have hle := Counting.le_sum_of_mem (mem_range.mpr hp) fun p => (s.tasks p).pc.slotsOn i
      have hone : (s.tasks p).pc.slotsOn i = 1 := by simp [Pc.slotsOn, hslot]
      omega
  rw [h.balance i] at hpos
  split at hpos
  next hl => exact hl
  next => simp at hpos

theorem Io.lock_pending (h : s.Io) (hl : (s.bh i).bLock = true) : ∃ read, s.Pending i read := by
  have hb := h.balance i
  rw [if_pos hl] at hb
  by_cases hq : 0 < s.queue.countP fun r => r.bh = i
  · obtain ⟨r, hr, hri⟩ := List.countP_pos_iff.mp hq
    exact ⟨r.read, Or.inl ⟨r, hr, by simpa using hri, rfl⟩⟩
  · have hsum : ∑ p ∈ range s.nrTasks, (s.tasks p).pc.slotsOn i ≠ 0 := by omega
    obtain ⟨p, hp, hne⟩ := Finset.exists_ne_zero_of_sum_ne_zero hsum
    unfold Pc.slotsOn at hne
    split at hne
    next hs =>
      obtain ⟨x, hx, hxi⟩ := Option.map_eq_some_iff.mp hs
      exact ⟨x.2, Or.inr ⟨p, mem_range.mp hp, by rw [hx, ← hxi]⟩⟩
    next => simp at hne

/-- A locked buffer that nobody uses is being written. -/
theorem Io.locked_dirty (h : s.Io) (hinv : s.Inv) (hl : (s.bh i).bLock = true) (hc : (s.bh i).bCount = 0) :
    (s.bh i).bDirt = true := by
  obtain ⟨read, hp⟩ := h.lock_pending hl
  cases read with
  | false => exact h.dirty i hp
  | true =>
    obtain ⟨-, -, p, hpN, hr⟩ := h.stale i hp
    have hcounted : (s.tasks p).pc.counted = some i := by
      cases hpc : (s.tasks p).pc <;> simp_all [Pc.reads, Pc.counted]
    have := hinv.counted_pos hpN hcounted
    omega

/-- A task goes on between two transfers, and locked buffers keep their blocks. -/
theorem Io.quiet (h : s.Io) (hT : s'.nrTasks = s.nrTasks) (hhd : s'.hd = s.hd)
    (hother : ∀ q, q ≠ p → s'.tasks q = s.tasks q) (hq : s'.queue = s.queue)
    (hlock : ∀ i, (s'.bh i).bLock = (s.bh i).bLock)
    (hkeep : ∀ i, (s.bh i).bLock = true → (s'.bh i).bDev = (s.bh i).bDev ∧ (s'.bh i).bBlocknr = (s.bh i).bBlocknr ∧
      ((s.bh i).bDirt = true → (s'.bh i).bDirt = true) ∧ (s'.bh i).bUptodate = (s.bh i).bUptodate)
    (hold : (s.tasks p).pc.slot = none) (hnew : (s'.tasks p).pc.slot = none)
    (hread : ∀ i, (s.tasks p).pc.reads = some i → (s.bh i).bLock = false) : s'.Io := by
  have hslot : ∀ q, (s'.tasks q).pc.slot = (s.tasks q).pc.slot := by
    intro q
    rcases eq_or_ne q p with rfl | hne
    · rw [hold, hnew]
    · rw [hother q hne]
  have hpend : ∀ i read, s'.Pending i read → s.Pending i read := by
    intro i read hp
    simpa only [Pending, hq, hT, hslot] using hp
  refine ⟨?_, ?_, ?_, ?_, ?_, ?_⟩
  · intro i
    simp only [hq, hT, Pc.slotsOn, hslot, hlock]
    exact h.balance i
  · intro r hr
    rw [hq] at hr
    have hk := hkeep r.bh (h.pending_lock (Or.inl ⟨r, hr, rfl, rfl⟩))
    rw [hk.1, hk.2.1]
    exact h.ids r hr
  · rw [hq]
    exact h.cmds
  · rw [hq]
    exact h.whole
  · intro i hp
    have hp := hpend i false hp
    exact (hkeep i (h.pending_lock hp)).2.2.1 (h.dirty i hp)
  · intro i hp
    have hp := hpend i true hp
    have hl := h.pending_lock hp
    obtain ⟨hup, hrw, q, hqN, hqr⟩ := h.stale i hp
    have hk := hkeep i hl
    refine ⟨hk.2.2.2.trans hup, (llRwBlock_congr hhd hk.1 hk.2.1).trans hrw, q, hT.symm ▸ hqN, ?_⟩
    rcases eq_or_ne q p with rfl | hne
    · rw [hread i hqr] at hl
      simp at hl
    · rw [hother q hne]
      exact hqr

/-- A buffer is locked for a transfer. -/
theorem Io.lockBuffer (h : s.Io) (hp : p < s.nrTasks) (hl : (s.bh i).bLock = false)
    (hold : (s.tasks p).pc.slot = none) (hread : (s.tasks p).pc.reads = none) (hslot : pc.slot = some (i, read))
    (hdirty : read = false → (s.bh i).bDirt = true)
    (hstale : read = true → (s.bh i).bUptodate = false ∧ llRwBlock s i = .started ∧ pc.reads = some i) : ((s.lockBuffer i).setPc p pc).Io := by
  have hhead : ∀ a, ((s.lockBuffer i).setPc p pc).bh a = { s.bh a with bLock := decide (a = i) || (s.bh a).bLock } := by
    intro a
    simp only [Cache.setPc, Cache.setTask, Cache.lockBuffer, Cache.setBh]
    rcases eq_or_ne a i with rfl | ha
    · simp
    · simp [ha]
  have hq : ((s.lockBuffer i).setPc p pc).queue = s.queue := rfl
  have htasks : ((s.lockBuffer i).setPc p pc).tasks = Function.update s.tasks p { s.tasks p with pc := pc } := rfl
  have hpend : ∀ a rd, ((s.lockBuffer i).setPc p pc).Pending a rd → s.Pending a rd ∨ a = i ∧ rd = read := by
    intro a rd hpa
    rcases hpa with hpa | ⟨q, hqN, hqs⟩
    · exact Or.inl (Or.inl hpa)
    · rcases eq_or_ne q p with rfl | hne
      · have he : (i, read) = (a, rd) := by simpa [htasks, hslot] using hqs
        cases he
        exact Or.inr ⟨rfl, rfl⟩
      · exact Or.inl (Or.inr ⟨q, hqN, by simpa [htasks, hne] using hqs⟩)
  refine ⟨?_, ?_, h.cmds, h.whole, ?_, ?_⟩
  · intro a
    have hsum := Counting.sum_update_add (mem_range.mpr hp) (fun t : Task => t.pc.slotsOn a) s.tasks
      { s.tasks p with pc := pc }
    have hb := h.balance a
    have hzero : (s.tasks p).pc.slotsOn a = 0 := by simp [Pc.slotsOn, hold]
    have hone : pc.slotsOn a = if i = a then 1 else 0 := by simp [Pc.slotsOn, hslot]
    rw [hhead, hq, htasks]
    simp only at hsum ⊢
    rcases eq_or_ne a i with rfl | ha
    · rw [hl] at hb
      simp only [if_true, hone] at hsum
      simp only [decide_true, Bool.true_or, if_true]
      simp only [Bool.false_eq_true, if_false] at hb
      show List.countP _ s.queue + ∑ q ∈ range s.nrTasks, _ = 1
      omega
    · simp only [hone, ha.symm, if_false] at hsum
      simp only [ha, decide_false, Bool.false_or]
      show List.countP _ s.queue + ∑ q ∈ range s.nrTasks, _ = _
      omega
  · intro r hr
    rw [hhead]
    exact h.ids r hr
  · intro a hpa
    rw [hhead]
    rcases hpend a false hpa with hpa | ⟨rfl, hrd⟩
    · exact h.dirty a hpa
    · exact hdirty hrd.symm
  · intro a hpa
    have hrw : llRwBlock ((s.lockBuffer i).setPc p pc) a = llRwBlock s a :=
      llRwBlock_congr rfl (by rw [hhead]) (by rw [hhead])
    rw [hhead, hrw]
    rcases hpend a true hpa with hpa | ⟨rfl, hrd⟩
    · obtain ⟨hup, hstart, q, hqN, hqr⟩ := h.stale a hpa
      refine ⟨hup, hstart, q, hqN, ?_⟩
      rcases eq_or_ne q p with rfl | hne
      · simp [hread] at hqr
      · simpa [htasks, hne] using hqr
    · obtain ⟨hup, hstart, hreads⟩ := hstale hrd.symm
      exact ⟨hup, hstart, p, hp, by simpa [htasks] using hreads⟩

theorem issue_queue : s.issue.queue = s.queue := by
  unfold Cache.issue
  split
  next => split <;> rfl
  next => rfl

theorem enqueue_queue : (s.enqueue i read).queue = addRequest (s.request i read) s.queue := by
  unfold Cache.enqueue
  dsimp only
  split
  next => rw [issue_queue]
  next => rfl

theorem issue_bh : s.issue.bh = s.bh := by
  unfold Cache.issue
  split
  next => split <;> rfl
  next => rfl

theorem enqueue_bh : (s.enqueue i read).bh = s.bh := by
  unfold Cache.enqueue
  dsimp only
  split
  next => exact issue_bh
  next => rfl

theorem request_read : (s.request i read).read = read := by
  cases read <;> rfl

/-- The request for a locked buffer goes into the queue. -/
theorem Io.enqueue (h : s.Io) (hp : p < s.nrTasks) (hold : (s.tasks p).pc.slot = some (i, read))
    (hnew : pc.slot = none) (hreads : pc.reads = (s.tasks p).pc.reads) : ((s.enqueue i read).setPc p pc).Io := by
  have hgo : Goes s ((s.enqueue i read).setPc p pc) p fun _ => False := (Goes.enqueue read).trans (.setPc pc)
  have hkept : ∀ a, BufferHead.Kept (s.bh a) (((s.enqueue i read).setPc p pc).bh a) := fun a => hgo.kept a id
  have hlock : ∀ a, (((s.enqueue i read).setPc p pc).bh a).bLock = (s.bh a).bLock := by
    intro a
    have hbh : ((s.enqueue i read).setPc p pc).bh = s.bh := enqueue_bh
    rw [hbh]
  have hq : ((s.enqueue i read).setPc p pc).queue = addRequest (s.request i read) s.queue := enqueue_queue
  have hperm := addRequest_perm (s.request i read) s.queue
  have hmem : ∀ r ∈ addRequest (s.request i read) s.queue, r = s.request i read ∨ r ∈ s.queue :=
    fun r hr => List.mem_cons.mp (hperm.mem_iff.mp hr)
  have htask : (((s.enqueue i read).setPc p pc).tasks p).pc = pc := setPc_pc pc
  have hpend : ∀ a rd, ((s.enqueue i read).setPc p pc).Pending a rd → s.Pending a rd := by
    intro a rd hpa
    rcases hpa with ⟨r, hr, hra, hrd⟩ | ⟨q, hqN, hqs⟩
    · rw [hq] at hr
      rcases hmem r hr with rfl | hr
      · rw [request_read] at hrd
        exact Or.inr ⟨p, hp, by rw [hold, ← hra, ← hrd]; rfl⟩
      · exact Or.inl ⟨r, hr, hra, hrd⟩
    · rw [hgo.nrTasks] at hqN
      rcases eq_or_ne q p with rfl | hne
      · rw [htask, hnew] at hqs
        simp at hqs
      · rw [hgo.other q hne] at hqs
        exact Or.inr ⟨q, hqN, hqs⟩
  generalize hs' : (s.enqueue i read).setPc p pc = s' at *
  refine ⟨?_, ?_, ?_, ?_, ?_, ?_⟩
  · intro a
    have hsum := Counting.sum_update_add (mem_range.mpr hp) (fun t : Task => t.pc.slotsOn a) s.tasks (s'.tasks p)
    rw [← hgo.tasks] at hsum
    have hone : (s.tasks p).pc.slotsOn a = if i = a then 1 else 0 := by simp [Pc.slotsOn, hold]
    have hzero : (s'.tasks p).pc.slotsOn a = 0 := by simp [Pc.slotsOn, htask, hnew]
    have hcount := hperm.countP_eq fun r => decide (r.bh = a)
    rw [List.countP_cons] at hcount
    have hbh : (s.request i read).bh = i := rfl
    simp only [hbh, decide_eq_true_eq] at hcount
    have hb := h.balance a
    rw [hlock, hq, hgo.nrTasks]
    omega
  · intro r hr
    rw [hq] at hr
    rw [(hkept r.bh).dev, (hkept r.bh).blocknr]
    rcases hmem r hr with rfl | hr
    · exact ⟨rfl, rfl⟩
    · exact h.ids r hr
  · intro r hr
    rw [hq] at hr
    rcases hmem r hr with rfl | hr
    · exact ⟨by cases read <;> simp [Cache.request, fillRequest], Or.inl rfl⟩
    · exact h.cmds r hr
  · intro r hr
    rw [hq] at hr
    cases hqs : s.queue with
    | nil =>
      rw [hqs] at hr
      simp [addRequest] at hr
    | cons first q =>
      obtain ⟨q', hadd, hperm'⟩ := addRequest_cons (s.request i read) first q
      rw [hqs, hadd] at hr
      rcases List.mem_cons.mp (hperm'.mem_iff.mp hr) with rfl | hr
      · rfl
      · exact h.whole r (by rw [hqs]; exact hr)
  · intro a hpa
    rw [(hkept a).dirt]
    exact h.dirty a (hpend a false hpa)
  · intro a hpa
    obtain ⟨hup, hstart, q, hqN, hqr⟩ := h.stale a (hpend a true hpa)
    rw [(hkept a).uptodate, hgo.nrTasks, llRwBlock_congr hgo.hd (hkept a).dev (hkept a).blocknr]
    refine ⟨hup, hstart, q, hqN, ?_⟩
    rcases eq_or_ne q p with rfl | hne
    · rw [htask, hreads, hqr]
    · rw [hgo.other q hne, hqr]

/-- The request at the head of the queue ends. -/
theorem Io.pop {r : IoRequest} {q : List IoRequest} (h : s.Io) (hq : s.queue = r :: q) (hq' : s'.queue = q)
    (hT : s'.nrTasks = s.nrTasks) (hhd : s'.hd = s.hd) (ht : s'.tasks = s.tasks) (hbh : ∀ a, a ≠ r.bh → s'.bh a = s.bh a)
    (hl : (s'.bh r.bh).bLock = false) : s'.Io := by
  have hlr : (s.bh r.bh).bLock = true := h.pending_lock (Or.inl ⟨r, by simp [hq], rfl, rfl⟩)
  have hbal := h.balance r.bh
  rw [hlr, hq, List.countP_cons] at hbal
  simp only [decide_true, if_true] at hbal
  have hnone : ∀ a rd, s'.Pending a rd → s.Pending a rd ∧ a ≠ r.bh := by
    intro a rd hpa
    rcases hpa with ⟨r', hr', hra, hrd⟩ | ⟨p, hp, hslot⟩
    · rw [hq'] at hr'
      refine ⟨Or.inl ⟨r', by simp [hq, hr'], hra, hrd⟩, ?_⟩
      intro he
      have : 0 < q.countP fun x => x.bh = r.bh := List.countP_pos_iff.mpr ⟨r', hr', by simp [hra, he]⟩
      omega
    · rw [hT] at hp
      rw [ht] at hslot
      refine ⟨Or.inr ⟨p, hp, hslot⟩, ?_⟩
      intro he
      have hle := Counting.le_sum_of_mem (mem_range.mpr hp) fun p => (s.tasks p).pc.slotsOn r.bh
      have hone : (s.tasks p).pc.slotsOn r.bh = 1 := by simp [Pc.slotsOn, hslot, he]
      omega
  refine ⟨?_, ?_, ?_, ?_, ?_, ?_⟩
  · intro a
    rw [hq', hT, ht]
    rcases eq_or_ne a r.bh with rfl | ha
    · simp only [hl, Bool.false_eq_true, if_false]
      omega
    · have hb := h.balance a
      rw [hq, List.countP_cons] at hb
      simp only [ha.symm, decide_false, Bool.false_eq_true, if_false, Nat.add_zero] at hb
      rw [hbh a ha]
      exact hb
  · intro r' hr'
    have hne := (hnone r'.bh r'.read (Or.inl ⟨r', hr', rfl, rfl⟩)).2
    rw [hq'] at hr'
    rw [hbh _ hne]
    exact h.ids r' (by simp [hq, hr'])
  · intro r' hr'
    rw [hq'] at hr'
    exact h.cmds r' (by simp [hq, hr'])
  · intro r' hr'
    rw [hq'] at hr'
    exact h.whole r' (by rw [hq]; exact List.mem_of_mem_tail hr')
  · intro a hpa
    obtain ⟨hpa, hne⟩ := hnone a false hpa
    rw [hbh a hne]
    exact h.dirty a hpa
  · intro a hpa
    obtain ⟨hpa, hne⟩ := hnone a true hpa
    rw [llRwBlock_congr hhd (by rw [hbh a hne]) (by rw [hbh a hne]), hbh a hne, hT, ht]
    exact h.stale a hpa

/-- The request at the head of the queue goes on with its second half. -/
theorem Io.half {r : IoRequest} {q : List IoRequest} (h : s.Io) (hq : s.queue = r :: q)
    (hq' : s'.queue = { r with nsector := 1 } :: q) (hT : s'.nrTasks = s.nrTasks) (hhd : s'.hd = s.hd)
    (ht : s'.tasks = s.tasks) (hbh : ∀ a, (s'.bh a).bLock = (s.bh a).bLock ∧ (s'.bh a).bDev = (s.bh a).bDev ∧
      (s'.bh a).bBlocknr = (s.bh a).bBlocknr ∧ (s'.bh a).bDirt = (s.bh a).bDirt ∧
      (s'.bh a).bUptodate = (s.bh a).bUptodate) : s'.Io := by
  have hold : ∀ r' ∈ s'.queue, ∃ x ∈ s.queue, x.bh = r'.bh ∧ x.read = r'.read ∧ x.cmd = r'.cmd ∧ x.dev = r'.dev ∧
      x.block = r'.block ∧ (r'.nsector = x.nsector ∨ r'.nsector = 1) := by
    intro r' hr'
    rw [hq'] at hr'
    rcases List.mem_cons.mp hr' with rfl | hr'
    · exact ⟨r, by simp [hq], rfl, rfl, rfl, rfl, rfl, Or.inr rfl⟩
    · exact ⟨r', by simp [hq, hr'], rfl, rfl, rfl, rfl, rfl, Or.inl rfl⟩
  have hpend : ∀ a rd, s'.Pending a rd → s.Pending a rd := by
    intro a rd hpa
    rcases hpa with ⟨r', hr', hra, hrd⟩ | hpa
    · obtain ⟨x, hx, hxb, hxr, -⟩ := hold r' hr'
      exact Or.inl ⟨x, hx, hxb.trans hra, hxr.trans hrd⟩
    · rw [hT, ht] at hpa
      exact Or.inr hpa
  refine ⟨?_, ?_, ?_, ?_, ?_, ?_⟩
  · intro a
    rw [(hbh a).1, hq', hT, ht, ← h.balance a, hq]
    rfl
  · intro r' hr'
    obtain ⟨x, hx, hxb, -, -, hxd, hxk, -⟩ := hold r' hr'
    rw [(hbh _).2.1, (hbh _).2.2.1, ← hxb, ← hxd, ← hxk]
    exact h.ids x hx
  · intro r' hr'
    obtain ⟨x, hx, -, -, hxc, -, -, hxn⟩ := hold r' hr'
    rw [← hxc]
    refine ⟨(h.cmds x hx).1, ?_⟩
    rcases hxn with hxn | hxn
    · rw [hxn]
      exact (h.cmds x hx).2
    · exact Or.inr hxn
  · rw [hq']
    have := h.whole
    rw [hq] at this
    exact this
  · intro a hpa
    rw [(hbh a).2.2.2.1]
    exact h.dirty a (hpend a false hpa)
  · intro a hpa
    rw [llRwBlock_congr hhd (hbh a).2.1 (hbh a).2.2.1, (hbh a).2.2.2.2, hT, ht]
    exact h.stale a (hpend a true hpa)

end Cache

end RheeKernel
