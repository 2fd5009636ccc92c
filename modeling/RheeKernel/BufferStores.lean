import RheeKernel.BufferRuns
import RheeKernel.PageEntry

namespace RheeKernel

open Cache

/-- The links of a buffer head. -/
inductive Link
  | prev
  | next
  | prevFree
  | nextFree
deriving DecidableEq

/-- Where a link lies in `struct buffer_head`. -/
def Link.offset : Link → Nat
  | .prev => 16
  | .next => 20
  | .prevFree => 24
  | .nextFree => 28

def Link.set (l : Link) (v : Option Nat) (b : BufferHead) : BufferHead :=
  match l with
  | .prev => { b with bPrev := v }
  | .next => { b with bNext := v }
  | .prevFree => { b with bPrevFree := v }
  | .nextFree => { b with bNextFree := v }

/-- What `insert_into_queues` may store to. -/
inductive StoreCell
  | head (i : Nat) (l : Link)
  | hashTable (k : Nat)
  | low (address : Nat)
deriving DecidableEq

/-- A field of a buffer head or an entry of `hash_table`. -/
def StoreCell.inCache : StoreCell → Bool
  | .low _ => false
  | _ => true

/-- The cache with the page directory, which lies at address 0, and the stores to pointers in the order of time. The
heads lie one after the other from `startBuffer` on, with 32 bytes each. -/
structure Ram where
  cache : Cache
  startBuffer : Nat
  pgDir : Nat → Word
  stores : List StoreCell

namespace Ram

def pointer (r : Ram) : Option Nat → Word
  | none => 0#32
  | some i => BitVec.ofNat 32 (r.startBuffer + 32 * i)

/-- `p->link = v`; through a null pointer it goes to the page directory. -/
def storeLink (r : Ram) (p : Option Nat) (l : Link) (v : Option Nat) : Ram :=
  match p with
  | some i => { r with cache := r.cache.setBh i (l.set v (r.cache.bh i)), stores := r.stores ++ [.head i l] }
  | none =>
    { r with pgDir := Function.update r.pgDir (l.offset / 4) (r.pointer v), stores := r.stores ++ [.low l.offset] }

def storeHash (r : Ram) (k : Nat) (v : Option Nat) : Ram :=
  { r with cache := { r.cache with hashTable := Function.update r.cache.hashTable k v }, stores := r.stores ++ [.hashTable k] }

/-- `put at end of free list`; `f` is `free_list`. -/
def putFree (r : Ram) (f i : Nat) : Ram :=
  let r := r.storeLink (some i) .nextFree (some f)
  let r := r.storeLink (some i) .prevFree (r.cache.bh f).bPrevFree
  let r := r.storeLink (r.cache.bh f).bPrevFree .nextFree (some i)
  r.storeLink (some f) .prevFree (some i)

/-- The last three lines of `insert_into_queues`. -/
def putHash (r : Ram) (i : Nat) : Ram :=
  let k := hashfn (r.cache.bh i).bDev (r.cache.bh i).bBlocknr
  let r := r.storeLink (some i) .next (r.cache.hashTable k)
  let r := r.storeHash k (some i)
  r.storeLink (r.cache.bh i).bNext .prev (some i)

/-- `insert_into_queues` store by store; `none` is a free list without a first head. -/
def insertIntoQueues (r : Ram) (i : Nat) : Option Ram :=
  match r.cache.freeList with
  | none => none
  | some f =>
    let r := r.putFree f i
    let r := r.storeLink (some i) .prev none
    let r := r.storeLink (some i) .next none
    if (r.cache.bh i).bDev = 0 then some r else some (r.putHash i)

end Ram

/-- `getblk` gives the buffer it has taken its new identity. -/
def Cache.rename (s : Cache) (dev block tmp : Nat) : Cache :=
  s.setBh tmp { s.bh tmp with bDev := ushort dev, bBlocknr := ushort block, bDirt := false, bUptodate := false }

/-- Another task has loaded the block meanwhile: the buffer is given up again. -/
def Cache.giveUp (s : Cache) (tmp : Nat) : Cache := s.setBh tmp { s.bh tmp with bDev := 0, bBlocknr := 0, bCount := 0 }

namespace Ram

/-- The end of `getblk`, from the new identity on. -/
def reinit (r : Ram) (p : Nat) (g : Goal) (dev block tmp : Nat) : Option Ram :=
  let s := r.cache.rename dev block tmp
  match findBuffer s dev block with
  | some _ =>
    (insertIntoQueues { r with cache := s.giveUp tmp } tmp).map fun r => { r with cache := r.cache.setPc p (.find g dev block) }
  | none =>
    (insertIntoQueues { r with cache := s } tmp).bind fun r => (r.cache.gotBuffer p tmp g).map fun s => { r with cache := s }

/-- All other places of the buffer code look at a pointer before they store through it. -/
def advance (r : Ram) (p : Nat) : Option Ram :=
  match (r.cache.tasks p).pc with
  | .reinit g dev block tmp => r.reinit p g dev block tmp
  | _ => (r.cache.advance p).map fun s => { r with cache := s }

end Ram

def ramStep (r : Ram) : CacheOp → Option Ram
  | .run p =>
    if p < r.cache.nrTasks ∧ (r.cache.running = none ∨ r.cache.running = some p) ∧ r.cache.blocked (r.cache.tasks p).pc = false then
      (r.advance p).map fun r => { r with cache := r.cache.settle p }
    else none
  | op => (cacheStep r.cache op).map fun s => { r with cache := s }

/-- The chain that the head goes into is not empty, or it goes into none. -/
def Cache.Filled (s : Cache) (i : Nat) : Prop :=
  (s.bh i).bDev = 0 ∨ s.hashTable (hashfn (s.bh i).bDev (s.bh i).bBlocknr) ≠ none

/-- The cache and the head for which a task at the end of `getblk` calls `insert_into_queues`. -/
def Cache.inserting (s : Cache) : CacheOp → Option (Cache × Nat)
  | .run p =>
    match (s.tasks p).pc with
    | .reinit _ dev block tmp =>
      let s := s.rename dev block tmp
      match findBuffer s dev block with
      | some _ => some (s.giveUp tmp, tmp)
      | none => some (s, tmp)
    | _ => none
  | _ => none

def Ram.Meets (r : Ram) (op : CacheOp) : Prop := ∀ s i, r.cache.inserting op = some (s, i) → s.Filled i

/-- Only buffer heads and `hash_table` have been stored to. -/
structure Ram.Inside (r r' : Ram) : Prop where
  pgDir : r'.pgDir = r.pgDir
  stores : ∃ new, r'.stores = r.stores ++ new ∧ ∀ c ∈ new, c.inCache = true

namespace Ram

variable {r r' : Ram} {f i j k z : Nat} {l : Link} {v : Option Nat}

theorem storeLink_some (r : Ram) (j : Nat) (l : Link) (v : Option Nat) :
    r.storeLink (some j) l v = { r with cache := r.cache.onHead (some j) (l.set v), stores := r.stores ++ [.head j l] } := rfl

theorem storeLink_startBuffer (p : Option Nat) : (r.storeLink p l v).startBuffer = r.startBuffer := by
  cases p <;> rfl

theorem Inside.refl (r : Ram) : Inside r r := ⟨rfl, [], by simp, by simp⟩

theorem Inside.trans {u : Ram} (h : Inside r u) (h' : Inside u r') : Inside r r' := by
  obtain ⟨new, hnew, hin⟩ := h.stores
  obtain ⟨new', hnew', hin'⟩ := h'.stores
  refine ⟨h'.pgDir.trans h.pgDir, new ++ new', ?_, fun c hc => ?_⟩
  · rw [hnew', hnew, List.append_assoc]
  · rcases List.mem_append.mp hc with hc | hc
    · exact hin c hc
    · exact hin' c hc

theorem Inside.storeLink (r : Ram) (j : Nat) (l : Link) (v : Option Nat) : Inside r (r.storeLink (some j) l v) :=
  ⟨rfl, [.head j l], rfl, by simp [StoreCell.inCache]⟩

theorem Inside.storeHash (r : Ram) (k : Nat) (v : Option Nat) : Inside r (r.storeHash k v) :=
  ⟨rfl, [.hashTable k], rfl, by simp [StoreCell.inCache]⟩

theorem onHead_onHead {s : Cache} (g h : BufferHead → BufferHead) :
    (s.onHead (some i) g).onHead (some i) h = s.onHead (some i) fun b => h (g b) := by
  simp [Cache.onHead, Cache.setBh]

/-- With a closed free list `putFree` stores to heads only. -/
theorem putFree_eq (hz : (r.cache.bh f).bPrevFree = some z) :
    (r.putFree f i).cache = ((r.cache.onHead (some i) fun h => { h with bNextFree := some f, bPrevFree := some z }).onHead (some z)
      fun h => { h with bNextFree := some i }).onHead (some f) (fun h => { h with bPrevFree := some i }) ∧ Inside r (r.putFree f i) := by
  let r₁ := r.storeLink (some i) .nextFree (some f)
  have h₁ : (r₁.cache.bh f).bPrevFree = some z := by
    simp only [r₁, storeLink_some, onHead_bh]
    split
    next hfi => exact hz
    next => exact hz
  let r₂ := r₁.storeLink (some i) .prevFree (some z)
  have h₂ : (r₂.cache.bh f).bPrevFree = some z := by
    simp only [r₂, storeLink_some, onHead_bh]
    split
    next => rfl
    next => exact h₁
  have hput : r.putFree f i = (r₂.storeLink (some z) .nextFree (some i)).storeLink (some f) .prevFree (some i) := by
    unfold putFree
    dsimp only
    rw [h₁, h₂]
  rw [hput]
  refine ⟨?_, ?_⟩
  · simp only [r₂, r₁, storeLink_some, onHead_onHead]
    rfl
  · exact (((Inside.storeLink r i .nextFree (some f)).trans (Inside.storeLink r₁ i .prevFree (some z))).trans
      (Inside.storeLink r₂ z .nextFree (some i))).trans (Inside.storeLink _ f .prevFree (some i))

/-- The stores of the last three lines, the last of them through `b_next`. -/
theorem putHash_eq : ∃ u, Inside r u ∧
    u.cache = { r.cache.onHead (some i) (fun h => { h with bNext := r.cache.hashTable (hashfn (r.cache.bh i).bDev (r.cache.bh i).bBlocknr) }) with
      hashTable := Function.update r.cache.hashTable (hashfn (r.cache.bh i).bDev (r.cache.bh i).bBlocknr) (some i) } ∧
    u.startBuffer = r.startBuffer ∧ r.putHash i = u.storeLink (r.cache.hashTable (hashfn (r.cache.bh i).bDev (r.cache.bh i).bBlocknr)) .prev (some i) := by
  generalize hk : hashfn (r.cache.bh i).bDev (r.cache.bh i).bBlocknr = k
  let u := (r.storeLink (some i) .next (r.cache.hashTable k)).storeHash k (some i)
  have hnext : (u.cache.bh i).bNext = r.cache.hashTable k := by
    simp [u, storeLink, storeHash, Cache.setBh, Link.set]
  refine ⟨u, (Inside.storeLink _ _ _ _).trans (Inside.storeHash _ _ _), rfl, rfl, ?_⟩
  unfold putHash
  dsimp only
  rw [hk, hnext]

/-- A store through a null `b_next` is seen. -/
theorem not_inside_low {u : Ram} (h : Inside r u) (hu : r' = u.storeLink none l v) : ¬ Inside r r' := by
  rintro ⟨_, new, hnew, hin⟩
  obtain ⟨new', hnew', _⟩ := h.stores
  have hlast : r'.stores = r.stores ++ (new' ++ [.low l.offset]) := by
    rw [hu, ← List.append_assoc, ← hnew']
    rfl
  have hsame : new = new' ++ [.low l.offset] := List.append_cancel_left (hnew.symm.trans hlast)
  have hlow := hin (.low l.offset) (by rw [hsame]; simp)
  cases hlow

/-- `insert_into_queues` store by store does what it does to the cache, and stays inside if the chain is not empty. -/
theorem insert_spec (hf : r.cache.freeList = some f) (hz : (r.cache.bh f).bPrevFree = some z) :
    ∃ r', r.insertIntoQueues i = some r' ∧ RheeKernel.insertIntoQueues r.cache i = some r'.cache ∧ r'.startBuffer = r.startBuffer ∧
      (Inside r r' ↔ r.cache.Filled i) ∧ (¬ r.cache.Filled i → r'.pgDir = Function.update r.pgDir 4 (r.pointer (some i))) := by
  obtain ⟨hcache, hin⟩ := @putFree_eq r f i z hz
  let r₂ := ((r.putFree f i).storeLink (some i) .prev none).storeLink (some i) .next none
  have hin₂ : Inside r r₂ := (hin.trans (Inside.storeLink _ _ _ _)).trans (Inside.storeLink _ _ _ _)
  have hstart₂ : r₂.startBuffer = r.startBuffer := by
    simp only [r₂, putFree, storeLink_startBuffer]
  have hcache₂ : r₂.cache = (r.putFree f i).cache.onHead (some i) fun h => { h with bPrev := none, bNext := none } := by
    simp only [r₂, storeLink_some, onHead_onHead]
    rfl
  have hdev : (r₂.cache.bh i).bDev = (r.cache.bh i).bDev := by
    rw [hcache₂, hcache]
    simp only [onHead_bh]
    split <;> split <;> split <;> rfl
  have hblock : (r₂.cache.bh i).bBlocknr = (r.cache.bh i).bBlocknr := by
    rw [hcache₂, hcache]
    simp only [onHead_bh]
    split <;> split <;> split <;> rfl
  have hhash : r₂.cache.hashTable = r.cache.hashTable := by
    rw [hcache₂, hcache]
    simp only [onHead_hashTable]
  have hram : r.insertIntoQueues i = if (r₂.cache.bh i).bDev = 0 then some r₂ else some (r₂.putHash i) := by
    unfold insertIntoQueues
    rw [hf]
  have hold : RheeKernel.insertIntoQueues r.cache i = if (r₂.cache.bh i).bDev = 0 then some r₂.cache
      else some (Cache.onHead { r₂.cache.onHead (some i) (fun h => { h with
          bNext := r₂.cache.hashTable (hashfn (r₂.cache.bh i).bDev (r₂.cache.bh i).bBlocknr) }) with
        hashTable := Function.update r₂.cache.hashTable (hashfn (r₂.cache.bh i).bDev (r₂.cache.bh i).bBlocknr) (some i) }
        (r₂.cache.hashTable (hashfn (r₂.cache.bh i).bDev (r₂.cache.bh i).bBlocknr)) fun h => { h with bPrev := some i }) := by
    rw [hcache₂, hcache]
    simp only [RheeKernel.insertIntoQueues, hf, hz, reduceCtorEq, if_false, onHead_hashTable]
  by_cases hzero : (r.cache.bh i).bDev = 0
  · rw [if_pos (hdev.trans hzero)] at hram hold
    exact ⟨r₂, hram, hold, hstart₂, ⟨fun _ => .inl hzero, fun _ => hin₂⟩, fun hn => absurd (.inl hzero) hn⟩
  · rw [if_neg (by rw [hdev]; exact hzero)] at hram hold
    obtain ⟨u, hinu, hucache, hustart, hlast⟩ := @putHash_eq r₂ i
    rw [hdev, hblock, hhash] at hucache hlast hold
    rw [hlast] at hram
    cases hfirst : r.cache.hashTable (hashfn (r.cache.bh i).bDev (r.cache.bh i).bBlocknr) with
    | none =>
      rw [hfirst] at hram hold hucache
      have hempty : ¬ r.cache.Filled i := fun hc => hc.elim hzero fun hne => hne hfirst
      refine ⟨_, hram, ?_, ?_, ⟨fun hc => absurd hc (not_inside_low (hin₂.trans hinu) rfl), fun hc => absurd hc hempty⟩, fun _ => ?_⟩
      · rw [hold]
        exact congrArg some hucache.symm
      · exact hustart.trans hstart₂
      · change Function.update u.pgDir 4 (u.pointer (some i)) = _
        rw [(hin₂.trans hinu).pgDir]
        unfold pointer
        rw [hustart, hstart₂]
    | some j =>
      rw [hfirst] at hram hold hucache
      have hfull : r.cache.Filled i := .inr (by rw [hfirst]; simp)
      refine ⟨_, hram, ?_, ?_, ⟨fun _ => hfull, fun _ => (hin₂.trans hinu).trans (Inside.storeLink _ _ _ _)⟩, fun hc => absurd hfull hc⟩
      · rw [hold, ← hucache]
        rfl
      · exact hustart.trans hstart₂

end Ram

namespace Cache

/-- No link of the free list is null. -/
structure Ringed (s : Cache) : Prop where
  first : s.freeList ≠ none
  next : ∀ i, (s.bh i).bNextFree ≠ none
  prev : ∀ i, (s.bh i).bPrevFree ≠ none

variable {s s' : Cache} {p i : Nat} {pc : Pc} {g : Goal} {dev block tmp : Nat} {op : CacheOp}

theorem Ringed.setBh {b : BufferHead} (h : s.Ringed) (hn : b.bNextFree ≠ none) (hp : b.bPrevFree ≠ none) : (s.setBh i b).Ringed := by
  refine ⟨h.first, fun a => ?_, fun a => ?_⟩
  · simp only [Cache.setBh]
    rcases eq_or_ne a i with rfl | hai
    · rw [Function.update_self]
      exact hn
    · rw [Function.update_of_ne hai]
      exact h.next a
  · simp only [Cache.setBh]
    rcases eq_or_ne a i with rfl | hai
    · rw [Function.update_self]
      exact hp
    · rw [Function.update_of_ne hai]
      exact h.prev a

theorem Ringed.onHead {a : Option Nat} {f : BufferHead → BufferHead} (h : s.Ringed)
    (hf : ∀ b : BufferHead, b.bNextFree ≠ none → b.bPrevFree ≠ none → (f b).bNextFree ≠ none ∧ (f b).bPrevFree ≠ none) :
    (s.onHead a f).Ringed := by
  cases a with
  | none => exact h
  | some c => exact h.setBh (hf _ (h.next c) (h.prev c)).1 (hf _ (h.next c) (h.prev c)).2

theorem Ringed.setPc (h : s.Ringed) : (s.setPc p pc).Ringed := ⟨h.first, h.next, h.prev⟩

theorem Ringed.setHash {t : Nat → Option Nat} (h : s.Ringed) : Ringed { s with hashTable := t } := ⟨h.first, h.next, h.prev⟩

theorem Ringed.settle (h : s.Ringed) : (s.settle p).Ringed := ⟨h.first, h.next, h.prev⟩

theorem Ringed.of_links (h : s.Ringed) (hl : SameLinks s s') : s'.Ringed := by
  refine ⟨?_, fun i => ?_, fun i => ?_⟩
  · rw [hl.freeList]
    exact h.first
  · rw [hl.nextFree]
    exact h.next i
  · rw [hl.prevFree]
    exact h.prev i

theorem Ringed.lockBuffer (h : s.Ringed) : (s.lockBuffer i).Ringed := by
  apply h.setBh
  · exact h.next i
  · exact h.prev i

theorem Ringed.setCount {c : Nat} (h : s.Ringed) : (s.setBh i { s.bh i with bCount := c }).Ringed := by
  apply h.setBh
  · exact h.next i
  · exact h.prev i

theorem Ringed.dropCount (h : s.Ringed) (hs : ((s.dropCount tmp).map fun s => s.setPc p pc) = some s') : s'.Ringed := by
  obtain ⟨u, hu, rfl⟩ := Option.map_eq_some_iff.mp hs
  unfold Cache.dropCount at hu
  split at hu
  next => cases hu
  next =>
    cases Option.some.inj hu
    exact h.setCount.setPc

theorem Ringed.gotBuffer (h : s.Ringed) (hs : s.gotBuffer p tmp g = some s') : s'.Ringed := by
  cases g with
  | hash =>
    cases Option.some.inj hs
    exact ⟨h.first, h.next, h.prev⟩
  | get =>
    cases Option.some.inj hs
    exact ⟨h.first, h.next, h.prev⟩
  | read =>
    simp only [Cache.gotBuffer] at hs
    split at hs
    next =>
      cases Option.some.inj hs
      exact ⟨h.first, h.next, h.prev⟩
    next =>
      split at hs
      next => cases hs
      next => exact h.dropCount hs
      next =>
        cases Option.some.inj hs
        exact h.lockBuffer.setPc

theorem Ringed.remove (h : s.Ringed) (hs : removeFromQueues s i = some s') : s'.Ringed := by
  obtain ⟨u, hu, hun⟩ := removeFromQueues_spec (h.prev i) (h.next i)
  cases Option.some.inj (hs.symm.trans hu)
  refine ⟨?_, fun a => ?_, fun a => ?_⟩
  · rw [hun.freeList]
    split
    next => exact h.next i
    next => exact h.first
  · rw [hun.nextFree]
    split
    next => exact h.next i
    next => exact h.next a
  · rw [hun.prevFree]
    split
    next => exact h.prev i
    next => exact h.prev a

theorem Ringed.insert (h : s.Ringed) (hs : insertIntoQueues s i = some s') : s'.Ringed := by
  have hlast : ∀ f, (s.bh f).bPrevFree ≠ none := h.prev
  unfold insertIntoQueues at hs
  split at hs
  next => cases hs
  next f hf =>
    dsimp only at hs
    split at hs
    next => cases hs
    next =>
      have hfree : Ringed ((((s.onHead (some i) fun h => { h with bNextFree := some f, bPrevFree := (s.bh f).bPrevFree }).onHead
          (s.bh f).bPrevFree fun h => { h with bNextFree := some i }).onHead (some f) fun h => { h with bPrevFree := some i }).onHead
          (some i) fun h => { h with bPrev := none, bNext := none }) := by
        apply Ringed.onHead
        · apply Ringed.onHead
          · apply Ringed.onHead
            · exact h.onHead fun b _ _ => ⟨Option.some_ne_none f, hlast f⟩
            · exact fun b _ hp => ⟨Option.some_ne_none i, hp⟩
          · exact fun b hn _ => ⟨hn, Option.some_ne_none i⟩
        · exact fun b hn hp => ⟨hn, hp⟩
      split at hs
      next =>
        cases Option.some.inj hs
        exact hfree
      next =>
        cases Option.some.inj hs
        apply Ringed.onHead
        · apply Ringed.setHash
          apply hfree.onHead
          exact fun b hn hp => ⟨hn, hp⟩
        · exact fun b hn hp => ⟨hn, hp⟩

theorem Ringed.take (h : s.Ringed) (hs : s.take p g dev block tmp = some s') : s'.Ringed := by
  obtain ⟨u, hu, hs'⟩ := Option.map_eq_some_iff.mp hs
  have hremoved := h.setCount.remove hu
  split at hs'
  next =>
    cases hs'
    exact hremoved.setPc
  next =>
    cases hs'
    exact hremoved.setPc

theorem Ringed.scanNext (h : s.Ringed) (hs : s.scanNext p g dev block tmp = some s') : s'.Ringed := by
  unfold Cache.scanNext at hs
  split at hs
  next => cases hs
  next =>
    split at hs
    next => exact h.take hs
    next =>
      cases Option.some.inj hs
      exact h.setPc

theorem Ringed.enqueue {read : Bool} (h : s.Ringed) : (s.enqueue i read).Ringed := h.of_links (Flagged.enqueue read).links

theorem Ringed.loopStep {inside : Loop → Pc} {done : Pc} {l : Loop} (h : s.Ringed) (hs : s.loopStep p inside done l = some s') :
    s'.Ringed := by
  unfold Cache.loopStep at hs
  dsimp only at hs
  split at hs
  next =>
    split at hs
    next => cases Option.some.inj hs; exact h.setPc
    next => split at hs <;> cases Option.some.inj hs <;> exact h.setPc
  next =>
    split at hs
    next =>
      split at hs
      next => cases hs
      next => cases Option.some.inj hs; exact h.setPc
      next => cases Option.some.inj hs; exact h.lockBuffer.setPc
    next => cases Option.some.inj hs; exact h.setPc
  next => cases Option.some.inj hs; exact h.enqueue.setPc
  next => cases Option.some.inj hs; exact h.setPc

theorem Ringed.rename (h : s.Ringed) : (s.rename dev block tmp).Ringed := by
  apply h.setBh
  · exact h.next tmp
  · exact h.prev tmp

theorem Ringed.giveUp (h : s.Ringed) : (s.giveUp tmp).Ringed := by
  apply h.setBh
  · exact h.next tmp
  · exact h.prev tmp

theorem reinit_eq : s.reinit p g dev block tmp =
    match findBuffer (s.rename dev block tmp) dev block with
    | some _ => (insertIntoQueues ((s.rename dev block tmp).giveUp tmp) tmp).map fun (s : Cache) => s.setPc p (.find g dev block)
    | none => (insertIntoQueues (s.rename dev block tmp) tmp).bind fun (s : Cache) => s.gotBuffer p tmp g := rfl

theorem Ringed.reinit (h : s.Ringed) (hs : s.reinit p g dev block tmp = some s') : s'.Ringed := by
  have hrename := @Ringed.rename s dev block tmp h
  unfold Cache.reinit at hs
  dsimp only at hs
  split at hs
  next =>
    obtain ⟨u, hu, hs'⟩ := Option.map_eq_some_iff.mp hs
    cases hs'
    exact (hrename.giveUp.insert hu).setPc
  next =>
    obtain ⟨u, hu, hgot⟩ := Option.bind_eq_some_iff.mp hs
    exact (hrename.insert hu).gotBuffer hgot

theorem Ringed.advance (h : s.Ringed) (hs : s.advance p = some s') : s'.Ringed := by
  unfold Cache.advance at hs
  split at hs
  next => cases hs
  next =>
    split at hs
    next => cases Option.some.inj hs; exact h.setCount.setPc
    next =>
      split at hs
      next => cases Option.some.inj hs; exact h.setPc
      next =>
        obtain ⟨tmp, _, rfl⟩ := Option.map_eq_some_iff.mp hs
        exact h.setPc
  next =>
    split at hs
    next => exact h.dropCount hs
    next => exact h.gotBuffer hs
  next =>
    split at hs
    next => cases Option.some.inj hs; exact h.setPc
    next => exact h.scanNext hs
  next =>
    split at hs
    next => exact h.take hs
    next => exact h.scanNext hs
  next => cases Option.some.inj hs; exact h.setPc
  next => exact h.loopStep hs
  next => exact h.reinit hs
  next => cases Option.some.inj hs; exact h.enqueue.setPc
  next =>
    split at hs
    next => cases Option.some.inj hs; exact ⟨h.first, h.next, h.prev⟩
    next => exact h.dropCount hs
  next => exact h.dropCount hs
  next => exact h.loopStep hs

theorem Ringed.call {t : Task} (h : s.Ringed) (hs : s.call p t = some s') : s'.Ringed := by
  obtain ⟨_, _, rfl⟩ := call_cases hs
  exact ⟨h.first, h.next, h.prev⟩

theorem Ringed.step (h : s.Ringed) (hs : cacheStep s op = some s') : s'.Ringed := by
  cases op with
  | getHashTable p dev block => exact h.call hs
  | getblk p dev block => exact h.call hs
  | bread p dev block => exact h.call hs
  | sysSync p => exact h.call hs
  | brelse p k =>
    obtain ⟨_, _, hcall⟩ := brelse_cases hs
    exact h.call hcall
  | store p k second data =>
    obtain ⟨r, _, _, hcall⟩ := store_cases hs
    exact Ringed.call (h.of_links Flagged.store.links) hcall
  | run p =>
    obtain ⟨_, _, u, hu, rfl⟩ := run_cases hs
    exact (h.advance hu).settle
  | interrupt => exact h.of_links (Flagged.intr hs).1.links
  | ioError => exact h.of_links (Flagged.intrError hs).1.links

theorem bufferInit_ringed (n tasks : Nat) (hd : Nat → HdStruct) (disk : Nat → Nat → Bool → Sector) (data : Nat → Sector × Sector) :
    (bufferInit n tasks hd disk data).Ringed := by
  refine ⟨Option.some_ne_none 0, fun i => ?_, fun i => ?_⟩
  · rw [bufferInit_head]
    dsimp only
    split <;> exact Option.some_ne_none _
  · rw [bufferInit_head]
    dsimp only
    split <;> exact Option.some_ne_none _

end Cache

namespace Ram

variable {r r' r₀ : Ram} {p i tmp dev block : Nat} {g : Goal} {op : CacheOp}

theorem insert_ringed (h : r.cache.Ringed) (i : Nat) :
    ∃ r', r.insertIntoQueues i = some r' ∧ RheeKernel.insertIntoQueues r.cache i = some r'.cache ∧
      (Inside r r' ↔ r.cache.Filled i) ∧ (¬ r.cache.Filled i → r'.pgDir = Function.update r.pgDir 4 (r.pointer (some i))) := by
  obtain ⟨f, hf⟩ := Option.ne_none_iff_exists'.mp h.first
  obtain ⟨z, hz⟩ := Option.ne_none_iff_exists'.mp (h.prev f)
  obtain ⟨r', hr', hcache, _, hiff, hlow⟩ := @insert_spec r f i z hf hz
  exact ⟨r', hr', hcache, hiff, hlow⟩

/-- The end of `getblk` does to the cache what it does there. -/
theorem reinit_spec (h : r.cache.Ringed) (hpc : (r.cache.tasks p).pc = .reinit g dev block tmp) :
    (r.reinit p g dev block tmp).map Ram.cache = r.cache.reinit p g dev block tmp ∧
      ∀ r', r.reinit p g dev block tmp = some r' → r.Meets (.run p) → Inside r r' := by
  have hrename := @Ringed.rename r.cache dev block tmp h
  unfold reinit
  dsimp only
  cases hfind : findBuffer (r.cache.rename dev block tmp) dev block with
  | some a =>
    obtain ⟨u, hu, hcache, hiff, _⟩ := @insert_ringed { r with cache := (r.cache.rename dev block tmp).giveUp tmp } hrename.giveUp tmp
    have hinserting : r.cache.inserting (.run p) = some ((r.cache.rename dev block tmp).giveUp tmp, tmp) := by
      simp only [inserting, hpc, hfind]
    refine ⟨?_, fun r' hr' hmeets => ?_⟩
    · dsimp only
      rw [hu]
      rw [Cache.reinit_eq, hfind]
      dsimp only
      rw [hcache]
      rfl
    · dsimp only at hr'
      rw [hu] at hr'
      cases Option.some.inj hr'
      have hin := hiff.mpr (hmeets _ _ hinserting)
      exact ⟨hin.pgDir, hin.stores⟩
  | none =>
    obtain ⟨u, hu, hcache, hiff, _⟩ := @insert_ringed { r with cache := r.cache.rename dev block tmp } hrename tmp
    have hinserting : r.cache.inserting (.run p) = some (r.cache.rename dev block tmp, tmp) := by
      simp only [inserting, hpc, hfind]
    refine ⟨?_, fun r' hr' hmeets => ?_⟩
    · dsimp only
      rw [hu]
      rw [Cache.reinit_eq, hfind]
      dsimp only
      rw [hcache, Option.bind_some, Option.bind_some, Option.map_map]
      cases u.cache.gotBuffer p tmp g <;> rfl
    · dsimp only at hr'
      rw [hu, Option.bind_some] at hr'
      obtain ⟨s, _, rfl⟩ := Option.map_eq_some_iff.mp hr'
      have hin := hiff.mpr (hmeets _ _ hinserting)
      exact ⟨hin.pgDir, hin.stores⟩

theorem advance_spec (h : r.cache.Ringed) :
    (r.advance p).map Ram.cache = r.cache.advance p ∧ ∀ r', r.advance p = some r' → r.Meets (.run p) → Inside r r' := by
  have hquiet : ∀ o : Option Cache, (o.map fun s => ({ r with cache := s } : Ram)).map Ram.cache = o ∧
      ∀ r', (o.map fun s => ({ r with cache := s } : Ram)) = some r' → r.Meets (.run p) → Inside r r' := by
    intro o
    refine ⟨by cases o <;> rfl, fun r' hr' _ => ?_⟩
    obtain ⟨s, _, rfl⟩ := Option.map_eq_some_iff.mp hr'
    exact ⟨rfl, [], (List.append_nil _).symm, by simp⟩
  by_cases hre : ∃ g dev block tmp, (r.cache.tasks p).pc = .reinit g dev block tmp
  · obtain ⟨g, dev, block, tmp, hpc⟩ := hre
    have hram : r.advance p = r.reinit p g dev block tmp := by
      unfold advance
      rw [hpc]
    have hcache : r.cache.advance p = r.cache.reinit p g dev block tmp := by
      unfold Cache.advance
      rw [hpc]
    rw [hram, hcache]
    exact reinit_spec h hpc
  · have hram : r.advance p = (r.cache.advance p).map fun s => ({ r with cache := s } : Ram) := by
      unfold advance
      split
      next g dev block tmp hpc => exact absurd ⟨g, dev, block, tmp, hpc⟩ hre
      next => rfl
    rw [hram]
    exact hquiet _

/-- A step does to the cache what it does there, and stays inside where the condition is met. -/
theorem ramStep_spec (h : r.cache.Ringed) :
    (ramStep r op).map Ram.cache = cacheStep r.cache op ∧ ∀ r', ramStep r op = some r' → r.Meets op → Inside r r' := by
  have hquiet : ∀ o : Option Cache, (o.map fun s => ({ r with cache := s } : Ram)).map Ram.cache = o ∧
      ∀ r', (o.map fun s => ({ r with cache := s } : Ram)) = some r' → r.Meets op → Inside r r' := by
    intro o
    refine ⟨by cases o <;> rfl, fun r' hr' _ => ?_⟩
    obtain ⟨s, _, rfl⟩ := Option.map_eq_some_iff.mp hr'
    exact ⟨rfl, [], (List.append_nil _).symm, by simp⟩
  cases op with
  | run p =>
    obtain ⟨hcache, hin⟩ := advance_spec (p := p) h
    simp only [ramStep, cacheStep]
    split
    next =>
      refine ⟨?_, fun r' hr' hmeets => ?_⟩
      · rw [← hcache, Option.map_map, Option.map_map]
        rfl
      · obtain ⟨u, hu, rfl⟩ := Option.map_eq_some_iff.mp hr'
        have hu' := hin u hu hmeets
        exact ⟨hu'.pgDir, hu'.stores⟩
    next => exact ⟨rfl, fun r' hr' => by cases hr'⟩
  | getHashTable p dev block => exact hquiet _
  | getblk p dev block => exact hquiet _
  | bread p dev block => exact hquiet _
  | brelse p k => exact hquiet _
  | sysSync p => exact hquiet _
  | store p k second data => exact hquiet _
  | interrupt => exact hquiet _
  | ioError => exact hquiet _

/-- A run whose insertions all find a chain that is not empty. -/
theorem reach_inside (h₀ : r₀.cache.Ringed) (hr : Machine.Reach ramStep Ram.Meets r₀ r) :
    r.cache.Ringed ∧ Machine.Reach cacheStep (fun _ _ => True) r₀.cache r.cache ∧ Inside r₀ r := by
  induction hr with
  | start => exact ⟨h₀, .start, Inside.refl r₀⟩
  | @next r r' op _ hok hs ih =>
    obtain ⟨hring, hreach, hin⟩ := ih
    obtain ⟨hcache, hstep⟩ := @ramStep_spec r op hring
    rw [hs] at hcache
    exact ⟨hring.step hcache.symm, .next hreach trivial hcache.symm, hin.trans (hstep r' hs hok)⟩

/-- `insert_into_queues` stores into buffer heads and `hash_table` only, unless the head has a device and its chain is
empty; and so does every run of the buffer code whose insertions meet that. -/
theorem insertions_inside (h₀ : r₀.cache.Ringed) :
    (∀ (r : Ram) (D : Nat → Prop) (i : Nat), r.cache.Wf D → D i →
      ∃ r', r.insertIntoQueues i = some r' ∧ RheeKernel.insertIntoQueues r.cache i = some r'.cache ∧ (Inside r r' ↔ r.cache.Filled i)) ∧
    ∀ r, Machine.Reach ramStep Ram.Meets r₀ r → r.pgDir = r₀.pgDir ∧ Inside r₀ r := by
  refine ⟨fun r D i hwf _ => ?_, fun r hr => ?_⟩
  · obtain ⟨l, f, hring, hf, hfl, _⟩ := hwf.ring
    obtain ⟨z, _, hz⟩ := hring.prev_mem hfl
    obtain ⟨r', hr', hcache, _, hiff, _⟩ := @insert_spec r f i z hf hz
    exact ⟨r', hr', hcache, hiff⟩
  · obtain ⟨_, _, hin⟩ := reach_inside h₀ hr
    exact ⟨hin.pgDir, hin⟩

/-- After `buffer_init`, with the page directory as `head.s` has set it up. -/
def boot (n startBuffer : Nat) (pgDir : Nat → Word) : Ram where
  cache := bufferInit n 1 (fun _ => ⟨0, 0⟩) (fun _ _ _ => 0) fun _ => (0, 0)
  startBuffer := startBuffer
  pgDir := pgDir
  stores := []

theorem insertions_inside_boot : (∀ (r : Ram) (D : Nat → Prop) (i : Nat), r.cache.Wf D → D i →
      ∃ r', r.insertIntoQueues i = some r' ∧ RheeKernel.insertIntoQueues r.cache i = some r'.cache ∧ (Inside r r' ↔ r.cache.Filled i)) ∧
    ∀ r, Machine.Reach ramStep Ram.Meets (boot 2 0x100000 fun _ => 0#32) r →
      r.pgDir = (fun _ => 0#32) ∧ Inside (boot 2 0x100000 fun _ => 0#32) r :=
  insertions_inside (bufferInit_ringed _ _ _ _ _)

/-- The first `getblk` after `buffer_init` finds an empty chain and stores into the page directory. -/
theorem firstGetblk_low : ((Machine.exec ramStep (boot 2 0x100000 fun _ => 0#32) [.getblk 0 0x301 5, .run 0, .run 0, .run 0, .run 0]).map
    fun r => (r.pgDir 4, decide (StoreCell.low 16 ∈ r.stores), (r.cache.tasks 0).refs.length)) = some (0x100000#32, true, 1) := by
  decide

theorem insertions_inside_fails : ¬ ∀ r, Machine.Reach ramStep (fun _ _ => True) (boot 2 0x100000 fun _ => 0#32) r →
    r.pgDir = (boot 2 0x100000 fun _ => 0#32).pgDir := by
  intro hall
  obtain ⟨r, hr, hlow⟩ := Option.map_eq_some_iff.mp firstGetblk_low
  have hword := congrFun (hall r (Machine.Reach.exec .start (fun _ _ _ => trivial) hr)) 4
  rw [(Prod.mk.inj hlow).1] at hword
  cases hword

end Ram

end RheeKernel
