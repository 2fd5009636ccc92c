import RheeKernel.DirScan
import Mathlib.Tactic.Common

namespace RheeKernel

namespace Buffers

/-- Every buffer has been given back once, but for the one that is kept. -/
structure Balanced (s : Buffers) (kept : Option Nat) : Prop where
  got : ∀ m, kept = some m → m < s.got
  drops : ∀ m, s.drops m = if m < s.got ∧ kept ≠ some m then 1 else 0

variable {s : Buffers} {m : Nat}

theorem balanced_start : ({} : Buffers).Balanced none := ⟨nofun, fun m => by rw [if_neg fun h => Nat.not_lt_zero m h.1]⟩

theorem Balanced.get (h : s.Balanced none) : ({ s with got := s.got + 1 } : Buffers).Balanced (some s.got) := by
  refine ⟨fun m hm => ?_, fun m => ?_⟩
  · cases hm
    exact Nat.lt_succ_self _
  · change s.drops m = _
    rw [h.drops]
    dsimp only
    by_cases hm : m = s.got
    · rw [hm, if_neg fun hlt => Nat.lt_irrefl _ hlt.1, if_neg fun hne => hne.2 rfl]
    · by_cases hlt : m < s.got
      · rw [if_pos ⟨hlt, nofun⟩, if_pos ⟨by omega, fun he => hm (Option.some.inj he).symm⟩]
      · rw [if_neg fun h => hlt h.1, if_neg fun h => by omega]

theorem Balanced.drop (h : s.Balanced (some m)) : (s.brelse (some m)).Balanced none := by
  refine ⟨nofun, fun k => ?_⟩
  change Function.update s.drops m (s.drops m + 1) k = if k < s.got ∧ none ≠ some k then 1 else 0
  have hm := h.got m rfl
  by_cases hk : k = m
  · rw [hk, Function.update_self, h.drops, if_neg fun hne => hne.2 rfl, if_pos ⟨hm, nofun⟩]
  · rw [Function.update_of_ne hk, h.drops]
    by_cases hlt : k < s.got
    · rw [if_pos ⟨hlt, fun he => hk (Option.some.inj he).symm⟩, if_pos ⟨hlt, nofun⟩]
    · rw [if_neg fun h => hlt h.1, if_neg fun h => hlt h.1]

theorem brelse_drops : (s.brelse (some m)).drops m = s.drops m + 1 := Function.update_self ..

theorem Balanced.no_fault (h : s.Balanced (some m)) : s.fault (some m) = none := by
  have hzero : s.drops m = 0 := (h.drops m).trans (if_neg fun hne => hne.2 rfl)
  exact if_pos hzero

theorem Balanced.drop_fault (h : s.Balanced (some m)) : (s.brelse (some m)).fault (some m) = some .releasedPointer := by
  have hone : (s.brelse (some m)).drops m = 1 := (h.drop.drops m).trans (if_pos ⟨h.got m rfl, nofun⟩)
  exact if_neg (by omega)

end Buffers

namespace DirScan

/-- Entry `j` has been read, and it satisfies `p`. -/
def Entry (block : Nat → BlockRead) (p : Nat → NameEntry → Prop) (j : Nat) : Prop :=
  ∃ e, block (j / 64) = .entries e ∧ p j (e (j % 64))

/-- `de` is entry `i`, or the end of the block before it. -/
structure At (block : Nat → BlockRead) (i : Nat) (c : Cursor) (s : Buffers) (m : Nat) : Prop where
  live : c.bh = some m
  balanced : s.Balanced (some m)
  here : ∃ q, q < maxFileBlocks ∧ block q = .entries c.data ∧ c.de ≤ 64 ∧ i = 64 * q + c.de

variable {block : Nat → BlockRead} {name : List UInt8} {c c' : Cursor} {s s' : Buffers} {entries size num i j m n q : Nat}
  {p : Nat → NameEntry → Prop}

/-- The entry at the cursor. -/
theorem At.entry (h : At block i c s m) (hde : c.de < 64) (hp : p i (c.data c.de)) : Entry block p i := by
  obtain ⟨q, _, hblock, _, hi⟩ := h.here
  refine ⟨c.data, ?_, ?_⟩
  · rw [show i / 64 = q by omega]
    exact hblock
  · rw [show i % 64 = c.de by omega]
    exact hp

theorem At.entry_iff (h : At block i c s m) (hde : c.de < 64) : Entry block p i ↔ p i (c.data c.de) := by
  constructor
  · intro ⟨e, hblock', hp⟩
    obtain ⟨q, _, hblock, _, hi⟩ := h.here
    rw [show i / 64 = q by omega, hblock] at hblock'
    cases hblock'
    rw [show i % 64 = c.de by omega] at hp
    exact hp
  · exact h.entry hde

theorem At.next (h : At block i c s m) (hde : c.de < 64) : At block (i + 1) { c with de := c.de + 1 } s m := by
  obtain ⟨q, hq, hblock, _, hi⟩ := h.here
  exact ⟨h.live, h.balanced, q, hq, hblock, hde, by dsimp only; omega⟩

/-- The blocks that the scan has gone through have been read. -/
theorem At.read (h : At block i c s m) (hbefore : ∀ j < i, Entry block p j) (hq : 64 * q < i ∨ c.de < 64 ∧ 64 * q ≤ i) :
    q < maxFileBlocks ∧ ∃ e, block q = .entries e := by
  obtain ⟨r, hr, hblock, hde, hi⟩ := h.here
  refine ⟨by omega, ?_⟩
  by_cases hqr : q = r
  · rw [hqr]
    exact ⟨_, hblock⟩
  · obtain ⟨e, he, _⟩ := hbefore (64 * q) (by omega)
    rw [Nat.mul_div_cancel_left q (by decide)] at he
    exact ⟨e, he⟩

/-- A block that has not been read ends what has been read. -/
theorem le_of_read {r : Nat} (hall : ∀ j < 64 * r, Entry block p j) (hno : ∀ e, block q ≠ .entries e) : r ≤ q := by
  by_contra hgt
  obtain ⟨e, he, _⟩ := hall (64 * q) (by omega)
  rw [Nat.mul_div_cancel_left q (by decide)] at he
  exact hno e he

/-- At the head of a loop the cursor stays in its block or goes to the next one, if that can be read. -/
theorem turn_cases (h : At block i c s m) :
    (∃ c' s' m', turn block i c s = .ok (.cursor c', s') ∧ At block i c' s' m' ∧ c'.de < 64) ∨
    ∃ q, 0 < q ∧ i = 64 * q ∧ ((maxFileBlocks ≤ q ∧ turn block i c s = .error .panic) ∨
      (q < maxFileBlocks ∧ block q = .unmapped ∧ turn block i c s = .ok (.unmapped, s.brelse c.bh)) ∨
      (q < maxFileBlocks ∧ block q = .unreadable ∧ turn block i c s = .ok (.unreadable, s.brelse c.bh))) := by
  obtain ⟨q, hq, hblock, hde, hi⟩ := h.here
  unfold turn dirEntriesPerBlock
  rw [h.live, h.balanced.no_fault]
  dsimp only
  by_cases hin : c.de < 64
  · rw [if_neg (by omega)]
    exact .inl ⟨c, s, m, rfl, h, hin⟩
  · rw [if_pos (by omega), show i / 64 = q + 1 by omega]
    unfold fetch
    by_cases hmax : maxFileBlocks ≤ q + 1
    · rw [if_pos hmax]
      exact .inr ⟨q + 1, by omega, by omega, .inl ⟨hmax, rfl⟩⟩
    · rw [if_neg hmax]
      cases hnext : block (q + 1) with
      | unmapped => exact .inr ⟨q + 1, by omega, by omega, .inr (.inl ⟨by omega, hnext, rfl⟩)⟩
      | unreadable => exact .inr ⟨q + 1, by omega, by omega, .inr (.inr ⟨by omega, hnext, rfl⟩)⟩
      | entries e =>
        exact .inl ⟨_, _, _, rfl, ⟨rfl, h.balanced.drop.get, q + 1, by omega, hnext, Nat.zero_le _, by dsimp only; omega⟩,
          Nat.zero_lt_succ 63⟩

/-- A call has ended well: it has given back what it has got, but for what it returns. -/
def Ends {α : Type} (kept : α → Option Nat) (r : Except ScanFault (α × Buffers)) : Prop :=
  ∃ a s, r = .ok (a, s) ∧ s.Balanced (kept a)

/-- A call has gone wrong, but it has not gone on for ever. -/
def Faults {α : Type} (kept : α → Option Nat) (r : Except ScanFault (α × Buffers)) : Prop :=
  (∃ f, f ≠ .spent ∧ r = .error f) ∨ ∃ a s, r = .ok (a, s) ∧ ¬ s.Balanced (kept a)

def keptEntry (r : Option (Option Nat × Nat)) : Option Nat := r.bind Prod.fst

/-- The blocks from the second on that `find_entry` comes to can be read, except for one that ends the directory. -/
def FindSound (block : Nat → BlockRead) (entries : Nat) (name : List UInt8) : Prop :=
  ∀ q, 0 < q → 64 * q < entries → (∀ j < 64 * q, Entry block (fun _ de => matchName name de = false) j) →
    q < maxFileBlocks ∧ ((∃ e, block q = .entries e) ∨ entries ≤ 64 * (q + 1))

theorem At.findSound (h : At block i c s m) (hbefore : ∀ j < i, Entry block (fun _ de => matchName name de = false) j)
    (hq : ∀ q, 64 * q < entries → (∀ j < 64 * q, Entry block (fun _ de => matchName name de = false) j) →
      64 * q < i ∨ c.de < 64 ∧ 64 * q ≤ i) : FindSound block entries name := by
  intro q _ hlt hall
  obtain ⟨hmax, hread⟩ := h.read hbefore (hq q hlt hall)
  exact ⟨hmax, .inl hread⟩

theorem ends_or_faults {α : Type} {kept : α → Option Nat} {r : Except ScanFault (α × Buffers)} {P : Prop} (hP : P) (h : Ends kept r) :
    (P → Ends kept r) ∧ (¬ P → Faults kept r) := ⟨fun _ => h, fun hn => absurd hP hn⟩

theorem faults_or_ends {α : Type} {kept : α → Option Nat} {r : Except ScanFault (α × Buffers)} {P : Prop} (hP : ¬ P)
    (h : Faults kept r) : (P → Ends kept r) ∧ (¬ P → Faults kept r) := ⟨fun hp => absurd hp hP, fun _ => h⟩

/-- The loop of `find_entry` after a block that could not be read: `bh` is null, and must not be looked at again. -/
theorem findLoop_null (hn : 0 < n) (hend : entries ≤ i) :
    findLoop block name entries n i { c with bh := none } s = .ok (none, s) := by
  cases n with
  | zero => exact absurd hn (Nat.lt_irrefl 0)
  | succ n =>
    unfold findLoop
    rw [if_neg (by omega)]
    rfl

theorem findLoop_null_fault (hn : 0 < n) (hmore : i < entries) :
    findLoop block name entries n i { c with bh := none } s = .error .nullPointer := by
  cases n with
  | zero => exact absurd hn (Nat.lt_irrefl 0)
  | succ n =>
    unfold findLoop
    rw [if_pos hmore]
    rfl

theorem findLoop_run (hi : i ≤ entries) (hn : entries < i + n) (hat : At block i c s m)
    (hbefore : ∀ j < i, Entry block (fun _ de => matchName name de = false) j) :
    (FindSound block entries name → Ends keptEntry (findLoop block name entries n i c s)) ∧
      (¬ FindSound block entries name → Faults keptEntry (findLoop block name entries n i c s)) := by
  induction n generalizing i c s m with
  | zero => omega
  | succ n ih =>
    unfold findLoop
    by_cases hlt : i < entries
    · rw [if_pos hlt]
      rcases turn_cases hat with ⟨c', s', m', hturn, hat', hde⟩ | ⟨q, hq, hiq, hbad⟩
      · rw [hturn]
        change (_ → Ends _ (if _ then _ else _)) ∧ (_ → Faults _ (if _ then _ else _))
        by_cases hmatch : matchName name (c'.data c'.de) = true
        · rw [if_pos hmatch]
          refine ends_or_faults (hat'.findSound hbefore fun q _ hall => .inr ⟨hde, ?_⟩) ⟨_, _, rfl, ?_⟩
          · by_contra hgt
            have hno := (hat'.entry_iff hde).mp (hall i (by omega))
            rw [hmatch] at hno
            cases hno
          · unfold keptEntry
            rw [Option.bind_some, hat'.live]
            exact hat'.balanced
        · rw [if_neg hmatch]
          refine ih (by omega) (by omega) (hat'.next hde) fun j hj => ?_
          by_cases hji : j = i
          · rw [hji]
            exact hat'.entry hde (Bool.eq_false_iff.mpr hmatch)
          · exact hbefore j (by omega)
      · have hreached : ∀ j < 64 * q, Entry block (fun _ de => matchName name de = false) j := fun j hj => hbefore j (by omega)
        -- The block is passed over: the scan ends well only if nothing of the directory is left behind it.
        have hskip : q < maxFileBlocks → (∀ e, block q ≠ .entries e) →
            (FindSound block entries name →
              Ends keptEntry (findLoop block name entries n (i + dirEntriesPerBlock) { c with bh := none } (s.brelse c.bh))) ∧
            (¬ FindSound block entries name →
              Faults keptEntry (findLoop block name entries n (i + dirEntriesPerBlock) { c with bh := none } (s.brelse c.bh))) := by
          intro hmax hne
          unfold dirEntriesPerBlock
          by_cases hend : entries ≤ i + 64
          · rw [findLoop_null (by omega) hend, hat.live]
            refine ends_or_faults (fun r hr hr' hall => ?_) ⟨_, _, rfl, hat.balanced.drop⟩
            by_cases hrq : r = q
            · rw [hrq]
              exact ⟨hmax, .inr (by omega)⟩
            · obtain ⟨hrmax, hread⟩ := hat.read hbefore (q := r) (.inl (by omega))
              exact ⟨hrmax, .inl hread⟩
          · rw [findLoop_null_fault (by omega) (by omega)]
            refine faults_or_ends (fun hsound => ?_) (.inl ⟨.nullPointer, nofun, rfl⟩)
            rcases (hsound q hq (by omega) hreached).2 with ⟨e, he⟩ | hle
            · exact hne e he
            · omega
        rcases hbad with ⟨hmax, hturn⟩ | ⟨hmax, hblock, hturn⟩ | ⟨hmax, hblock, hturn⟩
        · rw [hturn]
          refine faults_or_ends (fun hsound => ?_) (.inl ⟨.panic, nofun, rfl⟩)
          have := (hsound q hq (by omega) hreached).1
          omega
        · rw [hturn]
          exact hskip hmax fun e he => by rw [hblock] at he; cases he
        · rw [hturn]
          exact hskip hmax fun e he => by rw [hblock] at he; cases he
    · rw [if_neg hlt, hat.live]
      exact ends_or_faults (hat.findSound hbefore fun q hq _ => .inl (by omega)) ⟨_, _, rfl, hat.balanced.drop⟩

/-- The blocks from the second on that `add_entry` comes to can be read, or no block is left to be allocated. -/
def AddSound (block : Nat → BlockRead) (size : Nat) : Prop :=
  ∀ q, 0 < q → (∀ j < 64 * q, Entry block (fun j de => j * 16 < size ∧ de.inode ≠ 0) j) → q < maxFileBlocks ∧ block q ≠ .unreadable

theorem addLoop_null_fault (hn : 0 < n) : addLoop block size n i { c with bh := none } s = .error .nullPointer := by
  cases n with
  | zero => exact absurd hn (Nat.lt_irrefl 0)
  | succ n =>
    unfold addLoop
    rfl

theorem addLoop_run (hi : i * 16 ≤ size + 15) (hn : size / 16 + 3 ≤ i + n) (hat : At block i c s m)
    (hbefore : ∀ j < i, Entry block (fun j de => j * 16 < size ∧ de.inode ≠ 0) j) :
    (AddSound block size → Ends keptEntry (addLoop block size n i c s)) ∧
      (¬ AddSound block size → Faults keptEntry (addLoop block size n i c s)) := by
  induction n generalizing i c s m with
  | zero => omega
  | succ n ih =>
    unfold addLoop
    rcases turn_cases hat with ⟨c', s', m', hturn, hat', hde⟩ | ⟨q, hq, hiq, hbad⟩
    · rw [hturn]
      change (_ → Ends _ (if _ then _ else _)) ∧ (_ → Faults _ (if _ then _ else _))
      by_cases hfree : size ≤ i * direntSize ∨ (c'.data c'.de).inode = 0
      · rw [if_pos hfree]
        refine ends_or_faults (fun q _ hall => ?_) ⟨_, _, rfl, ?_⟩
        · have hle : 64 * q ≤ i := by
            by_contra hgt
            have hused := (hat'.entry_iff hde).mp (hall i (by omega))
            unfold direntSize at hfree
            rcases hfree with hfree | hfree
            · omega
            · exact hused.2 hfree
          obtain ⟨hmax, e, he⟩ := hat'.read hbefore (.inr ⟨hde, hle⟩)
          exact ⟨hmax, fun hr => by rw [hr] at he; cases he⟩
        · unfold keptEntry
          rw [Option.bind_some, hat'.live]
          exact hat'.balanced
      · rw [if_neg hfree]
        unfold direntSize at hfree
        rw [not_or] at hfree
        refine ih (by omega) (by omega) (hat'.next hde) fun j hj => ?_
        by_cases hji : j = i
        · rw [hji]
          exact hat'.entry hde ⟨by omega, hfree.2⟩
        · exact hbefore j (by omega)
    · have hreached : ∀ j < 64 * q, Entry block (fun j de => j * 16 < size ∧ de.inode ≠ 0) j := fun j hj => hbefore j (by omega)
      rcases hbad with ⟨hmax, hturn⟩ | ⟨hmax, hblock, hturn⟩ | ⟨hmax, hblock, hturn⟩
      · rw [hturn]
        refine faults_or_ends (fun hsound => ?_) (.inl ⟨.panic, nofun, rfl⟩)
        have := (hsound q hq hreached).1
        omega
      · rw [hturn, hat.live]
        refine ends_or_faults (fun r hr hall => ?_) ⟨_, _, rfl, hat.balanced.drop⟩
        by_cases hrq : r = q
        · rw [hrq, hblock]
          exact ⟨hmax, nofun⟩
        · have hle := le_of_read hall fun e he => by rw [hblock] at he; cases he
          obtain ⟨hrmax, e, he⟩ := hat.read hbefore (q := r) (.inl (by omega))
          exact ⟨hrmax, fun hr => by rw [hr] at he; cases he⟩
      · rw [hturn]
        change (_ → Ends _ (addLoop block size n (i + dirEntriesPerBlock) { c with bh := none } (s.brelse c.bh))) ∧
          (_ → Faults _ (addLoop block size n (i + dirEntriesPerBlock) { c with bh := none } (s.brelse c.bh)))
        rw [addLoop_null_fault (by omega)]
        exact faults_or_ends (fun hsound : AddSound block size => (hsound q hq hreached).2 hblock) (.inl ⟨.nullPointer, nofun, rfl⟩)

def keptNone : Bool → Option Nat := fun _ => none

/-- The blocks from the second on that `empty_dir` comes to are mapped. -/
def EmptySound (block : Nat → BlockRead) (len : Nat) : Prop :=
  ∀ q, 0 < q → 64 * q < len → (∀ j < 64 * q, Entry block (fun j de => 2 ≤ j → de.inode = 0) j) →
    q < maxFileBlocks ∧ block q ≠ .unmapped

/-- The loop of `empty_dir` after a block that is not mapped: the buffer that has been given back is looked at, or given back again. -/
theorem emptyLoop_released {len : Nat} (hn : 0 < n) (hlive : c.bh = some m) (hs : s.Balanced (some m)) :
    Faults keptNone (emptyLoop block len n i c (s.brelse c.bh)) := by
  cases n with
  | zero => exact absurd hn (Nat.lt_irrefl 0)
  | succ n =>
    unfold emptyLoop
    rw [hlive]
    by_cases hmore : i < len
    · rw [if_pos hmore]
      refine .inl ⟨.releasedPointer, nofun, ?_⟩
      unfold turn
      rw [hlive, hs.drop_fault]
      rfl
    · rw [if_neg hmore]
      refine .inr ⟨_, _, rfl, fun hb => ?_⟩
      have htwice := hb.drops m
      have hone : (s.brelse (some m)).drops m = 1 := (hs.drop.drops m).trans (if_pos ⟨hs.got m rfl, nofun⟩)
      have htwo : ((s.brelse (some m)).brelse (some m)).drops m = 2 := by
        rw [Buffers.brelse_drops, hone]
      rw [htwo] at htwice
      split at htwice <;> omega

theorem emptyLoop_run {len : Nat} (hi : i ≤ len) (hn : len < i + n) (hat : At block i c s m)
    (hbefore : ∀ j < i, Entry block (fun j de => 2 ≤ j → de.inode = 0) j) (h2 : 2 ≤ i) :
    (EmptySound block len → Ends keptNone (emptyLoop block len n i c s)) ∧
      (¬ EmptySound block len → Faults keptNone (emptyLoop block len n i c s)) := by
  induction n generalizing i c s m with
  | zero => omega
  | succ n ih =>
    have hread : ∀ {i : Nat} {c : Cursor} {s : Buffers} {m q : Nat}, At block i c s m →
        (∀ j < i, Entry block (fun j de => 2 ≤ j → de.inode = 0) j) → 64 * q < i ∨ c.de < 64 ∧ 64 * q ≤ i →
        q < maxFileBlocks ∧ block q ≠ .unmapped := by
      intro i c s m q hat hbefore hq
      obtain ⟨hmax, e, he⟩ := hat.read hbefore hq
      exact ⟨hmax, fun hr => by rw [hr] at he; cases he⟩
    unfold emptyLoop
    by_cases hlt : i < len
    · rw [if_pos hlt]
      rcases turn_cases hat with ⟨c', s', m', hturn, hat', hde⟩ | ⟨q, hq, hiq, hbad⟩
      · rw [hturn]
        change (_ → Ends _ (if _ then _ else _)) ∧ (_ → Faults _ (if _ then _ else _))
        by_cases hused : (c'.data c'.de).inode ≠ 0
        · rw [if_pos hused, hat'.live]
          refine ends_or_faults (fun q _ _ hall => hread hat' hbefore (.inr ⟨hde, ?_⟩)) ⟨_, _, rfl, hat'.balanced.drop⟩
          by_contra hgt
          exact hused ((hat'.entry_iff hde).mp (hall i (by omega)) h2)
        · rw [if_neg hused]
          refine ih (by omega) (by omega) (hat'.next hde) (fun j hj => ?_) (by omega)
          by_cases hji : j = i
          · rw [hji]
            exact hat'.entry hde fun _ => not_not.mp hused
          · exact hbefore j (by omega)
      · have hreached : ∀ j < 64 * q, Entry block (fun j de => 2 ≤ j → de.inode = 0) j := fun j hj => hbefore j (by omega)
        rcases hbad with ⟨hmax, hturn⟩ | ⟨hmax, hblock, hturn⟩ | ⟨hmax, hblock, hturn⟩
        · rw [hturn]
          refine faults_or_ends (fun hsound => ?_) (.inl ⟨.panic, nofun, rfl⟩)
          have := (hsound q hq (by omega) hreached).1
          omega
        · rw [hturn]
          exact faults_or_ends (fun hsound : EmptySound block len => (hsound q hq (by omega) hreached).2 hblock)
            (emptyLoop_released (by omega) hat.live hat.balanced)
        · rw [hturn, hat.live]
          refine ends_or_faults (fun r hr _ hall => ?_) ⟨_, _, rfl, hat.balanced.drop⟩
          by_cases hrq : r = q
          · rw [hrq, hblock]
            exact ⟨hmax, nofun⟩
          · have hle := le_of_read hall fun e he => by rw [hblock] at he; cases he
            exact hread hat hbefore (.inl (by omega))
    · rw [if_neg hlt, hat.live]
      exact ends_or_faults (fun q _ hq _ => hread hat hbefore (.inl (by omega))) ⟨_, _, rfl, hat.balanced.drop⟩

theorem ends_iff {α : Type} {kept : α → Option Nat} {r : Except ScanFault (α × Buffers)} {P : Prop}
    (h : (P → Ends kept r) ∧ (¬ P → Faults kept r)) : (Ends kept r ↔ P) ∧ r ≠ .error .spent := by
  refine ⟨⟨fun hends => ?_, h.1⟩, fun hspent => ?_⟩
  · by_contra hP
    obtain ⟨a, s, hr, hb⟩ := hends
    rcases h.2 hP with ⟨f, _, hf⟩ | ⟨a', s', hr', hnb⟩
    · rw [hr] at hf
      cases hf
    · rw [hr] at hr'
      cases hr'
      exact hnb hb
  · by_cases hP : P
    · obtain ⟨a, s, hr, _⟩ := h.1 hP
      rw [hspent] at hr
      cases hr
    · rcases h.2 hP with ⟨f, hf, hr⟩ | ⟨a, s, hr, _⟩
      · rw [hspent] at hr
        cases hr
        exact hf rfl
      · rw [hspent] at hr
        cases hr

theorem at_first {e : Nat → NameEntry} (h0 : block 0 = .entries e) {de : Nat} (hde : de ≤ 64) :
    At block de ⟨some 0, e, de⟩ { got := 1 } 0 :=
  ⟨rfl, Buffers.balanced_start.get, 0, by decide, h0, hde, by dsimp only; omega⟩

/-- The entries `.` and `..` of a directory are as they should be. -/
def DotsRight (e : Nat → NameEntry) (num : Nat) : Prop :=
  (e 0).inode = num ∧ (e 1).inode ≠ 0 ∧ nameIs dotName (e 0) = true ∧ nameIs dotdotName (e 1) = true

theorem entry_first (hq : 0 < q) (hall : ∀ j < 64 * q, Entry block p j) : ∃ e, block 0 = .entries e := by
  obtain ⟨e, he, _⟩ := hall 0 (by omega)
  exact ⟨e, he⟩

/-- Without a first block nothing is read. -/
theorem no_first (h0 : ∀ e, block 0 ≠ .entries e) : first block s = none := by
  unfold first
  split
  next e he => exact absurd he (h0 e)
  next => rfl

theorem findEntry_run : (Ends keptEntry (findEntry block size name) ↔ name.take nameLen = [] ∨ FindSound block (size / 16) (name.take nameLen)) ∧
    findEntry block size name ≠ .error .spent := by
  refine ends_iff ?_
  unfold findEntry
  dsimp only
  by_cases hname : name.take nameLen = []
  · rw [if_pos hname]
    exact ends_or_faults (.inl hname) ⟨_, _, rfl, Buffers.balanced_start⟩
  · rw [if_neg hname, or_iff_right hname]
    by_cases h0 : ∃ e, block 0 = .entries e
    · obtain ⟨e, he⟩ := h0
      unfold first
      rw [he]
      exact findLoop_run (Nat.zero_le _) (by unfold direntSize; omega) (at_first he (Nat.zero_le _)) fun j hj => absurd hj (Nat.not_lt_zero j)
    · rw [no_first fun e he => h0 ⟨e, he⟩]
      exact ends_or_faults (fun q hq _ hall => absurd (entry_first hq hall) h0) ⟨_, _, rfl, Buffers.balanced_start⟩

theorem addEntry_run : (Ends keptEntry (addEntry block size name) ↔ name.take nameLen = [] ∨ AddSound block size) ∧
    addEntry block size name ≠ .error .spent := by
  refine ends_iff ?_
  unfold addEntry
  by_cases hname : name.take nameLen = []
  · rw [if_pos hname]
    exact ends_or_faults (.inl hname) ⟨_, _, rfl, Buffers.balanced_start⟩
  · rw [if_neg hname, or_iff_right hname]
    by_cases h0 : ∃ e, block 0 = .entries e
    · obtain ⟨e, he⟩ := h0
      unfold first
      rw [he]
      dsimp only
      have hn : size / 16 + 3 ≤ 0 + (size / direntSize + 3) := by
        unfold direntSize
        omega
      exact addLoop_run (show 0 * 16 ≤ size + 15 by omega) hn (at_first he (Nat.zero_le _)) fun j hj => absurd hj (Nat.not_lt_zero j)
    · rw [no_first fun e he => h0 ⟨e, he⟩]
      exact ends_or_faults (fun q hq hall => absurd (entry_first hq hall) h0) ⟨_, _, rfl, Buffers.balanced_start⟩

theorem emptyDir_run : (Ends keptNone (emptyDir block size num) ↔
      (2 ≤ size / 16 → ∀ e, block 0 = .entries e → DotsRight e num ∧ EmptySound block (size / 16))) ∧
    emptyDir block size num ≠ .error .spent := by
  refine ends_iff ?_
  unfold emptyDir direntSize
  dsimp only
  by_cases hlen : size / 16 < 2
  · rw [if_pos hlen]
    exact ends_or_faults (fun h => absurd h (by omega)) ⟨_, _, rfl, Buffers.balanced_start⟩
  · rw [if_neg hlen]
    by_cases h0 : ∃ e, block 0 = .entries e
    · obtain ⟨e, he⟩ := h0
      unfold first
      rw [he]
      dsimp only
      by_cases hwrong : (e 0).inode ≠ num ∨ (e 1).inode = 0 ∨ nameIs dotName (e 0) = false ∨ nameIs dotdotName (e 1) = false
      · rw [if_pos hwrong]
        refine faults_or_ends (fun h => ?_) (.inr ⟨_, _, rfl, fun hb => ?_⟩)
        · obtain ⟨⟨hnum, hparent, hdot, hdotdot⟩, _⟩ := h (by omega) e rfl
          rcases hwrong with h | h | h | h
          · exact h hnum
          · exact hparent h
          · rw [hdot] at h
            cases h
          · rw [hdotdot] at h
            cases h
        · have hleft := hb.drops 0
          rw [if_pos ⟨Nat.zero_lt_one, nofun⟩] at hleft
          cases hleft
      · rw [if_neg hwrong]
        rw [not_or, not_or, not_or] at hwrong
        obtain ⟨hnum, hparent, hdot, hdotdot⟩ := hwrong
        have hright : DotsRight e num := ⟨not_not.mp hnum, hparent, by simpa using hdot, by simpa using hdotdot⟩
        have hfirst : ∀ j < 2, Entry block (fun j de => 2 ≤ j → de.inode = 0) j := by
          intro j hj
          refine ⟨e, ?_, fun h => by omega⟩
          rw [show j / 64 = 0 by omega]
          exact he
        obtain ⟨hsound, hfaults⟩ := emptyLoop_run (n := size / 16 + 1) (show 2 ≤ size / 16 by omega) (by omega)
          (at_first he (show 2 ≤ 64 by decide)) hfirst (Nat.le_refl 2)
        refine ⟨fun h => hsound (h (by omega) e rfl).2, fun h => hfaults fun hes => h fun _ e' he' => ?_⟩
        cases he'
        exact ⟨hright, hes⟩
    · rw [no_first fun e he => h0 ⟨e, he⟩]
      exact ends_or_faults (fun _ e he => absurd ⟨e, he⟩ h0) ⟨_, _, rfl, Buffers.balanced_start⟩

/-- Which directories the scans of `namei.c` go through without looking at a buffer that they have given back, and with each buffer
given back once; all of them end. -/
theorem scans_balanced_iff (block : Nat → BlockRead) (size num : Nat) (name : List UInt8) :
    ((Ends keptEntry (findEntry block size name) ↔ name.take nameLen = [] ∨ FindSound block (size / 16) (name.take nameLen)) ∧
      findEntry block size name ≠ .error .spent) ∧
    ((Ends keptEntry (addEntry block size name) ↔ name.take nameLen = [] ∨ AddSound block size) ∧
      addEntry block size name ≠ .error .spent) ∧
    (Ends keptNone (emptyDir block size num) ↔
      (2 ≤ size / 16 → ∀ e, block 0 = .entries e → DotsRight e num ∧ EmptySound block (size / 16))) ∧
    emptyDir block size num ≠ .error .spent :=
  ⟨findEntry_run, addEntry_run, emptyDir_run⟩

/-- A directory whose first block is full of entries with inode 7; the next one cannot be read, or is not mapped. -/
def brokenDir (next : BlockRead) : Nat → BlockRead := fun q => if q = 0 then .entries fun _ => ⟨7, fun _ => 65⟩ else next

/-- A directory whose entries `.` and `..` are right, all others being free, and whose second block is not mapped. -/
def holeyDir : Nat → BlockRead := fun q =>
  if q = 0 then .entries fun j => if j = 0 then ⟨7, fun k => dotName.getD k 0⟩ else if j = 1 then ⟨1, fun k => dotdotName.getD k 0⟩ else ⟨0, fun _ => 0⟩
  else .unmapped

def fault {α : Type} : Except ScanFault α → Option ScanFault
  | .error f => some f
  | .ok _ => none

/-- A null pointer in `find_entry` and `add_entry`; in `empty_dir` a pointer that has been given back, and a buffer that is not. -/
theorem scans_not_balanced :
    fault (findEntry (brokenDir .unreadable) 4096 [66]) = some .nullPointer ∧
    fault (addEntry (brokenDir .unreadable) 4096 [66]) = some .nullPointer ∧
    fault (emptyDir holeyDir 4096 7) = some .releasedPointer ∧
    (emptyDir (brokenDir .unmapped) 4096 7).toOption.map (fun r => (r.1, r.2.got, r.2.drops 0)) = some (false, 1, 0) := by
  decide +kernel

end DirScan

end RheeKernel
