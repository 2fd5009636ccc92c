import RheeKernel.BootLoader
import RheeKernel.CopyProcess

namespace RheeKernel

open ByteMemory

/-- The processor's registers for paging. -/
structure Paging where
  cr0 : Word
  cr3 : Word

namespace Head

def pg0 : Word := 0x1000
def pg1 : Word := 0x2000

/-- `rep stosl` with the direction forward, and so many words in `ecx`. -/
def repStosl (eax : Word) : Nat → Word → (Nat → UInt8) → Nat → UInt8
  | 0, _, m => m
  | ecx + 1, edi, m => repStosl eax ecx (edi + 4) (putLong m edi.toNat eax.toNat)

/-- The loop of `setup_paging` that fills the page tables backwards, for so many turns at most. -/
def fillPages : Nat → Word → Word → (Nat → UInt8) → Option (Nat → UInt8)
  | 0, _, _, _ => none
  | fuel + 1, edi, eax, m =>
    let m := putLong m edi.toNat eax.toNat
    let edi := edi - 4
    if (0x1000 : Word).sle eax then fillPages fuel edi (eax - 0x1000) m else some m

/-- `setup_paging`, with the page directory at 0. -/
def setupPaging (fuel : Nat) (cr0 : Word) (m : Nat → UInt8) : Option ((Nat → UInt8) × Paging) :=
  let m := repStosl 0 (1024 * 3) 0 m
  let m := putLong m 0 (pg0 + 7).toNat
  let m := putLong m 4 (pg1 + 7).toNat
  (fillPages fuel (pg1 + 4092) 0x7ff007 m).map fun m => (m, ⟨cr0 ||| 0x80000000, 0⟩)

end Head

/-- Memory word by word, a page named by its address. -/
def longs (m : Nat → UInt8) (page i : Nat) : Word := BitVec.ofNat 32 (getLong m (page + 4 * i))

/-- Where the processor finds a linear address: over the directory and a page table once paging is on; nowhere when one of the two has no
entry for it. -/
def Paging.physical (p : Paging) (m : Nat → UInt8) (address : Nat) : Option Nat :=
  if p.cr0.getLsbD 31 then
    let dir := longs m (pageAddr p.cr3) (dirOf address)
    if present dir then
      let entry := longs m (pageAddr dir) (slotOf address)
      if present entry then some (pageAddr entry + address % 4096) else none
    else none
  else some address

namespace Head

variable {m m' : Nat → UInt8} {eax edi cr0 : Word} {a v n fuel : Nat}

theorem add_four (room : edi.toNat + 4 < 2 ^ 32) : (edi + 4).toNat = edi.toNat + 4 := by
  rw [BitVec.toNat_add]
  exact Nat.mod_eq_of_lt room

/-- The words that `rep stosl` has stored, and the bytes around them. -/
theorem repStosl_spec (room : edi.toNat + 4 * n < 2 ^ 32) :
    (∀ k < n, getLong (repStosl eax n edi m) (edi.toNat + 4 * k) = eax.toNat) ∧
      ∀ x, x < edi.toNat ∨ edi.toNat + 4 * n ≤ x → repStosl eax n edi m x = m x := by
  induction n generalizing edi m with
  | zero => exact ⟨fun k hk => absurd hk (Nat.not_lt_zero k), fun _ _ => rfl⟩
  | succ n ih =>
    have next := @add_four edi (by omega)
    obtain ⟨words, others⟩ := @ih (putLong m edi.toNat eax.toNat) (edi + 4) (by omega)
    rw [next] at words others
    rw [repStosl]
    refine ⟨fun k hk => ?_, fun x hx => ?_⟩
    · cases k with
      | zero =>
        rw [getLong_congr fun x _ hx => others x (by omega)]
        exact getLong_putLong eax.isLt
      | succ k =>
        have place : edi.toNat + 4 * (k + 1) = edi.toNat + 4 + 4 * k := by omega
        rw [place]
        exact words k (by omega)
    · rw [others x (by omega)]
      exact putLong_other (by omega)

/-- With the entry of page `n` in `eax` and `edi` at its place the loop fills this entry and those of all pages below it. -/
theorem fillPages_spec (small : n < 2048) (hedi : edi.toNat = 0x1000 + 4 * n) (heax : eax.toNat = 4096 * n + 7) (enough : n < fuel) :
    ∃ m', fillPages fuel edi eax m = some m' ∧ (∀ k ≤ n, getLong m' (0x1000 + 4 * k) = 4096 * k + 7) ∧
      ∀ x, x < 0x1000 ∨ 0x1000 + 4 * n + 4 ≤ x → m' x = m x := by
  induction n generalizing fuel edi eax m with
  | zero =>
    obtain ⟨fuel, rfl⟩ : ∃ f, fuel = f + 1 := ⟨fuel - 1, by omega⟩
    have last : (0x1000 : Word).sle eax = false := by
      have value : eax = 7 := BitVec.eq_of_toNat_eq heax
      rw [value]
      rfl
    rw [fillPages, last]
    refine ⟨_, rfl, fun k hk => ?_, fun x hx => ?_⟩
    · obtain rfl : k = 0 := by omega
      rw [hedi, getLong_putLong eax.isLt, heax]
    · rw [hedi]
      exact putLong_other (by omega)
  | succ n ih =>
    obtain ⟨fuel, rfl⟩ : ∃ f, fuel = f + 1 := ⟨fuel - 1, by omega⟩
    have more : (0x1000 : Word).sle eax = true := by
      have four : (0x1000 : Word).toInt = 4096 := rfl
      rw [BitVec.sle_eq_decide, decide_eq_true_iff, four, BitVec.toInt_eq_toNat_of_lt (by omega)]
      omega
    have down : (edi - 4).toNat = 0x1000 + 4 * n := by
      have four : (4 : Word).toNat = 4 := rfl
      rw [BitVec.toNat_sub, four]
      omega
    have less : (eax - 0x1000).toNat = 4096 * n + 7 := by
      have page : (0x1000 : Word).toNat = 4096 := rfl
      rw [BitVec.toNat_sub, page]
      omega
    obtain ⟨m', run, words, others⟩ := @ih (putLong m edi.toNat eax.toNat) _ _ fuel (by omega) down less (by omega)
    rw [fillPages, if_pos more]
    refine ⟨m', run, fun k hk => ?_, fun x hx => ?_⟩
    · by_cases here : k = n + 1
      · rw [here, getLong_congr fun x hl _ => others x (by omega), hedi, getLong_putLong eax.isLt, heax]
      · exact words k (by omega)
    · rw [others x (by omega), hedi]
      exact putLong_other (by omega)

/-- What `setup_paging` leaves in memory. -/
theorem setupPaging_spec (enough : 2047 < fuel) :
    ∃ m', setupPaging fuel cr0 m = some (m', ⟨cr0 ||| 0x80000000, 0⟩) ∧
      (∀ k < 1024, getLong m' (4 * k) = if k = 0 then 0x1007 else if k = 1 then 0x2007 else 0) ∧
      (∀ k < 2048, getLong m' (0x1000 + 4 * k) = 4096 * k + 7) ∧ ∀ x, 0x3000 ≤ x → m' x = m x := by
  have zero : (0 : Word).toNat = 0 := rfl
  obtain ⟨words, others⟩ := @repStosl_spec m 0 0 (1024 * 3) (by rw [zero]; omega)
  rw [zero] at words others
  obtain ⟨m', run, entries, rest⟩ := @fillPages_spec (putLong (putLong (repStosl 0 (1024 * 3) 0 m) 0 (pg0 + 7).toNat) 4 (pg1 + 7).toNat)
    0x7ff007 (pg1 + 4092) 2047 _ (by omega) rfl rfl enough
  refine ⟨m', ?_, fun k hk => ?_, fun k hk => entries k (by omega), fun x hx => ?_⟩
  · unfold setupPaging
    dsimp only
    rw [run, Option.map_some]
  · rw [getLong_congr fun x _ hx => rest x (by omega)]
    by_cases first : k = 0
    · rw [if_pos first, first, getLong_putLong_other (by omega)]
      exact getLong_putLong (pg0 + 7).isLt
    rw [if_neg first]
    by_cases second : k = 1
    · rw [if_pos second, second]
      exact getLong_putLong (pg1 + 7).isLt
    · have word := words k (by omega)
      rw [Nat.zero_add] at word
      rw [if_neg second, getLong_putLong_other (by omega), getLong_putLong_other (by omega), word]
  · rw [rest x (by omega), putLong_other (by omega), putLong_other (by omega), others x (by omega)]

end Head

/-- The entry of page `k` has the flags in bits that its address leaves. -/
theorem userEntry_page {k : Nat} (bound : k < 0x100000) : BitVec.ofNat 32 (4096 * k + 7) = userEntry (4096 * k) := by
  apply BitVec.eq_of_toNat_eq
  unfold userEntry
  rw [BitVec.toNat_or, BitVec.toNat_ofNat, BitVec.toNat_ofNat, Nat.mod_eq_of_lt (by omega), Nat.mod_eq_of_lt (by omega)]
  exact Nat.two_pow_add_eq_or_of_lt (i := 12) (by decide) k

/-- Over the directory and the tables of the first 8 MB. -/
theorem physical_boot {m ram : Nat → Nat → Word} {address : Nat} (same : ∀ page i, page % 4096 = 0 → i < 1024 → m page i = (bootMm ram).mem page i)
    (bound : address < 2 ^ 32) :
    (if present (m 0 (dirOf address)) then
      if present (m (pageAddr (m 0 (dirOf address))) (slotOf address)) then
        some (pageAddr (m (pageAddr (m 0 (dirOf address))) (slotOf address)) + address % 4096)
      else none
    else none) = if address < highMemory then some address else none := by
  have slot : slotOf address < 1024 := Nat.mod_lt _ (by decide)
  have dir : m 0 (dirOf address) = if dirOf address = 0 then 0x1007#32 else if dirOf address = 1 then 0x2007#32 else 0#32 :=
    same 0 _ rfl (Nat.mod_lt _ (by decide))
  have table (t k : Nat) (ht : t = 0x1000 ∧ k = slotOf address ∨ t = 0x2000 ∧ k = 1024 + slotOf address) :
      m t (slotOf address) = userEntry (4096 * k) := by
    obtain ⟨rfl, rfl⟩ | ⟨rfl, rfl⟩ := ht
    · exact same 0x1000 _ rfl slot
    · exact same 0x2000 _ rfl slot
  have entry (k : Nat) (hk : k < 2048) : pageAddr (userEntry (4096 * k)) = 4096 * k := pageAddr_userEntry (by omega) (by omega)
  have place : address = 0x400000 * dirOf address + 4096 * slotOf address + address % 4096 := by
    unfold dirOf slotOf
    omega
  rw [dir]
  by_cases low : dirOf address = 0
  · rw [if_pos low, if_pos (by decide), show pageAddr 0x1007#32 = 0x1000 by decide, table _ _ (.inl ⟨rfl, rfl⟩), if_pos (present_userEntry _),
      entry _ (by omega), if_pos (by unfold highMemory; omega)]
    congr 1
    omega
  rw [if_neg low]
  by_cases high : dirOf address = 1
  · rw [if_pos high, if_pos (by decide), show pageAddr 0x2007#32 = 0x2000 by decide, table _ _ (.inr ⟨rfl, rfl⟩), if_pos (present_userEntry _),
      entry _ (by omega), if_pos (by unfold highMemory; omega)]
    congr 1
    omega
  · rw [if_neg high, if_neg (by decide), if_neg (by unfold highMemory; omega)]

/-- `setup_paging` makes the memory that the memory manager starts from, and leaves all of it from `0x3000` on; with paging on the
processor then finds each address below 8 MB at itself and no other address. -/
theorem setup_paging_identity {m : Nat → UInt8} {cr0 : Word} {fuel : Nat} (enough : 2047 < fuel) :
    ∃ m' p, Head.setupPaging fuel cr0 m = some (m', p) ∧ (∀ x, 0x3000 ≤ x → m' x = m x) ∧
      (∀ page i, page % 4096 = 0 → i < 1024 → longs m' page i = (bootMm (longs m)).mem page i) ∧
      ∀ address < 2 ^ 32, p.physical m' address = if address < highMemory then some address else none := by
  obtain ⟨m', run, dir, entries, others⟩ := @Head.setupPaging_spec m cr0 _ enough
  have same (page i : Nat) (aligned : page % 4096 = 0) (hi : i < 1024) : longs m' page i = (bootMm (longs m)).mem page i := by
    unfold bootMm
    dsimp only
    by_cases first : page = 0
    · rw [if_pos first, first, longs, Nat.zero_add, dir i hi]
      split
      next => rfl
      next =>
        split
        next => rfl
        next => rfl
    rw [if_neg first]
    by_cases second : page = 0x1000
    · rw [if_pos second, second, longs, entries i (by omega), userEntry_page (by omega)]
    rw [if_neg second]
    by_cases third : page = 0x2000
    · have entry := entries (1024 + i) (by omega)
      rw [show 0x1000 + 4 * (1024 + i) = 0x2000 + 4 * i by omega] at entry
      rw [if_pos third, third, longs, entry, userEntry_page (by omega)]
    · rw [if_neg third, longs, longs, getLong_congr fun x hl _ => others x (by omega)]
  refine ⟨m', _, run, others, same, fun address bound => ?_⟩
  have paging_on : (cr0 ||| 0x80000000).getLsbD 31 = true := by
    rw [BitVec.getLsbD_or, show (0x80000000 : Word).getLsbD 31 = true by rfl, Bool.or_true]
  unfold Paging.physical
  dsimp only
  rw [if_pos paging_on, show pageAddr 0 = 0 by decide]
  exact physical_boot same bound

theorem setup_paging_identity_ends :
    ∃ m' p, Head.setupPaging 2048 0x11 (fun _ => 0xff) = some (m', p) ∧ p.physical m' 0x7fffff = some 0x7fffff ∧
      p.physical m' 0x800000 = none := by
  obtain ⟨m', p, run, -, -, found⟩ := @setup_paging_identity (fun _ => 0xff) 0x11 2048 (by decide)
  exact ⟨m', p, run, (found 0x7fffff (by decide)).trans (if_pos (by decide)), (found 0x800000 (by decide)).trans (if_neg (by decide))⟩

end RheeKernel
