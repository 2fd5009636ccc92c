import RheeKernel.CallRuns

namespace RheeKernel

/-- `size -= 4096` in the loop of `verify_area`. -/
theorem toInt_sub_page {size : BitVec 32} (h : 0 < size.toInt) : (size - 4096#32).toInt.toNat = size.toInt.toNat - 4096 := by
  rw [BitVec.toInt_eq_toNat_cond] at h
  rw [BitVec.toInt_eq_toNat_cond, BitVec.toInt_eq_toNat_cond, BitVec.toNat_sub, BitVec.toNat_ofNat]
  omega

/-- The loop of `verify_area`; `none` where `un_wp_page` calls `do_exit(SIGSEGV)`. -/
def verifyLoop (s : Mm) (size start : BitVec 32) : Option Mm :=
  if 0 < size.toInt then
    match writeVerify s start.toNat with
    | none => none
    | some s => verifyLoop s (size - 4096#32) (start + 4096#32)
  else some s
termination_by size.toInt.toNat
decreasing_by
  rw [toInt_sub_page (by assumption)]
  omega

/-- `verify_area` in the registers of the machine; `base` is that of the data segment. -/
def Mm.verifyArea (s : Mm) (base addr size : BitVec 32) : Option Mm :=
  verifyLoop s (size + (addr &&& 0xfff#32)) ((addr &&& 0xfffff000#32) + base)

/-- What is mapped at the address may be written and is nobody else's. -/
def Mm.Unshared (s : Mm) (address : Nat) : Prop :=
  present (s.entry address) = true → writable (s.entry address) = true ∧
    ∃ k < pagingPages, pageAddr (s.entry address) = pageAt k ∧ s.memMap k = 1

/-- Every page of the data segment of task `t` that is present and meets the `size` bytes from `addr` on. -/
def Mm.Covers (s : Mm) (t limit : Nat) (addr size : BitVec 32) : Prop :=
  ∀ i < size.toNat, (addr.toNat + i) % 2 ^ 32 < limit → s.Unshared (taskBase t + (addr.toNat + i) % 2 ^ 32)

theorem pageOffset_toNat (addr : BitVec 32) : (addr &&& 0xfff#32).toNat = addr.toNat % 4096 := by
  rw [BitVec.toNat_and]
  exact Nat.and_two_pow_sub_one_eq_mod addr.toNat 12

theorem pageStart_toNat (addr : BitVec 32) : (addr &&& 0xfffff000#32).toNat = addr.toNat - addr.toNat % 4096 := by
  rw [BitVec.and_comm]
  have hpage := pageAddr_eq addr
  unfold pageAddr at hpage
  omega

namespace Mm

variable {s s' : Mm} {holds : Nat → Nat} {address limit t : Nat} {addr size start : BitVec 32}

/-- The pages that the loop comes to, with all addresses modulo 2^32. -/
theorem verifyLoop_private (h : s.Inv holds) (hk : s.KernelTables) (hs : verifyLoop s size start = some s') :
    s'.Inv holds ∧ (∀ p, s.PrivatePage p → s'.PrivatePage p) ∧
      ∀ j, 4096 * j < size.toInt.toNat → dirOf ((start.toNat + 4096 * j) % 2 ^ 32) ∈ userDirs →
        s'.PrivatePage ((start.toNat + 4096 * j) % 2 ^ 32 / 4096) := by
  induction s, size, start using verifyLoop.induct with
  | case1 s size start hpos hnone =>
    rw [verifyLoop, if_pos hpos, hnone] at hs
    cases hs
  | case2 s size start hpos s₁ hsome ih =>
    rw [verifyLoop, if_pos hpos, hsome] at hs
    obtain ⟨⟨hinv, hker⟩, hmono, hat⟩ := writeVerify_private h hk hsome
    obtain ⟨hinv', hmono', hpages⟩ := ih hinv hker hs
    refine ⟨hinv', fun p hp => hmono' p (hmono p hp), fun j hj hd => ?_⟩
    cases j with
    | zero =>
      rw [Nat.mul_zero, Nat.add_zero, Nat.mod_eq_of_lt start.isLt] at hd ⊢
      exact hmono' _ (hat hd)
    | succ j =>
      have hnext : ((start + 4096#32).toNat + 4096 * j) % 2 ^ 32 = (start.toNat + 4096 * (j + 1)) % 2 ^ 32 := by
        rw [BitVec.toNat_add, BitVec.toNat_ofNat]
        omega
      rw [← hnext] at hd ⊢
      apply hpages j _ hd
      rw [toInt_sub_page hpos]
      omega
  | case3 s size start hneg =>
    rw [verifyLoop, if_neg hneg] at hs
    cases Option.some.inj hs
    refine ⟨h, fun _ hp => hp, fun j hj _ => ?_⟩
    omega

theorem privatePage_iff_unshared (h : s.Inv holds) (hd : dirOf address ∈ userDirs) :
    s.PrivatePage (address / 4096) ↔ s.Unshared address := by
  rw [privatePage_iff]
  constructor
  · rintro (habs | hw) hp
    · rw [habs] at hp
      cases hp
    · exact ⟨hw, h.tables.cow _ hd _ (slotOf_mem address) hp hw⟩
  · intro hu
    by_cases hp : present (s.entry address) = true
    · exact .inr (hu hp).1
    · exact .inl (Bool.eq_false_iff.mpr hp)

theorem verifyArea_toNat (base addr size : BitVec 32) :
    (size + (addr &&& 0xfff#32)).toNat = (size.toNat + addr.toNat % 4096) % 2 ^ 32 ∧
      ((addr &&& 0xfffff000#32) + base).toNat = (addr.toNat - addr.toNat % 4096 + base.toNat) % 2 ^ 32 := by
  rw [BitVec.toNat_add, BitVec.toNat_add, pageOffset_toNat, pageStart_toNat]
  exact ⟨rfl, rfl⟩

/-- The accesses that stand for `verify_area` in the system calls are the rounds of its loop. -/
theorem verifyLoop_accesses {n : Nat} (hn : (size.toInt.toNat + 4095) / 4096 = n) :
    verifyLoop s size start = runAccesses t limit s (verifyPages n start.toNat) := by
  induction n generalizing s size start with
  | zero =>
    rw [verifyLoop, if_neg (by omega)]
    rfl
  | succ n ih =>
    have hpos : 0 < size.toInt := by omega
    have hnext : (start + 4096#32).toNat = (start.toNat + 4096) % 2 ^ 32 := by
      rw [BitVec.toNat_add, BitVec.toNat_ofNat]
    rw [verifyLoop, if_pos hpos, verifyPages, runAccesses, ← hnext, accessStep]
    cases writeVerify s start.toNat with
    | none => rfl
    | some s₁ => exact ih (by rw [toInt_sub_page hpos]; omega)

theorem verifyArea_accesses (base addr size : BitVec 32) :
    s.verifyArea base addr size = runAccesses t limit s (RheeKernel.verifyArea base.toNat addr.toNat size.toNat) := by
  obtain ⟨hrounds, hstart⟩ := verifyArea_toNat base addr size
  unfold verifyArea RheeKernel.verifyArea
  dsimp only
  rw [← hstart]
  have hsame : size + (addr &&& 0xfff#32) = BitVec.ofNat 32 (size.toNat + addr.toNat % 4096) := by
    apply BitVec.eq_of_toNat_eq
    rw [hrounds, BitVec.toNat_ofNat]
  apply verifyLoop_accesses
  rw [hsame]

/-- With a size that overflows the loop is not entered. -/
theorem verifyArea_nothing {base : BitVec 32} (hsize : 0 < size.toInt) (hover : 2 ^ 31 ≤ size.toNat + addr.toNat % 4096) :
    s.verifyArea base addr size = some s := by
  have hneg : ¬ 0 < (size + (addr &&& 0xfff#32)).toInt := by
    rw [BitVec.toInt_eq_toNat_cond] at hsize
    rw [BitVec.toInt_eq_toNat_cond, (verifyArea_toNat 0 addr size).1]
    omega
  unfold verifyArea
  rw [verifyLoop, if_neg hneg]

theorem verifyArea_covers (h : s.Inv holds) (hk : s.KernelTables) (ht : 0 < t ∧ t < 64) (hl : limit ≤ 0x4000000)
    (hfits : size.toNat + addr.toNat % 4096 < 2 ^ 31) (hs : s.verifyArea (BitVec.ofNat 32 (taskBase t)) addr size = some s') :
    s'.Covers t limit addr size := by
  obtain ⟨hrounds, hstart⟩ := verifyArea_toNat (BitVec.ofNat 32 (taskBase t)) addr size
  obtain ⟨hinv, _, hpages⟩ := verifyLoop_private h hk hs
  have hint : (size + (addr &&& 0xfff#32)).toInt.toNat = size.toNat + addr.toNat % 4096 := by
    rw [BitVec.toInt_eq_toNat_cond, hrounds]
    omega
  intro i hi hlt
  have hd : dirOf (taskBase t + (addr.toNat + i) % 2 ^ 32) ∈ userDirs := by
    rw [mem_userDirs, taskBase_eq]
    unfold dirOf
    omega
  -- The round that comes to the page of byte `i`.
  have hround : (((addr &&& 0xfffff000#32) + BitVec.ofNat 32 (taskBase t)).toNat + 4096 * ((addr.toNat % 4096 + i) / 4096)) % 2 ^ 32 / 4096 =
      (taskBase t + (addr.toNat + i) % 2 ^ 32) / 4096 := by
    rw [hstart, BitVec.toNat_ofNat, taskBase_eq]
    omega
  have hpriv := hpages ((addr.toNat % 4096 + i) / 4096) (by rw [hint]; omega)
  rw [hround] at hpriv
  rw [← privatePage_iff_unshared hinv hd]
  apply hpriv
  have hsame : dirOf ((((addr &&& 0xfffff000#32) + BitVec.ofNat 32 (taskBase t)).toNat +
      4096 * ((addr.toNat % 4096 + i) / 4096)) % 2 ^ 32) = dirOf (taskBase t + (addr.toNat + i) % 2 ^ 32) := by
    unfold dirOf
    omega
  rw [hsame]
  exact hd

/-- `verify_area` covers its range, unless the size overflows and a page of the range is still shared. -/
theorem verifyArea_covers_iff (h : s.Inv holds) (hk : s.KernelTables) (ht : 0 < t ∧ t < 64) (hl : limit ≤ 0x4000000)
    (hsize : 0 < size.toInt) (hs : s.verifyArea (BitVec.ofNat 32 (taskBase t)) addr size = some s') :
    s'.Covers t limit addr size ↔ size.toNat + addr.toNat % 4096 < 2 ^ 31 ∨ s.Covers t limit addr size := by
  by_cases hfits : size.toNat + addr.toNat % 4096 < 2 ^ 31
  · exact ⟨fun _ => .inl hfits, fun _ => verifyArea_covers h hk ht hl hfits hs⟩
  · rw [verifyArea_nothing hsize (by omega)] at hs
    cases Option.some.inj hs
    exact ⟨.inr, fun hc => hc.resolve_left hfits⟩

theorem verifyArea_covers_iff_boot : (bootMm fun _ _ => 0#32).Covers 1 0x4000000 8#32 4#32 ↔
    (4#32).toNat + (8#32).toNat % 4096 < 2 ^ 31 ∨ (bootMm fun _ _ => 0#32).Covers 1 0x4000000 8#32 4#32 := by
  have hs : (bootMm fun _ _ => 0#32).verifyArea (BitVec.ofNat 32 (taskBase 1)) 8#32 4#32 = some (bootMm fun _ _ => 0#32) := by
    unfold verifyArea
    rw [verifyLoop, if_pos (by decide), show writeVerify (bootMm fun _ _ => 0#32)
      ((8#32 &&& 0xfffff000#32) + BitVec.ofNat 32 (taskBase 1)).toNat = some (bootMm fun _ _ => 0#32) from rfl]
    dsimp only
    rw [verifyLoop, if_neg (by decide)]
  exact verifyArea_covers_iff (bootMm_inv _) (bootMm_kernelTables _) (by decide) (by decide) (by decide) hs

/-- After a fork the parent has a page that is not its own, and a read of 2^31 - 1 bytes at address 1 does not give it
one. -/
theorem verifyArea_covers_fails : ¬ ∀ (s s' : Mm) (addr size : BitVec 32), s.Inv (fun _ => 0) → s.KernelTables → 0 < size.toInt →
    s.verifyArea (BitVec.ofNat 32 (taskBase 1)) addr size = some s' → s'.Covers 1 0x4000000 addr size := by
  intro hall
  obtain ⟨m, m', _, hm, hm', ⟨hp, hw⟩, _⟩ := fork_shares_page
  have htouch : UserOp.Allowed (bootMm fun _ _ => 0#32) (.touch 0x4000000) := ⟨⟨by decide, by decide⟩, by decide⟩
  have hfork : UserOp.Allowed m (.fork 0x4000000 0x8000000 0x400000) :=
    ⟨.inr ⟨by decide, by decide⟩, ⟨by decide, by decide⟩, by decide, .inl (by decide)⟩
  have hboot := bootCalls_sound fun _ _ => 0#32
  have hone := hboot.user (t := 1) rfl htouch rfl hm
  have htwo := hone.user (t := 1) rfl hfork ⟨rfl, 2, by decide, rfl, rfl⟩ hm'
  have hcovers := hall m' m' 1#32 0x7fffffff#32 htwo.inv htwo.kernel (by decide) (verifyArea_nothing (by decide) (by decide))
  have hshared := (hcovers 0 (by decide) (by decide) hp).1
  rw [show m'.entry (taskBase 1 + ((1#32).toNat + 0) % 2 ^ 32) = m'.entry 0x4000000 from rfl, hw] at hshared
  cases hshared

end Mm

end RheeKernel
