import RheeKernel.SystemCalls

open Finset

namespace RheeKernel

namespace Mm

variable {s s' t u : Mm} {W : Nat → Prop} {holds : Nat → Nat} {a address e j p : Nat} {v : Byte}

/-- The entry of an address is that of its page. -/
theorem entry_page (s : Mm) (a : Nat) : s.entry (4096 * (a / 4096)) = s.entry a := by
  unfold entry
  rw [show dirOf (4096 * (a / 4096)) = dirOf a by unfold dirOf; omega,
    show slotOf (4096 * (a / 4096)) = slotOf a by unfold slotOf; omega]

theorem privatePage_iff : s.PrivatePage (a / 4096) ↔ present (s.entry a) = false ∨ writable (s.entry a) = true := by
  unfold PrivatePage
  rw [entry_page]

theorem space_kernel (h : s.space e j = some (.kernel p)) : p < lowMem := by
  unfold space cellOf at h
  split at h
  next =>
    split at h
    next => cases h
    next hlow =>
      cases h
      omega
  next => cases h

/-- What shows through an entry stays, when the entry and the kernel's low pages do. -/
theorem Kept.contents (h : Kept W s s') (hs : s'.space e j = s.space e j)
    (hp : ∀ p, s.space e j = some (.kernel p) → p ≠ 0) :
    cellContents s'.mem (s'.space e j) = cellContents s.mem (s.space e j) := by
  rw [hs]
  cases hc : s.space e j with
  | none => rfl
  | some c =>
    cases c with
    | own c => rfl
    | kernel p => exact h.page p (.inl ⟨hp p hc, space_kernel hc⟩)

theorem dirOf_cases (address : Nat) : dirOf address < 16 ∨ dirOf address ∈ userDirs := by
  have hlt : dirOf address < 1024 := Nat.mod_lt _ (by decide)
  rw [mem_userDirs]
  omega

/-- The kernel's own pages are all writable: there is nothing for `write_verify` to do. -/
theorem writeVerify_kernel (hk : s.KernelTables) (hd : dirOf address < 16) : writeVerify s address = some s := by
  unfold writeVerify
  dsimp only
  split
  next hp =>
    split
    next hc => exact absurd ((hk _ hd hp).2 _ hc.1) hc.2
    next => rfl
  next => rfl

theorem writeVerify_user (hd : dirOf address ∈ userDirs) :
    writeVerify s address =
      if present (s.entry address) = true ∧ ¬ writable (s.entry address) = true then doWpPage s address else some s := by
  unfold writeVerify doWpPage
  dsimp only
  by_cases hp : present (s.mem 0 (dirOf address)) = true
  · rw [if_pos hp, show s.entry address = s.mem (pageAddr (s.mem 0 (dirOf address))) (slotOf address) from
      congrFun (pte_present hd hp) _]
  · have habsent : s.entry address = 0#32 := congrFun (pte_absent (Bool.eq_false_iff.mpr hp)) _
    rw [if_neg hp, habsent, if_neg (by simp)]

/-- `write_verify` of one page; what was private stays private. -/
theorem writeVerify_private (h : s.Inv holds) (hk : s.KernelTables) (hs : writeVerify s address = some s') :
    (s'.Inv holds ∧ s'.KernelTables) ∧ (∀ p, s.PrivatePage p → s'.PrivatePage p) ∧
      (dirOf address ∈ userDirs → s'.PrivatePage (address / 4096)) := by
  rcases dirOf_cases address with hd | hd
  · rw [writeVerify_kernel hk hd] at hs
    cases Option.some.inj hs
    refine ⟨⟨h, hk⟩, fun _ hp => hp, fun hu => ?_⟩
    have := (mem_userDirs.mp hu).1
    omega
  · rw [writeVerify_user hd] at hs
    split at hs
    next hc =>
      obtain ⟨hp, _⟩ := hc
      have hdp := (dir_present_of_pte hp).2
      obtain ⟨hinv, ⟨_, hwrit⟩, _⟩ := unWpPage_spec h hd hdp (slotOf_mem address) hp hs
      have hkept : Kept (fun _ => False) s s' := unWpPage_kept h hd not_false hdp hs
      refine ⟨⟨hinv, hkept.kernelTables hk⟩, fun p hpriv => ?_, fun _ => privatePage_iff.mpr (.inr hwrit)⟩
      by_cases hat : dirOf (4096 * p) = dirOf address ∧ slotOf (4096 * p) = slotOf address
      · right
        unfold entry
        rw [hat.1, hat.2]
        exact hwrit
      · have hsame : s'.entry (4096 * p) = s.entry (4096 * p) := unWpPage_pte h hd hdp hs hat
        unfold PrivatePage
        rw [hsame]
        exact hpriv
    next hc =>
      cases Option.some.inj hs
      refine ⟨⟨h, hk⟩, fun _ hp => hp, fun _ => privatePage_iff.mpr ?_⟩
      by_cases hp : present (s.entry address) = true
      · exact .inr (not_not.mp fun hw => hc ⟨hp, hw⟩)
      · exact .inl (Bool.eq_false_iff.mpr hp)

/-- `write_verify` takes nothing from anybody: all see what they saw, and what was private stays so. -/
theorem writeVerify_spec (h : s.Inv fun _ => 0) (hk : s.KernelTables) (hs : writeVerify s address = some s') :
    (s'.Inv (fun _ => 0) ∧ s'.KernelTables) ∧ (∀ p, s.PrivatePage p → s'.PrivatePage p) ∧
      (dirOf address ∈ userDirs → s'.PrivatePage (address / 4096)) ∧ ∀ t, SameElsewhere t s s' := by
  obtain ⟨hinv, hmono, hat⟩ := writeVerify_private h hk hs
  refine ⟨hinv, hmono, hat, fun t e he _ j hj hlow => ?_⟩
  rcases dirOf_cases address with hd | hd
  · rw [writeVerify_kernel hk hd] at hs
    cases Option.some.inj hs
    rfl
  · rw [writeVerify_user hd] at hs
    split at hs
    next hc =>
      obtain ⟨hp, _⟩ := hc
      have hdp := (dir_present_of_pte hp).2
      obtain ⟨_, _, hspace⟩ := unWpPage_spec h hd hdp (slotOf_mem address) hp hs
      have hkept : Kept (fun _ => False) s s' := unWpPage_kept h hd not_false hdp hs
      by_cases hseen : e = dirOf address ∧ j = slotOf address
      · rw [hspace e he j hj, if_pos hseen, hseen.1, hseen.2, space_contents hp]
        rfl
      · have hsame : s'.space e j = s.space e j := by rw [hspace e he j hj, if_neg hseen]
        exact hkept.contents hsame hlow
    next =>
      cases Option.some.inj hs
      rfl

/-- The other entries are as before the fault, and what they show is too. -/
theorem faultIn_others (h : s.Inv fun _ => 0) (ha : UserAddress address) (hf : faultIn s address = some s') :
    (∀ e j, ¬ (e = dirOf address ∧ j = slotOf address) → s'.pte e j = s.pte e j) ∧
      ∀ e ∈ userDirs, ∀ j ∈ slots, ¬ (e = dirOf address ∧ j = slotOf address) → s'.space e j = s.space e j := by
  unfold RheeKernel.faultIn at hf
  split at hf
  next =>
    cases Option.some.inj hf
    exact ⟨fun _ _ _ => rfl, fun _ _ _ _ _ => rfl⟩
  next hp =>
    refine ⟨(doNoPage_pte h (dirOf_user ha) hf).2, fun e he j hj hne => ?_⟩
    rw [(doNoPage_spec h ha (Bool.eq_false_iff.mpr hp) hf).2 e he j hj, if_neg hne]

theorem faultIn_private (h : s.Inv fun _ => 0) (ha : UserAddress address) (hp : s.PrivatePage (address / 4096))
    (hf : faultIn s address = some s') : present (s'.entry address) = true ∧ writable (s'.entry address) = true := by
  unfold RheeKernel.faultIn at hf
  split at hf
  next hpres =>
    cases Option.some.inj hf
    rcases privatePage_iff.mp hp with habs | hw
    · rw [habs] at hpres
      cases hpres
    · exact ⟨hpres, hw⟩
  next => exact (doNoPage_pte h (dirOf_user ha) hf).1

/-- A store of the kernel to an unshared page: entries elsewhere are as before, and so is what they show. -/
theorem kernelPut_spec (h : s.Inv fun _ => 0) (hk : s.KernelTables) (ha : UserAddress address)
    (hp : s.PrivatePage (address / 4096)) (hs : kernelPut s address v = some s') :
    (s'.Inv (fun _ => 0) ∧ s'.KernelTables) ∧ writable (s'.entry address) = true ∧
      (∀ e j, ¬ (e = dirOf address ∧ j = slotOf address) → s'.pte e j = s.pte e j) ∧
      ∀ e ∈ userDirs, ∀ j ∈ slots, ¬ (e = dirOf address ∧ j = slotOf address) →
        (∀ p, s.space e j = some (.kernel p) → p ≠ 0) →
        cellContents s'.mem (s'.space e j) = cellContents s.mem (s.space e j) := by
  obtain ⟨u, hf, rfl⟩ := Option.map_eq_some_iff.mp hs
  have hd := dirOf_user ha
  have hi := slotOf_mem address
  have hinv := faultIn_inv h ha hf
  have hkept : Kept (fun _ => False) s u := faultIn_kept h ha not_false hf
  obtain ⟨hpres, hwrit⟩ := faultIn_private h ha hp hf
  obtain ⟨hpte, hspace⟩ := faultIn_others h ha hf
  obtain ⟨k, hk', hat, hone⟩ := hinv.tables.cow _ hd _ hi hpres hwrit
  change pageAddr (u.entry address) = pageAt k at hat
  obtain ⟨hinv', hpte', hspace'⟩ := hinv.writePage hd hi hpres hk' hat hone
    (writeByte (u.mem (pageAddr (u.entry address))) (address % 4096) v)
  obtain ⟨hne, hr⟩ := hinv.private_not_reserved (W := fun _ => False) hd hi hpres hwrit
  have hwritten := hkept.trans
    (Kept.setPage hne hr (writeByte (u.mem (pageAddr (u.entry address))) (address % 4096) v))
  change Kept _ s (u.setPage (pageAddr (u.entry address)) _) at hwritten
  rw [hat] at hinv' hpte' hspace' hwritten ⊢
  refine ⟨⟨hinv', hwritten.kernelTables hk⟩, ?_, fun e j hne => ?_, fun e he j hj hne hlow => ?_⟩
  · unfold entry
    rw [hpte']
    exact hwrit
  · rw [hpte']
    exact hpte e j hne
  · refine hwritten.contents ?_ hlow
    rw [hspace' e he j hj, if_neg hne, hspace e he j hj hne]

theorem kernelPut_private (h : s.Inv fun _ => 0) (hk : s.KernelTables) (ha : UserAddress address)
    (hp : s.PrivatePage (address / 4096)) (hs : kernelPut s address v = some s') :
    s'.PrivatePage p ↔ s.PrivatePage p := by
  obtain ⟨_, hw, hpte, _⟩ := kernelPut_spec h hk ha hp hs
  by_cases hat : dirOf (4096 * p) = dirOf address ∧ slotOf (4096 * p) = slotOf address
  · have hsame : ∀ r : Mm, r.entry (4096 * p) = r.entry address := by
      intro r
      unfold entry
      rw [hat.1, hat.2]
    have hbefore := privatePage_iff.mp hp
    unfold PrivatePage
    rw [hsame, hsame]
    exact ⟨fun _ => hbefore, fun _ => .inr hw⟩
  · have hsame : s'.entry (4096 * p) = s.entry (4096 * p) := hpte _ _ hat
    unfold PrivatePage
    rw [hsame]

end Mm

/-- Each store of the list lies on a page that is in order from the start, or has been verified before it. -/
def Guarded (t limit : Nat) : (Nat → Prop) → List Access → Prop
  | _, [] => True
  | ok, .verify address :: l => Guarded t limit (fun p => ok p ∨ p = address / 4096) l
  | ok, .put addr _ :: l => (addr < limit → ok ((taskBase t + addr) / 4096)) ∧ Guarded t limit ok l

/-- The list stores into the `n` bytes from `addr` on and does nothing else. -/
def PutsIn (addr n : Nat) (l : List Access) : Prop := ∀ a ∈ l, ∃ i < n, ∃ v, a = .put ((addr + i) % 2 ^ 32) v

section Lists

variable {t limit addr base size k m n start : Nat} {ok ok' : Nat → Prop} {l l' : List Access} {f : Nat → Byte}

theorem Guarded.mono (h : Guarded t limit ok l)
    (hle : ∀ addr < limit, ok ((taskBase t + addr) / 4096) → ok' ((taskBase t + addr) / 4096)) : Guarded t limit ok' l := by
  induction l generalizing ok ok' with
  | nil => trivial
  | cons a l ih =>
    cases a with
    | verify address =>
      have hrest : Guarded t limit (fun p => ok p ∨ p = address / 4096) l := h
      refine ih hrest fun addr hlt hok => ?_
      rcases hok with hok | hat
      · exact .inl (hle addr hlt hok)
      · exact .inr hat
    | put addr v => exact ⟨fun hlt => hle addr hlt (h.1 hlt), ih h.2 hle⟩

theorem Guarded.verified (hs : start < 2 ^ 32)
    (h : Guarded t limit (fun p => ok p ∨ ∃ k < n, p = (start + 4096 * k) % 2 ^ 32 / 4096) l) :
    Guarded t limit ok (verifyPages n start ++ l) := by
  induction n generalizing start ok with
  | zero =>
    refine h.mono fun addr _ hok => ?_
    rcases hok with hok | ⟨k, hk, _⟩
    · exact hok
    · omega
  | succ n ih =>
    change Guarded t limit (fun p => ok p ∨ p = start / 4096) (verifyPages n ((start + 4096) % 2 ^ 32) ++ l)
    refine ih (Nat.mod_lt _ (by decide)) (h.mono fun addr _ hok => ?_)
    rcases hok with hok | ⟨k, hk, hat⟩
    · exact .inl (.inl hok)
    · cases k with
      | zero => exact .inl (.inr (by omega))
      | succ k => exact .inr ⟨k, by omega, by omega⟩

theorem putsIn_nil : PutsIn addr n [] := by
  intro a ha
  cases ha

theorem PutsIn.append (h : PutsIn addr n l) (h' : PutsIn addr n l') : PutsIn addr n (l ++ l') := by
  intro a ha
  rcases List.mem_append.mp ha with ha | ha
  · exact h a ha
  · exact h' a ha

theorem putsIn_putFs (hk : k + m ≤ n) : PutsIn addr n (putFs (addr + k) m f) := by
  intro a ha
  obtain ⟨i, hi, rfl⟩ := List.mem_map.mp ha
  have := List.mem_range.mp hi
  exact ⟨k + i, by omega, f i, by rw [Nat.add_assoc]⟩

theorem mem_putFs (hi : n < m) : Access.put ((addr + n) % 2 ^ 32) (f n) ∈ putFs addr m f :=
  List.mem_map.mpr ⟨n, List.mem_range.mpr hi, rfl⟩

theorem PutsIn.guarded (h : PutsIn addr n l)
    (hok : ∀ i < n, (addr + i) % 2 ^ 32 < limit → ok ((taskBase t + (addr + i) % 2 ^ 32) / 4096)) : Guarded t limit ok l := by
  induction l with
  | nil => trivial
  | cons a l ih =>
    obtain ⟨i, hi, v, rfl⟩ := h a (by simp)
    exact ⟨hok i hi, ih fun b hb => h b (by simp [hb])⟩

theorem verifyArea_eq (h : size + addr % 4096 < 2 ^ 31) :
    verifyArea base addr size =
      verifyPages ((size + addr % 4096 + 4095) / 4096) ((addr - addr % 4096 + base) % 2 ^ 32) := by
  have hint : (BitVec.ofNat 32 (size + addr % 4096)).toInt.toNat = size + addr % 4096 := by
    rw [BitVec.toInt_eq_toNat_cond, BitVec.toNat_ofNat]
    omega
  unfold verifyArea
  dsimp only
  rw [hint]

/-- Where the size overflows, nothing is verified. -/
theorem verifyArea_overflow (hs : size < 2 ^ 31) (h : 2 ^ 31 ≤ size + addr % 4096) : verifyArea base addr size = [] := by
  have hint : (BitVec.ofNat 32 (size + addr % 4096)).toInt.toNat = 0 := by
    rw [BitVec.toInt_eq_toNat_cond, BitVec.toNat_ofNat]
    omega
  unfold verifyArea
  dsimp only
  rw [hint]
  rfl

theorem taskBase_eq (t : Nat) : taskBase t = 0x4000000 * t := Nat.mul_comm t _

/-- `verify_area` over the bytes that are then stored. -/
theorem PutsIn.checked (h : PutsIn addr size l) (ht : t < 64) (hl : limit ≤ 0x4000000)
    (hsize : size + addr % 4096 < 2 ^ 31) : Guarded t limit ok (verifyArea (taskBase t) addr size ++ l) := by
  rw [verifyArea_eq hsize]
  refine Guarded.verified (Nat.mod_lt _ (by decide)) (h.guarded fun i hi hlt => .inr ?_)
  refine ⟨(addr % 4096 + i) / 4096, by omega, ?_⟩
  rw [taskBase_eq]
  omega

end Lists

section Calls

variable {s s' : Mm} {t limit addr base size : Nat} {ok : Nat → Prop} {l : List Access} {a : Access} {call : SystemCall}

theorem Mm.PrivateBytes.guarded {n : Nat} (h : s.PrivateBytes t limit addr n) (hl : PutsIn addr n l) :
    Guarded t limit s.PrivatePage l := hl.guarded h

theorem copyStruct_guarded {tmp : Nat → Byte} (ht : t < 64) (hl : limit ≤ 0x4000000) (hs : size < 2 ^ 30) :
    Guarded t limit ok (copyStruct (taskBase t) addr size tmp) := by
  have hin : PutsIn addr size (putFs addr size tmp) := putsIn_putFs (k := 0) (by omega)
  exact hin.checked ht hl (by omega)

theorem long_guarded {w : Word} (ht : t < 64) (hl : limit ≤ 0x4000000) :
    Guarded t limit ok (verifyArea (taskBase t) addr 4 ++ putFsLong w addr) := by
  have hin : PutsIn addr 4 (putFsLong w addr) := putsIn_putFs (k := 0) (by omega)
  exact hin.checked ht hl (by omega)

/-- A directory entry is stored inside the structure whose fields it fills. -/
theorem minixGetdents_in {dName dReclen : Nat} {entries : List DirEntry} (hn : dName + 15 ≤ size) (hr : dReclen + 2 ≤ size) :
    PutsIn addr size (minixGetdents addr dName dReclen entries) := by
  induction entries with
  | nil => exact putsIn_nil
  | cons de rest ih =>
    unfold minixGetdents
    split
    next => exact ih
    next =>
      dsimp only
      split
      next => exact ih
      next =>
        have hlen : ((de.name.take 14).takeWhile (· ≠ 0#8)).length ≤ 14 :=
          (List.takeWhile_prefix _).length_le.trans (List.length_take_le 14 de.name)
        generalize (de.name.take 14).takeWhile (· ≠ 0#8) = name at hlen ⊢
        have hname : PutsIn addr size (putFs (addr + dName) name.length fun k => name.getD k 0#8) :=
          putsIn_putFs (by omega)
        have hino : PutsIn addr size (putFsLong (de.inode.setWidth 32) addr) := putsIn_putFs (k := 0) (by omega)
        have hend : PutsIn addr size (putFsByte 0#8 (addr + dName + name.length)) := by
          rw [Nat.add_assoc]
          exact putsIn_putFs (by omega)
        have hreclen : PutsIn addr size (putFsWord (BitVec.ofNat 16 name.length) (addr + dReclen)) :=
          putsIn_putFs (by omega)
        exact ((hname.append hino).append hend).append hreclen

theorem getdents_guarded {dName dReclen : Nat} {dir : Option (List DirEntry)} (ht : t < 64) (hl : limit ≤ 0x4000000)
    (hs : size < 2 ^ 30) (hn : dName + 15 ≤ size) (hr : dReclen + 2 ≤ size) :
    Guarded t limit ok (verifyArea (taskBase t) addr size ++ (match dir with
      | none => []
      | some entries => minixGetdents addr dName dReclen entries)) := by
  cases dir with
  | none => exact PutsIn.checked putsIn_nil ht hl (by omega)
  | some entries => exact (minixGetdents_in hn hr).checked ht hl (by omega)

/-- A system call that is in order when it begins stores to checked or unshared pages only. -/
theorem SystemCall.Checked.guarded (ht : t < 64) (hl : limit ≤ 0x4000000) (h : call.Checked t limit s) :
    Guarded t limit s.PrivatePage (call.accesses (taskBase t)) := by
  cases call with
  | read buf count data =>
    change Guarded t limit _ (sysRead (taskBase t) buf count data)
    unfold sysRead
    split
    next => trivial
    next hneg =>
      split
      next => trivial
      next hzero =>
        have hpos : 0 < count.toInt := by
          have hne : count.toInt ≠ 0 := fun hz => hzero (BitVec.toInt_inj.mp hz)
          omega
        have hin : PutsIn buf (min count.toNat data.length)
            (putFs buf (min count.toNat data.length) fun i => data.getD i 0#8) := putsIn_putFs (k := 0) (by omega)
        rcases h hpos with hsize | hpriv
        · have hall : PutsIn buf count.toNat (putFs buf (min count.toNat data.length) fun i => data.getD i 0#8) :=
            putsIn_putFs (k := 0) (by omega)
          exact hall.checked ht hl hsize
        · by_cases hsize : count.toNat + buf % 4096 < 2 ^ 31
          · have hall : PutsIn buf count.toNat (putFs buf (min count.toNat data.length) fun i => data.getD i 0#8) :=
              putsIn_putFs (k := 0) (by omega)
            exact hall.checked ht hl hsize
          · have hint : count.toNat < 2 ^ 31 := by
              rw [BitVec.toInt_eq_toNat_cond] at hneg
              omega
            rw [verifyArea_overflow hint (by omega)]
            exact hpriv.guarded hin
  | pipe fildes fd =>
    cases fd with
    | none => trivial
    | some fd =>
      have hfirst : PutsIn fildes 8 (putFsLong fd.1 fildes) := putsIn_putFs (k := 0) (by omega)
      have hsecond : PutsIn fildes 8 (putFsLong fd.2 (fildes + 4)) := putsIn_putFs (by omega)
      exact (h rfl).guarded (hfirst.append hsecond)
  | waitpid statAddr code =>
    cases code with
    | none => exact PutsIn.checked (l := []) putsIn_nil ht hl (by omega)
    | some w => exact long_guarded ht hl
  | stat statbuf inode tmp =>
    cases inode with
    | false => trivial
    | true => exact copyStruct_guarded ht hl (by decide)
  | stat64 statbuf inode tmp =>
    cases inode with
    | false => trivial
    | true => exact copyStruct_guarded ht hl (by decide)
  | getdents dirp file dir =>
    cases file with
    | false => trivial
    | true => exact getdents_guarded ht hl (by decide) (by decide) (by decide)
  | getdents64 dirp file dir =>
    cases file with
    | false => trivial
    | true => exact getdents_guarded ht hl (by decide) (by decide) (by decide)
  | uname name thisname =>
    change Guarded t limit _ (sysUname (taskBase t) name thisname)
    unfold sysUname
    split
    next => trivial
    next => exact copyStruct_guarded ht hl (by decide)
  | times tbuf utime stime cutime cstime =>
    change Guarded t limit _ (sysTimes (taskBase t) tbuf utime stime cutime cstime)
    unfold sysTimes
    split
    next => trivial
    next =>
      have h0 : PutsIn tbuf sizeofTms (putFsLong utime tbuf) := putsIn_putFs (k := 0) (by decide)
      have h4 : PutsIn tbuf sizeofTms (putFsLong stime (tbuf + 4)) := putsIn_putFs (by decide)
      have h8 : PutsIn tbuf sizeofTms (putFsLong cutime (tbuf + 8)) := putsIn_putFs (by decide)
      have h12 : PutsIn tbuf sizeofTms (putFsLong cstime (tbuf + 12)) := putsIn_putFs (by decide)
      exact (((h0.append h4).append h8).append h12).checked ht hl (by unfold sizeofTms; omega)
  | time tloc i =>
    change Guarded t limit _ (sysTime (taskBase t) tloc i)
    unfold sysTime
    split
    next => trivial
    next => exact long_guarded ht hl
  | ttyIoctl cmd arg termios termio pgrp chars =>
    change Guarded t limit _ (RheeKernel.ttyIoctl (taskBase t) cmd arg termios termio pgrp chars)
    unfold RheeKernel.ttyIoctl
    split
    next => exact copyStruct_guarded ht hl (by decide)
    next =>
      split
      next => exact copyStruct_guarded ht hl (by decide)
      next =>
        split
        next => exact long_guarded ht hl
        next =>
          split
          next => exact long_guarded ht hl
          next => trivial

theorem userAddress_task (h0 : 0 < t) (ht : t < 64) (hl : limit ≤ 0x4000000) (ha : addr < limit) :
    UserAddress (taskBase t + addr) := by
  unfold UserAddress
  rw [taskBase_eq]
  omega

theorem taskSlots_dirOf (ht : t < 64) (hl : limit ≤ 0x4000000) (ha : addr < limit) : TaskSlots t (dirOf (taskBase t + addr)) := by
  unfold TaskSlots dirOf
  rw [taskBase_eq]
  omega

/-- One access of a call in order: its store is private, nobody else's memory changes, and the rest is in order. -/
theorem Guarded.step (h : s.Inv fun _ => 0) (hk : s.KernelTables) (h0 : 0 < t) (ht : t < 64) (hl : limit ≤ 0x4000000)
    (hg : Guarded t limit s.PrivatePage (a :: l)) :
    a.Private t limit s ∧ ∀ s', accessStep t limit s a = some s' → s'.Inv (fun _ => 0) ∧ s'.KernelTables ∧
      (∀ p, s.PrivatePage p → s'.PrivatePage p) ∧ Guarded t limit s'.PrivatePage l ∧ Mm.SameElsewhere t s s' := by
  cases a with
  | verify address =>
    refine ⟨trivial, fun s' hs => ?_⟩
    obtain ⟨⟨hinv, hker⟩, hpriv, hat, hsame⟩ := Mm.writeVerify_spec h hk hs
    refine ⟨hinv, hker, hpriv, ?_, hsame t⟩
    have hrest : Guarded t limit (fun p => s.PrivatePage p ∨ p = address / 4096) l := hg
    refine hrest.mono fun addr hlt hok => ?_
    rcases hok with hok | heq
    · exact hpriv _ hok
    · rw [heq]
      refine hat ?_
      have hd := dirOf_user (userAddress_task h0 ht hl hlt)
      rw [show dirOf address = dirOf (taskBase t + addr) by unfold dirOf; omega]
      exact hd
  | put addr v =>
    refine ⟨hg.1, fun s' hs => ?_⟩
    simp only [accessStep] at hs
    split at hs
    next hlt =>
      have ha := userAddress_task h0 ht hl hlt
      obtain ⟨⟨hinv, hker⟩, _, _, hcontents⟩ := Mm.kernelPut_spec h hk ha (hg.1 hlt) hs
      have hpriv : ∀ p, s.PrivatePage p → s'.PrivatePage p :=
        fun p hp => (Mm.kernelPut_private h hk ha (hg.1 hlt) hs).mpr hp
      refine ⟨hinv, hker, hpriv, hg.2.mono fun _ _ hok => hpriv _ hok, fun e he hne j hj hlow => ?_⟩
      refine hcontents e he j hj (fun hat => hne ?_) hlow
      rw [hat.1]
      exact taskSlots_dirOf ht hl hlt
    next => cases hs

end Calls

end RheeKernel
