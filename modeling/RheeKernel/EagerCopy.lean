import RheeKernel.MemoryRun

open Finset

namespace RheeKernel

abbrev Byte := BitVec 8

/-- Byte `off` of a page. -/
def readByte (c : Nat → Word) (off : Nat) : Byte := (c (off / 4)).extractLsb' (8 * (off % 4)) 8

def writeByte (c : Nat → Word) (off : Nat) (v : Byte) : Nat → Word :=
  Function.update c (off / 4)
    ((c (off / 4) &&& ~~~(0xff#32 <<< (8 * (off % 4)))) ||| (v.setWidth 32 <<< (8 * (off % 4))))

inductive UserOp
  | fork (src dst size : Nat)
  | exit (base size : Nat)
  | touch (address : Nat)
  | load (address : Nat)
  | store (address : Nat) (v : Byte)

def Mm.entry (s : Mm) (address : Nat) : Word := s.pte (dirOf address) (slotOf address)

/-- A first access to a page that is not there goes through `do_no_page`. -/
def faultIn (s : Mm) (address : Nat) : Option Mm :=
  if present (s.entry address) then some s else doNoPage s address

/-- A store through an entry that is not writable goes through `do_wp_page`. -/
def faultWrite (s : Mm) (address : Nat) : Option Mm :=
  if writable (s.entry address) then some s else doWpPage s address

def userLoad (s : Mm) (address : Nat) : Option (Byte × Mm) :=
  (faultIn s address).map fun s => (readByte (s.mem (pageAddr (s.entry address))) (address % 4096), s)

def userStore (s : Mm) (address : Nat) (v : Byte) : Option Mm :=
  (faultIn s address).bind fun s => (faultWrite s address).map fun s =>
    s.setPage (pageAddr (s.entry address)) (writeByte (s.mem (pageAddr (s.entry address))) (address % 4096) v)

/-- The machine of the source. There is no step where memory runs out. -/
def cowStep (s : Mm) : UserOp → Option Mm
  | .fork src dst size =>
    match copyPageTables s src dst size with
    | .ok (true, s) => some s
    | _ => none
  | .exit base size => (freePageTables s base size).toOption
  | .touch address => doNoPage s address
  | .load address => (userLoad s address).map Prod.snd
  | .store address v => userStore s address v

/-- Ranges are task windows; `do_no_page` is entered for an absent page only. -/
def UserOp.Allowed (s : Mm) : UserOp → Prop
  | .fork src dst size => (src = 0 ∧ size ≤ 0xA0000 ∨ UserRange src size) ∧ UserRange dst size ∧
    size ≤ 0x4000000 ∧ (src + 0x4000000 ≤ dst ∨ dst + 0x4000000 ≤ src)
  | .exit base size => UserRange base size
  | .touch address => UserAddress address ∧ present (s.entry address) = false
  | .load address => UserAddress address
  | .store address _ => UserAddress address

/-- User memory of the eager machine: every page of a process is its own, except that the pages
below `LOW_MEM` which the first fork hands out still belong to the kernel. -/
abbrev EagerSpace := Nat → Nat → Option Cell

/-- Contents of a page of the eager machine; an absent page reads as zero on first touch. -/
def cellContents (low : Nat → Nat → Word) : Option Cell → Nat → Word
  | none => fun _ => 0#32
  | some (.own c) => c
  | some (.kernel page) => low page

def eagerLoad (low : Nat → Nat → Word) (a : EagerSpace) (address : Nat) : Byte :=
  readByte (cellContents low (a (dirOf address) (slotOf address))) (address % 4096)

def EagerSpace.set (a : EagerSpace) (address : Nat) (c : Option Cell) : EagerSpace := fun e j =>
  if e = dirOf address ∧ j = slotOf address then c else a e j

/-- First touch: an absent page becomes a page of zeros. -/
def EagerSpace.touched (a : EagerSpace) (address : Nat) : EagerSpace :=
  a.set address (some ((a (dirOf address) (slotOf address)).getD (.own fun _ => 0#32)))

/-- One step of the machine whose fork copies all pages of the process at once; `low` is the
kernel's memory below `LOW_MEM` at that moment. -/
def eagerStep (low : Nat → Nat → Word) (a : EagerSpace) : UserOp → EagerSpace
  | .fork src dst size => fun e j =>
    if src = 0 then
      if e = dst / 0x400000 ∧ dirCount size = 1 ∧ j < 160 then some (.kernel (4096 * j)) else a e j
    else if dst / 0x400000 ≤ e ∧ e < dst / 0x400000 + dirCount size then
      a (e - dst / 0x400000 + src / 0x400000) j
    else a e j
  | .exit base size => fun e j =>
    if base / 0x400000 ≤ e ∧ e < base / 0x400000 + dirCount size then none else a e j
  | .touch address => a.touched address
  | .load address => a.touched address
  | .store address v => a.set address
      (some (.own (writeByte (cellContents low (a (dirOf address) (slotOf address))) (address % 4096) v)))

def UserOp.fromZero : UserOp → Bool
  | .fork src _ _ => src = 0
  | _ => false

/-- The two machines side by side, from boot, taking the same steps. With `zero = false` no step
is the fork from base 0 that hands out the kernel's low pages. -/
inductive CowReach (ram : Nat → Nat → Word) (zero : Bool) : Mm → EagerSpace → Prop
  | start : CowReach ram zero (bootMm ram) fun _ _ => none
  | next {s s' a op} : CowReach ram zero s a → op.Allowed s → (op.fromZero = true → zero = true) →
      cowStep s op = some s' → CowReach ram zero s' (eagerStep s.mem a op)

/-- What relates the two machines. -/
structure Mm.Shows (s : Mm) (a : EagerSpace) : Prop where
  inv : s.Inv fun _ => 0
  same : ∀ e ∈ userDirs, ∀ j ∈ slots, s.space e j = a e j

variable {s s' : Mm} {a : EagerSpace} {address : Nat}

theorem space_contents (hp : present (s.entry address) = true) :
    cellContents s.mem (s.space (dirOf address) (slotOf address)) = s.mem (pageAddr (s.entry address)) := by
  unfold Mm.space Mm.cellOf
  change cellContents s.mem (if present (s.entry address) = true then _ else none) = _
  rw [if_pos hp]
  split <;> rfl

theorem doNoPage_spec (h : s.Inv fun _ => 0) (ha : UserAddress address)
    (hp : present (s.entry address) = false) (hn : doNoPage s address = some s') :
    s'.Inv (fun _ => 0) ∧ ∀ e ∈ userDirs, ∀ j ∈ slots, s'.space e j =
      if e = dirOf address ∧ j = slotOf address then some (.own fun _ => 0#32) else s.space e j := by
  unfold doNoPage at hn
  split at hn
  next => simp at hn
  next page s₁ hg =>
    obtain ⟨k, hk, rfl, hz, hs₁, hinv⟩ := h.alloc hg
    have hpte : s₁.pte = s.pte := by
      rw [hs₁]
      exact congrArg Tables.pte (@Mm.tables_setPage (s.setMap k 1) (fun _ => 0) _ _ (Mm.pageAt_ne_zero k)
        fun e he hpe => h.tables.free_not_table hk (Or.inl hz) he hpe)
    have hp₁ : present (s₁.pte (dirOf address) (slotOf address)) = false := by
      rw [hpte]
      exact hp
    obtain ⟨hinv', hspace⟩ := Mm.putPage_spec hinv (dirOf_user ha) hp₁ hk (Function.update_self k 1 _) hn
    have hback : Function.update (Function.update (fun _ => 0) k 1) k 0 = fun _ : Nat => 0 := by
      rw [Function.update_idem]
      exact Function.update_eq_self k _
    rw [hback] at hinv'
    refine ⟨hinv', ?_⟩
    intro e he j hj
    rw [hspace e he j hj, hs₁, Mm.setPage_mem_self, Mm.space_alloc h hk hz he hj]

theorem touched_contents (low : Nat → Nat → Word) (a : EagerSpace) (address : Nat) :
    cellContents low (a.touched address (dirOf address) (slotOf address)) =
      cellContents low (a (dirOf address) (slotOf address)) := by
  unfold EagerSpace.touched EagerSpace.set
  rw [if_pos ⟨rfl, rfl⟩]
  cases a (dirOf address) (slotOf address) with
  | none => rfl
  | some c => rfl

/-- After the first fault the page is there, and the eager machine has touched it too. -/
theorem Mm.Shows.faultIn (h : s.Shows a) (ha : UserAddress address) (hf : faultIn s address = some s') :
    s'.Shows (a.touched address) ∧ present (s'.entry address) = true ∧
      cellContents s'.mem (a (dirOf address) (slotOf address)) =
        cellContents s.mem (a (dirOf address) (slotOf address)) := by
  have hd := dirOf_user ha
  have hi := Mm.slotOf_mem address
  have hcell := h.same _ hd _ hi
  unfold RheeKernel.faultIn at hf
  split at hf
  next hp =>
    cases Option.some.inj hf
    refine ⟨⟨h.inv, ?_⟩, hp, rfl⟩
    intro e he j hj
    rw [h.same e he j hj]
    unfold EagerSpace.touched EagerSpace.set
    split
    next hc =>
      obtain ⟨c, hsome⟩ : ∃ c, s.space (dirOf address) (slotOf address) = some c := ⟨_, if_pos hp⟩
      rw [hc.1, hc.2, ← hcell, hsome]
      rfl
    next => rfl
  next hp =>
    have hpf : present (s.entry address) = false := Bool.eq_false_iff.mpr hp
    obtain ⟨hinv, hspace⟩ := doNoPage_spec h.inv ha hpf hf
    have hnone : a (dirOf address) (slotOf address) = none := by
      rw [← hcell]
      exact Mm.cellOf_absent hpf
    refine ⟨⟨hinv, ?_⟩, ?_, by rw [hnone]; rfl⟩
    · intro e he j hj
      rw [hspace e he j hj]
      unfold EagerSpace.touched EagerSpace.set
      rw [hnone, h.same e he j hj]
      rfl
    · have hown := hspace _ hd _ hi
      rw [if_pos ⟨rfl, rfl⟩] at hown
      by_contra habs
      have hgone : s'.space (dirOf address) (slotOf address) = none :=
        Mm.cellOf_absent (Bool.eq_false_iff.mpr habs)
      rw [hgone] at hown
      exact absurd hown (by simp)

/-- The byte a load returns. -/
theorem Mm.Shows.load {b : Byte} (h : s.Shows a) (ha : UserAddress address)
    (hl : userLoad s address = some (b, s')) :
    s'.Shows (a.touched address) ∧ b = eagerLoad s.mem a address := by
  obtain ⟨t, hf, ht⟩ := Option.map_eq_some_iff.mp hl
  obtain ⟨rfl, rfl⟩ := Prod.mk.inj ht
  obtain ⟨hshow, hp, hlow⟩ := h.faultIn ha hf
  refine ⟨hshow, ?_⟩
  unfold eagerLoad
  rw [← hlow, ← touched_contents t.mem a address, ← hshow.same _ (dirOf_user ha) _ (Mm.slotOf_mem address),
    space_contents hp]

/-- A user store: at most two faults, then one page that nobody else sees is written. -/
theorem Mm.Shows.store {v : Byte} (h : s.Shows a) (ha : UserAddress address)
    (hs : userStore s address v = some s') : s'.Shows (eagerStep s.mem a (.store address v)) := by
  obtain ⟨t, hf, hs⟩ := Option.bind_eq_some_iff.mp hs
  obtain ⟨u, hw, hu⟩ := Option.map_eq_some_iff.mp hs
  subst hu
  obtain ⟨hshow, hp, hlow⟩ := h.faultIn ha hf
  have hd := dirOf_user ha
  have hi := Mm.slotOf_mem address
  have hcontents : t.mem (pageAddr (t.entry address)) = cellContents s.mem (a (dirOf address) (slotOf address)) := by
    rw [← hlow, ← touched_contents t.mem a address, ← hshow.same _ hd _ hi, space_contents hp]
  -- Whichever way the entry became writable, it shows the old contents on a page of its own.
  have hready : u.Inv (fun _ => 0) ∧ (present (u.entry address) = true ∧ writable (u.entry address) = true) ∧
      u.mem (pageAddr (u.entry address)) = t.mem (pageAddr (t.entry address)) ∧
      ∀ e ∈ userDirs, ∀ j ∈ slots, ¬(e = dirOf address ∧ j = slotOf address) → u.space e j = a e j := by
    have htouch : ∀ e j, ¬(e = dirOf address ∧ j = slotOf address) → a.touched address e j = a e j := by
      intro e j hne
      exact if_neg hne
    unfold faultWrite at hw
    split at hw
    next hwr =>
      cases Option.some.inj hw
      refine ⟨hshow.inv, ⟨hp, hwr⟩, rfl, ?_⟩
      intro e he j hj hne
      rw [hshow.same e he j hj, htouch e j hne]
    next =>
      obtain ⟨hinv, hpw, hspace⟩ := Mm.unWpPage_spec hshow.inv hd (Mm.dir_present_of_pte hp).2 hi hp hw
      refine ⟨hinv, hpw, ?_, ?_⟩
      · have hown := hspace _ hd _ hi
        rw [if_pos ⟨rfl, rfl⟩] at hown
        have := @space_contents _ address hpw.1
        rw [hown] at this
        exact this.symm
      · intro e he j hj hne
        rw [hspace e he j hj, if_neg hne, hshow.same e he j hj, htouch e j hne]
  obtain ⟨hinv, ⟨hpu, hwu⟩, hmem, hother⟩ := hready
  obtain ⟨k, hk, hak, hmk⟩ := hinv.tables.cow _ hd _ hi hpu hwu
  change pageAddr (u.entry address) = pageAt k at hak
  change u.memMap k = 1 at hmk
  rw [hmem, hcontents, hak]
  obtain ⟨hinv', _, hspace'⟩ := hinv.writePage hd hi hpu hk hak hmk
    (writeByte (cellContents s.mem (a (dirOf address) (slotOf address))) (address % 4096) v)
  refine ⟨hinv', ?_⟩
  intro e he j hj
  rw [hspace' e he j hj]
  simp only [eagerStep, EagerSpace.set]
  split
  next => rfl
  next hne => exact hother e he j hj hne

theorem cowStep_fork {src dst size : Nat} (hs : cowStep s (.fork src dst size) = some s') : copyPageTables s src dst size = .ok (true, s') := by
  simp only [cowStep] at hs
  split at hs
  next u hu => rw [hu, Option.some.inj hs]
  next => simp at hs

theorem cowStep_exit {base size : Nat} (hs : cowStep s (.exit base size) = some s') : freePageTables s base size = .ok s' := by
  simp only [cowStep] at hs
  cases hf : freePageTables s base size with
  | error p => simp [hf, Except.toOption] at hs
  | ok u => simpa [hf, Except.toOption] using hs

theorem Mm.Shows.fork {src dst size : Nat} (h : s.Shows a) (hop : (UserOp.fork src dst size).Allowed s)
    (hs : cowStep s (.fork src dst size) = some s') : s'.Shows (eagerStep s.mem a (.fork src dst size)) := by
  obtain ⟨hsrc, hdst, hsize, hdis⟩ := hop
  have hcopy := cowStep_fork hs
  unfold copyPageTables at hcopy
  split at hcopy
  next => simp at hcopy
  next ha =>
    obtain ⟨hlow, hhigh⟩ := dirCount_le hdst (by omega)
    rcases hsrc with ⟨rfl, hk⟩ | hsrc
    · have hone : dirCount size ≤ 1 := by unfold dirCount; omega
      rw [if_pos rfl] at hcopy
      rcases Mm.copyDirs_kernel_spec h.inv hone hlow hhigh with hbad | ⟨b, u, hu, hinv, hspace⟩
      · exact absurd (hbad.symm.trans hcopy) (by simp)
      · obtain ⟨rfl, rfl⟩ : b = true ∧ u = s' := by simpa using hu.symm.trans hcopy
        refine ⟨hinv, ?_⟩
        intro e he j hj
        rw [hspace rfl e he j hj, h.same e he j hj]
        rfl
    · have hne : src ≠ 0 := by unfold UserRange at hsrc; omega
      obtain ⟨hslow, hshigh⟩ := dirCount_le hsrc (by omega)
      rw [if_neg hne] at hcopy
      rcases Mm.copyDirs_spec h.inv hslow hshigh hlow hhigh with hbad | ⟨b, u, hu, hinv, hspace⟩
      · exact absurd (hbad.symm.trans hcopy) (by simp)
      · obtain ⟨rfl, rfl⟩ : b = true ∧ u = s' := by simpa using hu.symm.trans hcopy
        have hwindow : dirCount size ≤ 16 := by unfold dirCount; omega
        refine ⟨hinv, ?_⟩
        intro e he j hj
        rw [hspace rfl (by omega) e he j hj]
        simp only [eagerStep, if_neg hne]
        have heu := Mm.mem_userDirs.mp he
        split
        next hin => exact h.same _ (Mm.mem_userDirs.mpr (by omega)) j hj
        next => exact h.same e he j hj

theorem Mm.Shows.exit {base size : Nat} (h : s.Shows a) (hr : UserRange base size)
    (hs : cowStep s (.exit base size) = some s') : s'.Shows (eagerStep s.mem a (.exit base size)) := by
  have hfree := cowStep_exit hs
  unfold freePageTables at hfree
  split at hfree
  next => simp at hfree
  next ha =>
    split at hfree
    next => simp at hfree
    next =>
      obtain ⟨hlow, hhigh⟩ := dirCount_le hr (by omega)
      obtain ⟨u, hu, hinv, hspace⟩ := Mm.freeDirs_spec h.inv hlow hhigh
      have heq : u = s' := by simpa using hu.symm.trans hfree
      subst heq
      refine ⟨hinv, ?_⟩
      intro e he j hj
      rw [hspace e he j hj]
      simp only [eagerStep]
      split
      next => rfl
      next => exact h.same e he j hj

theorem Mm.Shows.step {op : UserOp} (h : s.Shows a) (hop : op.Allowed s) (hs : cowStep s op = some s') :
    s'.Shows (eagerStep s.mem a op) := by
  cases op with
  | fork src dst size => exact h.fork hop hs
  | exit base size => exact h.exit hop hs
  | touch address =>
    have hf : RheeKernel.faultIn s address = some s' := by
      unfold RheeKernel.faultIn
      rw [if_neg (by rw [hop.2]; simp)]
      exact hs
    exact (h.faultIn hop.1 hf).1
  | load address =>
    obtain ⟨r, hr, rfl⟩ := Option.map_eq_some_iff.mp hs
    exact (h.load (b := r.1) hop hr).1
  | store address v => exact h.store hop hs

theorem cowReach_shows {ram : Nat → Nat → Word} {zero : Bool} (h : CowReach ram zero s a) : s.Shows a := by
  induction h with
  | start =>
    refine ⟨bootMm_inv ram, ?_⟩
    intro e he j _
    rw [Mm.mem_userDirs] at he
    apply Mm.space_of_dir
    simp only [bootMm, if_true, if_neg (show e ≠ 0 by omega), if_neg (show e ≠ 1 by omega), present_zero]
  | next _ hop _ hs ih => exact ih.step hop hs

/-- Without the fork from base 0 the eager machine copies every page there is. -/
theorem cowReach_own {ram : Nat → Nat → Word} (h : CowReach ram false s a) :
    ∀ e j page, a e j ≠ some (.kernel page) := by
  have hset : ∀ (a : EagerSpace) address c, (∀ e j page, a e j ≠ some (.kernel page)) →
      ∀ e j page, a.set address (some (.own c)) e j ≠ some (.kernel page) := by
    intro a address c ha e j page
    unfold EagerSpace.set
    split
    next => simp
    next => exact ha e j page
  have htouch : ∀ (a : EagerSpace) address, (∀ e j page, a e j ≠ some (.kernel page)) →
      ∀ e j page, a.touched address e j ≠ some (.kernel page) := by
    intro a address ha
    unfold EagerSpace.touched
    cases hc : a (dirOf address) (slotOf address) with
    | none => exact hset a address _ ha
    | some c =>
      cases c with
      | own c => exact hset a address c ha
      | kernel page => exact absurd hc (ha _ _ page)
  induction h with
  | start => intro e j page; simp
  | @next s s' a op _ hop hzero hs ih =>
    cases op with
    | fork src dst size =>
      have hne : src ≠ 0 := by simpa [UserOp.fromZero] using hzero
      intro e j page
      simp only [eagerStep, if_neg hne]
      split
      next => exact ih _ j page
      next => exact ih e j page
    | exit base size =>
      intro e j page
      simp only [eagerStep]
      split
      next => simp
      next => exact ih e j page
    | touch address => exact htouch a address ih
    | load address => exact htouch a address ih
    | store address v => exact hset a address _ ih

/-- Copy on write against copying at fork. In every pair of states the two machines reach by the
same steps, a load returns the byte of the eager machine, a page at or above `LOW_MEM` is one the
eager machine keeps for that process alone, and a writable entry names a page with count one; and
if no step forks from base 0, the eager machine has private pages only. -/
theorem cow_refines_eager {ram : Nat → Nat → Word} {zero : Bool} (h : CowReach ram zero s a) :
    (∀ address b s', UserAddress address → userLoad s address = some (b, s') →
      b = eagerLoad s.mem a address) ∧
    (∀ address, UserAddress address → present (s.entry address) = true →
      lowMem ≤ pageAddr (s.entry address) → ∃ c, a (dirOf address) (slotOf address) = some (.own c) ∧
        ∀ off, readByte (s.mem (pageAddr (s.entry address))) off = readByte c off) ∧
    (∀ address, UserAddress address → present (s.entry address) = true →
      writable (s.entry address) = true →
      lowMem ≤ pageAddr (s.entry address) ∧ s.memMap (mapNr (pageAddr (s.entry address))) = 1) ∧
    (zero = false → ∀ e j page, a e j ≠ some (.kernel page)) := by
  have hshow := cowReach_shows h
  refine ⟨fun address b s' ha hl => (hshow.load ha hl).2, ?_, ?_, ?_⟩
  · intro address ha hp hlow
    have hd := dirOf_user ha
    have hi := Mm.slotOf_mem address
    obtain ⟨k, hk, hak⟩ := exists_pageAt hlow (hshow.inv.tables.ptes _ hd _ hi hp)
    refine ⟨s.mem (pageAt k), ?_, fun off => by rw [hak]⟩
    rw [← hshow.same _ hd _ hi]
    exact Mm.cellOf_high hp hak
  · intro address ha hp hw
    obtain ⟨k, hk, hak, hmk⟩ := hshow.inv.tables.cow _ (dirOf_user ha) _ (Mm.slotOf_mem address) hp hw
    change pageAddr (s.entry address) = pageAt k at hak
    rw [hak, mapNr_pageAt]
    exact ⟨by simp [pageAt], hmk⟩
  · rintro rfl
    exact cowReach_own h

/-- The first page of task 1, touched and then loaded. -/
theorem cow_refines_eager_first_touch :
    ∃ s b s', cowStep (bootMm fun _ _ => 0#32) (.touch 0x4000000) = some s ∧
      userLoad s 0x4000000 = some (b, s') ∧ b = 0#8 := by
  obtain ⟨s, hs, hp⟩ : ∃ s, cowStep (bootMm fun _ _ => 0#32) (.touch 0x4000000) = some s ∧
      present (s.entry 0x4000000) = true := ⟨_, rfl, by decide⟩
  have reach : CowReach (fun _ _ => 0#32) false s _ :=
    .next (.start : CowReach _ _ _ _) (show UserOp.Allowed _ (.touch 0x4000000) from ⟨⟨by decide, by decide⟩, by decide⟩)
      (by simp [UserOp.fromZero]) hs
  obtain ⟨b, hl⟩ : ∃ b, userLoad s 0x4000000 = some (b, s) := ⟨_, by simp [userLoad, faultIn, hp]; rfl⟩
  exact ⟨s, b, s, hs, hl, (cow_refines_eager reach).1 _ b s ⟨by decide, by decide⟩ hl⟩

end RheeKernel
