import RheeKernel.CallIsolation

open Finset

namespace RheeKernel

/-- What holds between any two steps: the system calls under way are in order. -/
structure CallSys.Sound (s : CallSys) : Prop where
  inv : s.mm.Inv fun _ => 0
  kernel : s.mm.KernelTables
  busy : ∀ t, s.calls t ≠ [] → (0 < t ∧ t < 64) ∧ s.limit t ≤ 0x4000000
  guarded : ∀ t, Guarded t (s.limit t) s.mm.PrivatePage (s.calls t)

variable {s s' : CallSys} {t u limit : Nat} {op : UserOp} {e : CallEvent}

theorem bootCalls_sound (ram : Nat → Nat → Word) : (bootCalls ram).Sound :=
  ⟨bootMm_inv ram, Mm.bootMm_kernelTables ram, fun _ hne => absurd rfl hne, fun _ => trivial⟩

/-- The user steps of one task leave the directory slots of a task in a system call alone. -/
theorem UserOp.By.elsewhere (h : op.By s t) (hop : op.Allowed s.mm) (hidle : s.calls t = []) (hbusy : s.calls u ≠ []) :
    op.Elsewhere (TaskSlots u) := by
  have hne : t ≠ u := fun htu => hbusy (htu ▸ hidle)
  cases op with
  | fork src dst size =>
    obtain ⟨rfl, v, hv, hvidle, rfl⟩ := h
    obtain ⟨_, _, hsize, _⟩ := hop
    have hvu : v ≠ u := fun hvu => hbusy (hvu ▸ hvidle)
    unfold UserOp.Elsewhere TaskSlots dirCount
    rw [taskBase_eq, taskBase_eq]
    exact ⟨fun e _ _ _ => by omega, fun e _ _ _ => by omega⟩
  | exit base size =>
    obtain ⟨rfl, hsize⟩ := h
    unfold UserOp.Elsewhere TaskSlots dirCount
    rw [taskBase_eq]
    exact fun e _ _ _ => by omega
  | touch address =>
    have haddr := hop.1.2
    unfold UserOp.By at h
    unfold UserOp.Elsewhere TaskSlots dirOf
    omega
  | load address =>
    have haddr := hop.2
    unfold UserOp.By at h
    unfold UserOp.Elsewhere TaskSlots dirOf
    omega
  | store address v =>
    have haddr := hop.2
    unfold UserOp.By at h
    unfold UserOp.Elsewhere TaskSlots dirOf
    omega

/-- A page of a task stays as shared or unshared as it was. -/
theorem Mm.Kept.privatePage {m m' : Mm} {addr : Nat} (h : Mm.Kept (TaskSlots t) m m') (ht : t < 64) (hl : limit ≤ 0x4000000)
    (ha : addr < limit) (hp : m.PrivatePage ((taskBase t + addr) / 4096)) : m'.PrivatePage ((taskBase t + addr) / 4096) := by
  have hsame : m'.entry (taskBase t + addr) = m.entry (taskBase t + addr) :=
    congrFun (h.pte (taskSlots_dirOf ht hl ha)) _
  rw [Mm.privatePage_iff] at hp ⊢
  rw [hsame]
  exact hp

theorem CallSys.Sound.user (h : s.Sound) (hidle : s.calls t = []) (hop : op.Allowed s.mm) (hby : op.By s t) {mm : Mm}
    (hs : cowStep s.mm op = some mm) : CallSys.Sound { s with mm := mm } := by
  have hnone : op.Elsewhere fun _ => False := by
    cases op with
    | fork src dst size => exact ⟨fun _ _ _ => not_false, fun _ _ _ => not_false⟩
    | exit base size => exact fun _ _ _ => not_false
    | touch address => exact not_false
    | load address => exact not_false
    | store address v => exact not_false
  refine ⟨Mm.cowStep_inv h.inv hop hs, (Mm.cowStep_kept h.inv hop hnone hs).kernelTables h.kernel, h.busy, fun u => ?_⟩
  by_cases hu : s.calls u = []
  · change Guarded u (s.limit u) mm.PrivatePage (s.calls u)
    rw [hu]
    trivial
  · obtain ⟨⟨_, hu64⟩, hlimit⟩ := h.busy u hu
    have hkept := Mm.cowStep_kept h.inv hop (hby.elsewhere hop hidle hu) hs
    exact (h.guarded u).mono fun addr hlt hp => hkept.privatePage hu64 hlimit hlt hp

theorem CallSys.Sound.enter {call : SystemCall} (h : s.Sound) (ht : 0 < t ∧ t < 64) (hl : limit ≤ 0x4000000)
    (hc : call.Checked t limit s.mm) :
    CallSys.Sound { s with calls := Function.update s.calls t (call.accesses (taskBase t)),
                           limit := Function.update s.limit t limit } := by
  refine ⟨h.inv, h.kernel, fun u hu => ?_, fun u => ?_⟩
  · by_cases hut : u = t
    · subst hut
      dsimp only
      rw [Function.update_self]
      exact ⟨ht, hl⟩
    · dsimp only at hu ⊢
      rw [Function.update_of_ne hut] at hu ⊢
      exact h.busy u hu
  · dsimp only
    by_cases hut : u = t
    · subst hut
      rw [Function.update_self, Function.update_self]
      exact hc.guarded ht.2 hl
    · rw [Function.update_of_ne hut, Function.update_of_ne hut]
      exact h.guarded u

/-- The next access of a call under way. -/
theorem CallSys.Sound.next {a : Access} {rest : List Access} (h : s.Sound) (hc : s.calls t = a :: rest) :
    a.Private t (s.limit t) s.mm ∧ ∀ mm, accessStep t (s.limit t) s.mm a = some mm →
      (mm.Inv (fun _ => 0) ∧ mm.KernelTables ∧ (∀ p, s.mm.PrivatePage p → mm.PrivatePage p) ∧
        Guarded t (s.limit t) mm.PrivatePage rest) ∧ Mm.SameElsewhere t s.mm mm := by
  obtain ⟨⟨h0, ht⟩, hl⟩ := h.busy t (by rw [hc]; simp)
  have hg := h.guarded t
  rw [hc] at hg
  obtain ⟨hpriv, hstep⟩ := hg.step h.inv h.kernel h0 ht hl
  refine ⟨hpriv, fun mm hmm => ?_⟩
  obtain ⟨hinv, hker, hmono, hrest, hsame⟩ := hstep mm hmm
  exact ⟨⟨hinv, hker, hmono, hrest⟩, hsame⟩

theorem CallSys.Sound.access {a : Access} {rest : List Access} (h : s.Sound) (hc : s.calls t = a :: rest) {mm : Mm}
    (hs : accessStep t (s.limit t) s.mm a = some mm) :
    CallSys.Sound { s with mm := mm, calls := Function.update s.calls t rest } := by
  obtain ⟨⟨hinv, hker, hmono, hrest⟩, _⟩ := (h.next hc).2 mm hs
  refine ⟨hinv, hker, fun u hu => ?_, fun u => ?_⟩
  · by_cases hut : u = t
    · subst hut
      exact h.busy u (by rw [hc]; simp)
    · dsimp only at hu
      rw [Function.update_of_ne hut] at hu
      exact h.busy u hu
  · dsimp only
    by_cases hut : u = t
    · subst hut
      rw [Function.update_self]
      exact hrest
    · rw [Function.update_of_ne hut]
      exact (h.guarded u).mono fun _ _ hp => hmono _ hp

theorem CallSys.Sound.step (h : s.Sound) (hok : e.Allowed s ∧ e.Checked s) (hs : callStep s e = some s') : s'.Sound := by
  obtain ⟨hok, hcheck⟩ := hok
  cases e with
  | user t op =>
    obtain ⟨hidle, hop, hby⟩ := hok
    obtain ⟨mm, hmm, rfl⟩ := Option.map_eq_some_iff.mp hs
    exact h.user hidle hop hby hmm
  | enter t limit call =>
    obtain ⟨ht, hl, _⟩ := hok
    cases Option.some.inj hs
    exact h.enter ht hl hcheck
  | access t =>
    simp only [callStep] at hs
    split at hs
    next => cases hs
    next a rest hc =>
      obtain ⟨mm, hmm, rfl⟩ := Option.map_eq_some_iff.mp hs
      exact h.access hc hmm

/-- A run in which each system call is in order when it begins. -/
abbrev CallReach (ram : Nat → Nat → Word) : CallSys → Prop :=
  Machine.Reach callStep (fun s e => e.Allowed s ∧ e.Checked s) (bootCalls ram)

theorem callReach_sound {ram : Nat → Nat → Word} (h : CallReach ram s) : s.Sound :=
  h.invariant (bootCalls_sound ram) fun _ _ _ hsound hok hs => hsound.step hok hs

section Alone

variable {m m' : Mm} {l : List Access} {addr base n size : Nat} {v : Byte} {call : SystemCall}

theorem Guarded.privateRun (h : m.Inv fun _ => 0) (hk : m.KernelTables) (h0 : 0 < t) (ht : t < 64) (hl : limit ≤ 0x4000000)
    (hg : Guarded t limit m.PrivatePage l) : PrivateRun t limit m l := by
  induction l generalizing m with
  | nil => trivial
  | cons a l ih =>
    obtain ⟨hpriv, hstep⟩ := hg.step h hk h0 ht hl
    refine ⟨hpriv, fun m' hm' => ?_⟩
    obtain ⟨hinv, hker, _, hrest, _⟩ := hstep m' hm'
    exact ih hinv hker hrest

/-- Stores that nothing verifies find the pages as they were before the first of them. -/
theorem PrivateRun.pages (h : m.Inv fun _ => 0) (hk : m.KernelTables) (h0 : 0 < t) (ht : t < 64) (hl : limit ≤ 0x4000000)
    (hputs : ∀ a ∈ l, ∃ addr v, a = .put addr v) (hrun : runAccesses t limit m l = some m') (hp : PrivateRun t limit m l)
    (ha : .put addr v ∈ l) : m.PrivatePage ((taskBase t + addr) / 4096) := by
  induction l generalizing m with
  | nil => cases ha
  | cons a l ih =>
    obtain ⟨addr₁, v₁, rfl⟩ := hputs a (by simp)
    obtain ⟨m₁, hm₁, hrun'⟩ := Option.bind_eq_some_iff.mp hrun
    obtain ⟨hfirst, hrest⟩ := hp
    have hstep := hm₁
    simp only [accessStep] at hstep
    split at hstep
    next hlt =>
      have hpage := hfirst hlt
      have huser := userAddress_task h0 ht hl hlt
      rcases List.mem_cons.mp ha with heq | hmem
      · cases heq
        exact hpage
      · obtain ⟨⟨hinv, hker⟩, _⟩ := Mm.kernelPut_spec h hk huser hpage hstep
        have hlater := ih hinv hker (fun b hb => hputs b (by simp [hb])) hrun' (hrest m₁ hm₁) hmem
        exact (Mm.kernelPut_private h hk huser hpage hstep).mp hlater
    next => cases hstep

theorem puts_putFs {f : Nat → Byte} : ∀ a ∈ putFs addr n f, ∃ addr v, a = .put addr v := by
  intro a ha
  obtain ⟨i, _, rfl⟩ := List.mem_map.mp ha
  exact ⟨_, _, rfl⟩

theorem PrivateRun.bytes {f : Nat → Byte} (h : m.Inv fun _ => 0) (hk : m.KernelTables) (h0 : 0 < t) (ht : t < 64)
    (hl : limit ≤ 0x4000000) (hrun : runAccesses t limit m (putFs addr n f) = some m')
    (hp : PrivateRun t limit m (putFs addr n f)) : m.PrivateBytes t limit addr n :=
  fun _ hi _ => hp.pages h hk h0 ht hl puts_putFs hrun (mem_putFs hi)

/-- A call that is not in order when it begins stores to a shared page, if nothing stops it before. -/
theorem PrivateRun.checked (h : m.Inv fun _ => 0) (hk : m.KernelTables) (h0 : 0 < t) (ht : t < 64) (hl : limit ≤ 0x4000000)
    (hrun : runAccesses t limit m (call.accesses (taskBase t)) = some m')
    (hp : PrivateRun t limit m (call.accesses (taskBase t))) : call.Checked t limit m := by
  cases call with
  | read buf count data =>
    intro hpos
    by_cases hsize : count.toNat + buf % 4096 < 2 ^ 31
    · exact .inl hsize
    · refine .inr ?_
      have hint : count.toNat < 2 ^ 31 := by
        rw [BitVec.toInt_eq_toNat_cond] at hpos
        omega
      have hzero : count ≠ 0#32 := by
        rintro rfl
        exact absurd hpos (by decide)
      have hbare : SystemCall.accesses (taskBase t) (.read buf count data) =
          putFs buf (min count.toNat data.length) fun i => data.getD i 0#8 := by
        simp only [SystemCall.accesses, sysRead]
        rw [if_neg (by omega), if_neg hzero, verifyArea_overflow hint (by omega)]
        rfl
      rw [hbare] at hrun hp
      exact hp.bytes h hk h0 ht hl hrun
  | pipe fildes fd =>
    cases fd with
    | none => intro hfd; cases hfd
    | some fd =>
      intro _ i hi _
      change runAccesses t limit m (putFsLong fd.1 fildes ++ putFsLong fd.2 (fildes + 4)) = some m' at hrun
      change PrivateRun t limit m (putFsLong fd.1 fildes ++ putFsLong fd.2 (fildes + 4)) at hp
      have hputs : ∀ a ∈ putFsLong fd.1 fildes ++ putFsLong fd.2 (fildes + 4), ∃ addr v, a = .put addr v := by
        intro a ha
        rcases List.mem_append.mp ha with ha | ha
        · exact puts_putFs a ha
        · exact puts_putFs a ha
      by_cases hlow : i < 4
      · exact hp.pages h hk h0 ht hl hputs hrun (List.mem_append_left _ (mem_putFs hlow))
      · have hmem := hp.pages h hk h0 ht hl hputs hrun
          (List.mem_append_right _ (mem_putFs (n := i - 4) (show i - 4 < 4 by omega)))
        rw [show fildes + 4 + (i - 4) = fildes + i by omega] at hmem
        exact hmem
  | waitpid | stat | stat64 | getdents | getdents64 | uname | times | time | ttyIoctl => trivial

end Alone

/-- In every run in which each system call is in order when it begins, no store of a system call goes to a shared page and
none changes what another process reads; and a call that runs to its end stores to unshared pages only exactly when it was
in order. -/
theorem system_calls_isolated_iff {ram : Nat → Nat → Word} (h : CallReach ram s) :
    s.Isolated ∧ ∀ (t limit : Nat) (call : SystemCall) (mm : Mm), (0 < t ∧ t < 64) → limit ≤ 0x4000000 →
      runAccesses t limit s.mm (call.accesses (taskBase t)) = some mm →
      (PrivateRun t limit s.mm (call.accesses (taskBase t)) ↔ call.Checked t limit s.mm) := by
  have hsound := callReach_sound h
  refine ⟨fun t a rest hc => ?_, fun t limit call mm ht hl hrun => ⟨fun hp => ?_, fun hc => ?_⟩⟩
  · obtain ⟨hpriv, hstep⟩ := hsound.next hc
    exact ⟨hpriv, fun mm hmm => (hstep mm hmm).2⟩
  · exact hp.checked hsound.inv hsound.kernel ht.1 ht.2 hl hrun
  · exact (hc.guarded ht.2 hl).privateRun hsound.inv hsound.kernel ht.1 ht.2 hl

/-- Word `i` of page `a` once entry `i` of table `src` is copied to table `dst`. -/
def copiedWord (src dst : Nat) (mem : Nat → Nat → Word) (a i : Nat) : Word :=
  if present (mem src i) = true then
    if a = dst then protect (mem src i)
    else if a = src ∧ lowMem < (protect (mem src i)).toNat then protect (mem src i)
    else mem a i
  else mem a i

theorem copyEntry_memory {src dst nr : Nat} {s : Mm} (hne : src ≠ dst) (a i : Nat) :
    (copyEntry src dst nr s).mem a i = if i = nr then copiedWord src dst s.mem a i else s.mem a i := by
  by_cases hi : i = nr
  · subst hi
    rw [if_pos rfl]
    unfold copyEntry copiedWord
    dsimp only
    split
    next hp =>
      split
      next hl =>
        rw [Mm.setMap_mem]
        by_cases had : a = dst
        · subst had
          rw [if_pos rfl, Mm.store_mem_ne _ _ _ hne.symm, Mm.store_mem_self, Function.update_self]
        · rw [if_neg had]
          by_cases has : a = src
          · subst has
            rw [if_pos ⟨rfl, hl⟩, Mm.store_mem_self, Function.update_self]
          · rw [if_neg (fun hc => has hc.1), Mm.store_mem_ne _ _ _ has, Mm.store_mem_ne _ _ _ had]
      next hl =>
        rw [if_neg (show ¬ (a = src ∧ _) from fun hc => hl hc.2)]
        by_cases had : a = dst
        · subst had
          rw [if_pos rfl, Mm.store_mem_self, Function.update_self]
        · rw [if_neg had, Mm.store_mem_ne _ _ _ had]
    next => rfl
  · have hstore : ∀ (r : Mm) (b : Nat) (w : Word), (r.store b nr w).mem a i = r.mem a i := by
      intro r b w
      by_cases hab : a = b
      · subst hab
        rw [Mm.store_mem_self, Function.update_of_ne hi]
      · rw [Mm.store_mem_ne _ _ _ hab]
    rw [if_neg hi]
    unfold copyEntry
    dsimp only
    split
    next =>
      split
      next => rw [Mm.setMap_mem, hstore, hstore]
      next => rw [hstore]
    next => rfl

theorem copyEntries_memory {src dst n nr : Nat} {s : Mm} (hne : src ≠ dst) :
    (copyEntries src dst n nr s).mem =
      fun a i => if nr ≤ i ∧ i < nr + n then copiedWord src dst s.mem a i else s.mem a i := by
  induction n generalizing s nr with
  | zero =>
    funext a i
    rw [if_neg (by omega)]
    rfl
  | succ n ih =>
    rw [copyEntries, ih]
    funext a i
    by_cases hi : nr + 1 ≤ i
    · have hsame : ∀ b, (copyEntry src dst nr s).mem b i = s.mem b i := by
        intro b
        rw [copyEntry_memory hne, if_neg (by omega)]
      unfold copiedWord
      rw [hsame src, hsame a]
      simp only [show (nr + 1 ≤ i ∧ i < nr + 1 + n) ↔ (nr ≤ i ∧ i < nr + (n + 1)) by omega]
    · rw [if_neg (fun hc => hi hc.1), copyEntry_memory hne]
      simp only [show (nr ≤ i ∧ i < nr + (n + 1)) ↔ i = nr by omega]

/-- Memory after `n` entries of a table were copied. -/
def copiedTable (src dst n : Nat) (s : Mm) : Mm where
  memMap := (copyEntries src dst n 0 s).memMap
  mem := fun a i => if i < n then copiedWord src dst s.mem a i else s.mem a i

theorem copyEntries_table {src dst n : Nat} {s : Mm} (hne : src ≠ dst) :
    copyEntries src dst n 0 s = copiedTable src dst n s := by
  have hmem : (copyEntries src dst n 0 s).mem =
      fun a i => if 0 ≤ i ∧ i < 0 + n then copiedWord src dst s.mem a i else s.mem a i := copyEntries_memory hne
  simp only [Nat.zero_le, true_and, Nat.zero_add] at hmem
  unfold copiedTable
  rw [← hmem]

/-- Task 1 forks into task 2 while it has one page table. -/
theorem fork_oneTable {m s : Mm} {table : Nat} (hp : present (m.mem 0 16) = true) (ha : present (m.mem 0 32) = false)
    (hg : getFreePage m = some (table, s)) (hne : pageAddr ((s.store 0 32 (userEntry table)).mem 0 16) ≠ table) :
    cowStep m (.fork 0x4000000 0x8000000 0x400000) =
      some (copiedTable (pageAddr ((s.store 0 32 (userEntry table)).mem 0 16)) table 1024 (s.store 0 32 (userEntry table))) := by
  have hcopy : copyPageTables m 0x4000000 0x8000000 0x400000 =
      .ok (true, copyEntries (pageAddr ((s.store 0 32 (userEntry table)).mem 0 16)) table 1024 0
        (s.store 0 32 (userEntry table))) := by
    unfold copyPageTables
    rw [if_neg (by decide), if_neg (by decide)]
    change copyDirs 1024 1 16 32 m = _
    rw [copyDirs, ha, if_neg (by decide), hp, if_pos rfl, hg]
    rfl
  simp only [cowStep, hcopy, copyEntries_table hne]


theorem callStep_user {mm : Mm} (hs : cowStep s.mm op = some mm) : callStep s (.user t op) = some { s with mm := mm } := by
  simp only [callStep, hs, Option.map_some]

def Cell.isKernel : Cell → Bool
  | .own _ => false
  | .kernel _ => true

/-- The child of a fork sees the page its parent touched, until the kernel stores into it. -/
theorem fork_shares_page :
    ∃ m m' mm, cowStep (bootMm fun _ _ => 0#32) (.touch 0x4000000) = some m ∧
      cowStep m (.fork 0x4000000 0x8000000 0x400000) = some m' ∧
      (present (m'.entry 0x4000000) = true ∧ writable (m'.entry 0x4000000) = false) ∧
      (∀ p, m'.space 32 0 ≠ some (.kernel p)) ∧ kernelPut m' 0x4000000 3#8 = some mm ∧
      readByte (cellContents m'.mem (m'.space 32 0)) 0 = 0#8 ∧ readByte (cellContents mm.mem (mm.space 32 0)) 0 = 3#8 := by
  have hrun : ((cowStep (bootMm fun _ _ => 0#32) (.touch 0x4000000)).bind fun m => (getFreePage m).bind fun r =>
      let s := r.2.store 0 32 (userEntry r.1)
      let m' := copiedTable (pageAddr (s.mem 0 16)) r.1 1024 s
      (kernelPut m' 0x4000000 3#8).map fun mm =>
        ((present (m.mem 0 16), present (m.mem 0 32), decide (pageAddr (s.mem 0 16) = r.1)),
          (present (m'.entry 0x4000000), writable (m'.entry 0x4000000)),
          (m'.space 32 0).any Cell.isKernel,
          readByte (cellContents m'.mem (m'.space 32 0)) 0, readByte (cellContents mm.mem (mm.space 32 0)) 0)) =
      some ((true, false, false), (true, false), false, 0#8, 3#8) := by
    decide +kernel
  obtain ⟨m, hm, hrun⟩ := Option.bind_eq_some_iff.mp hrun
  obtain ⟨⟨table, s⟩, hg, hrun⟩ := Option.bind_eq_some_iff.mp hrun
  obtain ⟨mm, hmm, hview⟩ := Option.map_eq_some_iff.mp hrun
  simp only [Prod.mk.injEq] at hview
  obtain ⟨⟨h16, h32, hne⟩, hentry, hk, hbefore, hafter⟩ := hview
  refine ⟨m, _, mm, hm, fork_oneTable h16 h32 hg (of_decide_eq_false hne), hentry, fun p hp => ?_, hmm, hbefore, hafter⟩
  rw [hp] at hk
  cases hk

/-- A pipe call right after a fork: its descriptor is stored into the page of the other process too. -/
theorem system_calls_isolated_fails :
    ¬ ∀ s, Machine.Reach callStep (fun s e => e.Allowed s) (bootCalls fun _ _ => 0#32) s → s.Isolated := by
  intro hall
  obtain ⟨m, m', mm, hm, hm', _, hspace, hmm, hbefore, hafter⟩ := fork_shares_page
  have hreach : Machine.Reach callStep (fun s e => e.Allowed s) (bootCalls fun _ _ => 0#32)
      ⟨m', Function.update (fun _ => []) 1 (sysPipe 0 (some (3#32, 4#32))), Function.update (fun _ => 0) 1 0x4000000⟩ := by
    refine .next (e := .enter 1 0x4000000 (.pipe 0 (some (3#32, 4#32)))) (s := ⟨m', fun _ => [], fun _ => 0⟩) ?_ ?_ rfl
    · refine .next (e := .user 1 (.fork 0x4000000 0x8000000 0x400000)) (s := ⟨m, fun _ => [], fun _ => 0⟩) ?_ ?_ ?_
      · refine .next (e := .user 1 (.touch 0x4000000)) .start ?_ ?_
        · exact ⟨rfl, ⟨⟨by decide, by decide⟩, by decide⟩, rfl⟩
        · exact callStep_user hm
      · exact ⟨rfl, ⟨.inr ⟨by decide, by decide⟩, ⟨by decide, by decide⟩, by decide, .inl (by decide)⟩, rfl, 2, by decide, rfl, rfl⟩
      · exact callStep_user hm'
    · exact ⟨⟨by decide, by decide⟩, by decide, rfl⟩
  obtain ⟨_, hsame⟩ := hall _ hreach 1 (.put 0 3#8) _ rfl
  have hother := hsame mm hmm 32 (Mm.mem_userDirs.mpr (by decide)) (fun hslot => absurd hslot.2 (by decide)) 0
    (Mm.mem_slots.mpr (by decide)) fun p hp => absurd hp (hspace p)
  rw [hother, hbefore] at hafter
  exact absurd hafter (by decide)

/-- A call of `read` into a page that the caller has touched. -/
theorem system_calls_isolated_sample :
    ∃ s mm, CallReach (fun _ _ => 0#32) s ∧ s.calls 1 ≠ [] ∧ s.Isolated ∧
      runAccesses 1 0x4000000 s.mm (SystemCall.accesses (taskBase 1) (.read 0 1#32 [7#8])) = some mm ∧
      PrivateRun 1 0x4000000 s.mm (SystemCall.accesses (taskBase 1) (.read 0 1#32 [7#8])) := by
  have hrun : ((cowStep (bootMm fun _ _ => 0#32) (.touch 0x4000000)).bind fun m =>
      runAccesses 1 0x4000000 m (SystemCall.accesses (taskBase 1) (.read 0 1#32 [7#8]))).isSome = true := by decide +kernel
  obtain ⟨mm, hrun⟩ := Option.isSome_iff_exists.mp hrun
  obtain ⟨m, hm, hrun⟩ := Option.bind_eq_some_iff.mp hrun
  have hreach : CallReach (fun _ _ => 0#32)
      ⟨m, Function.update (fun _ => []) 1 (sysTime (taskBase 1) 8 5#32), Function.update (fun _ => 0) 1 0x4000000⟩ := by
    refine .next (e := .enter 1 0x4000000 (.time 8 5#32)) (s := ⟨m, fun _ => [], fun _ => 0⟩) ?_ ?_ rfl
    · refine .next (e := .user 1 (.touch 0x4000000)) .start ?_ ?_
      · exact ⟨⟨rfl, ⟨⟨by decide, by decide⟩, by decide⟩, rfl⟩, trivial⟩
      · exact callStep_user hm
    · exact ⟨⟨⟨by decide, by decide⟩, by decide, rfl⟩, trivial⟩
  obtain ⟨hisolated, hcalls⟩ := system_calls_isolated_iff hreach
  refine ⟨_, mm, hreach, ?_, hisolated, hrun, ?_⟩
  · simp [sysTime, verifyArea, putFsLong, putFs]
  · exact (hcalls 1 0x4000000 _ mm (by decide) (by decide) hrun).mpr fun _ => .inl (by decide)

end RheeKernel
