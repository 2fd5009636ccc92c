import RheeKernel.InodeTable
import Mathlib.Data.List.Count

namespace RheeKernel

namespace InodeSys

def refsOn (s : InodeSys) (k : Nat) : Nat := s.refs.countP fun r => r.slot = k

/-- Every `i_count` is the number of references to the slot and a reference keeps its inode; a slot fresh from
`get_empty_inode` has one reference, and a slot that nobody uses is clean and unlocked. -/
structure Counted (s : InodeSys) : Prop where
  counts : ∀ k, (s.slot k).count = s.refsOn k
  ident : ∀ r ∈ s.refs, (s.slot r.slot).dev = r.dev ∧ (s.slot r.slot).num = r.num
  alone : ∀ r ∈ s.refs, r.dev = 0 → (s.slot r.slot).count = 1
  low : ∀ r ∈ s.refs, r.slot < nrInode
  clean : ∀ k, (s.slot k).dev = 0 ∨ (s.slot k).count = 0 → (s.slot k).dirt = false
  free : ∀ k, (s.slot k).count = 0 → (s.slot k).lock = false

/-- No inode is in two slots. -/
def Unique (s : InodeSys) : Prop := ∀ j k, j < nrInode → k < nrInode → (s.slot j).dev ≠ 0 →
  (s.slot j).dev = (s.slot k).dev → (s.slot j).num = (s.slot k).num → j = k

/-- The caller has the only reference, and the inode has no link. -/
def LastGone (s : InodeSys) (r : InodeRef) : Prop := (s.slot r.slot).count = 1 ∧ (s.slot r.slot).nlinks = 0

/-- What a sleeping process has in hand. An unused slot is clean and unlocked, so `get_empty_inode` does not sleep. -/
def PcHas (s : InodeSys) (p : Nat) : InodePc → Prop
  | .idle => True
  | .waitEmpty _ _ => False
  | .writeEmpty _ _ => False
  | .waitMatch w e j => w.dev ≠ 0 ∧ j < nrInode ∧ ⟨p, e, 0, 0⟩ ∈ s.refs
  | .reading r => r.proc = p ∧ r ∈ s.refs ∧ r.dev ≠ 0
  | .waitPut r => r.proc = p ∧ r ∈ s.refs
  | .writePut r => r.proc = p ∧ r ∈ s.refs ∧ r.dev ≠ 0 ∧ (s.slot r.slot).lock = true ∧ (s.slot r.slot).count = 1 ∧
    (s.slot r.slot).nlinks ≠ 0
  | .truncating r => r.proc = p ∧ r ∈ s.refs ∧ r.dev ≠ 0

/-- What a stretch of process `p` leaves of the slots and references, when `d` is what it looks for: a slot with one reference of
another process stays as it is while it is locked or not looked for. -/
structure Moved (u : Prop) (d : Nat → Nat → Prop) (s s' : InodeSys) (p : Nat) : Prop where
  counted : s'.Counted
  unique : u → s.Unique → s'.Unique
  others : ∀ r ∈ s.refs, r.proc ≠ p → r ∈ s'.refs
  pcs : ∀ q, q ≠ p → s'.pc q = s.pc q
  kept : ∀ r ∈ s.refs, r.proc ≠ p → (s.slot r.slot).count = 1 → (s.slot r.slot).lock = true ∨ ¬ d r.dev r.num →
    s'.slot r.slot = s.slot r.slot

variable {s s' t : InodeSys} {p q k e j : Nat} {r r' : InodeRef} {w : Want} {i : InodeSlot} {c : InodePc} {u : Prop}
  {d : Nat → Nat → Prop}

theorem setPc_self : (s.setPc p c).pc p = c := Function.update_self _ _ _

theorem setPc_other (h : q ≠ p) : (s.setPc p c).pc q = s.pc q := Function.update_of_ne h _ _

theorem Counted.congr (h : s.Counted) (hslot : s'.slot = s.slot) (hrefs : s'.refs = s.refs) : s'.Counted := by
  refine ⟨fun k => ?_, fun r hr => ?_, fun r hr hd => ?_, fun r hr => ?_, fun k hk => ?_, fun k hk => ?_⟩
  · unfold refsOn
    rw [hslot, hrefs]
    exact h.counts k
  · rw [hslot]
    exact h.ident r (hrefs ▸ hr)
  · rw [hslot]
    exact h.alone r (hrefs ▸ hr) hd
  · exact h.low r (hrefs ▸ hr)
  · rw [hslot] at hk ⊢
    exact h.clean k hk
  · rw [hslot] at hk ⊢
    exact h.free k hk

theorem Counted.pos (h : s.Counted) (hr : r ∈ s.refs) : 0 < (s.slot r.slot).count := by
  rw [h.counts]
  exact List.countP_pos_iff.mpr ⟨r, hr, decide_eq_true rfl⟩

theorem refsOn_erase (hr : r ∈ s.refs) :
    (s.refs.erase r).countP (fun x => x.slot = k) = s.refsOn k - if r.slot = k then 1 else 0 := by
  rw [List.countP_erase]
  unfold refsOn
  by_cases hk : r.slot = k
  · rw [if_pos ⟨hr, decide_eq_true hk⟩, if_pos hk]
  · rw [if_neg (fun hc => hk (of_decide_eq_true hc.2)), if_neg hk]

theorem refsOn_cons : (r :: s.refs).countP (fun x => x.slot = k) = s.refsOn k + if r.slot = k then 1 else 0 := by
  rw [List.countP_cons]
  unfold refsOn
  by_cases hk : r.slot = k
  · rw [if_pos (decide_eq_true hk), if_pos hk]
  · rw [if_neg (fun hc => hk (of_decide_eq_true hc)), if_neg hk]

/-- With one reference given up, a second one to the same slot means that there were two. -/
theorem Counted.two (h : s.Counted) (hr : r ∈ s.refs) (hr' : r' ∈ s.refs.erase r) (hsame : r'.slot = r.slot) :
    1 < (s.slot r.slot).count := by
  have hpos : 0 < (s.refs.erase r).countP fun x => x.slot = r.slot :=
    List.countP_pos_iff.mpr ⟨r', hr', decide_eq_true hsame⟩
  rw [refsOn_erase hr, if_pos rfl, ← h.counts] at hpos
  omega

/-- The references of two processes to one slot count as two. -/
theorem Counted.two_of_ne (h : s.Counted) (hr : r ∈ s.refs) (hr' : r' ∈ s.refs) (hne : r'.proc ≠ r.proc)
    (hsame : r'.slot = r.slot) : 1 < (s.slot r.slot).count := by
  refine h.two hr ((List.mem_erase_of_ne ?_).mpr hr') hsame
  rintro rfl
  exact hne rfl

namespace Moved

theorem refl (h : s.Counted) : Moved u d s s p :=
  ⟨h, fun _ hu => hu, fun _ hr _ => hr, fun _ _ => rfl, fun _ _ _ _ _ => rfl⟩

theorem trans (h : Moved u d s t p) (h' : Moved u d t s' p) : Moved u d s s' p := by
  refine ⟨h'.counted, fun hu hs => h'.unique hu (h.unique hu hs), fun r hr hp => h'.others r (h.others r hr hp) hp,
    fun q hq => (h'.pcs q hq).trans (h.pcs q hq), fun r hr hp hone hsafe => ?_⟩
  have hkeep := h.kept r hr hp hone hsafe
  rw [← hkeep] at hone hsafe ⊢
  exact h'.kept r (h.others r hr hp) hp hone hsafe

theorem weaken {v : Prop} (h : Moved u d s s' p) (hv : v → u) : Moved v d s s' p :=
  ⟨h.counted, fun hu => h.unique (hv hu), h.others, h.pcs, h.kept⟩

theorem setPc (h : Moved u d s t p) : Moved u d s (t.setPc p c) p :=
  ⟨h.counted.congr rfl rfl, h.unique, h.others, fun q hq => (setPc_other hq).trans (h.pcs q hq), h.kept⟩

/-- One slot changes, and the references to it. -/
theorem change (h : s.Counted) (hslot : s'.slot = Function.update s.slot k i) (hpc : s'.pc = s.pc)
    (hcount : i.count = s'.refsOn k) (hrest : ∀ j, j ≠ k → s'.refsOn j = s.refsOn j)
    (hold : ∀ r ∈ s'.refs, r.slot ≠ k → r ∈ s.refs)
    (hon : ∀ r ∈ s'.refs, r.slot = k → (i.dev = r.dev ∧ i.num = r.num) ∧ (r.dev = 0 → i.count = 1) ∧ k < nrInode)
    (hclean : i.dev = 0 ∨ i.count = 0 → i.dirt = false) (hfree : i.count = 0 → i.lock = false)
    (hnew : u → i.dev = 0 ∨ (i.dev = (s.slot k).dev ∧ i.num = (s.slot k).num) ∨
      ∀ j < nrInode, ¬ ((s.slot j).dev = i.dev ∧ (s.slot j).num = i.num))
    (hothers : ∀ r ∈ s.refs, r.proc ≠ p → r ∈ s'.refs)
    (hkept : ∀ r ∈ s.refs, r.proc ≠ p → r.slot = k → (s.slot k).count = 1 → ¬ ((s.slot k).lock = true ∨ ¬ d r.dev r.num)) :
    Moved u d s s' p := by
  have hself : s'.slot k = i := by rw [hslot, Function.update_self]
  have hother : ∀ j, j ≠ k → s'.slot j = s.slot j := fun j hj => by rw [hslot, Function.update_of_ne hj]
  refine ⟨⟨fun j => ?_, fun r hr => ?_, fun r hr hd => ?_, fun r hr => ?_, fun j hj => ?_, fun j hj => ?_⟩,
    fun hu hs a b ha hb hd hdd hn => ?_, hothers, fun q _ => ?_, fun r hr hp hone hsafe => ?_⟩
  · by_cases hj : j = k
    · rw [hj, hself, hcount]
    · rw [hother j hj, hrest j hj, h.counts]
  · by_cases hj : r.slot = k
    · rw [hj, hself]
      exact (hon r hr hj).1
    · rw [hother _ hj]
      exact h.ident r (hold r hr hj)
  · by_cases hj : r.slot = k
    · rw [hj, hself]
      exact (hon r hr hj).2.1 hd
    · rw [hother _ hj]
      exact h.alone r (hold r hr hj) hd
  · by_cases hj : r.slot = k
    · rw [hj]
      exact (hon r hr hj).2.2
    · exact h.low r (hold r hr hj)
  · by_cases hk : j = k
    · rw [hk, hself] at hj ⊢
      exact hclean hj
    · rw [hother j hk] at hj ⊢
      exact h.clean j hj
  · by_cases hk : j = k
    · rw [hk, hself] at hj ⊢
      exact hfree hj
    · rw [hother j hk] at hj ⊢
      exact h.free j hj
  · rcases hnew hu with hzero | ⟨hsame, hsamen⟩ | hnone
    · have hak : a ≠ k := by
        rintro rfl
        rw [hself] at hd
        exact hd hzero
      have hbk : b ≠ k := by
        rintro rfl
        rw [hself] at hdd
        exact hd (hdd.trans hzero)
      rw [hother a hak] at hd hdd hn
      rw [hother b hbk] at hdd hn
      exact hs a b ha hb hd hdd hn
    · have hkeep : ∀ j, (s'.slot j).dev = (s.slot j).dev ∧ (s'.slot j).num = (s.slot j).num := by
        intro j
        by_cases hj : j = k
        · rw [hj, hself]
          exact ⟨hsame, hsamen⟩
        · rw [hother j hj]
          exact ⟨rfl, rfl⟩
      rw [(hkeep a).1] at hd hdd
      rw [(hkeep b).1] at hdd
      rw [(hkeep a).2, (hkeep b).2] at hn
      exact hs a b ha hb hd hdd hn
    · by_cases hak : a = k
      · by_cases hbk : b = k
        · rw [hak, hbk]
        · rw [hak, hself, hother b hbk] at hdd hn
          exact absurd ⟨hdd.symm, hn.symm⟩ (hnone b hb)
      · by_cases hbk : b = k
        · rw [hbk, hself, hother a hak] at hdd hn
          exact absurd ⟨hdd, hn⟩ (hnone a ha)
        · rw [hother a hak] at hd hdd hn
          rw [hother b hbk] at hdd hn
          exact hs a b ha hb hd hdd hn
  · rw [hpc]
  · by_cases hj : r.slot = k
    · rw [hj] at hone hsafe
      exact absurd hsafe (hkept r hr hp hj hone)
    · exact hother _ hj

/-- A change of the lock, of the link count or of the dirt of a slot that the process has a reference to. -/
theorem flags (h : s.Counted) (hr : r ∈ s.refs) (hp : r.proc = p) (hslot : s'.slot = Function.update s.slot r.slot i)
    (hrefs : s'.refs = s.refs) (hpc : s'.pc = s.pc)
    (hid : i.dev = (s.slot r.slot).dev ∧ i.num = (s.slot r.slot).num ∧ i.count = (s.slot r.slot).count)
    (hdirt : i.dirt = true → r.dev ≠ 0) : Moved u d s s' p := by
  have hpos := h.pos hr
  have hon : ∀ j, s'.refsOn j = s.refsOn j := by
    intro j
    unfold refsOn
    rw [hrefs]
  refine change h hslot hpc ?_ (fun j _ => hon j) (fun r hr _ => hrefs ▸ hr) (fun r' hr' hk => ?_) (fun hz => ?_) (fun hz => ?_)
    (fun _ => .inr (.inl ⟨hid.1, hid.2.1⟩)) (fun r hr _ => hrefs ▸ hr) fun r' hr' hne hk hone _ => ?_
  · rw [hid.2.2, hon, h.counts]
  · have hin : r' ∈ s.refs := hrefs ▸ hr'
    rw [hid.1, hid.2.1, hid.2.2, ← hk]
    exact ⟨h.ident r' hin, h.alone r' hin, h.low r' hin⟩
  · rw [hid.2.2] at hz
    cases hi : i.dirt with
    | false => rfl
    | true =>
      rcases hz with hz | hz
      · rw [hid.1, (h.ident r hr).1] at hz
        exact absurd hz (hdirt hi)
      · omega
  · omega
  · have := h.two_of_ne hr hr' (by rw [hp]; exact hne) hk
    omega

end Moved

end InodeSys

end RheeKernel
