import RheeKernel.ProcessLedger

open Finset

namespace RheeKernel

namespace Vfs

open Triples

variable {s s' : Vfs} {held : List Nat} {me k i j r w n : Nat} {node : CoreInode} {mode : BitVec 16}

theorem uses_le (hj : j < nrFile) : uses k (s.file j) ≤ s.refs k := by
  have hle := Counting.le_sum_of_mem (mem_range.mpr hj) fun j => uses k (s.file j)
  unfold refs
  omega

theorem stands_le (ht : n < nrTasks) : stands k (s.task n) ≤ s.refs k := by
  have hle := Counting.le_sum_of_mem (mem_range.mpr ht) fun t => stands k (s.task t)
  unfold refs
  omega

theorem stands_pos {p : FsTask} (h : p.pwd = some k ∨ p.root = some k) : 0 < stands k p := by
  unfold stands
  rcases h with h | h
  · rw [if_pos h]
    omega
  · rw [if_pos h]
    omega

/-- An entry in use is in the table. -/
theorem Tidy.file_low (h : s.Tidy) (hj : 0 < (s.file j).count) : j < nrFile := by
  by_contra hge
  have hcount := h.fds.count j
  have hzero : s.files.refs j = 0 := by
    refine sum_eq_zero fun t _ => sum_eq_zero fun fd _ => if_neg fun hc => ?_
    exact hge (h.low t fd j hc)
  change (s.file j).count = _ at hcount
  omega

/-- What nothing refers to. -/
theorem Tidy.unreferenced (h : s.Tidy) (hzero : s.refs k = 0) :
    (∀ j, 0 < (s.file j).count → (s.file j).inode ≠ k) ∧ (∀ t, ¬ ((s.task t).pwd = some k ∨ (s.task t).root = some k)) ∧
      ¬ (s.isup = some k ∨ s.imount = some k) := by
  refine ⟨fun j hj hk => ?_, fun t ht => ?_, fun hs => ?_⟩
  · have hle := uses_le (s := s) (k := k) (h.file_low hj)
    unfold uses at hle
    rw [if_pos ⟨hj, hk⟩] at hle
    omega
  · cases hlive : (s.task t).live with
    | false =>
      obtain ⟨hpwd, hroot, _⟩ := h.gone t hlive
      rw [hpwd, hroot] at ht
      rcases ht with ht | ht
      · cases ht
      · cases ht
    | true =>
      have hle := stands_le (s := s) (k := k) (h.few t hlive)
      have hpos := stands_pos ht
      omega
  · unfold refs at hzero
    rcases hs with hs | hs
    · rw [if_pos hs] at hzero
      omega
    · rw [if_pos hs] at hzero
      omega

/-- The books when slot `k` is a pipe of which no end is open yet. -/
structure Piped (me k : Nat) (held : List Nat) (s : Vfs) : Prop extends Tidy s where
  alive : (s.task me).live = true
  pipe : (s.slot k).pipe = true
  unused : ∀ j, 0 < (s.file j).count → (s.file j).inode ≠ k
  counts : ∀ i, (s.slot i).count = s.refs i + (k :: k :: held).count i
  hand : ∀ i ∈ held, (s.slot i).pipe = false

theorem Owes.piped (h : s.Owes me (k :: held)) (hone : (s.slot k).count = 1) (hslot : s'.slot = Function.update s.slot k node)
    (hb : Beside s s') (hcount : node.count = 2) (hdev : node.dev = 0) (hpipe : node.pipe = true) : s'.Piped me k held := by
  have hself : s'.slot k = node := by rw [hslot, Function.update_self]
  have hother : ∀ i, i ≠ k → s'.slot i = s.slot i := fun i hi => by rw [hslot, Function.update_of_ne hi]
  have hk := h.counts k
  rw [List.count_cons_self] at hk
  have hzero : s.refs k = 0 := by omega
  have hnone : held.count k = 0 := by omega
  obtain ⟨hfiles, hstand, hsuper⟩ := h.unreferenced hzero
  refine ⟨⟨fun i hi => ?_, fun t i hi => ?_, fun i hi => ?_, fun j hj hp => ?_, fun i m a b hi ha hb' => ?_, hb.counted h.fds,
    fun t fd j hj => ?_, fun t ht => ?_, fun t ht => ?_⟩, ?_, ?_, fun j hj => ?_, fun i => ?_, fun i hi => ?_⟩
  · by_cases hik : i = k
    · rw [hik, hself]
      exact hdev
    · rw [hother i hik] at hi ⊢
      exact h.named i hi
  · rw [hb.task] at hi
    rw [hother i fun hik => hstand t (hik ▸ hi)]
    exact h.dirs t i hi
  · rw [hb.isup, hb.imount] at hi
    rw [hother i fun hik => hsuper (hik ▸ hi)]
    exact h.super i hi
  · rw [hb.file] at hj hp ⊢
    rw [hother _ (hfiles j hj)] at hp
    exact h.ends j hj hp
  · obtain ⟨_, hcount', hinode, _⟩ := hb.endOf.mp ha
    rw [hother i (hinode ▸ hfiles a hcount')] at hi
    exact h.one i m a b hi (hb.endOf.mp ha) (hb.endOf.mp hb')
  · rw [hb.task] at hj
    exact h.low t fd j hj
  · rw [hb.task] at ht
    exact h.few t ht
  · rw [hb.task] at ht ⊢
    exact h.gone t ht
  · rw [hb.task]
    exact h.alive
  · rw [hself]
    exact hpipe
  · rw [hb.file] at hj ⊢
    exact hfiles j hj
  · rw [hb.refs]
    by_cases hik : i = k
    · rw [hik, hself, hcount, hzero, List.count_cons_self, List.count_cons_self]
      omega
    · rw [hother i hik, h.counts, List.count_cons_of_ne (Ne.symm hik), List.count_cons_of_ne (Ne.symm hik), List.count_cons_of_ne (Ne.symm hik)]
  · have hne : i ≠ k := by
      rintro rfl
      exact absurd (List.count_pos_iff.mpr hi) (by omega)
    rw [hother i hne]
    exact h.hand i (List.mem_cons_of_mem _ hi)

/-- The books after `get_pipe_inode`. -/
def AfterPipe (me : Nat) (held : List Nat) (o : Option Nat) (s : Vfs) : Prop :=
  match o with
  | none => s.Owes me held
  | some k => s.Piped me k held

theorem getPipeInode_owes : Triple (Owes me held) getPipeInode (AfterPipe me held) := by
  refine .bind getEmptyInode_owes fun k => ?_
  have hquiet : Triple (fun t => t.Owes me (k :: held) ∧ t.slot k = { count := 1 }) answer
      fun _ t => t.Owes me (k :: held) ∧ (t.slot k).count = 1 ∧ (t.slot k).dev = 0 := by
    intro t ht a t' ha
    have hst := Quiet.answer _ _ _ ha
    refine ⟨ht.1.steady hst, ?_, ?_⟩
    · rw [hst.counts, ht.2]
    · rw [hst.devs, ht.2]
  refine .bind hquiet fun page => .ite (fun _ => ?_) fun _ => ?_
  · refine .bind (Q := fun _ => Owes me held) (.modify fun t ht => ?_) fun _ => .pure fun _ hs => hs
    exact ht.1.dropped (.less (by omega) ⟨rfl, rfl, rfl, rfl⟩ rfl (by rw [ht.2.1]) fun hp => ⟨hp, rfl⟩)
  · refine .bind (Q := fun _ => Piped me k held) (.modify fun t ht => ?_) fun _ => .pure fun _ hs => hs
    exact ht.1.piped ht.2.1 (s := t) rfl ⟨rfl, rfl, rfl, rfl⟩ rfl ht.2.2 rfl

/-- Entries `i` and `j` become the ends of the pipe. -/
theorem Piped.opened (h : s.Piped me k held) (hme : me < nrTasks) (hij : i ≠ j) (hi : i < nrFile) (hj : j < nrFile)
    (hzi : (s.file i).count = 0) (hzj : (s.file j).count = 0) {f : Files} (hc : f.Counted)
    (hf : f = ((s.files.openEnds i j k).setFilp me r (some i)).setFilp me w (some j)) : (s.withFiles f).Owes me held := by
  -- The two ends, and the entries they are made of.
  generalize hread : ({ s.file i with mode := 1, count := 1, inode := k, pos := 0 } : OpenFile) = reading
  generalize hwrite : ({ s.file j with mode := 2, count := 1, inode := k, pos := 0 } : OpenFile) = writing
  have hfile : f.file = Function.update (Function.update s.file i reading) j writing := by
    rw [hf, ← hread, ← hwrite]
    rfl
  have hfi : f.file i = reading := by rw [hfile, Function.update_of_ne hij, Function.update_self]
  have hfj : f.file j = writing := by rw [hfile, Function.update_self]
  have hother : ∀ a, a ≠ i → a ≠ j → f.file a = s.file a := fun a hai haj => by
    rw [hfile, Function.update_of_ne haj, Function.update_of_ne hai]
  have hfilp : ∀ v e a, f.filp v e = some a → a = i ∨ a = j ∨ (s.task v).filp e = some a := by
    intro v e a ha
    rw [hf] at ha
    by_cases hw : v = me ∧ e = w
    · rw [hw.1, hw.2, Files.setFilp_self] at ha
      exact .inr (.inl (Option.some.inj ha).symm)
    · rw [Files.setFilp_other (by omega)] at ha
      by_cases hr : v = me ∧ e = r
      · rw [hr.1, hr.2, Files.setFilp_self] at ha
        exact .inl (Option.some.inj ha).symm
      · rw [Files.setFilp_other (by omega)] at ha
        exact .inr (.inr ha)
  have hends : ∀ a m b, (s.withFiles f).EndOf a m b → b = i ∧ m = 1 ∧ a = k ∨ b = j ∧ m = 2 ∧ a = k ∨ a ≠ k ∧ s.EndOf a m b := by
    intro a m b ⟨hlt, hcount, hinode, hmode⟩
    change 0 < (f.file b).count at hcount
    change (f.file b).inode = a at hinode
    change (f.file b).mode = m at hmode
    by_cases hbi : b = i
    · rw [hbi, hfi, ← hread] at hinode hmode
      exact .inl ⟨hbi, hmode.symm, hinode.symm⟩
    · by_cases hbj : b = j
      · rw [hbj, hfj, ← hwrite] at hinode hmode
        exact .inr (.inl ⟨hbj, hmode.symm, hinode.symm⟩)
      · rw [hother b hbi hbj] at hcount hinode hmode
        exact .inr (.inr ⟨hinode ▸ h.unused b hcount, hlt, hcount, hinode, hmode⟩)
  refine ⟨⟨⟨h.named, h.dirs, h.super, fun a ha hp => ?_, fun a m b c hp hb hc' => ?_, hc.of_eq (fun _ => rfl) rfl, fun v e a ha => ?_,
    h.few, fun v hv => ⟨(h.gone v hv).1, (h.gone v hv).2.1, fun e => ?_⟩⟩, fun a => ?_, h.hand⟩, h.alive⟩
  · change 0 < (f.file a).count at ha
    change (s.slot (f.file a).inode).pipe = true at hp
    change (f.file a).mode = 1 ∨ (f.file a).mode = 2
    by_cases hai : a = i
    · rw [hai, hfi, ← hread]
      exact .inl rfl
    · by_cases haj : a = j
      · rw [haj, hfj, ← hwrite]
        exact .inr rfl
      · rw [hother a hai haj] at ha hp ⊢
        exact h.ends a ha hp
  · rcases hends a m b hb with ⟨hbi, hm, ha⟩ | ⟨hbj, hm, ha⟩ | ⟨ha, hb⟩
    · rcases hends a m c hc' with ⟨hci, _, _⟩ | ⟨_, hm', _⟩ | ⟨hne, _⟩
      · rw [hbi, hci]
      · rw [hm] at hm'
        exact absurd hm' (by decide)
      · exact absurd ha hne
    · rcases hends a m c hc' with ⟨_, hm', _⟩ | ⟨hcj, _, _⟩ | ⟨hne, _⟩
      · rw [hm] at hm'
        exact absurd hm' (by decide)
      · rw [hbj, hcj]
      · exact absurd ha hne
    · rcases hends a m c hc' with ⟨_, _, ha'⟩ | ⟨_, _, ha'⟩ | ⟨_, hc'⟩
      · exact absurd ha' ha
      · exact absurd ha' ha
      · exact h.one a m b c hp hb hc'
  · rcases hfilp v e a ha with rfl | rfl | ha
    · exact hi
    · exact hj
    · exact h.low v e a ha
  · have hne : v ≠ me := by
      rintro rfl
      rw [show ((s.withFiles f).task v).live = (s.task v).live from rfl, h.alive] at hv
      cases hv
    change f.filp v e = none
    rw [hf, Files.setFilp_other (.inl hne), Files.setFilp_other (.inl hne)]
    exact (h.gone v hv).2.2 e
  · -- One entry after the other.
    have hone := (show OnFiles s (s.withFiles (s.files.setFile i reading)) from onFiles_withFiles).refs (k := a) hi rfl
    have htwo := (show OnFiles (s.withFiles (s.files.setFile i reading)) (s.withFiles f) from ⟨rfl, rfl, rfl, fun _ => ⟨rfl, rfl, rfl⟩⟩).refs
      (k := a) hj hfile
    have hui : uses a (s.file i) = 0 := if_neg fun hc => by omega
    have huj : uses a ((s.withFiles (s.files.setFile i reading)).file j) = 0 := by
      change uses a (Function.update s.file i reading j) = 0
      rw [Function.update_of_ne hij.symm]
      exact if_neg fun hc => by omega
    have hnew : ∀ x : OpenFile, x.count = 1 → x.inode = k → uses a x = if k = a then 1 else 0 := by
      intro x hx hk
      unfold uses
      rw [hx, hk]
      by_cases hka : k = a
      · rw [if_pos ⟨Nat.one_pos, hka⟩, if_pos hka]
      · rw [if_neg fun hc => hka hc.2, if_neg hka]
    have hnr := hnew reading (by rw [← hread]) (by rw [← hread])
    have hnw := hnew writing (by rw [← hwrite]) (by rw [← hwrite])
    have hold := h.counts a
    rw [List.count_cons, List.count_cons] at hold
    change (s.slot a).count = _
    by_cases hka : k = a
    · rw [if_pos (beq_iff_eq.mpr hka)] at hold
      rw [if_pos hka] at hnr hnw
      omega
    · rw [if_neg fun hc => hka (beq_iff_eq.mp hc)] at hold
      rw [if_neg hka] at hnr hnw
      omega

theorem getPipeInode_apart : Apart getPipeInode :=
  .bind Apart.getEmptyInode fun _ => .bind Quiet.answer.apart fun _ =>
    .ite (.bind Apart.edit fun _ => .pure) (.bind Apart.edit fun _ => .pure)

theorem sysPipe_owes (hme : me < nrTasks) : Triple (Owes me held) (sysPipe me) fun _ => Owes me held := by
  refine .get fun s => ?_
  split
  next a b hfile hfd =>
    obtain ⟨i, j⟩ := a
    obtain ⟨r, w⟩ := b
    obtain ⟨hij, hj, hzi, hzj⟩ := Files.firstTwo_spec hfile
    rw [beq_iff_eq] at hzi hzj
    refine .bind (Q := fun o u => u.AfterPipe me held o ∧ Beside s u)
      (.pre (.and (Q := AfterPipe me held) getPipeInode_owes (getPipeInode_apart.triple fun _ _ => Beside.trans)) fun u hu => ?_) fun node => ?_
    · obtain ⟨rfl, hu⟩ := hu
      exact ⟨hu, .refl⟩
    · refine .bind (Q := fun _ => Owes me held) (.modify fun u hu => ?_) fun _ => .pure fun _ hs => hs
      obtain ⟨hu, hb⟩ := hu
      have hfile' : Files.firstTwo (fun j => (u.files.file j).count == 0) nrFile = some (i, j) := by
        change Files.firstTwo (fun j => (u.file j).count == 0) nrFile = some (i, j)
        rw [hb.file]
        exact hfile
      have hfd' : Files.firstTwo (fun fd => (u.files.filp me fd).isNone) nrOpen = some (r, w) := by
        change Files.firstTwo (fun fd => ((u.task me).filp fd).isNone) nrOpen = some (r, w)
        rw [hb.task]
        exact hfd
      cases node with
      | none =>
        have hsame : (u.files.sysPipe me none).1 = u.files := by
          unfold Files.sysPipe
          rw [hfile', hfd']
        rw [hsame]
        exact hu.bits rfl rfl
      | some k =>
        have hends : (u.files.sysPipe me (some k)).1 = ((u.files.openEnds i j k).setFilp me r (some i)).setFilp me w (some j) := by
          unfold Files.sysPipe
          rw [hfile', hfd']
        exact Piped.opened hu hme (Nat.ne_of_lt hij) (by omega) hj (hb.file ▸ hzi) (hb.file ▸ hzj) (hu.fds.sysPipe hme) hends
  next => exact .pure fun _ hs => hs.2

end Vfs

end RheeKernel
