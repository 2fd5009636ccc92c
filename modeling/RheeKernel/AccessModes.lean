import RheeKernel.FileCounts

namespace RheeKernel

/-- Opened with `O_WRONLY` or `O_RDWR`. -/
def Opening.ForWriting (o : Opening) : Prop := o.flag &&& oAccmode = 1 ∨ o.flag &&& oAccmode = 2

/-- Opened with `O_RDONLY` or `O_RDWR`. -/
def Opening.ForReading (o : Opening) : Prop := o.flag &&& oAccmode = 0 ∨ o.flag &&& oAccmode = 2

/-- The opener made the file or had write permission on it. -/
def Opening.MayWrite (o : Opening) : Prop := o.created = true ∨ o.rights &&& mayWrite = mayWrite

namespace OpenFile

def AllowsWrite (f : OpenFile) : Prop := f.flags &&& 3 = 1 ∨ f.flags &&& 3 = 2

def AllowsRead (f : OpenFile) : Prop := f.flags &&& 3 = 0 ∨ f.flags &&& 3 = 2

instance {f : OpenFile} : Decidable f.AllowsWrite := inferInstanceAs (Decidable (_ ∨ _))
instance {f : OpenFile} : Decidable f.AllowsRead := inferInstanceAs (Decidable (_ ∨ _))

end OpenFile

namespace Files

/-- On a regular file, the caller keeps to the access mode in `f_flags`, as `sys_read` and `sys_write`
themselves test `f_mode` for a pipe. -/
def AccessOk (s : Files) : FileEvent → Prop
  | .sysRead t fd _ _ =>
    match s.descriptor t fd with
    | some (_, f, ip) => ip.isReg = true → f.AllowsRead
    | none => True
  | .sysWrite t fd _ _ _ =>
    match s.descriptor t fd with
    | some (_, f, ip) => ip.isReg = true → f.AllowsWrite
    | none => True
  | _ => True

/-- Every descriptor has the access mode and the inode of the `sys_open` it comes from, and that call
checked what its access mode asks for. -/
def Opened (s : Files) : Prop :=
  ∀ t fd j, s.filp t fd = some j → ∃ o, s.opening t fd = some o ∧ (s.file j).inode = o.inode ∧
    (s.file j).flags &&& 3 = o.flag.truncate 16 &&& 3 ∧ (o.ForWriting → o.MayWrite)

variable {s s' : Files} {t u fd j : Nat}

theorem and_accmode {flag : BitVec 32} : (flag &&& oAccmode).toNat = flag.toNat % 4 := by
  rw [BitVec.toNat_and]
  exact Nat.and_two_pow_sub_one_eq_mod flag.toNat 2

theorem truncate_and_three {flag : BitVec 32} : (flag.truncate 16 &&& 3).toNat = flag.toNat % 4 := by
  have hmod : (flag.truncate 16 &&& 3).toNat = (flag.truncate 16).toNat % 4 := by
    rw [BitVec.toNat_and]
    exact Nat.and_two_pow_sub_one_eq_mod _ 2
  have htrunc : (flag.truncate 16).toNat = flag.toNat % 2 ^ 16 := BitVec.toNat_setWidth 16 flag
  rw [hmod, htrunc]
  omega

/-- The access mode survives the 16 bits of `f_flags`. -/
theorem truncate_accmode {flag : BitVec 32} {n : Nat} (hn : n < 4) :
    flag.truncate 16 &&& 3 = BitVec.ofNat 16 n ↔ flag &&& oAccmode = BitVec.ofNat 32 n := by
  constructor
  · intro h
    refine BitVec.eq_of_toNat_eq ?_
    rw [and_accmode, ← truncate_and_three, h, BitVec.toNat_ofNat, BitVec.toNat_ofNat]
    omega
  · intro h
    refine BitVec.eq_of_toNat_eq ?_
    rw [truncate_and_three, ← and_accmode, h, BitVec.toNat_ofNat, BitVec.toNat_ofNat]
    omega

/-- `F_SETFL` cannot touch the access mode. -/
theorem setfl_accmode {x a : BitVec 16} :
    (x &&& ~~~((oAppend ||| oNonblock).truncate 16) ||| (a &&& (oAppend ||| oNonblock).truncate 16)) &&& 3 = x &&& 3 := by
  have hkeep : ~~~((oAppend ||| oNonblock).truncate 16 : BitVec 16) &&& 3 = 3 := by decide
  have hdrop : (oAppend ||| oNonblock).truncate 16 &&& (3 : BitVec 16) = 0 := by decide
  rw [BitVec.and_or_distrib_right, BitVec.and_assoc, BitVec.and_assoc, hkeep, hdrop]
  simp

/-- Rights that pass a check include every part of it. -/
theorem permission_part {c : Cred} {ip : FileInode} {mask part : BitVec 32} (h : permission c ip mask = mask)
    (hpart : mask &&& part = part) (hne : mask ≠ 0) : permission c ip part = part := by
  unfold permission at h ⊢
  split at h
  next => exact absurd h.symm hne
  next hlive =>
    rw [if_neg hlive]
    dsimp only at h ⊢
    revert h
    generalize (if c.uid = 0 ∨ c.euid = 0 then (0o777 : BitVec 32) else _) = m
    intro h
    calc m &&& part &&& 7 = m &&& (mask &&& part) &&& 7 := by rw [hpart]
      _ = (m &&& mask &&& 7) &&& part := by
        rw [← BitVec.and_assoc, BitVec.and_assoc, BitVec.and_comm part, ← BitVec.and_assoc]
      _ = part := by rw [h, hpart]

theorem permission_seven {c : Cred} {ip : FileInode} {part : BitVec 32} (h : permission c ip part = part) :
    permission c ip 7 &&& part = part := by
  unfold permission at h ⊢
  split at h
  next hdead =>
    rw [if_pos hdead, ← h]
    simp
  next hlive =>
    rw [if_neg hlive]
    dsimp only at h ⊢
    revert h
    generalize (if c.uid = 0 ∨ c.euid = 0 then (0o777 : BitVec 32) else _) = m
    intro h
    calc m &&& 7 &&& 7 &&& part = m &&& (7 &&& 7) &&& part := by rw [BitVec.and_assoc m 7 7]
      _ = m &&& part &&& 7 := by
        rw [BitVec.and_assoc, show (7 : BitVec 32) &&& 7 = 7 by decide, BitVec.and_comm 7 part, ← BitVec.and_assoc]
      _ = part := h

/-- A check for a mode that writes is a check for write permission. -/
theorem permission_write {c : Cred} {ip : FileInode} {flag : BitVec 32} (h : permission c ip (accMode flag) = accMode flag)
    (hflag : flag &&& oAccmode ≠ 0) : permission c ip mayWrite = mayWrite := by
  have hpart : accMode flag &&& mayWrite = mayWrite := by
    unfold accMode
    rw [if_neg hflag]
    split
    next => decide
    next => split <;> decide
  refine permission_part h hpart ?_
  intro hzero
  rw [hzero] at hpart
  exact absurd hpart (by decide)

theorem checkedFlag_trunc {flag : BitVec 32} (h : checkedFlag flag &&& oTrunc ≠ 0) :
    flag &&& oTrunc ≠ 0 ∧ checkedFlag flag &&& oAccmode ≠ 0 := by
  unfold checkedFlag at h ⊢
  split at h
  next hc =>
    rw [if_pos hc]
    refine ⟨hc.1, ?_⟩
    rw [BitVec.and_or_distrib_right, hc.2]
    decide
  next hc =>
    rw [if_neg hc]
    exact ⟨h, fun hz => hc ⟨h, hz⟩⟩

theorem checkedFlag_same {flag : BitVec 32} (h : flag &&& oAccmode ≠ 0) : checkedFlag flag = flag := if_neg fun hc => h hc.2

/-- What a successful `open_namei` has checked. -/
theorem openNamei_checked {l : Lookup} {flag mode : BitVec 32} {i : Nat} {o : Opening}
    (h : (s.openNamei t l flag mode).2 = .ok (i, o)) : o.inode = i ∧ o.flag = flag ∧ (o.ForWriting → o.MayWrite) := by
  unfold openNamei at h
  cases l with
  | noDirectory => simp at h
  | directory k =>
    dsimp only at h
    split at h
    next hacc =>
      cases h
      refine ⟨rfl, rfl, fun hw => ?_⟩
      have hmask : (oAccmode ||| oCreat ||| oTrunc) &&& oAccmode = oAccmode := by decide
      have hzero : checkedFlag flag &&& oAccmode = 0 := by
        rw [← hmask, ← BitVec.and_assoc, hacc]
        simp
      have hne : flag &&& oAccmode ≠ 0 := by
        rcases hw with hw | hw <;> rw [hw] <;> decide
      exact absurd (checkedFlag_same hne ▸ hzero) hne
    next => simp at h
  | absent k node entry =>
    dsimp only at h
    split at h
    next => simp at h
    next =>
      split at h
      next => simp at h
      next =>
        split at h
        next => simp at h
        next =>
          split at h
          next => simp at h
          next => cases h; exact ⟨rfl, rfl, fun _ => .inl rfl⟩
  | present node =>
    dsimp only at h
    split at h
    next => simp at h
    next =>
      split at h
      next => simp at h
      next k ip hk =>
        split at h
        next => simp at h
        next hperm =>
          cases h
          refine ⟨rfl, rfl, fun hw => .inr ?_⟩
          have hne : flag &&& oAccmode ≠ 0 := by
            rcases hw with hw | hw <;> rw [hw] <;> decide
          have hcheck : permission (s.cred t) ip (accMode flag) = accMode flag := by
            by_contra hno
            exact hperm (.inr (by rwa [checkedFlag_same hne]))
          exact permission_seven (permission_write hcheck hne)

/-- Descriptors keep their opening as long as their entries keep inode and access mode. -/
theorem Opened.of_entries (h : s.Opened) (hfilp : s'.filp = s.filp) (hopening : s'.opening = s.opening)
    (hfile : ∀ j, (s'.file j).inode = (s.file j).inode ∧ (s'.file j).flags &&& 3 = (s.file j).flags &&& 3) : s'.Opened := by
  intro t fd j hj
  rw [hfilp] at hj
  rw [hopening, (hfile j).1, (hfile j).2]
  exact h t fd j hj

theorem setOpening_other {o : Option Opening} {v e : Nat} (h : v ≠ t ∨ e ≠ fd) :
    (s.setOpening t fd o).opening v e = s.opening v e := by
  by_cases hv : v = t
  · subst hv
    have he : e ≠ fd := by
      rcases h with h | h
      · exact absurd rfl h
      · exact h
    simp [setOpening, he]
  · simp [setOpening, hv]

theorem Opened.sysOpen (h : s.Opened) (hcounted : s.Counted) {l : Lookup} {flag mode : BitVec 32} :
    (s.sysOpen t l flag mode).1.Opened := by
  rcases @sysOpen_cases s t l flag mode with ⟨hfile, hfilp, hopening⟩ |
    ⟨fd, j, i, f, o, m, _, _, hzero, hok, _, hflags, hinode, hfile, hfilp, hopening⟩
  · exact h.of_entries hfilp hopening fun k => by rw [hfile]; exact ⟨rfl, rfl⟩
  · obtain ⟨hoi, hof, hcheck⟩ := openNamei_checked hok
    intro v e k hk
    rw [hfilp] at hk
    rw [hfile, hopening]
    by_cases hnew : v = t ∧ e = fd
    · obtain ⟨rfl, rfl⟩ := hnew
      rw [setFilp_self] at hk
      cases Option.some.inj hk
      refine ⟨o, by simp [setOpening], ?_, ?_, hcheck⟩
      · rw [setFile_self, hinode, hoi]
      · rw [setFile_self, hflags, hof]
    · rw [setFilp_other (by omega)] at hk
      -- No other descriptor refers to the entry that was free.
      have hkj : k ≠ j := by
        intro heq
        have hpos := hcounted.ref_pos hk
        rw [heq, hzero] at hpos
        omega
      rw [setFile_other hkj, setOpening_other (by omega)]
      exact h v e k hk

theorem Opened.sysClose (h : s.Opened) {r : Files × Int} (hr : s.sysClose t fd = some r) : r.1.Opened := by
  unfold Files.sysClose at hr
  split at hr
  next => cases Option.some.inj hr; exact h
  next =>
    dsimp only at hr
    split at hr
    next => cases Option.some.inj hr; exact h
    next j hj =>
      split at hr
      next => simp at hr
      next =>
        cases Option.some.inj hr
        intro v e k hk
        have hk : (s.setFilp t fd none).filp v e = some k := hk
        by_cases hsame : v = t ∧ e = fd
        · obtain ⟨rfl, rfl⟩ := hsame
          rw [setFilp_self] at hk
          simp at hk
        · rw [setFilp_other (by omega)] at hk
          show ∃ o, (s.setOpening t fd none).opening v e = some o ∧ (Function.update s.file j _ k).inode = o.inode ∧
            (Function.update s.file j _ k).flags &&& 3 = _ ∧ _
          rw [setOpening_other (by omega)]
          obtain ⟨o, ho, hi, hf, hc⟩ := h v e k hk
          refine ⟨o, ho, ?_, ?_, hc⟩
          · by_cases hkj : k = j
            · rw [hkj, Function.update_self, ← hi, hkj]
              rfl
            · rw [Function.update_of_ne hkj, hi]
          · by_cases hkj : k = j
            · rw [hkj, Function.update_self, ← hf, hkj]
              rfl
            · rw [Function.update_of_ne hkj, hf]

theorem Opened.dupfd (h : s.Opened) {arg : Nat} : (s.dupfd t fd arg).1.Opened := by
  rcases @dupfd_cases s t fd arg with heq | ⟨j, k, hj, _, _, heq⟩
  · rw [heq]
    exact h
  · rw [heq]
    have hentry : ∀ i, (Function.update s.file j { s.file j with count := (s.file j).count + 1 } i).inode = (s.file i).inode ∧
        (Function.update s.file j { s.file j with count := (s.file j).count + 1 } i).flags = (s.file i).flags := by
      intro i
      by_cases hi : i = j
      · rw [hi, Function.update_self]
        exact ⟨rfl, rfl⟩
      · rw [Function.update_of_ne hi]
        exact ⟨rfl, rfl⟩
    intro v e i hi
    have hi : (s.setFilp t k (some j)).filp v e = some i := hi
    show ∃ o, (s.setOpening t k (s.opening t fd)).opening v e = some o ∧ (Function.update s.file j _ i).inode = o.inode ∧
      (Function.update s.file j _ i).flags &&& 3 = _ ∧ _
    rw [(hentry i).1, (hentry i).2]
    by_cases hnew : v = t ∧ e = k
    · obtain ⟨rfl, rfl⟩ := hnew
      rw [setFilp_self] at hi
      cases Option.some.inj hi
      obtain ⟨o, ho, hrest⟩ := h v fd j hj
      exact ⟨o, by simpa [setOpening] using ho, hrest⟩
    · rw [setFilp_other (by omega)] at hi
      rw [setOpening_other (by omega)]
      exact h v e i hi

theorem Opened.sysFcntl (h : s.Opened) {cmd : Nat} {arg : BitVec 32} : (s.sysFcntl t fd cmd arg).1.Opened := by
  rcases @sysFcntl_cases s t fd cmd arg with heq | ⟨hfile, hfilp, hopening, _⟩ | ⟨j, heq⟩
  · rw [heq]
    exact h.dupfd
  · exact h.of_entries hfilp hopening fun k => by rw [hfile]; exact ⟨rfl, rfl⟩
  · rw [heq]
    refine h.of_entries rfl rfl fun k => ?_
    by_cases hk : k = j
    · rw [hk, setFile_self]
      exact ⟨rfl, setfl_accmode⟩
    · rw [setFile_other hk]
      exact ⟨rfl, rfl⟩

theorem Opened.forkFiles (h : s.Opened) : (s.forkFiles t u).Opened := by
  obtain ⟨hfilp, hopening, _, hfile⟩ := @inherit_spec s t nrOpen
  intro v e j hj
  have hj : Function.update (s.inherit t nrOpen).filp u ((s.inherit t nrOpen).filp t) v e = some j := hj
  show ∃ o, Function.update (s.inherit t nrOpen).opening u ((s.inherit t nrOpen).opening t) v e = some o ∧
    ((s.inherit t nrOpen).file j).inode = o.inode ∧ ((s.inherit t nrOpen).file j).flags &&& 3 = _ ∧ _
  rw [(hfile j).2.1, (hfile j).2.2, hopening]
  rw [hfilp] at hj
  by_cases hv : v = u
  · rw [hv, Function.update_self] at hj ⊢
    exact h t e j hj
  · rw [Function.update_of_ne hv] at hj ⊢
    exact h v e j hj

/-- Positions and contents are none of the descriptor's mode. -/
theorem Opened.setFile (h : s.Opened) {f : OpenFile} (hi : f.inode = (s.file j).inode) (hf : f.flags = (s.file j).flags) :
    (s.setFile j f).Opened := by
  refine h.of_entries rfl rfl fun k => ?_
  by_cases hk : k = j
  · rw [hk, setFile_self, hi, hf]
    exact ⟨rfl, rfl⟩
  · rw [setFile_other hk]
    exact ⟨rfl, rfl⟩

end Files

theorem fileStep_opened {s s' : Files} {e : FileEvent} (h : s.Opened) (hc : s.Counted) (hs : fileStep s e = some s') :
    s'.Opened := by
  cases fileStep_cases hs with
  | sysOpen => exact h.sysOpen hc
  | sysClose _ hr => exact h.sysClose hr
  | sysDup => exact h.dupfd
  | sysDup2 _ hclose => exact (h.sysClose hclose).dupfd
  | sysFcntl => exact h.sysFcntl
  | fork => exact h.forkFiles
  | noRead => exact h
  | sysRead => exact h.setFile rfl rfl
  | noWrite => exact h
  | @sysWrite t fd buf count avail j ip' f ip _ _ _ hflags hinode =>
    have hset : (s.setInode (s.file j).inode ip').Opened := h
    exact hset.setFile hinode hflags

/-- An inode whose contents differ after a step. -/
def FileInode.Altered (ip ip' : FileInode) : Prop := ip'.size ≠ ip.size ∨ ip'.byte ≠ ip.byte

namespace Files

theorem sysOpen_inode {s : Files} {t : Nat} {l : Lookup} {flag mode : BitVec 32} :
    (s.sysOpen t l flag mode).1.inode = s.inode ∨
      ∃ fd m, (s.sysOpen t l flag mode).1.inode = ((s.setCloseOnExec t fd false).openNamei t l flag m).1.inode := by
  unfold sysOpen
  split
  next => exact .inl rfl
  next fd _ =>
    dsimp only
    split
    next => exact .inl rfl
    next j _ =>
      refine .inr ⟨fd, mode &&& 0o777 &&& ~~~((s.setCloseOnExec t fd false).cred t).umask, ?_⟩
      split
      next s' e heq => rw [heq]
      next s' i o heq =>
        rw [heq]
        split
        next => rfl
        next ip _ =>
          split
          next => rfl
          next => exact (@claimTty_files s' t ip).2.2.2

theorem sysClose_inode {s : Files} {t fd : Nat} {r : Files × Int} (hr : s.sysClose t fd = some r) : r.1.inode = s.inode := by
  unfold sysClose at hr
  split at hr
  next => cases Option.some.inj hr; rfl
  next =>
    dsimp only at hr
    split at hr
    next => cases Option.some.inj hr; rfl
    next =>
      split at hr
      next => simp at hr
      next => cases Option.some.inj hr; rfl

theorem dupfd_inode {s : Files} {t fd arg : Nat} : (s.dupfd t fd arg).1.inode = s.inode := by
  rcases @dupfd_cases s t fd arg with heq | ⟨j, k, _, _, _, heq⟩ <;> rw [heq]
  rfl

theorem sysFcntl_inode {s : Files} {t fd cmd : Nat} {arg : BitVec 32} : (s.sysFcntl t fd cmd arg).1.inode = s.inode := by
  rcases @sysFcntl_cases s t fd cmd arg with heq | ⟨_, _, _, hinode⟩ | ⟨j, heq⟩
  · rw [heq, dupfd_inode]
  · exact hinode
  · rw [heq]
    rfl

theorem setInode_cases {s : Files} {i k : Nat} {ip ip' : FileInode} (h : (s.setInode k ip').inode i = some ip) :
    i = k ∧ ip' = ip ∨ i ≠ k ∧ s.inode i = some ip := by
  by_cases hi : i = k
  · subst hi
    have hself : (s.setInode i ip').inode i = some ip' := Function.update_self ..
    exact .inl ⟨rfl, Option.some.inj (hself.symm.trans h)⟩
  · have hother : (s.setInode k ip').inode i = s.inode i := Function.update_of_ne hi _ _
    exact .inr ⟨hi, hother.symm.trans h⟩

end Files

/-- The contents of a file change only by `sys_write` through a descriptor of it, or when an open that has
write permission empties it. -/
theorem fileStep_altered {s s' : Files} {e : FileEvent} (hs : fileStep s e = some s') {i : Nat} {ip ip' : FileInode}
    (hi : s.inode i = some ip) (hi' : s'.inode i = some ip') (halt : ip.Altered ip') :
    (∃ t fd buf count avail j, e = .sysWrite t fd buf count avail ∧ s.descriptor t fd = some (j, s.file j, ip) ∧
      ip.isReg = true ∧ (s.file j).inode = i) ∨
    ∃ t l flag mode, e = .sysOpen t l flag mode ∧ flag &&& oTrunc ≠ 0 ∧ permission (s.cred t) ip mayWrite = mayWrite := by
  have hsame : s'.inode i ≠ s.inode i := by
    intro heq
    rw [heq, hi] at hi'
    cases Option.some.inj hi'
    rcases halt with h | h <;> exact h rfl
  cases fileStep_cases hs with
  | @sysOpen t l flag mode _ hok =>
    rcases @Files.sysOpen_inode s t l flag mode with heq | ⟨fd, m, heq⟩
    · exact absurd (congrFun heq i) hsame
    · rw [heq] at hi' hsame
      rcases @Files.openNamei_cases (s.setCloseOnExec t fd false) t l flag m with hn | ⟨d, k, ipn, hl, hn⟩ |
        ⟨k, ipo, hk, hn, htrunc, hperm⟩
      · rw [hn] at hsame
        exact absurd rfl hsame
      · -- A new inode takes a number that was free.
        rw [hn] at hi'
        rcases Files.setInode_cases hi' with ⟨rfl, _⟩ | ⟨_, hold⟩
        · have hfree : s.inode i = none := by
            rw [hl] at hok
            exact hok.2 i rfl
          rw [hi] at hfree
          simp at hfree
        · have hold : s.inode i = some ip' := hold
          rw [hn] at hsame
          exact absurd (hi'.trans hold.symm) hsame
      · rw [hn] at hi'
        rcases Files.setInode_cases hi' with ⟨rfl, _⟩ | ⟨_, hold⟩
        · have hipo : ipo = ip := Option.some.inj (hk.symm.trans hi)
          obtain ⟨hflag, hne⟩ := Files.checkedFlag_trunc htrunc
          exact .inr ⟨t, l, flag, mode, rfl, hflag, Files.permission_write (hipo ▸ hperm) hne⟩
        · have hold : s.inode i = some ip' := hold
          rw [hn] at hsame
          exact absurd (hi'.trans hold.symm) hsame
  | sysClose _ hr => exact absurd (congrFun (Files.sysClose_inode hr) i) hsame
  | sysDup => exact absurd (congrFun Files.dupfd_inode i) hsame
  | sysDup2 _ hc => exact absurd (congrFun (Files.dupfd_inode.trans (Files.sysClose_inode hc)) i) hsame
  | sysFcntl => exact absurd (congrFun Files.sysFcntl_inode i) hsame
  | @fork t => exact absurd (congrFun (@Files.inherit_spec s t nrOpen).2.2.1 i) hsame
  | noRead => exact absurd rfl hsame
  | sysRead => exact absurd rfl hsame
  | noWrite => exact absurd rfl hsame
  | sysWrite hd hreg =>
    rcases Files.setInode_cases (s := s) hi' with ⟨rfl, _⟩ | ⟨_, hold⟩
    · have hip := Option.some.inj ((Files.descriptor_some hd).2.2.symm.trans hi)
      exact .inl ⟨_, _, _, _, _, _, rfl, hip ▸ hd, hip ▸ hreg, rfl⟩
    · exact absurd (hi'.trans hold.symm) hsame

theorem fileInit_opened {inode : Nat → Option FileInode} {cred : Nat → Cred} : (fileInit inode cred).Opened := by
  intro t fd j hj
  simp [fileInit] at hj

theorem fileInit_counted {inode : Nat → Option FileInode} {cred : Nat → Cred} : (fileInit inode cred).Counted := by
  refine ⟨fun j => ?_, fun t fd j hj => by simp [fileInit] at hj⟩
  simp [fileInit, Files.refs, Files.rowRefs]

theorem fileReach_inv {ok : Files → FileEvent → Prop} {inode : Nat → Option FileInode} {cred : Nat → Cred} {s : Files}
    (h : Machine.Reach fileStep ok (fileInit inode cred) s) : s.Counted ∧ s.Opened := by
  refine h.invariant (I := fun s => s.Counted ∧ s.Opened) ⟨fileInit_counted, fileInit_opened⟩ fun s e s' hi _ hs => ?_
  exact ⟨fileStep_counted hi.1 hs, fileStep_opened hi.2 hi.1 hs⟩

theorem Opening.forWriting_of_flags {o : Opening} {f : OpenFile} (hf : f.flags &&& 3 = o.flag.truncate 16 &&& 3)
    (h : f.AllowsWrite) : o.ForWriting := by
  unfold OpenFile.AllowsWrite at h
  rw [hf] at h
  rcases h with h | h
  · exact .inl ((Files.truncate_accmode (n := 1) (by omega)).mp h)
  · exact .inr ((Files.truncate_accmode (n := 2) (by omega)).mp h)

theorem Opening.forReading_of_flags {o : Opening} {f : OpenFile} (hf : f.flags &&& 3 = o.flag.truncate 16 &&& 3)
    (h : f.AllowsRead) : o.ForReading := by
  unfold OpenFile.AllowsRead at h
  rw [hf] at h
  rcases h with h | h
  · exact .inl ((Files.truncate_accmode (n := 0) (by omega)).mp h)
  · exact .inr ((Files.truncate_accmode (n := 2) (by omega)).mp h)

/-- A file of the super-user with one byte in it and the given rights. -/
def sampleInode (rights : BitVec 32) : FileInode :=
  { mode := ifreg ||| rights, uid := 0, gid := 0, dev := 0x301, nlinks := 1, rdev := 0, pipe := false, size := 1, byte := fun _ => 65 }

/-- Inode 1 may be read by others, inode 2 may be written by them; every task has user and group 5. -/
def sampleFiles : Files :=
  fileInit (fun i => if i = 1 then some (sampleInode 0o444) else if i = 2 then some (sampleInode 0o222) else none)
    fun _ => ⟨5, 5, 5, 5, 0o22, false, -1, 5⟩

def writerOpened : Files := (sampleFiles.sysOpen 1 (.present (some 2)) 1 0).1

end RheeKernel
