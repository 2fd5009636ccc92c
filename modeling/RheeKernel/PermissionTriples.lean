import RheeKernel.Execve

namespace RheeKernel

/-- `sys_access`, for what `namei` finds. -/
def sysAccess (c : Cred) (inode : Option FileInode) (mode : BitVec 32) : Int :=
  let mode := mode &&& 7
  match inode with
  | none => -13
  | some ip =>
    let res := ip.mode &&& 0o777
    let res :=
      if c.euid = 0 ∨ c.uid = 0 then
        if res &&& 0o111 ≠ 0 then (0o777 : BitVec 32) else 0o666
      else res
    let res := if c.euid = ip.uid then res >>> 6 else if c.egid = ip.gid then res >>> 6 else res
    if res &&& 7 &&& mode = mode then 0 else -13

/-- The bits of the mode that are meant for a process with the ids `uid` and `gid`. -/
def triple (uid gid : Nat) (ip : FileInode) : BitVec 32 :=
  if uid = ip.uid then ip.mode >>> 6 &&& 7 else if gid = ip.gid then ip.mode >>> 3 &&& 7 else ip.mode &&& 7

/-- The three checks go by the same bits of the mode. -/
structure SameTriple (c : Cred) (ip : FileInode) : Prop where
  access : ∀ m : BitVec 32, m < 8 → (sysAccess c (some ip) m = 0 ↔ permission c ip m = m)
  exec : ip.isReg = true → (ExecState.execMode c ip &&& 1 ≠ 0 ↔ permission c ip 1 = 1)
  rights : ∀ m : BitVec 32, m < 8 → (permission c ip m = m ↔ triple c.uid c.gid ip &&& m = m)

section PermissionTriples

variable {c : Cred} {ip : FileInode} {a b m : BitVec 32}

theorem and_seven (h : m < 8) : 7 &&& m = m := by
  have hm : m.toNat < 8 := h
  apply BitVec.eq_of_toNat_eq
  rw [BitVec.toNat_and, Nat.and_comm]
  exact Nat.and_two_pow_sub_one_of_lt_two_pow (n := 3) hm

theorem and_seven_lt : a &&& 7 < 8 := by
  have hle := @Nat.and_le_right a.toNat 7
  change (a &&& 7).toNat < 8
  rw [BitVec.toNat_and]
  exact Nat.lt_succ_of_le hle

theorem and_and_eq_self (h : m < 8) : a &&& 7 &&& m = m ↔ a &&& m = m := by
  rw [BitVec.and_assoc, and_seven h]

/-- Two words grant the same masks just when they have the same three bits. -/
theorem grants_iff : (∀ m : BitVec 32, m < 8 → (a &&& m = m ↔ b &&& m = m)) ↔ a &&& 7 = b &&& 7 := by
  constructor
  · intro h
    have hself : ∀ x : BitVec 32, x &&& (x &&& 7) = x &&& 7 := fun x => by rw [← BitVec.and_assoc, BitVec.and_self]
    have hab := (h _ and_seven_lt).mp (hself a)
    have hba := (h _ and_seven_lt).mpr (hself b)
    rw [← hab, ← hba, ← BitVec.and_assoc, ← BitVec.and_assoc, BitVec.and_comm a b]
  · intro h m hm
    rw [← and_and_eq_self hm, h, and_and_eq_self hm]

/-- The caller is not the superuser, and its effective ids are its real ones. -/
structure Plain (c : Cred) : Prop where
  uid : c.uid = c.euid
  gid : c.gid = c.egid
  user : c.uid ≠ 0

theorem Plain.permission (h : Plain c) (hlinks : 0 < ip.nlinks) : permission c ip m = triple c.uid c.gid ip &&& m := by
  have hbits : ∀ x : BitVec 32, x &&& m &&& 7 = x &&& 7 &&& m := fun x => by rw [BitVec.and_assoc, BitVec.and_comm m, ← BitVec.and_assoc]
  unfold RheeKernel.permission triple
  rw [← h.uid, ← h.gid, if_neg (by omega), if_neg (by simpa using h.user)]
  simp only [or_self]
  rw [hbits]
  split
  next => rfl
  next => split <;> rfl

theorem Plain.exec (h : Plain c) : ExecState.execMode c ip &&& 1 = triple c.uid c.gid ip &&& 1 := by
  have hbit : ∀ x : BitVec 32, x &&& 7 &&& 1 = x &&& 1 := fun x => by rw [BitVec.and_assoc]; rfl
  unfold ExecState.execMode triple
  rw [← h.uid, ← h.gid, if_pos ⟨h.user, h.user⟩]
  split
  next => exact (hbit _).symm
  next =>
    split
    next => exact (hbit _).symm
    next => exact (hbit _).symm

/-- `sys_access` shifts as far for the group as it does for the owner. -/
def accessTriple (uid gid : Nat) (ip : FileInode) : BitVec 32 :=
  if uid = ip.uid ∨ gid = ip.gid then ip.mode >>> 6 &&& 7 else ip.mode &&& 7

theorem Plain.access (h : Plain c) (hm : m < 8) : sysAccess c (some ip) m = 0 ↔ accessTriple c.uid c.gid ip &&& m = m := by
  have hmode : m &&& 7 = m := by rw [BitVec.and_comm, and_seven hm]
  have howner : (ip.mode &&& 0o777) >>> 6 &&& (7 : BitVec 32) = ip.mode >>> 6 &&& 7 := by
    rw [BitVec.ushiftRight_and_distrib, BitVec.and_assoc]
    rfl
  have hother : ip.mode &&& 0o777 &&& (7 : BitVec 32) = ip.mode &&& 7 := by
    rw [BitVec.and_assoc]
    rfl
  have hzero : ¬ (c.uid = 0 ∨ c.uid = 0) := by simpa using h.user
  have hgrant : ∀ x : BitVec 32, (if x &&& m = m then (0 : Int) else -13) = 0 ↔ x &&& m = m := fun x => by simp
  unfold sysAccess accessTriple
  dsimp only
  rw [hmode, ← h.uid, ← h.gid, if_neg hzero, hgrant]
  by_cases huid : c.uid = ip.uid
  · simp only [huid, ↓reduceIte, true_or, howner]
  · by_cases hgid : c.gid = ip.gid
    · simp only [huid, hgid, ↓reduceIte, or_true, howner]
    · simp only [huid, hgid, ↓reduceIte, or_self, hother]

theorem triple_lt : triple c.uid c.gid ip < 8 := by
  unfold triple
  split
  next => exact and_seven_lt
  next => split <;> exact and_seven_lt

theorem accessTriple_eq : accessTriple c.uid c.gid ip = triple c.uid c.gid ip ↔
    c.uid = ip.uid ∨ c.gid ≠ ip.gid ∨ ip.mode >>> 6 &&& 7 = ip.mode >>> 3 &&& 7 := by
  unfold accessTriple triple
  by_cases huid : c.uid = ip.uid
  · simp [huid]
  · by_cases hgid : c.gid = ip.gid
    · simp [huid, hgid]
    · simp [huid, hgid]

theorem and_seven_of_lt (h : a < 8) : a &&& 7 = a := by rw [BitVec.and_comm, and_seven h]

/-- The checks agree for everybody but the members of the group, where the owner has other rights than the group. -/
theorem same_triple_iff (h : Plain c) (hlinks : 0 < ip.nlinks) :
    SameTriple c ip ↔ c.uid = ip.uid ∨ c.gid ≠ ip.gid ∨ ip.mode >>> 6 &&& 7 = ip.mode >>> 3 &&& 7 := by
  have hlt : accessTriple c.uid c.gid ip < 8 := by
    unfold accessTriple
    split <;> exact and_seven_lt
  rw [← accessTriple_eq, ← and_seven_of_lt hlt, ← and_seven_of_lt (@triple_lt c ip), ← grants_iff]
  constructor
  · intro hsame m hm
    rw [← h.access hm, hsame.access m hm, h.permission hlinks]
  · intro hgrants
    refine ⟨fun m hm => ?_, fun _ => ?_, fun m _ => ?_⟩
    · rw [h.access hm, hgrants m hm, h.permission hlinks]
    · have hone : ∀ x : BitVec 32, x &&& 1 ≠ 0 ↔ x &&& 1 = 1 := by
        intro x
        have hmod : (x &&& 1).toNat = x.toNat % 2 := by rw [BitVec.toNat_and]; exact Nat.and_one_is_mod x.toNat
        rw [Ne, BitVec.toNat_eq, BitVec.toNat_eq, hmod]
        change ¬ x.toNat % 2 = 0 ↔ x.toNat % 2 = 1
        omega
      rw [h.exec, h.permission hlinks, hone]
    · rw [h.permission hlinks]

end PermissionTriples

def sampleFileInode (mode : BitVec 32) : FileInode := ⟨mode, 7, 3, 1, 1, 0, false, 0, fun _ => 0⟩

/-- A user of group 3. -/
def sampleCred : Cred := ⟨10, 10, 3, 3, 0, false, -1, 0⟩

theorem sampleCred_plain : Plain sampleCred := ⟨rfl, rfl, by decide⟩

theorem same_triple_iff_sample : SameTriple sampleCred (sampleFileInode 0o100664) :=
  (same_triple_iff sampleCred_plain (by decide)).mpr (.inr (.inr (by decide)))

/-- The owner may write the file, the group may not, but `sys_access` says so. -/
theorem same_triple_fails : sysAccess sampleCred (some (sampleFileInode 0o100640)) 2 = 0 ∧
    permission sampleCred (sampleFileInode 0o100640) 2 = 0 ∧ ¬ SameTriple sampleCred (sampleFileInode 0o100640) := by
  have haccess : sysAccess sampleCred (some (sampleFileInode 0o100640)) 2 = 0 := by decide
  have hpermission : permission sampleCred (sampleFileInode 0o100640) 2 = 0 := by decide
  refine ⟨haccess, hpermission, fun h => ?_⟩
  have hmask := (h.access 2 (by decide)).mp haccess
  rw [hpermission] at hmask
  exact absurd hmask (by decide)

end RheeKernel
