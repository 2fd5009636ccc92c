import RheeKernel.FileTable

namespace RheeKernel

def nameLen : Nat := 14
def direntSize : Nat := 16

/-- `struct dir_entry`, its name byte by byte. -/
structure NameEntry where
  inode : Nat
  name : Fin 14 → UInt8
deriving DecidableEq

/-- `match`: `name` is compared byte by byte and the stored name must end where it ends. -/
def matchName (name : List UInt8) (de : NameEntry) : Bool :=
  if de.inode = 0 ∨ nameLen < name.length then false
  else if ∃ h : name.length < 14, de.name ⟨name.length, h⟩ ≠ 0 then false
  else decide (∀ k : Fin 14, k.val < name.length → name[k.val]? = some (de.name k))

/-- The scan of `find_entry` over the entries of a directory, whose blocks are all there. -/
def findEntry (entry : Nat → NameEntry) (entries : Nat) (name : List UInt8) : Option Nat :=
  let name := name.take nameLen
  if name = [] then none else Files.firstIndex (fun i => matchName name (entry i)) entries 0

/-- Entry `i` of a directory, read from its bytes. -/
def FileInode.entry (ip : FileInode) (i : Nat) : NameEntry where
  inode := (ip.byte (direntSize * i)).toNat + 256 * (ip.byte (direntSize * i + 1)).toNat
  name := fun k => ip.byte (direntSize * i + 2 + k)

def FileInode.entries (ip : FileInode) : Nat := ip.size / direntSize

/-- The bytes `.` and `..`. -/
def dotName : List UInt8 := [46]
def dotdotName : List UInt8 := [46, 46]

variable {name name' : List UInt8} {de : NameEntry}

theorem matchName_iff : matchName name de = true ↔ de.inode ≠ 0 ∧ name.length ≤ 14 ∧
    (∀ h : name.length < 14, de.name ⟨name.length, h⟩ = 0) ∧ ∀ k : Fin 14, k.val < name.length → name[k.val]? = some (de.name k) := by
  unfold matchName nameLen
  constructor
  · intro h
    split at h
    next => cases h
    next hlive =>
      split at h
      next => cases h
      next hend =>
        refine ⟨fun h0 => hlive (.inl h0), by omega, fun hlt => ?_, of_decide_eq_true h⟩
        by_contra hne
        exact hend ⟨hlt, hne⟩
  · intro ⟨hlive, hlen, hend, hbytes⟩
    rw [if_neg (by omega), if_neg fun ⟨hlt, hne⟩ => hne (hend hlt)]
    exact decide_eq_true hbytes

/-- Two names without zero bytes that match one entry are the same. -/
theorem matchName_unique (hz : ∀ c ∈ name, c ≠ 0) (hz' : ∀ c ∈ name', c ≠ 0) (h : matchName name de = true)
    (h' : matchName name' de = true) : name = name' := by
  obtain ⟨_, hlen, hend, hbytes⟩ := matchName_iff.mp h
  obtain ⟨_, hlen', hend', hbytes'⟩ := matchName_iff.mp h'
  -- A name that is shorter ends at a zero byte of the other one.
  have hshort : ∀ {a b : List UInt8}, (∀ c ∈ b, c ≠ 0) → (∀ h : a.length < 14, de.name ⟨a.length, h⟩ = 0) → b.length ≤ 14 →
      (∀ k : Fin 14, k.val < b.length → b[k.val]? = some (de.name k)) → ¬ a.length < b.length := by
    intro a b hzb henda hlenb hbytesb hlt
    have hget := hbytesb ⟨a.length, by omega⟩ hlt
    rw [henda (by omega)] at hget
    exact hzb 0 (List.mem_of_getElem? hget) rfl
  have hsame : name.length = name'.length :=
    Nat.le_antisymm (Nat.not_lt.mp (hshort hz hend' hlen hbytes)) (Nat.not_lt.mp (hshort hz' hend hlen' hbytes'))
  refine List.ext_getElem? fun k => ?_
  by_cases hk : k < name.length
  · rw [hbytes ⟨k, by omega⟩ hk, hbytes' ⟨k, by omega⟩ (show k < name'.length by omega)]
  · rw [List.getElem?_eq_none (by omega), List.getElem?_eq_none (by omega)]

end RheeKernel
