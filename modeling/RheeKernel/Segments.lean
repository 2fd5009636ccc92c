import RheeKernel.CopyProcess
import RheeKernel.ExecArgs
import RheeKernel.RegisterBytes

namespace RheeKernel

open RegisterBytes

/-- The eight bytes of a descriptor. -/
@[ext]
structure Desc where
  b0 : BitVec 8
  b1 : BitVec 8
  b2 : BitVec 8
  b3 : BitVec 8
  b4 : BitVec 8
  b5 : BitVec 8
  b6 : BitVec 8
  b7 : BitVec 8
deriving DecidableEq

/-- `_set_base` -/
def setBase (d : Desc) (base : BitVec 32) : Desc :=
  let edx := base
  let d := { d with b2 := low edx, b3 := high edx }
  let edx := edx.rotateRight 16
  let d := { d with b4 := low edx }
  { d with b7 := high edx }

/-- `_set_limit` -/
def setLimit (d : Desc) (limit : BitVec 32) : Desc :=
  let edx := limit
  let d := { d with b0 := low edx, b1 := high edx }
  let edx := edx.rotateRight 16
  let edx := setHigh edx d.b6
  let edx := setHigh edx (high edx &&& 0xf0)
  let edx := setLow edx (low edx ||| high edx)
  { d with b6 := low edx }

/-- `_get_base`, with `%edx` as it was before. -/
def getBase (edx : BitVec 32) (d : Desc) : BitVec 32 :=
  let edx := setHigh edx d.b7
  let edx := setLow edx d.b4
  let edx := edx <<< 16
  setWord edx (d.b3 ++ d.b2)

/-- What the bytes mean to the processor: the base, the limit, the access byte and the granularity bits. -/
@[ext]
structure DescFields where
  base : BitVec 32
  limit : BitVec 20
  access : BitVec 8
  granularity : BitVec 4

def Desc.fields (d : Desc) : DescFields where
  base := d.b7 ++ d.b4 ++ d.b3 ++ d.b2
  limit := d.b6.extractLsb' 0 4 ++ d.b1 ++ d.b0
  access := d.b5
  granularity := d.b6.extractLsb' 4 4

/-- The bytes of such a descriptor. -/
def DescFields.desc (f : DescFields) : Desc where
  b0 := f.limit.extractLsb' 0 8
  b1 := f.limit.extractLsb' 8 8
  b2 := low f.base
  b3 := high f.base
  b4 := f.base.extractLsb' 16 8
  b5 := f.access
  b6 := f.granularity ++ f.limit.extractLsb' 16 4
  b7 := f.base.extractLsb' 24 8

section Fields

variable {d d' : Desc} {base edx : BitVec 32} {limit : BitVec 20}

/-- No byte of a descriptor is outside of the fields. -/
theorem desc_fields : d.fields.desc = d := by
  apply Desc.ext
  case b0 => exact BitVec.extractLsb'_append_eq_right
  case b1 =>
    simp only [DescFields.desc, Desc.fields]
    rw [BitVec.extractLsb'_append_eq_of_le (Nat.le_refl 8)]
    exact BitVec.extractLsb'_append_eq_right
  case b2 => exact BitVec.extractLsb'_append_eq_right
  case b3 =>
    simp only [DescFields.desc, Desc.fields, high]
    rw [BitVec.extractLsb'_append_eq_of_le (Nat.le_refl 8)]
    exact BitVec.extractLsb'_append_eq_right
  case b4 =>
    simp only [DescFields.desc, Desc.fields]
    rw [BitVec.extractLsb'_append_eq_of_le (by omega), BitVec.extractLsb'_append_eq_of_le (by omega)]
    exact BitVec.extractLsb'_append_eq_right
  case b5 => rfl
  case b6 =>
    simp only [DescFields.desc, Desc.fields]
    rw [BitVec.extractLsb'_append_eq_of_le (by omega), BitVec.extractLsb'_append_eq_of_le (by omega),
      BitVec.extractLsb'_eq_self]
    exact BitVec.extractLsb'_append_extractLsb'
  case b7 => 
    simp only [DescFields.desc, Desc.fields]
    rw [BitVec.extractLsb'_append_eq_of_le (by omega), BitVec.extractLsb'_append_eq_of_le (by omega),
      BitVec.extractLsb'_append_eq_of_le (by omega)]
    exact BitVec.extractLsb'_eq_self

/-- Descriptors with the same fields are the same. -/
theorem fields_injective (h : d.fields = d'.fields) : d = d' := by
  rw [← desc_fields (d := d), h, desc_fields]

/-- `_get_base` reads the base. -/
theorem getBase_eq : getBase edx d = d.fields.base := setWord_shift

/-- `_set_base` changes the base and nothing else. -/
theorem fields_setBase : (setBase d base).fields = { d.fields with base := base } := by
  apply DescFields.ext
  case base =>
    simp only [setBase, Desc.fields, low_rotate, high_rotate]
    exact append_bytes
  case limit => rfl
  case access => rfl
  case granularity => rfl

/-- What `_set_limit` leaves in the byte that it shares with the granularity bits. -/
theorem setLimit_shared : (setLimit d (limit.setWidth 32)).b6 = (limit.setWidth 32).extractLsb' 16 8 ||| (d.b6 &&& 0xf0) := by
  simp only [setLimit, low_setLow, low_setHigh, high_setHigh, low_rotate]

/-- `_set_limit` changes the limit and nothing else, where the limit has twenty bits. -/
theorem fields_setLimit : (setLimit d (limit.setWidth 32)).fields = { d.fields with limit := limit } := by
  apply DescFields.ext
  case base => rfl
  case limit =>
    have nibble : ((limit.setWidth 32).extractLsb' 16 8 ||| (d.b6 &&& 0xf0)).extractLsb' 0 4 = limit.extractLsb' 16 4 := by
      apply BitVec.eq_of_getLsbD_eq
      intro i hi
      rcases (show i = 0 ∨ i = 1 ∨ i = 2 ∨ i = 3 by omega) with rfl | rfl | rfl | rfl <;> simp
    have lower : high (limit.setWidth 32) = limit.extractLsb' 8 8 ∧ low (limit.setWidth 32) = limit.extractLsb' 0 8 :=
      ⟨BitVec.extractLsb'_setWidth_of_le (by omega), BitVec.extractLsb'_setWidth_of_le (by omega)⟩
    change (setLimit d (limit.setWidth 32)).b6.extractLsb' 0 4 ++ high (limit.setWidth 32) ++ low (limit.setWidth 32) = limit
    rw [setLimit_shared, nibble, lower.1, lower.2, BitVec.extractLsb'_append_extractLsb'_eq_extractLsb' (by omega),
      BitVec.extractLsb'_append_extractLsb'_eq_extractLsb' (by omega)]
    exact BitVec.extractLsb'_eq_self
  case access => rfl
  case granularity =>
    change (setLimit d (limit.setWidth 32)).b6.extractLsb' 4 4 = d.b6.extractLsb' 4 4
    rw [setLimit_shared]
    apply BitVec.eq_of_getLsbD_eq
    intro i hi
    rcases (show i = 0 ∨ i = 1 ∨ i = 2 ∨ i = 3 by omega) with rfl | rfl | rfl | rfl <;> simp

theorem setBase_setLimit :
    setLimit (setBase d base) (limit.setWidth 32) = setBase (setLimit d (limit.setWidth 32)) base := by
  apply fields_injective
  rw [fields_setLimit, fields_setBase, fields_setBase, fields_setLimit]

end Fields

/-- `set_limit`, which takes the length in bytes. -/
def setSegmentLimit (d : Desc) (limit : BitVec 32) : Desc := setLimit d ((limit - 1) >>> 12)

/-- `get_limit`, as `lsl` finds it in the descriptor. -/
def getLimit (d : Desc) : BitVec 32 :=
  (if d.fields.granularity.getLsbD 3 then d.fields.limit.setWidth 32 <<< 12 ||| 0xfff else d.fields.limit.setWidth 32) + 1

/-- The local table of a task. -/
structure Ldt where
  nul : Desc
  code : Desc
  data : Desc
deriving DecidableEq

/-- What `copy_mem` calls `copy_page_tables` with, and the table of the new task. -/
structure TableCopy where
  ldt : Ldt
  oldBase : BitVec 32
  newBase : BitVec 32
  dataLimit : BitVec 32

namespace Ldt

/-- `copy_mem` up to the call of `copy_page_tables`; the two reads of a base find `edx` in the register. -/
def copyMem (current p : Ldt) (edx : BitVec 32) (nr : Nat) : Except ForkPanic TableCopy :=
  let codeLimit := getLimit current.code
  let dataLimit := getLimit current.data
  let oldCodeBase := getBase edx current.code
  let oldDataBase := getBase edx current.data
  if oldDataBase ≠ oldCodeBase then .error .separateIAndD
  else if dataLimit < codeLimit then .error .badDataLimit
  else
    let newBase := BitVec.ofNat 32 nr * 0x4000000
    let ldt := { p with code := setBase p.code newBase, data := setBase p.data newBase }
    .ok { ldt := ldt, oldBase := oldDataBase, newBase := newBase, dataLimit := dataLimit }

/-- The loop over the pages of the arguments: each page that is there, with the address where it is put. -/
def putArgs (page : Nat → BitVec 32) : Nat → BitVec 32 → List (BitVec 32 × BitVec 32)
  | 0, _ => []
  | i + 1, dataBase =>
    let dataBase := dataBase - 0x1000
    if page i ≠ 0 then (page i, dataBase) :: putArgs page i dataBase else putArgs page i dataBase

/-- `change_ldt`: the new table, the pages that are put in the data segment, and the limit that is returned. -/
def changeLdt (current : Ldt) (edx textSize : BitVec 32) (page : Nat → BitVec 32) :
    Ldt × List (BitVec 32 × BitVec 32) × BitVec 32 :=
  let codeLimit := (textSize + 0x1000 - 1) &&& 0xFFFFF000
  let dataLimit := 0x4000000
  let codeBase := getBase edx current.code
  let dataBase := codeBase
  let code := setSegmentLimit (setBase current.code codeBase) codeLimit
  let data := setSegmentLimit (setBase current.data dataBase) dataLimit
  ({ current with code := code, data := data }, putArgs page maxArgPages (dataBase + dataLimit), dataLimit)

end Ldt

/-- A descriptor as `ForkTask` has it. -/
def Desc.segment (d : Desc) : Segment := ⟨d.fields.base.toNat, (getLimit d).toNat⟩

section Tables

variable {d : Desc} {base limit edx textSize : BitVec 32} {cur new : Ldt} {c : TableCopy} {nr : Nat} {page : Nat → BitVec 32}

/-- The limit of `set_limit` has twenty bits, whatever its argument. -/
theorem setSegmentLimit_eq : setSegmentLimit d limit = setLimit d (((limit - 1).extractLsb' 12 20).setWidth 32) := by
  have pages : (limit - 1) >>> 12 = ((limit - 1).extractLsb' 12 20).setWidth 32 := by
    apply BitVec.eq_of_getLsbD_eq
    intro i hi
    by_cases inside : i < 20
    · simp [hi, inside, Nat.add_comm]
    · have beyond : 32 ≤ 12 + i := by omega
      simp [inside, BitVec.getLsbD_of_ge _ _ beyond]
  rw [setSegmentLimit, pages]

theorem getLimit_setBase : getLimit (setBase d base) = getLimit d := by
  unfold getLimit
  rw [fields_setBase]

theorem segment_setBase : (setBase d base).segment = { d.segment with base := base.toNat } := by
  unfold Desc.segment
  rw [getLimit_setBase, fields_setBase]

theorem newBase_toNat (h : nr < 64) : (BitVec.ofNat 32 nr * 0x4000000).toNat = taskBase nr := by
  rw [BitVec.toNat_mul, BitVec.toNat_ofNat]
  unfold taskBase
  change nr % 2 ^ 32 * 67108864 % 2 ^ 32 = _
  omega

/-- The bases of the new task, where there is no panic. -/
theorem copyMem_bases (hnr : nr < 64) (hc : cur.copyMem new edx nr = .ok c) :
    c.newBase.toNat = taskBase nr ∧ c.ldt.code.fields.base = c.newBase ∧ c.ldt.data.fields.base = c.newBase := by
  unfold Ldt.copyMem at hc
  dsimp only at hc
  split at hc
  next => cases hc
  next =>
    split at hc
    next => cases hc
    next =>
      cases hc
      simp only [fields_setBase, newBase_toNat hnr, and_self]

/-- `change_ldt` takes the base of the code for both segments. -/
theorem changeLdt_bases :
    (cur.changeLdt edx textSize page).1.code.fields.base = cur.code.fields.base ∧
      (cur.changeLdt edx textSize page).1.data.fields.base = cur.code.fields.base := by
  simp only [Ldt.changeLdt, setSegmentLimit_eq, fields_setLimit, fields_setBase, getBase_eq, and_self]

theorem putArgs_mem {n : Nat} {x address : BitVec 32} (h : (x, address) ∈ Ldt.putArgs page n base) :
    ∃ i < n, x = page i ∧ x ≠ 0 ∧ address = base - BitVec.ofNat 32 (4096 * (n - i)) := by
  induction n generalizing base with
  | zero => cases h
  | succ n ih =>
    have below (h : (x, address) ∈ Ldt.putArgs page n (base - 0x1000)) :
        ∃ i < n + 1, x = page i ∧ x ≠ 0 ∧ address = base - BitVec.ofNat 32 (4096 * (n + 1 - i)) := by
      obtain ⟨i, hi, hx, hne, place⟩ := ih h
      refine ⟨i, Nat.lt_succ_of_lt hi, hx, hne, ?_⟩
      have step : 4096 * (n + 1 - i) = 4096 + 4096 * (n - i) := by omega
      rw [place, step, BitVec.ofNat_add, BitVec.sub_sub]
      rfl
    unfold Ldt.putArgs at h
    dsimp only at h
    split at h
    next hne =>
      rcases List.mem_cons.mp h with same | rest
      · cases same
        have one : n + 1 - n = 1 := by omega
        refine ⟨n, Nat.lt_succ_self n, rfl, hne, ?_⟩
        rw [one]
        rfl
      · exact below rest
    next => exact below h

/-- The pages of the arguments are put at the end of the segment of the task. -/
theorem changeLdt_puts {x address : BitVec 32} (hnr : nr < 64) (hb : cur.code.fields.base.toNat = taskBase nr)
    (h : (x, address) ∈ (cur.changeLdt edx textSize page).2.1) :
    ∃ i < maxArgPages, x = page i ∧ x ≠ 0 ∧ address.toNat = taskBase nr + segLimit - argBytes + 4096 * i := by
  obtain ⟨i, hi, hx, hne, place⟩ := putArgs_mem h
  refine ⟨i, hi, hx, hne, ?_⟩
  rw [getBase_eq] at place
  rw [place, BitVec.toNat_sub, BitVec.toNat_add, BitVec.toNat_ofNat, hb]
  unfold taskBase segLimit argBytes at *
  unfold maxArgPages at *
  change (2 ^ 32 - 4096 * (32 - i) % 2 ^ 32 + (nr * 67108864 + 67108864) % 2 ^ 32) % 2 ^ 32 = _
  omega

end Tables

/-- `copy_mem` does on the descriptors what it does on the segments that they describe. -/
theorem copyMem_refines {F : Type} {s : ForkSys F} {p nr : Nat} {cur new : Ldt} {edx : BitVec 32} (hnr : nr < 64)
    (hcode : (s.taskAt s.current).code = cur.code.segment) (hdata : (s.taskAt s.current).data = cur.data.segment)
    (hcode' : (s.taskAt p).code = new.code.segment) (hdata' : (s.taskAt p).data = new.data.segment) :
    s.copyMem nr p =
      match cur.copyMem new edx nr with
      | .error e => .error e
      | .ok c => (s.edit p fun q => { q with code := c.ldt.code.segment, data := c.ldt.data.segment }).copyTables
          c.oldBase.toNat c.newBase.toNat c.dataLimit.toNat := by
  have bases : s.setBases p (taskBase nr) = s.edit p fun q => { q with
      code := (setBase new.code (BitVec.ofNat 32 nr * 0x4000000)).segment,
      data := (setBase new.data (BitVec.ofNat 32 nr * 0x4000000)).segment } := by
    unfold ForkSys.setBases ForkSys.edit
    simp only [segment_setBase, newBase_toNat hnr, hcode', hdata']
  have sameBase : cur.data.segment.base = cur.code.segment.base ↔ getBase edx cur.data = getBase edx cur.code := by
    rw [getBase_eq, getBase_eq]
    exact BitVec.toNat_inj
  have sameLimit : cur.data.segment.limit < cur.code.segment.limit ↔ getLimit cur.data < getLimit cur.code :=
    BitVec.lt_def.symm
  unfold ForkSys.copyMem Ldt.copyMem
  rw [hcode, hdata, bases]
  by_cases together : getBase edx cur.data = getBase edx cur.code
  · rw [if_neg (not_not.mpr (sameBase.mpr together)), if_neg (not_not.mpr together)]
    by_cases short : getLimit cur.data < getLimit cur.code
    · rw [if_pos (sameLimit.mpr short), if_pos short]
    · rw [if_neg fun less => short (sameLimit.mp less), if_neg short, ← newBase_toNat hnr, getBase_eq]
      rfl
  · rw [if_pos fun same => together (sameBase.mp same), if_pos together]

/-- The fields of a descriptor are independent of each other, and the segments of a task start at its base. -/
theorem segmentFields_independent (d : Desc) (base edx : BitVec 32) (limit : BitVec 20) :
    getBase edx (setBase d base) = base ∧
    ((setBase d base).fields.limit = d.fields.limit ∧ (setBase d base).fields.access = d.fields.access ∧
      (setBase d base).fields.granularity = d.fields.granularity) ∧
    ((setLimit d (limit.setWidth 32)).fields.limit = limit ∧
      getBase edx (setLimit d (limit.setWidth 32)) = getBase edx d ∧
      (setLimit d (limit.setWidth 32)).fields.access = d.fields.access ∧
      (setLimit d (limit.setWidth 32)).fields.granularity = d.fields.granularity) ∧
    setLimit (setBase d base) (limit.setWidth 32) = setBase (setLimit d (limit.setWidth 32)) base ∧
    ∀ nr < 64, ∀ cur : Ldt,
      (∀ new c, cur.copyMem new edx nr = .ok c → c.newBase.toNat = nr * 0x4000000 ∧
        (getBase edx c.ldt.code).toNat = nr * 0x4000000 ∧ (getBase edx c.ldt.data).toNat = nr * 0x4000000) ∧
      ((getBase edx cur.code).toNat = nr * 0x4000000 → ∀ textSize page,
        (getBase edx (cur.changeLdt edx textSize page).1.code).toNat = nr * 0x4000000 ∧
        (getBase edx (cur.changeLdt edx textSize page).1.data).toNat = nr * 0x4000000) := by
  simp only [getBase_eq, fields_setBase, fields_setLimit]
  refine ⟨trivial, ⟨trivial, trivial, trivial⟩, ⟨trivial, trivial, trivial, trivial⟩, setBase_setLimit, ?_⟩
  intro nr hnr cur
  constructor
  · intro new c hc
    obtain ⟨start, code, data⟩ := copyMem_bases hnr hc
    rw [code, data]
    exact ⟨start, start, start⟩
  · intro start textSize page
    obtain ⟨code, data⟩ := @changeLdt_bases edx textSize cur page
    rw [code, data]
    exact ⟨start, start⟩

/-- The descriptor that two longs make. -/
def Desc.ofLongs (a b : BitVec 32) : Desc :=
  ⟨low a, high a, a.extractLsb' 16 8, a.extractLsb' 24 8, low b, high b, b.extractLsb' 16 8, b.extractLsb' 24 8⟩

/-- The local table of INIT_TASK. -/
def initLdt : Ldt := ⟨.ofLongs 0 0, .ofLongs 0x9f 0xc0fa00, .ofLongs 0x9f 0xc0f200⟩

/-- The table of the first child. -/
def childLdt : Ldt := { initLdt with code := setBase initLdt.code 0x4000000, data := setBase initLdt.data 0x4000000 }

theorem initLdt_copyMem : initLdt.copyMem initLdt 0 1 = .ok ⟨childLdt, 0, 0x4000000, 0xa0000⟩ := by
  have together : getBase 0 initLdt.data = getBase 0 initLdt.code := by decide
  have long : ¬ getLimit initLdt.data < getLimit initLdt.code := by decide
  have base : getBase 0 initLdt.data = 0 := by decide
  have limit : getLimit initLdt.data = 0xa0000 := by decide
  have start : BitVec.ofNat 32 1 * 0x4000000 = 0x4000000 := by decide
  unfold Ldt.copyMem
  rw [if_neg (not_not.mpr together), if_neg long, base, limit, start]
  rfl

theorem segmentFields_independent_init :
    getBase 0 (setBase initLdt.code 0x4000000) = 0x4000000 ∧
    (setLimit initLdt.code 0x3f).fields.limit = 0x3f ∧
    (getBase 0 childLdt.code).toNat = 0x4000000 ∧ (getBase 0 childLdt.data).toNat = 0x4000000 ∧
    (getBase 0 (childLdt.changeLdt 0 0x2000 fun _ => 0).1.data).toNat = 0x4000000 := by
  obtain ⟨base, -, limit, -, tables⟩ := segmentFields_independent initLdt.code 0x4000000 0 0x3f
  obtain ⟨-, code, data⟩ := (tables 1 (by decide) initLdt).1 initLdt _ initLdt_copyMem
  exact ⟨base, limit.1, code, data, ((tables 1 (by decide) childLdt).2 code 0x2000 fun _ => 0).2⟩

end RheeKernel
