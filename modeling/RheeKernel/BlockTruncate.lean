import RheeKernel.BitmapAlloc

namespace RheeKernel

/-- Entry `i` of a block of zone numbers. -/
def shortAt (data : Nat → BitVec 32) (i : Nat) : Nat := ((data (i / 2)).extractLsb' (16 * (i % 2)) 16).toNat

namespace CachedDevice

/-- The loop of `free_ind` and `free_dind` over the entries `is` of a block that it holds. -/
def freeEntries (free : CachedDevice → Nat → Option CachedDevice) (block : Nat) : List Nat → CachedDevice → Option CachedDevice
  | [], v => some v
  | i :: is, v =>
    if shortAt (v.data block) i = 0 then freeEntries free block is v
    else (free v (shortAt (v.data block) i)).bind (freeEntries free block is)

/-- The block is read, its entries are freed with `free`, and the block itself goes last. -/
def freeTable (pick : CachedDevice → Option Nat) (free : CachedDevice → Nat → Option CachedDevice) (v : CachedDevice) (block : Nat) :
    Option CachedDevice :=
  if block = 0 then some v
  else (bread pick v block).bind fun r =>
    (if r.2 = true then (freeEntries free block (List.range 512) r.1).bind (·.brelse block) else some r.1).bind (·.freeBlock block)

def freeInd (pick : CachedDevice → Option Nat) : CachedDevice → Nat → Option CachedDevice := freeTable pick freeBlock

def freeDind (pick : CachedDevice → Option Nat) : CachedDevice → Nat → Option CachedDevice := freeTable pick (freeInd pick)

end CachedDevice

def CoreInode.setZone (inode : CoreInode) (i : Fin 9) (z : Nat) : CoreInode := { inode with zone := Function.update inode.zone i z }

namespace CachedDevice

/-- The loop of `truncate` over the direct zones. -/
def freeDirect : List (Fin 9) → CachedDevice × CoreInode → Option (CachedDevice × CoreInode)
  | [], r => some r
  | i :: is, (v, inode) =>
    if inode.zone i = 0 then freeDirect is (v, inode)
    else (v.freeBlock (inode.zone i)).bind fun v => freeDirect is (v, inode.setZone i 0)

def truncate (pick : CachedDevice → Option Nat) (v : CachedDevice) (inode : CoreInode) (now : Nat) :
    Option (CachedDevice × CoreInode) :=
  if inode.isReg = false ∧ inode.isDir = false then some (v, inode)
  else
    (freeDirect [0, 1, 2, 3, 4, 5, 6] (v, inode)).bind fun (v, inode) =>
      (freeInd pick v (inode.zone 7)).bind fun v =>
        (freeDind pick v (inode.zone 8)).map fun v =>
          (v, { (inode.setZone 7 0).setZone 8 0 with size := 0, dirt := true, mtime := now })

/-- What `bread` of a block delivers. -/
def view (v : CachedDevice) (b : Nat) : Option (Nat → BitVec 32) :=
  match v.buf b with
  | some h => if h.uptodate = true then some h.data else v.disk b
  | none => v.disk b

/-- A dirty buffer has been read, and one that has been read and is not dirty is as on the disk. -/
def Coherent (v : CachedDevice) : Prop :=
  ∀ b h, v.buf b = some h → (h.dirt = true → h.uptodate = true) ∧ (h.uptodate = true → h.dirt = false → v.disk b = some h.data)

variable {v v' v'' u w : CachedDevice} {pick : CachedDevice → Option Nat} {h : BlockBuffer} {f : BlockBuffer → BlockBuffer}
  {a b c i k m n t z : Nat} {ok : Bool}

theorem view_congr (hb : v'.buf b = v.buf b) (hd : v'.disk b = v.disk b) : v'.view b = v.view b := by
  unfold view
  rw [hb, hd]

theorem view_some (hb : v.buf b = some h) : v.view b = if h.uptodate = true then some h.data else v.disk b := by
  unfold view
  rw [hb]

theorem view_none (hb : v.buf b = none) : v.view b = v.disk b := by
  unfold view
  rw [hb]

theorem view_read (hu : v.uptodate b = true) : v.view b = some (v.data b) := by
  unfold uptodate at hu
  cases hb : v.buf b with
  | none =>
    rw [hb] at hu
    cases hu
  | some h =>
    rw [hb] at hu
    rw [view_some hb, data_eq hb]
    exact if_pos hu

/-- A change of the buffer of one block. -/
theorem Coherent.setBuf (hc : v.Coherent) {o : Option BlockBuffer}
    (ho : ∀ h, o = some h → (h.dirt = true → h.uptodate = true) ∧ (h.uptodate = true → h.dirt = false → v.disk b = some h.data)) :
    (v.setBuf b o).Coherent := by
  intro c h hb
  by_cases hcb : c = b
  · rw [hcb, setBuf_self] at hb
    rw [hcb]
    exact ho h hb
  · rw [setBuf_other hcb] at hb
    exact hc c h hb

theorem view_setBuf_other {o : Option BlockBuffer} (hcb : c ≠ b) : (v.setBuf b o).view c = v.view c :=
  view_congr (setBuf_other hcb) rfl

/-- Changes of `b_count` alone. -/
theorem view_edit (hd : ∀ h, (f h).data = h.data) (hu : ∀ h, (f h).uptodate = h.uptodate) : (v.edit b f).view c = v.view c := by
  by_cases hcb : c = b
  · rw [hcb]
    cases hb : v.buf b with
    | none => exact view_congr (by simp [edit, hb]) rfl
    | some h =>
      rw [view_some (edit_self hb), view_some hb, hd, hu]
      rfl
  · exact view_setBuf_other hcb

theorem Coherent.edit (hc : v.Coherent) (hd : ∀ h, (f h).data = h.data) (hu : ∀ h, (f h).uptodate = h.uptodate)
    (hw : ∀ h, (f h).dirt = h.dirt) : (v.edit b f).Coherent := by
  refine hc.setBuf fun h hb => ?_
  obtain ⟨t, ht, rfl⟩ := Option.map_eq_some_iff.mp hb
  rw [hd, hu, hw]
  exact hc b t ht

theorem view_syncDev (hc : v.Coherent) : v.syncDev.view c = v.view c := by
  cases hb : v.buf c with
  | none =>
    have hsync : v.syncDev.buf c = none := by simp [syncDev, hb]
    rw [view_none hsync, view_none hb]
    simp [syncDev, hb]
  | some h =>
    have hsync : v.syncDev.buf c = some { h with dirt := false } := by simp [syncDev, hb]
    rw [view_some hsync, view_some hb]
    dsimp only
    split
    next => rfl
    next hu =>
      have hclean : ¬ h.dirt = true := fun hd => hu ((hc c h hb).1 hd)
      simp [syncDev, hb, hclean]

theorem Coherent.syncDev (hc : v.Coherent) : v.syncDev.Coherent := by
  intro c h hb
  cases hv : v.buf c with
  | none =>
    rw [show v.syncDev.buf c = none by simp [CachedDevice.syncDev, hv]] at hb
    cases hb
  | some t =>
    rw [show v.syncDev.buf c = some { t with dirt := false } by simp [CachedDevice.syncDev, hv]] at hb
    cases hb
    refine ⟨fun hd => absurd hd Bool.false_ne_true, fun hu _ => ?_⟩
    dsimp only at hu ⊢
    cases hd : t.dirt with
    | true => simp [CachedDevice.syncDev, hv, hd]
    | false =>
      rw [← (hc c t hv).2 hu hd]
      simp [CachedDevice.syncDev, hv, hd]

/-- A free buffer becomes that of a block that is not in the cache. -/
theorem rename_steady (hc : v.Coherent) (ha : v.buf a = some h) (hclean : h.dirt = false) (hz : v.buf z = none) :
    (v.rename a z h).Coherent ∧ ∀ c, (v.rename a z h).view c = v.view c := by
  have haz : a ≠ z := fun he => by rw [he, hz] at ha; cases ha
  have hdrop : (v.setBuf a none).Coherent := hc.setBuf nofun
  refine ⟨hdrop.setBuf fun t ht => ?_, fun c => ?_⟩
  · cases ht
    exact ⟨nofun, nofun⟩
  · by_cases hcz : c = z
    · rw [hcz, view_some rename_self, view_none hz]
      exact if_neg Bool.false_ne_true
    · by_cases hca : c = a
      · rw [hca, view_none (rename_old haz), view_some ha]
        split
        next hu => exact (hc a h ha).2 hu hclean
        next => rfl
      · exact view_congr (rename_other hca hcz) rfl

/-- `getblk` loses no contents. -/
theorem getblk_steady (hc : v.Coherent) (hget : getblk pick v z = some v') : v'.Coherent ∧ ∀ c, v'.view c = v.view c := by
  unfold getblk at hget
  cases hb : v.buf z with
  | some h =>
    rw [hb] at hget
    cases hget
    exact ⟨hc.edit (fun _ => rfl) (fun _ => rfl) fun _ => rfl, fun c => view_edit (fun _ => rfl) fun _ => rfl⟩
  | none =>
    rw [hb] at hget
    dsimp only at hget
    unfold recycle at hget
    cases hp : pick v with
    | none =>
      rw [hp] at hget
      cases hget
      refine ⟨hc.setBuf fun t ht => ?_, fun c => ?_⟩
      · cases ht
        exact ⟨nofun, nofun⟩
      · by_cases hcz : c = z
        · rw [hcz, view_some setBuf_self, view_none hb]
          exact if_neg Bool.false_ne_true
        · exact view_setBuf_other hcz
    | some a =>
      rw [hp] at hget
      obtain ⟨h, ha, heq⟩ := Option.map_eq_some_iff.mp hget
      rw [← heq]
      split
      next hd =>
        -- `sync_dev` has written the buffer, and all others with it.
        have hz' : v.syncDev.buf z = none := by simp [syncDev, hb]
        have ha' : v.syncDev.buf a = some { h with dirt := false } := by simp [syncDev, ha]
        obtain ⟨hco, hview⟩ := rename_steady hc.syncDev ha' rfl hz'
        exact ⟨hco, fun c => (hview c).trans (view_syncDev hc)⟩
      next hd => exact rename_steady hc ha (by simpa using hd) hb

theorem brelse_steady (hc : v.Coherent) (hrel : v.brelse b = some v') : v'.Coherent ∧ (∀ c, v'.view c = v.view c) ∧
    0 < v.count b ∧ v' = v.edit b fun h => { h with count := h.count - 1 } := by
  unfold brelse at hrel
  split at hrel
  next => cases hrel
  next hpos =>
    cases hrel
    exact ⟨hc.edit (fun _ => rfl) (fun _ => rfl) fun _ => rfl, fun c => view_edit (fun _ => rfl) fun _ => rfl, by omega, rfl⟩

theorem count_edit_self (hb : 0 < v.count b) {g : Nat → Nat} (hf : ∀ h, (f h).count = g h.count) (c : Nat) :
    (v.edit b f).count c = if c = b then g (v.count b) else v.count c := by
  obtain ⟨h, ht⟩ := cached_of_count hb
  split
  next hcb => rw [hcb, count_eq (edit_self ht), count_eq ht, hf]
  next hcb => exact count_congr (edit_other hcb)

/-- What `bread` leaves behind. -/
structure Bread (v v' : CachedDevice) (b : Nat) (ok : Bool) : Prop where
  keeps : v.Keeps v'
  coherent : v'.Coherent
  view : ∀ c, v'.view c = v.view c
  count : ∀ c, v'.count c = v.count c + if c = b ∧ ok = true then 1 else 0
  uptodate : ok = true → v'.uptodate b = true
  failed : ok = false → v.view b = none

theorem bread_steady (hpick : Idle pick) (hc : v.Coherent) (hread : bread pick v b = some (v', ok)) : v.Bread v' b ok := by
  obtain ⟨w, ok', hread', hk, hcount, hup⟩ := bread_spec hpick v b
  rw [hread] at hread'
  cases hread'
  obtain ⟨u, hget, _, hcount'⟩ := getblk_spec hpick v b
  obtain ⟨hco, hview⟩ := getblk_steady hc hget
  obtain ⟨h, hb⟩ := cached_of_count (show 0 < u.count b by rw [hcount', if_pos rfl]; omega)
  unfold bread at hread
  rw [hget, Option.bind_some] at hread
  split at hread
  next =>
    cases hread
    exact ⟨hk, hco, hview, hcount, hup, nofun⟩
  next hu =>
    rw [uptodate_eq hb] at hu
    split at hread
    next data hd =>
      cases hread
      refine ⟨hk, hco.setBuf fun t ht => ?_, fun c => ?_, hcount, hup, nofun⟩
      · rw [hb] at ht
        cases ht
        exact ⟨fun _ => rfl, fun _ _ => hd⟩
      · rw [← hview]
        by_cases hcb : c = b
        · rw [hcb, view_some (edit_self hb), view_some hb, if_neg hu, hd]
          rfl
        · exact view_setBuf_other hcb
    next hd =>
      obtain ⟨x, hx, heq⟩ := Option.map_eq_some_iff.mp hread
      cases heq
      obtain ⟨hco', hview', _⟩ := brelse_steady hco hx
      refine ⟨hk, hco', fun c => (hview' c).trans (hview c), hcount, hup, fun _ => ?_⟩
      rw [← hview, view_some hb, if_neg hu, hd]

theorem Slots.setBuf_other {map : Nat → Option Nat} {o : Option BlockBuffer} (hs : v.Slots map) (hno : ∀ i, map i ≠ some t) :
    (v.setBuf t o).Slots map ∧ ∀ n, (v.setBuf t o).mapBit map n = v.mapBit map n := by
  have hbit : ∀ n, (v.setBuf t o).mapBit map n = v.mapBit map n := by
    intro n
    unfold mapBit
    cases hb : map (n / 8192) with
    | none => rfl
    | some b => rw [Option.map_some, Option.map_some, data_congr (CachedDevice.setBuf_other fun he => hno _ (he ▸ hb))]
  refine ⟨⟨fun i b hb => ?_, hs.one, hs.few, (hbit 0).trans hs.first⟩, hbit⟩
  have hbt : b ≠ t := fun he => hno i (he ▸ hb)
  rw [count_congr (CachedDevice.setBuf_other hbt), uptodate_congr (CachedDevice.setBuf_other hbt)]
  exact hs.held i b hb

/-- No count has become smaller. -/
def Grows (v v' : CachedDevice) : Prop := ∀ c, v.count c ≤ v'.count c

/-- Some reference has been left behind. -/
def Leaks (v v' : CachedDevice) : Prop := v.Grows v' ∧ ∃ c, v.count c < v'.count c

/-- The blocks that are to be freed are all different, and nobody holds a buffer of one of them. -/
def Clear (v : CachedDevice) (l : List Nat) : Prop := (∀ z ∈ l, v.count z = 0) ∧ l.Nodup

/-- The blocks `l`, which were in use, have been freed; no count has changed, and neither have the contents of other blocks but
those of the zone bitmap. -/
structure Freed (v v' : CachedDevice) (l : List Nat) : Prop where
  count : ∀ c, v'.count c = v.count c
  view : ∀ c, c ∉ l → (∀ i, v.zmap i ≠ some c) → v'.view c = v.view c
  held : ∀ c, 0 < v.count c → v.uptodate c = true → v'.uptodate c = true
  was : ∀ z ∈ l, v.zoneBit z = some true
  cleared : ∀ z ∈ l, v'.zoneBit z = some false
  bits : ∀ z, z ∉ l → v'.zoneBit z = v.zoneBit z
  imap : v'.imap = v.imap
  zmap : v'.zmap = v.zmap
  mounted : v'.Mounted
  coherent : v'.Coherent

theorem Freed.refl (hm : v.Mounted) (hc : v.Coherent) : v.Freed v [] :=
  ⟨fun _ => rfl, fun _ _ _ => rfl, fun _ _ hu => hu, by simp, by simp, fun _ _ => rfl, rfl, rfl, hm, hc⟩

theorem Freed.trans {l l' : List Nat} (h : v.Freed v' l) (h' : v'.Freed v'' l') : v.Freed v'' (l ++ l') := by
  have hnot : ∀ z ∈ l', z ∉ l := by
    intro z hz hl
    have hbit := h'.was z hz
    rw [h.cleared z hl] at hbit
    cases hbit
  refine ⟨fun c => (h'.count c).trans (h.count c), fun c hc hs => ?_, fun c hpos hu => ?_, fun z hz => ?_, fun z hz => ?_,
    fun z hz => ?_, h'.imap.trans h.imap, h'.zmap.trans h.zmap, h'.mounted, h'.coherent⟩
  · rw [List.mem_append, not_or] at hc
    rw [h'.view c hc.2 (by rw [h.zmap]; exact hs), h.view c hc.1 hs]
  · exact h'.held c (by rw [h.count]; exact hpos) (h.held c hpos hu)
  · rcases List.mem_append.mp hz with hz | hz
    · exact h.was z hz
    · rw [← h.bits z (hnot z hz)]
      exact h'.was z hz
  · by_cases hl' : z ∈ l'
    · exact h'.cleared z hl'
    · rw [h'.bits z hl']
      exact h.cleared z ((List.mem_append.mp hz).resolve_right hl')
  · rw [List.mem_append, not_or] at hz
    rw [h'.bits z hz.2, h.bits z hz.1]

/-- What a part of `truncate` does that is to free the blocks `l`: they are freed, or a reference is left behind, and which of the
two it is can be told at its beginning. -/
def Outcome (v v' : CachedDevice) (l : List Nat) : Prop := (v.Freed v' l ∧ v.Clear l) ∨ (v.Leaks v' ∧ ¬ v.Clear l)

/-- One part after another. The blocks that the second part is to free can be told at the beginning as well. -/
theorem Outcome.append {l l₁ l₂ : List Nat} (h : v.Outcome v' l) (hgrows : v'.Grows v'')
    (h' : v.Freed v' l → v.Clear l → v'.Outcome v'' l₁) (hback : (∀ z ∈ l₁, v.view z = v'.view z) → l₂ = l₁)
    (hforth : (∀ z ∈ l₂, v'.view z = v.view z) → l₁ = l₂) (hm : v.Mounted) : v.Outcome v'' (l ++ l₂) := by
  have hslot : ∀ z, v.count z = 0 → ∀ i, v.zmap i ≠ some z := by
    intro z hz i hi
    have := (hm.zmap.held i z hi).1
    omega
  rcases h with ⟨hf, hcl⟩ | ⟨⟨hle, c, hlt⟩, hcl⟩
  · rcases h' hf hcl with ⟨hf', hcl'⟩ | ⟨⟨hle, c, hlt⟩, hcl'⟩
    · have hnot : ∀ z ∈ l₁, z ∉ l := by
        intro z hz hl
        have hbit := hf'.was z hz
        rw [hf.cleared z hl] at hbit
        cases hbit
      have hzero : ∀ z ∈ l₁, v.count z = 0 := fun z hz => by rw [← hf.count]; exact hcl'.1 z hz
      have heq := hback fun z hz => (hf.view z (hnot z hz) (hslot z (hzero z hz))).symm
      rw [heq]
      refine .inl ⟨hf.trans hf', fun z hz => ?_, ?_⟩
      · rcases List.mem_append.mp hz with hz | hz
        · exact hcl.1 z hz
        · exact hzero z hz
      · exact List.nodup_append.mpr ⟨hcl.2, hcl'.2, fun y hy z hz he => hnot z hz (he ▸ hy)⟩
    · refine .inr ⟨⟨fun c => ?_, c, ?_⟩, fun hboth => hcl' ?_⟩
      · rw [← hf.count]
        exact hle c
      · rw [← hf.count]
        exact hlt
      · obtain ⟨hzero, hnd⟩ := hboth
        obtain ⟨_, hnd', hdis⟩ := List.nodup_append.mp hnd
        have hz : ∀ z ∈ l₂, v.count z = 0 := fun z hz => hzero z (List.mem_append_right _ hz)
        have heq := hforth fun z hz' => hf.view z (fun hl => hdis z hl z hz' rfl) (hslot z (hz z hz'))
        rw [heq]
        exact ⟨fun z hz' => by rw [hf.count]; exact hz z hz', hnd'⟩
  · refine .inr ⟨⟨fun c => (hle c).trans (hgrows c), c, hlt.trans_le (hgrows c)⟩, fun hboth => hcl ?_⟩
    exact ⟨fun z hz => hboth.1 z (List.mem_append_left _ hz), (List.nodup_append.mp hboth.2).1⟩

theorem freeBlock_busy (hpos : 0 < v.count z) (hfree : freeBlock v z = some v') : v' = v.hold z := by
  obtain ⟨h, hb⟩ := cached_of_count hpos
  rw [count_eq hb] at hpos
  unfold freeBlock at hfree
  split at hfree
  next => cases hfree
  next =>
    rw [hb] at hfree
    dsimp only at hfree
    rw [if_pos (by omega)] at hfree
    exact (Option.some.inj hfree).symm

/-- A block that nobody holds: its buffer, if there is one, loses its flags. -/
theorem freeBlock_idle_eq (hz : v.count z = 0) (hfree : freeBlock v z = some v') :
    v.firstdatazone ≤ z ∧ (v.buf z = none ∧ v.freeBit z = some v' ∨ (v.forget z).freeBit z = some v') := by
  unfold freeBlock at hfree
  split at hfree
  next => cases hfree
  next =>
    refine ⟨by omega, ?_⟩
    cases hb : v.buf z with
    | none =>
      rw [hb] at hfree
      exact .inl ⟨rfl, hfree⟩
    | some h =>
      rw [hb] at hfree
      rw [count_eq hb] at hz
      dsimp only at hfree
      rw [if_neg (by omega)] at hfree
      exact .inr hfree

theorem freeBit_eq (hfree : freeBit v z = some v') : ∃ b, v.zmap ((z + 1 - v.firstdatazone) / 8192) = some b ∧
    BitArray.get (v.data b) ((z + 1 - v.firstdatazone) % 8192) = true ∧ v' = v.unmarkBit b ((z + 1 - v.firstdatazone) % 8192) := by
  unfold freeBit at hfree
  obtain ⟨b, hb, hfree⟩ := Option.bind_eq_some_iff.mp hfree
  split at hfree
  next hget =>
    cases hfree
    exact ⟨b, hb, hget, rfl⟩
  next => cases hfree

/-- The end of `free_block`, once the buffer of the block has lost its flags. -/
theorem freeBit_freed (hm : v.Mounted) (hk : v.Keeps u) (hco : u.Coherent) (hcount : ∀ c, u.count c = v.count c)
    (hview : ∀ c, c ≠ z → u.view c = v.view c) (hlow : v.firstdatazone ≤ z) (hfree : freeBit u z = some v') : v.Freed v' [z] := by
  have hu := hm.keeps hk
  obtain ⟨b, hb, hget, rfl⟩ := freeBit_eq hfree
  rw [hk.first] at hb hget ⊢
  have hmod := Nat.mod_lt (z + 1 - v.firstdatazone) (show 0 < 8192 by decide)
  have hn : 8192 * ((z + 1 - v.firstdatazone) / 8192) + (z + 1 - v.firstdatazone) % 8192 = z + 1 - v.firstdatazone := by omega
  obtain ⟨hm', hto⟩ := hu.unmarkZone hb hmod (by omega)
  have hslot := mapBit_slot (v := u) hb hmod
  rw [hn] at hto hslot
  have hbit : ∀ y, v.zoneBit y = u.mapBit u.zmap (y + 1 - v.firstdatazone) := by
    intro y
    rw [hk.zmap, hm.zmap.mapBit_eq hk]
    rfl
  have hbit' : ∀ y, (u.unmarkBit b ((z + 1 - v.firstdatazone) % 8192)).zoneBit y =
      if y + 1 - v.firstdatazone = z + 1 - v.firstdatazone then some false else v.zoneBit y := by
    intro y
    rw [hbit, ← hk.first]
    rw [← hk.first] at hto
    exact hto.zmap _
  refine ⟨fun c => count_unmarkBit.trans (hcount c), fun c hc hs => ?_, fun c hpos hup => ?_, fun y hy => ?_, fun y hy => ?_,
    fun y hy => ?_, hk.imap, hk.zmap, hm', hco.setBuf fun h hh => ?_⟩
  · have hcb : c ≠ b := fun he => hs _ (he ▸ hk.zmap ▸ hb)
    exact (view_setBuf_other hcb).trans (hview c fun he => hc (he ▸ List.mem_singleton_self z))
  · exact uptodate_unmarkBit.trans (hk.held c hpos hup).2.2
  · rw [List.mem_singleton.mp hy, hbit]
    exact hslot.trans (congrArg some hget)
  · rw [List.mem_singleton.mp hy, hbit', if_pos rfl]
  · rw [hbit', if_neg]
    rw [List.mem_singleton] at hy
    omega
  · obtain ⟨t, ht, rfl⟩ := Option.map_eq_some_iff.mp hh
    have hup := (hu.zmap.held _ b hb).2
    rw [uptodate_eq ht] at hup
    exact ⟨fun _ => hup, nofun⟩

theorem freeBlock_idle_freed (hm : v.Mounted) (hc : v.Coherent) (hz : v.count z = 0) (hfree : freeBlock v z = some v') :
    v.Freed v' [z] := by
  obtain ⟨hlow, ⟨_, hfree⟩ | hfree⟩ := freeBlock_idle_eq hz hfree
  · exact freeBit_freed hm .rfl hc (fun _ => rfl) (fun _ _ => rfl) hlow hfree
  · have hco : (v.forget z).Coherent := by
      refine hc.setBuf fun t ht => ?_
      obtain ⟨t', _, rfl⟩ := Option.map_eq_some_iff.mp ht
      exact ⟨by simp, by simp⟩
    exact freeBit_freed hm (Keeps.rfl.setBuf hz) hco (fun _ => count_forget) (fun c hcz => view_setBuf_other hcz) hlow hfree

theorem freeBlock_idle_count (hz : v.count z = 0) (hfree : freeBlock v z = some v') (c : Nat) : v'.count c = v.count c := by
  obtain ⟨_, ⟨_, hfree⟩ | hfree⟩ := freeBlock_idle_eq hz hfree
  · obtain ⟨b, _, _, rfl⟩ := freeBit_eq hfree
    exact count_unmarkBit
  · obtain ⟨b, _, _, rfl⟩ := freeBit_eq hfree
    exact count_unmarkBit.trans count_forget

theorem freeBlock_busy_count (hpos : 0 < v.count z) (hfree : freeBlock v z = some v') (c : Nat) :
    v'.count c = if c = z then v.count z + 1 else v.count c := by
  obtain ⟨h, hb⟩ := cached_of_count hpos
  rw [freeBlock_busy hpos hfree]
  exact count_hold hb

theorem freeBlock_grows (hfree : freeBlock v z = some v') : v.Grows v' := by
  intro c
  by_cases hz : v.count z = 0
  · exact Nat.le_of_eq (freeBlock_idle_count hz hfree c).symm
  · rw [freeBlock_busy_count (by omega) hfree]
    split
    next hcz =>
      rw [hcz]
      exact Nat.le_succ _
    next => exact Nat.le_refl _

theorem freeBlock_outcome (hm : v.Mounted) (hc : v.Coherent) (hfree : freeBlock v z = some v') : v.Outcome v' [z] := by
  by_cases hz : v.count z = 0
  · refine .inl ⟨freeBlock_idle_freed hm hc hz hfree, fun y hy => ?_, List.nodup_singleton z⟩
    rw [List.mem_singleton.mp hy]
    exact hz
  · refine .inr ⟨⟨freeBlock_grows hfree, z, ?_⟩, fun hcl => hz (hcl.1 z (List.mem_singleton_self z))⟩
    rw [freeBlock_busy_count (by omega) hfree, if_pos rfl]
    exact Nat.lt_succ_self _

end CachedDevice

end RheeKernel
