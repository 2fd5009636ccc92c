import RheeKernel.BlockTruncate
import RheeKernel.BitmapExact

namespace RheeKernel

namespace CachedDevice

/-- The zone numbers among the entries `is` of a block. -/
def entriesOf (data : Nat → BitVec 32) (is : List Nat) : List Nat := (is.map (shortAt data)).filter (· ≠ 0)

/-- The blocks below the entries of a block; `below` lists those of one entry. There are none if it cannot be read. -/
def entryBlocks (below : CachedDevice → Nat → List Nat) (v : CachedDevice) (block : Nat) : List Nat :=
  match v.view block with
  | none => []
  | some data => (entriesOf data (List.range 512)).flatMap (below v)

/-- The blocks that `freeTable` frees, in this order. -/
def tableBlocks (below : CachedDevice → Nat → List Nat) (v : CachedDevice) (block : Nat) : List Nat := entryBlocks below v block ++ [block]

def indBlocks : CachedDevice → Nat → List Nat := tableBlocks fun _ z => [z]

def dindBlocks : CachedDevice → Nat → List Nat := tableBlocks indBlocks

/-- The blocks below a zone number, which may be zero. -/
def blocksBelow (below : CachedDevice → Nat → List Nat) (v : CachedDevice) (z : Nat) : List Nat := if z = 0 then [] else below v z

def directBlocks (inode : CoreInode) (is : List (Fin 9)) : List Nat := (is.map inode.zone).filter (· ≠ 0)

/-- All blocks of a file, in the order in which `truncate` frees them. -/
def fileBlocks (v : CachedDevice) (inode : CoreInode) : List Nat :=
  directBlocks inode [0, 1, 2, 3, 4, 5, 6] ++ (blocksBelow indBlocks v (inode.zone 7) ++ blocksBelow dindBlocks v (inode.zone 8))

/-- A function that frees the blocks `below v z` of a zone number `z`. -/
structure Frees (free : CachedDevice → Nat → Option CachedDevice) (below : CachedDevice → Nat → List Nat) : Prop where
  grows : ∀ v v' z, free v z = some v' → v.Grows v'
  outcome : ∀ v v' z, v.Mounted → v.Coherent → z ≠ 0 → free v z = some v' → v.Outcome v' (below v z)
  determined : ∀ v v' z, (∀ c ∈ below v z, v'.view c = v.view c) → below v' z = below v z

variable {v v' u w x : CachedDevice} {pick : CachedDevice → Option Nat} {free : CachedDevice → Nat → Option CachedDevice}
  {below : CachedDevice → Nat → List Nat} {inode inode' : CoreInode} {c i t z : Nat} {is es : List Nat} {js : List (Fin 9)}

theorem frees_freeBlock : Frees freeBlock fun _ z => [z] :=
  ⟨fun _ _ _ h => freeBlock_grows h, fun _ _ _ hm hc _ h => freeBlock_outcome hm hc h, fun _ _ _ _ => rfl⟩

theorem Frees.flatMap (hf : Frees free below) (h : ∀ c ∈ es.flatMap (below v), v'.view c = v.view c) :
    es.flatMap (below v') = es.flatMap (below v) := by
  induction es with
  | nil => rfl
  | cons e es ih =>
    rw [List.flatMap_cons] at h
    rw [List.flatMap_cons, List.flatMap_cons, hf.determined v v' e fun c hc => h c (List.mem_append_left _ hc),
      ih fun c hc => h c (List.mem_append_right _ hc)]

theorem Frees.entries_grows (hf : Frees free below) (h : freeEntries free t is v = some v') : v.Grows v' := by
  induction is generalizing v with
  | nil =>
    cases h
    exact fun c => Nat.le_refl _
  | cons i is ih =>
    unfold freeEntries at h
    split at h
    next => exact ih h
    next =>
      obtain ⟨u, hu, h⟩ := Option.bind_eq_some_iff.mp h
      exact fun c => (hf.grows v u _ hu c).trans (ih h c)

theorem outcome_nil (hm : v.Mounted) (hc : v.Coherent) : v.Outcome v [] := .inl ⟨.refl hm hc, by simp, List.nodup_nil⟩

/-- The loop over the entries of a block that it holds. -/
theorem Frees.entries (hf : Frees free below) (hm : v.Mounted) (hc : v.Coherent) (hpos : 0 < v.count t) (hup : v.uptodate t = true)
    (hs : ∀ i, v.zmap i ≠ some t) (h : freeEntries free t is v = some v') :
    v.Outcome v' ((entriesOf (v.data t) is).flatMap (below v)) := by
  induction is generalizing v with
  | nil =>
    cases h
    exact outcome_nil hm hc
  | cons i is ih =>
    unfold freeEntries at h
    unfold entriesOf at ih ⊢
    split at h
    next hz =>
      rw [List.map_cons, List.filter_cons_of_neg (by simpa using hz)]
      exact ih hm hc hpos hup hs h
    next hz =>
      obtain ⟨u, hu, h⟩ := Option.bind_eq_some_iff.mp h
      rw [List.map_cons, List.filter_cons_of_pos (by simpa using hz), List.flatMap_cons]
      refine (hf.outcome v u _ hm hc hz hu).append (hf.entries_grows h) (fun hfr hcl => ?_)
        (fun hsame => hf.flatMap hsame) (fun hsame => hf.flatMap hsame) hm
      -- The block that is held has kept its contents.
      have ht : t ∉ below v (shortAt (v.data t) i) := fun hmem => by
        have := hcl.1 t hmem
        omega
      have hup' := hfr.held t hpos hup
      have hdata : u.data t = v.data t := by
        have hview := hfr.view t ht hs
        rw [view_read hup, view_read hup'] at hview
        exact Option.some.inj hview
      have hrest := ih hfr.mounted hfr.coherent (by rw [hfr.count]; exact hpos) hup' (by rw [hfr.zmap]; exact hs) h
      rw [hdata] at hrest
      exact hrest

theorem brelse_count (h : v.brelse t = some v') (c : Nat) : v'.count c = if c = t then v.count t - 1 else v.count c := by
  unfold brelse at h
  split at h
  next => cases h
  next hpos =>
    cases h
    exact count_edit_self (by omega) (g := (· - 1)) (fun _ => rfl) c

/-- A buffer that is held only between two points of a call takes no part in what the call has freed. -/
theorem Freed.release {l : List Nat} (hm : v.Mounted) (hb : v.Bread u t true) (hf : u.Freed w l) (hrel : w.brelse t = some x)
    (ht : v.count t = 0) : v.Freed x l := by
  obtain ⟨hco, hview, hpos, heq⟩ := brelse_steady hf.coherent hrel
  have hcount := brelse_count hrel
  have hno : ∀ map, v.Slots map → ∀ i, map i ≠ some t := by
    intro map hs i hi
    have := (hs.held i t hi).1
    omega
  have himap : w.imap = v.imap := hf.imap.trans hb.keeps.imap
  have hzmap : w.zmap = v.zmap := hf.zmap.trans hb.keeps.zmap
  obtain ⟨hislots, _⟩ := hf.mounted.imap.setBuf_other (o := x.buf t) (by rw [himap]; exact hno _ hm.imap)
  obtain ⟨hzslots, hbits⟩ := hf.mounted.zmap.setBuf_other (o := x.buf t) (by rw [hzmap]; exact hno _ hm.zmap)
  have hx : w.setBuf t (x.buf t) = x := by
    rw [heq]
    simp [edit]
  rw [hx] at hislots hzslots hbits
  have hximap : x.imap = w.imap := by rw [heq]; rfl
  have hxzmap : x.zmap = w.zmap := by rw [heq]; rfl
  have hwx : ∀ y, x.zoneBit y = w.zoneBit y := by
    intro y
    unfold zoneBit
    rw [hxzmap, hbits, heq]
    rfl
  have huv : ∀ y, u.zoneBit y = v.zoneBit y := by
    intro y
    unfold zoneBit
    rw [hb.keeps.zmap, hb.keeps.first, hm.zmap.mapBit_eq hb.keeps]
  refine ⟨fun c => ?_, fun c hc hs => ?_, fun c hc hup => ?_, fun y hy => ?_, fun y hy => ?_, fun y hy => ?_, hximap.trans himap,
    hxzmap.trans hzmap, ⟨?_, ?_, ?_⟩, hco⟩
  · rw [hcount, hf.count, hf.count, hb.count, hb.count]
    split
    next hct => simp [hct]
    next hct => simp [hct]
  · rw [hview, hf.view c hc (by rw [hb.keeps.zmap]; exact hs), hb.view]
  · have hct : c ≠ t := fun he => by
      rw [he] at hc
      omega
    obtain ⟨hle, _, hup'⟩ := hb.keeps.held c hc hup
    have hup'' := hf.held c (by omega) hup'
    rw [heq]
    exact (uptodate_congr (edit_other hct)).trans hup''
  · rw [← huv]
    exact hf.was y hy
  · rw [hwx]
    exact hf.cleared y hy
  · rw [hwx, hf.bits y hy, huv]
  · rw [hximap]
    exact hislots
  · rw [hxzmap]
    exact hzslots
  · rw [hximap, hxzmap]
    exact hf.mounted.apart

/-- The count of the block that is read goes up and down again. -/
theorem Frees.mid_grows (hf : Frees free below) {ok : Bool} (hcount : ∀ c, u.count c = v.count c + if c = t ∧ ok = true then 1 else 0)
    (hx : (if ok = true then (freeEntries free t is u).bind (·.brelse t) else some u) = some x) : v.Grows x := by
  intro c
  cases ok with
  | false =>
    rw [if_neg Bool.false_ne_true] at hx
    cases hx
    rw [hcount]
    exact Nat.le_add_right _ _
  | true =>
    rw [if_pos rfl] at hx
    obtain ⟨w, hw, hrel⟩ := Option.bind_eq_some_iff.mp hx
    have hc := hf.entries_grows hw c
    rw [hcount] at hc
    rw [brelse_count hrel]
    split
    next hct =>
      rw [hct, if_pos ⟨rfl, rfl⟩] at hc
      rw [hct]
      omega
    next => exact (Nat.le_add_right _ _).trans hc

theorem Frees.table_grows (hpick : Idle pick) (hf : Frees free below) (h : freeTable pick free v z = some v') : v.Grows v' := by
  unfold freeTable at h
  split at h
  next =>
    cases h
    exact fun c => Nat.le_refl _
  next =>
    obtain ⟨u, ok, hread, _, hcount, _⟩ := bread_spec hpick v z
    rw [hread, Option.bind_some] at h
    obtain ⟨x, hx, h⟩ := Option.bind_eq_some_iff.mp h
    exact fun c => (hf.mid_grows hcount hx c).trans (freeBlock_grows h c)

/-- What has been left behind inside stays left behind when the block itself is let go. -/
theorem Leaks.release (hb : v.Bread u t true) (hl : u.Leaks w) (hrel : w.brelse t = some x) : v.Leaks x := by
  obtain ⟨hle, c, hlt⟩ := hl
  have hcount := brelse_count hrel
  have ht := hle t
  rw [hb.count, if_pos ⟨rfl, rfl⟩] at ht
  refine ⟨fun c => ?_, c, ?_⟩
  · have hc' := hle c
    rw [hb.count] at hc'
    rw [hcount]
    split
    next hct =>
      rw [hct]
      omega
    next => exact (Nat.le_add_right _ _).trans hc'
  · rw [hb.count] at hlt
    rw [hcount]
    split
    next hct =>
      rw [hct, if_pos ⟨rfl, rfl⟩] at hlt
      rw [hct]
      omega
    next hct =>
      rw [if_neg fun h => hct h.1] at hlt
      exact hlt

/-- A block that has been read, its entries and the block itself. -/
theorem Frees.table_read (hf : Frees free below) (hm : v.Mounted) (hb : v.Bread u t true) (ht : v.count t = 0)
    (hloop : freeEntries free t is u = some w) (hrel : w.brelse t = some x) (hlast : freeBlock x t = some v') :
    v.Outcome v' ((entriesOf (u.data t) is).flatMap (below v) ++ [t]) := by
  have hslot : ∀ i, u.zmap i ≠ some t := by
    intro i hi
    rw [hb.keeps.zmap] at hi
    have := (hm.zmap.held i t hi).1
    omega
  have hpos : 0 < u.count t := by
    rw [hb.count, if_pos ⟨rfl, rfl⟩]
    exact Nat.succ_pos _
  have hsame : (entriesOf (u.data t) is).flatMap (below u) = (entriesOf (u.data t) is).flatMap (below v) :=
    hf.flatMap fun c _ => hb.view c
  have hout := hf.entries (hm.keeps hb.keeps) hb.coherent hpos (hb.uptodate rfl) hslot hloop
  rw [hsame] at hout
  generalize (entriesOf (u.data t) is).flatMap (below v) = l at hout
  rcases hout with ⟨hfr, hcl⟩ | ⟨hl, hncl⟩
  · have hfx := hfr.release hm hb hrel ht
    have hclv : v.Clear l := by
      refine ⟨fun y hy => ?_, hcl.2⟩
      have hzero := hcl.1 y hy
      rw [hb.count] at hzero
      omega
    exact Outcome.append (.inl ⟨hfx, hclv⟩) (freeBlock_grows hlast) (fun _ _ => freeBlock_outcome hfx.mounted hfx.coherent hlast)
      (fun _ => rfl) (fun _ => rfl) hm
  · obtain ⟨hle, c, hlt⟩ := Leaks.release hb hl hrel
    have hgrows := freeBlock_grows hlast
    refine .inr ⟨⟨fun c => (hle c).trans (hgrows c), c, hlt.trans_le (hgrows c)⟩, fun ⟨hzero, hnd⟩ => hncl ?_⟩
    -- The block is not one of its own entries.
    obtain ⟨hnd', _, hdis⟩ := List.nodup_append.mp hnd
    refine ⟨fun y hy => ?_, hnd'⟩
    rw [hb.count, hzero y (List.mem_append_left _ hy), if_neg fun h => hdis y hy t (List.mem_singleton_self t) h.1]

theorem Bread.freed_nil (hm : v.Mounted) (hb : v.Bread u t false) : v.Freed u [] := by
  refine ⟨fun c => ?_, fun c _ _ => hb.view c, fun c hc hup => (hb.keeps.held c hc hup).2.2, by simp, by simp, fun y _ => ?_,
    hb.keeps.imap, hb.keeps.zmap, hm.keeps hb.keeps, hb.coherent⟩
  · rw [hb.count, if_neg fun h => Bool.false_ne_true h.2]
    rfl
  · unfold zoneBit
    rw [hb.keeps.zmap, hb.keeps.first, hm.zmap.mapBit_eq hb.keeps]

theorem Frees.table_outcome (hpick : Idle pick) (hf : Frees free below) (hm : v.Mounted) (hc : v.Coherent) (hz : z ≠ 0)
    (h : freeTable pick free v z = some v') : v.Outcome v' (tableBlocks below v z) := by
  unfold freeTable at h
  rw [if_neg hz] at h
  obtain ⟨⟨u, ok⟩, hread, h⟩ := Option.bind_eq_some_iff.mp h
  obtain ⟨x, hx, hlast⟩ := Option.bind_eq_some_iff.mp h
  have hb := bread_steady hpick hc hread
  unfold tableBlocks
  by_cases hheld : v.count z = 0
  · unfold entryBlocks
    cases ok with
    | false =>
      rw [if_neg Bool.false_ne_true] at hx
      cases hx
      rw [hb.failed rfl]
      have hfr := hb.freed_nil hm
      exact Outcome.append (.inl ⟨hfr, by simp, List.nodup_nil⟩) (freeBlock_grows hlast)
        (fun _ _ => freeBlock_outcome hfr.mounted hfr.coherent hlast) (fun _ => rfl) (fun _ => rfl) hm
    | true =>
      rw [if_pos rfl] at hx
      obtain ⟨w, hloop, hrel⟩ := Option.bind_eq_some_iff.mp hx
      rw [← hb.view z, view_read (hb.uptodate rfl)]
      exact hf.table_read hm hb hheld hloop hrel hlast
  · -- The block itself is held, and its own reference is left behind at the end.
    have hmid := hf.mid_grows hb.count hx
    have hgrows := freeBlock_grows hlast
    refine .inr ⟨⟨fun c => (hmid c).trans (hgrows c), z, ?_⟩, fun hcl => hheld (hcl.1 z ?_)⟩
    · have hpos := hmid z
      rw [freeBlock_busy_count (by omega) hlast, if_pos rfl]
      omega
    · exact List.mem_append_right _ (List.mem_singleton_self z)

theorem Frees.entryBlocks (hf : Frees free below) (hz : v'.view z = v.view z)
    (h : ∀ c ∈ entryBlocks below v z, v'.view c = v.view c) : entryBlocks below v' z = entryBlocks below v z := by
  unfold CachedDevice.entryBlocks at h ⊢
  rw [hz]
  cases hd : v.view z with
  | none => rfl
  | some data =>
    rw [hd] at h
    exact hf.flatMap h

theorem Frees.table (hpick : Idle pick) (hf : Frees free below) : Frees (freeTable pick free) (tableBlocks below) := by
  refine ⟨fun v v' z h => hf.table_grows hpick h, fun v v' z hm hc hz h => hf.table_outcome hpick hm hc hz h, fun v v' z h => ?_⟩
  unfold tableBlocks at h ⊢
  rw [hf.entryBlocks (h z (List.mem_append_right _ (List.mem_singleton_self z))) fun c hc => h c (List.mem_append_left _ hc)]

theorem frees_freeInd (hpick : Idle pick) : Frees (freeInd pick) indBlocks := frees_freeBlock.table hpick

theorem frees_freeDind (hpick : Idle pick) : Frees (freeDind pick) dindBlocks := (frees_freeInd hpick).table hpick

theorem freeTable_zero : freeTable pick free v 0 = some v := if_pos rfl

/-- A zone number that may be zero. -/
theorem Frees.below_outcome (hpick : Idle pick) (hf : Frees free below) (hm : v.Mounted) (hc : v.Coherent)
    (h : freeTable pick free v z = some v') : v.Outcome v' (blocksBelow (tableBlocks below) v z) := by
  unfold blocksBelow
  split
  next hz =>
    rw [hz, freeTable_zero] at h
    cases h
    exact outcome_nil hm hc
  next hz => exact hf.table_outcome hpick hm hc hz h

theorem Frees.blocksBelow (hf : Frees free below) (h : ∀ c ∈ blocksBelow below v z, v'.view c = v.view c) :
    blocksBelow below v' z = blocksBelow below v z := by
  unfold CachedDevice.blocksBelow at h ⊢
  split
  next => rfl
  next hz =>
    rw [if_neg hz] at h
    exact hf.determined v v' z h

theorem setZone_other {j k : Fin 9} (hk : k ≠ j) : (inode.setZone j z).zone k = inode.zone k := Function.update_of_ne hk _ _

theorem directBlocks_setZone {j : Fin 9} (hj : j ∉ js) : directBlocks (inode.setZone j 0) js = directBlocks inode js := by
  unfold directBlocks
  congr 1
  refine List.map_congr_left fun k hk => setZone_other fun he => hj ?_
  rw [← he]
  exact hk

theorem freeDirect_spec (h : freeDirect js (v, inode) = some (v', inode')) :
    v.Grows v' ∧ ∀ k, k ∉ js → inode'.zone k = inode.zone k := by
  induction js generalizing v inode with
  | nil =>
    cases h
    exact ⟨fun c => Nat.le_refl _, fun _ _ => rfl⟩
  | cons j js ih =>
    unfold freeDirect at h
    split at h
    next =>
      obtain ⟨hgrows, hzone⟩ := ih h
      exact ⟨hgrows, fun k hk => hzone k fun hmem => hk (List.mem_cons_of_mem _ hmem)⟩
    next =>
      obtain ⟨u, hu, h⟩ := Option.bind_eq_some_iff.mp h
      obtain ⟨hgrows, hzone⟩ := ih h
      refine ⟨fun c => (freeBlock_grows hu c).trans (hgrows c), fun k hk => ?_⟩
      rw [hzone k fun hmem => hk (List.mem_cons_of_mem _ hmem)]
      exact setZone_other fun he => hk (he ▸ List.mem_cons_self)

theorem freeDirect_outcome (hm : v.Mounted) (hc : v.Coherent) (hnd : js.Nodup) (h : freeDirect js (v, inode) = some (v', inode')) :
    v.Outcome v' (directBlocks inode js) := by
  induction js generalizing v inode with
  | nil =>
    cases h
    exact outcome_nil hm hc
  | cons j js ih =>
    obtain ⟨hj, hnd⟩ := List.nodup_cons.mp hnd
    unfold freeDirect at h
    split at h
    next hz =>
      have hlist : directBlocks inode (j :: js) = directBlocks inode js := by
        unfold directBlocks
        rw [List.map_cons, List.filter_cons_of_neg (by simpa using hz)]
      rw [hlist]
      exact ih hm hc hnd h
    next hz =>
      obtain ⟨u, hu, h⟩ := Option.bind_eq_some_iff.mp h
      have hlist : directBlocks inode (j :: js) = [inode.zone j] ++ directBlocks inode js := by
        unfold directBlocks
        rw [List.map_cons, List.filter_cons_of_pos (by simpa using hz)]
        rfl
      rw [hlist]
      refine (freeBlock_outcome hm hc hu).append (freeDirect_spec h).1 (fun hfr _ => ?_) (fun _ => rfl) (fun _ => rfl) hm
      rw [← directBlocks_setZone hj]
      exact ih hfr.mounted hfr.coherent hnd h

theorem truncate_outcome (hpick : Idle pick) (hm : v.Mounted) (hc : v.Coherent) {now : Nat} (hkind : ¬ (inode.isReg = false ∧ inode.isDir = false))
    (h : truncate pick v inode now = some (v', inode')) : v.Outcome v' (fileBlocks v inode) := by
  unfold truncate at h
  rw [if_neg hkind] at h
  obtain ⟨⟨u, ip⟩, hdirect, h⟩ := Option.bind_eq_some_iff.mp h
  obtain ⟨w, hind, h⟩ := Option.bind_eq_some_iff.mp h
  obtain ⟨x, hdind, h⟩ := Option.map_eq_some_iff.mp h
  cases h
  obtain ⟨_, hzone⟩ := freeDirect_spec hdirect
  rw [hzone 7 (by decide)] at hind
  rw [hzone 8 (by decide)] at hdind
  have hf := frees_freeBlock
  have hf' := frees_freeInd hpick
  have hf'' := frees_freeDind hpick
  have hgind := hf.table_grows hpick hind
  have hgdind := hf'.table_grows hpick hdind
  -- Both tables are looked up in the device as the direct zones have left it.
  have hrest : v.Freed u (directBlocks inode [0, 1, 2, 3, 4, 5, 6]) →
      u.Outcome v' (blocksBelow indBlocks u (inode.zone 7) ++ blocksBelow dindBlocks u (inode.zone 8)) := fun hfr =>
    (hf.below_outcome hpick hfr.mounted hfr.coherent hind).append hgdind
      (fun hfr' _ => hf'.below_outcome hpick hfr'.mounted hfr'.coherent hdind) hf''.blocksBelow hf''.blocksBelow hfr.mounted
  have hsame : ∀ {a b : CachedDevice}, (∀ c ∈ blocksBelow indBlocks b (inode.zone 7) ++ blocksBelow dindBlocks b (inode.zone 8), a.view c = b.view c) →
      blocksBelow indBlocks a (inode.zone 7) ++ blocksBelow dindBlocks a (inode.zone 8) =
        blocksBelow indBlocks b (inode.zone 7) ++ blocksBelow dindBlocks b (inode.zone 8) := by
    intro a b h
    rw [hf'.blocksBelow fun c hc => h c (List.mem_append_left _ hc), hf''.blocksBelow fun c hc => h c (List.mem_append_right _ hc)]
  exact (freeDirect_outcome hm hc (by decide) hdirect).append (fun c => (hgind c).trans (hgdind c)) (fun hfr _ => hrest hfr) hsame hsame hm

theorem Outcome.count_iff {l : List Nat} (h : v.Outcome v' l) : (∀ c, v'.count c = v.count c) ↔ v.Clear l := by
  rcases h with ⟨hf, hcl⟩ | ⟨⟨_, c, hlt⟩, hncl⟩
  · exact ⟨fun _ => hcl, fun _ => hf.count⟩
  · exact ⟨fun hsame => absurd (hsame c) (by omega), fun hcl => absurd hcl hncl⟩

theorem freeBlock_count_iff (h : freeBlock v z = some v') : (∀ c, v'.count c = v.count c) ↔ v.count z = 0 := by
  constructor
  · intro hsame
    by_contra hpos
    have hz := freeBlock_busy_count (by omega) h z
    rw [hsame, if_pos rfl] at hz
    omega
  · exact fun hz => freeBlock_idle_count hz h

/-- A call that frees blocks and returns has left all counts as they were exactly if no block that it was to free was held and none
was listed twice. -/
theorem free_counts_iff (v : CachedDevice) :
    (∀ block v', freeBlock v block = some v' → ((∀ c, v'.count c = v.count c) ↔ v.count block = 0)) ∧
    ∀ pick, Idle pick → v.Mounted → v.Coherent →
      (∀ block v', freeInd pick v block = some v' → ((∀ c, v'.count c = v.count c) ↔ v.Clear (blocksBelow indBlocks v block))) ∧
      (∀ block v', freeDind pick v block = some v' → ((∀ c, v'.count c = v.count c) ↔ v.Clear (blocksBelow dindBlocks v block))) ∧
      ∀ inode inode' now v', truncate pick v inode now = some (v', inode') →
        ((∀ c, v'.count c = v.count c) ↔ ¬ (inode.isReg = false ∧ inode.isDir = false) → v.Clear (fileBlocks v inode)) := by
  refine ⟨fun block v' h => freeBlock_count_iff h, fun pick hpick hm hc => ⟨fun block v' h => ?_, fun block v' h => ?_,
    fun inode inode' now v' h => ?_⟩⟩
  · exact (frees_freeBlock.below_outcome hpick hm hc h).count_iff
  · exact ((frees_freeInd hpick).below_outcome hpick hm hc h).count_iff
  · by_cases hkind : inode.isReg = false ∧ inode.isDir = false
    · unfold truncate at h
      rw [if_pos hkind] at h
      cases h
      exact ⟨fun _ hk => absurd hkind hk, fun _ _ => rfl⟩
    · rw [(truncate_outcome hpick hm hc hkind h).count_iff]
      exact ⟨fun hcl _ => hcl, fun hcl => hcl hkind⟩

/-- A regular file that has zone 5 alone. -/
def oneZoneFile : CoreInode := { mode := 0o100644, nlinks := 1, zone := fun i => if i = 0 then 5 else 0 }

theorem smallDevice_coherent {first held : Nat} {bits : BitVec 32} : (smallDevice first bits held).Coherent := by
  intro b h hb
  have hfull : (if b = 2 ∨ b = 3 ∨ b = held then some ({ data := smallBlock bits b, count := 1, uptodate := true } : BlockBuffer) else none) =
      some h := hb
  split at hfull
  next =>
    cases hfull
    exact ⟨nofun, fun _ _ => rfl⟩
  next => cases hfull

theorem free_counts_small : ∃ r, truncate noVictim (smallDevice 5 3 0) oneZoneFile 0 = some r ∧
    ∀ c, r.1.count c = (smallDevice 5 3 0).count c := by
  have hsome : (truncate noVictim (smallDevice 5 3 0) oneZoneFile 0).isSome = true := by decide +kernel
  obtain ⟨⟨v', inode'⟩, hr⟩ := Option.isSome_iff_exists.mp hsome
  obtain ⟨_, _, htruncate⟩ := (free_counts_iff (smallDevice 5 3 0)).2 noVictim idle_noVictim (smallDevice_mounted (by decide))
    smallDevice_coherent
  have hblocks : fileBlocks (smallDevice 5 3 0) oneZoneFile = [5] := by decide
  refine ⟨_, hr, (htruncate oneZoneFile inode' 0 v' hr).mpr fun _ => ?_⟩
  rw [hblocks]
  exact ⟨by decide, by decide⟩

/-- A block that somebody holds keeps one more reference, by `free_block` and by `truncate`. -/
theorem free_counts_busy : (smallDevice 5 3 5).zoneBit 5 = some true ∧ (smallDevice 5 3 5).count 5 = 1 ∧
    (freeBlock (smallDevice 5 3 5) 5).map (fun v' => v'.count 5) = some 2 ∧
    (truncate noVictim (smallDevice 5 3 5) oneZoneFile 0).map (fun r => r.1.count 5) = some 2 := by
  exact ⟨by decide, by decide, by decide +kernel, by decide +kernel⟩

end CachedDevice

end RheeKernel
