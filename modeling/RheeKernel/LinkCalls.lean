import RheeKernel.AccessModes
import RheeKernel.LinkView
import RheeKernel.MakeDirClean
import RheeKernel.NameLedger
import RheeKernel.PathResolution
import Mathlib.Tactic.IntervalCases

namespace RheeKernel

namespace Vfs

open Triples

/-- In a call of process `me`: `held` are the slots that the call has in hand, with the numbers of their inodes. -/
structure Within (me : Nat) (G : LinkGraph) (held : List (Nat × Nat)) (s : Vfs) : Prop extends Mirrors G s where
  owes : s.Owes me (held.map Prod.fst)
  nums : ∀ x ∈ held, (s.slot x.1).num = x.2

/-- The counters are right. -/
def Settled (me : Nat) (held : List (Nat × Nat)) (s : Vfs) : Prop := ∃ G : LinkGraph, G.Sound ∧ Within me G held s

variable {G G' : LinkGraph} {held held' : List (Nat × Nat)} {s s' : Vfs} {me t k j n m i d e dev nr dir : Nat} {name basename filename : List UInt8}
  {α : Type}

theorem Within.inUse (h : Within me G held s) (hx : (k, n) ∈ held) : s.InUse k := h.owes.inUse (List.mem_map_of_mem hx)

theorem Within.dev_eq (h : Within me G held s) (hx : (k, n) ∈ held) : (s.slot k).dev = s.dev := h.named k (h.inUse hx)

theorem Within.num_eq (h : Within me G held s) (hx : (k, n) ∈ held) : (s.slot k).num = n := h.nums _ hx

/-- What is in hand is an inode of the graph. -/
theorem Within.node (h : Within me G held s) (hx : (k, n) ∈ held) : G.used n = true ∧ Portrays G n (s.slot k).toDiskInode := by
  have real : (s.slot k).dev ≠ 0 := (h.dev_eq hx).symm ▸ h.mounted
  have node := h.table k real
  rw [h.num_eq hx] at node
  exact node

/-- An inode is in one slot. -/
theorem Within.one_slot (h : Within me G held s) (hk : (k, n) ∈ held) (hj : (j, n) ∈ held) : k = j := by
  have real : (s.slot k).dev ≠ 0 := (h.dev_eq hk).symm ▸ h.mounted
  exact h.unique k j real ((h.dev_eq hk).trans (h.dev_eq hj).symm) ((h.num_eq hk).trans (h.num_eq hj).symm)

theorem Within.perm (h : Within me G held s) (hp : held.Perm held') : Within me G held' s :=
  ⟨h.toMirrors, h.owes.perm (hp.map Prod.fst), fun x hx => h.nums x (hp.mem_iff.mpr hx)⟩

theorem Settled.perm (h : Settled me held s) (hp : held.Perm held') : Settled me held' s := by
  obtain ⟨G, sound, within⟩ := h
  exact ⟨G, sound, within.perm hp⟩

/-- The table goes on, and nothing else gets into the call's hands. -/
theorem Within.follow (h : Within me G held s) (ha : Abides s s') (hm : s'.Mirrors G') (ho : s'.Owes me (held'.map Prod.fst))
    (hsub : ∀ x ∈ held', x ∈ held) : Within me G' held' s' := by
  refine ⟨hm, ho, ?_⟩
  intro x hx
  obtain ⟨a, n⟩ := x
  have before := (h.inUse (hsub _ hx)).1
  have after := (ho.inUse (List.mem_map_of_mem hx)).1
  exact (ha.same a before after).2.trans (h.num_eq (hsub _ hx))

/-- The slot `k` comes into the call's hands. -/
theorem Within.take (h : Within me G held s) (ha : Abides s s') (hm : s'.Mirrors G') (ho : s'.Owes me (k :: held.map Prod.fst))
    (hnum : (s'.slot k).num = n) : Within me G' ((k, n) :: held) s' := by
  refine ⟨hm, ho, ?_⟩
  intro x hx
  rcases List.mem_cons.mp hx with rfl | old
  · exact hnum
  · obtain ⟨a, m⟩ := x
    have before := (h.inUse old).1
    have after := (ho.inUse (List.mem_cons_of_mem _ (List.mem_map_of_mem old))).1
    exact (ha.same a before after).2.trans (h.num_eq old)

theorem Within.iput (h : Within me G ((k, n) :: held) s) (hput : Vfs.iput k s = some ((), s')) :
    ∃ G', G.Released G' ∧ Within me G' held s' ∧ (G.links n ≠ 0 → G' = G) := by
  obtain ⟨abides, G', released, mirrors, kept⟩ := h.toMirrors.iput hput
  refine ⟨G', released, ?_, ?_⟩
  · exact h.follow abides mirrors (iput_owes s h.owes () s' hput) fun x hx => List.mem_cons_of_mem _ hx
  · intro linked
    have here : (k, n) ∈ (k, n) :: held := List.mem_cons_self
    apply kept
    · rw [h.dev_eq here]
      exact h.mounted
    · rw [← (h.node here).2.links]
      exact linked

/-- An inode with links stays where it is. -/
theorem iput_within (linked : G.links n ≠ 0) : Triple (Within me G ((k, n) :: held)) (iput k) fun _ => Within me G held := by
  intro s hs a s' ha
  obtain ⟨G', -, within, same⟩ := hs.iput ha
  exact same linked ▸ within

theorem iput_settled : Triple (Settled me ((k, n) :: held)) (iput k) fun _ => Settled me held := by
  intro s hs a s' ha
  obtain ⟨G, sound, hs⟩ := hs
  obtain ⟨G', released, within, -⟩ := hs.iput ha
  exact ⟨G', released.sound sound, within⟩

theorem back_settled {a : α} : Triple (Settled me ((k, n) :: held)) (do iput k; return a) fun _ => Settled me held :=
  .bind iput_settled fun _ => .pure fun _ hs => hs

/-- Two inodes go back, the first one first. -/
theorem back_two_settled {a : α} :
    Triple (Settled me ((j, m) :: (k, n) :: held)) (do iput j; iput k; return a) fun _ => Settled me held :=
  .bind iput_settled fun _ => back_settled

/-- Two inodes go back, the second one first. -/
theorem back_two_settled' {a : α} :
    Triple (Settled me ((j, m) :: (k, n) :: held)) (do iput k; iput j; return a) fun _ => Settled me held :=
  back_two_settled.pre fun _ hs => hs.perm (.swap ..)

theorem iget_within (hnr : G.used nr = true) : Triple (Within me G held) (iget dev nr) fun k => Within me G ((k, nr) :: held) := by
  intro s hs k s' ha
  obtain ⟨mirrors, abides, -, num⟩ := hs.toMirrors.iget hnr ha
  exact hs.take abides mirrors (iget_owes s hs.owes k s' ha) num

/-- After `new_inode`. -/
def AfterAdd (me : Nat) (G : LinkGraph) (held : List (Nat × Nat)) (o : Option Nat) (s : Vfs) : Prop :=
  match o with
  | none => Within me G held s
  | some k => ∃ n, G.used n = false ∧ 0 < n ∧ n ≤ G.top ∧ Within me (G.add n) ((k, n) :: held) s

theorem newInode_within : Triple (Within me G held) (newInode dev) (AfterAdd me G held) := by
  intro s hs o s' ha
  have owes := newInode_owes s hs.owes o s' ha
  obtain ⟨abides, ⟨rfl, mirrors⟩ | ⟨k, n, rfl, fresh, positive, top, mirrors, self⟩⟩ := hs.toMirrors.newInode ha
  · exact hs.follow abides mirrors owes fun _ hx => hx
  · exact ⟨n, fresh, positive, top, hs.take abides mirrors owes (congrArg CoreInode.num self)⟩

/-- A piece of code that is beside the table and the directories. -/
theorem Within.unchanged (h : Within me G held s) (ha : Aside s s') (hdir : s'.dir = s.dir) : Within me G held s' := by
  have current := h.toCurrent.unchanged ha.dev ha.slot ha.disk
  refine ⟨h.current current ha.ninodes ha.imap hdir, h.owes.steady ha.steady, ?_⟩
  rw [ha.slot]
  exact h.nums

theorem answer_within : Triple (Within me G held) answer fun _ => Within me G held := by
  refine .each fun s hs => .run fun a s' ha => hs.unchanged (Idle.answer s a s' ha) ?_
  rw [answer_run] at ha
  cases Option.some.inj ha
  rfl

theorem findEntry_inode {f : Nat → NameEntry} (h : RheeKernel.findEntry f n name = some e) : (f e).inode ≠ 0 := by
  unfold RheeKernel.findEntry at h
  dsimp only at h
  split at h
  next => cases h
  next =>
    obtain ⟨-, -, found⟩ := Files.firstIndex_spec h
    exact (matchName_iff.mp found).1

/-- The entry that is found is one of the directory's, and it names an inode. -/
theorem Within.found (h : Within me G held s) (hk : (k, d) ∈ held) (hd : G.Live d) (hfound : s.foundEntry k name = some e) :
    e < G.len d ∧ G.entry d e ≠ 0 ∧ (s.dir (s.slot k).num e).inode = G.entry d e := by
  obtain ⟨-, portrait⟩ := h.node hk
  have entries : (s.slot k).size / direntSize = G.len d := by
    rw [portrait.size hd.2.1]
    exact Nat.mul_div_cancel_left _ (by decide)
  unfold foundEntry at hfound
  split at hfound
  next => cases hfound
  next =>
    rw [entries, h.num_eq hk] at hfound
    rw [h.num_eq hk, h.entries]
    exact ⟨findEntry_lt hfound, findEntry_inode hfound, rfl⟩

/-- Nobody may do anything in a directory without links. -/
theorem Within.live {c : Cred} {mask : BitVec 32} (h : Within me G held s) (hk : (k, d) ∈ held) (hdir : (s.slot k).isDir = true)
    (hperm : RheeKernel.permission c (s.slot k).view mask ≠ 0) : G.Live d := by
  obtain ⟨used, portrait⟩ := h.node hk
  refine ⟨used, portrait.dir.trans hdir, ?_⟩
  intro none
  apply hperm
  unfold RheeKernel.permission
  refine if_pos ⟨?_, portrait.links.symm.trans none⟩
  change (s.slot k).dev ≠ 0
  rw [h.dev_eq hk]
  exact h.mounted

/-- What `dir_namei` comes back with: the directory is a live one, or the inodes have gone back. -/
def AfterDir (me : Nat) (G : LinkGraph) (held : List (Nat × Nat)) (o : Option (Nat × List UInt8)) (s : Vfs) : Prop :=
  match o with
  | none => Settled me held s
  | some (k, _) => ∃ d, G.Live d ∧ Within me G ((k, d) :: held) s

theorem getDirFrom_within {names : List (List UInt8)} (hG : G.Sound) :
    Triple (Within me G ((k, n) :: held)) (getDirFrom t k names) (AfterDir me G held) := by
  have gone {k n : Nat} : Triple (Within me G ((k, n) :: held)) (do iput k; return none) (AfterDir me G held) :=
    .bind (iput_settled.pre fun s hs => ⟨G, hG, hs⟩) fun _ => .pure fun s hs => hs
  induction names generalizing k n with
  | nil => exact gone
  | cons name names ih =>
    refine .each fun s hs => .step rfl (.step rfl ?_)
    have here : (k, n) ∈ (k, n) :: held := List.mem_cons_self
    have back : Triple (fun u => u = s) (do iput k; return none) (AfterDir me G held) := gone.pre fun u hu => hu ▸ hs
    refine .ite (fun _ => back) fun allowed => ?_
    have live : G.Live n := by
      obtain ⟨hdir, hperm⟩ := not_or.mp allowed
      exact hs.live here (Bool.not_eq_false _ ▸ hdir) hperm
    refine .ite (fun _ => .pure fun u hu => ⟨n, live, hu ▸ hs⟩) fun _ => .step findEntry_run ?_
    cases hfound : s.foundEntry k name with
    | none => exact back
    | some e =>
      obtain ⟨inside, named, same⟩ := hs.found here live hfound
      refine .step (a := G.entry n e) (congrArg (fun x => some (x, s)) same) ?_
      refine .bind (Q := fun _ => Within me G held) ((iput_within live.2.2).pre fun u hu => hu ▸ hs) fun _ => ?_
      exact .bind (iget_within (hG.named n e live inside named)) fun j => ih

/-- A directory of the process is counted once more. -/
theorem Within.start (h : Within me G held s) (hi : (s.task t).pwd = some k ∨ (s.task t).root = some k) (hpos : 0 < (s.slot k).count) :
    Within me G ((k, (s.slot k).num) :: held) (s.setSlot k { s.slot k with count := (s.slot k).count + 1 }) := by
  have plain := h.owes.dirs t k hi
  have home := h.named k ⟨hpos, plain⟩
  have bound := h.toTable.bound hpos
  have recount : (s.setSlot k { s.slot k with count := (s.slot k).count + 1 }).Mirrors G := h.current (h.recount bound home) rfl rfl rfl
  have abides : Abides s (s.setSlot k { s.slot k with count := (s.slot k).count + 1 }) := setSlot_replaces.abides fun _ _ => ⟨rfl, rfl⟩
  refine h.take abides recount (h.owes.taken ⟨rfl, rfl, rfl, rfl⟩ rfl rfl plain) ?_
  rw [setSlot_at, if_pos rfl]

theorem dirNamei_within (hG : G.Sound) : Triple (Within me G held) (dirNamei t filename) (AfterDir me G held) := by
  refine .each fun s hs => .step rfl ?_
  have none : Triple (fun u => u = s) (return none) (AfterDir me G held) := .pure fun u hu => ⟨G, hG, hu ▸ hs⟩
  have start {k : Nat} {names : List (List UInt8)} (hi : (s.task t).pwd = some k ∨ (s.task t).root = some k) (hpos : 0 < (s.slot k).count) :
      Triple (fun u => u = s) (do edit k fun i => { i with count := i.count + 1 }; getDirFrom t k names) (AfterDir me G held) := by
    refine .bind (Q := fun _ => Within me G ((k, (s.slot k).num) :: held)) (.modify fun u hu => ?_) fun _ => getDirFrom_within hG
    rw [hu]
    exact hs.start hi hpos
  split
  next root pwd hroot hpwd =>
    refine .ite (fun _ => .failure) fun hcount => ?_
    cases filename with
    | nil => exact none
    | cons a as =>
      refine .ite (fun _ => none) fun _ => .ite (fun _ => ?_) fun _ => ?_
      · exact start (.inr hroot) (by omega)
      · exact start (.inl hpwd) (by omega)
  next => exact .failure

theorem enter_within (hG : G.Sound) (hs : Within me G ((dir, d) :: held) s) (hd : G.Live d) (hfound : s.foundEntry dir basename = some e) :
    Triple (fun u => u = s) (enter dir e) fun k => Within me G ((k, G.entry d e) :: held) := by
  obtain ⟨inside, named, same⟩ := hs.found List.mem_cons_self hd hfound
  refine .step (a := G.entry d e) (congrArg (fun x => some (x, s)) same) (.step rfl ?_)
  refine .bind (Q := fun _ => Within me G held) ((iput_within hd.2.2).pre fun u hu => hu ▸ hs) fun _ => ?_
  exact iget_within (hG.named d e hd inside named)

/-- Fields of an inode in hand are assigned together with `i_dirt`. -/
theorem Within.assign {i : CoreInode} (h : Within me G held s) (hk : (k, n) ∈ held) (ha : Assigned (s.slot k) i)
    (portrait : Portrays G' n i.toDiskInode) (htop : G'.top = G.top) (hused : G'.used = G.used) (hentry : G'.entry = G.entry)
    (hothers : ∀ x, x ≠ n → G'.dir x = G.dir x ∧ G'.links x = G.links x ∧ G'.len x = G.len x) : Within me G' held (s.setSlot k i) := by
  have num := h.num_eq hk
  have mirrors := h.toMirrors.assign (h.inUse hk) ha (num.symm ▸ portrait) htop hused hentry (num.symm ▸ hothers)
  refine ⟨mirrors, h.owes.steady ha.steady, ?_⟩
  intro x hx
  rw [setSlot_at]
  split
  next same => rw [ha.num, ← same, h.nums x hx]
  next => exact h.nums x hx

/-- The links of an inode in hand are counted anew. -/
theorem Within.setLinks {i : CoreInode} {l : Nat} (h : Within me G held s) (hk : (k, n) ∈ held) (ha : Assigned (s.slot k) i)
    (hlinks : i.nlinks = l) (hbyte : l < 256) (hmode : i.mode = (s.slot k).mode) (hsize : i.size = (s.slot k).size) :
    Within me (G.setLinks n l) held (s.setSlot k i) := by
  obtain ⟨-, portrait⟩ := h.node hk
  refine h.assign hk ha ⟨?_, ?_, hlinks ▸ hbyte, ?_⟩ rfl rfl rfl fun x hx => ⟨rfl, Function.update_of_ne hx _ _, rfl⟩
  · change G.dir n = (i.mode.setWidth 32 &&& ifmt == ifdir)
    rw [hmode]
    exact portrait.dir
  · rw [hlinks]
    exact Function.update_self ..
  · intro dir
    rw [hsize]
    exact portrait.size dir

/-- One more link for an inode that has room for it. -/
theorem Within.countUp (h : Within me G held s) (hk : (k, n) ∈ held) (few : G.links n < 255) : Within me (G.setLinks n (G.links n + 1)) held
    (s.setSlot k { s.slot k with nlinks := ((s.slot k).nlinks + 1) % 256, dirt := true }) := by
  have links := (h.node hk).2.links
  refine h.setLinks hk ⟨rfl, rfl, rfl, rfl, rfl⟩ ?_ (by omega) rfl rfl
  change ((s.slot k).nlinks + 1) % 256 = G.links n + 1
  omega

/-- What is assigned does not show in the graph. -/
theorem touch_within {g : CoreInode → CoreInode} (hk : (k, n) ∈ held) (ha : ∀ i, Assigned i (g i))
    (same : ∀ i : CoreInode, Portrays G n i.toDiskInode → Portrays G n (g i).toDiskInode) :
    Triple (Within me G held) (edit k g) fun _ => Within me G held :=
  .modify fun _ hs => hs.assign hk (ha _) (same _ (hs.node hk).2) rfl rfl rfl fun _ _ => ⟨rfl, rfl, rfl⟩

/-- What `namei` comes back with: an inode with links, or all have gone back. -/
def AfterName (me : Nat) (G : LinkGraph) (held : List (Nat × Nat)) (o : Option Nat) (s : Vfs) : Prop :=
  match o with
  | none => Settled me held s
  | some k => ∃ n, G.links n ≠ 0 ∧ Within me G ((k, n) :: held) s

theorem namei_within (hG : G.Sound) : Triple (Within me G held) (namei t filename) (AfterName me G held) := by
  refine .bind (dirNamei_within hG) fun found => ?_
  cases found with
  | none => exact .pure fun _ hs => hs
  | some found =>
    obtain ⟨dir, basename⟩ := found
    refine .each fun s hs => ?_
    obtain ⟨d, live, hs⟩ := hs
    refine .ite (fun _ => .pure fun u hu => ⟨d, live.2.2, hu ▸ hs⟩) fun _ => .step findEntry_run ?_
    cases hfound : s.foundEntry dir basename with
    | none => exact .bind (iput_settled.pre fun u hu => ⟨G, hG, hu ▸ hs⟩) fun _ => .pure fun _ hs => hs
    | some e =>
      obtain ⟨inside, named, -⟩ := hs.found List.mem_cons_self live hfound
      refine .bind (enter_within hG hs live hfound) fun k => ?_
      refine .bind (touch_within List.mem_cons_self (fun _ => ⟨rfl, rfl, rfl, rfl, rfl⟩) fun _ old => old) fun _ => ?_
      exact .pure fun u hu => ⟨G.entry d e, hG.linked live inside named, hu⟩

theorem putEntry_within {f : NameEntry → NameEntry} {x : Nat} (hk : (k, d) ∈ held) (hf : ∀ de, (f de).inode = x) :
    Triple (Within me G held) (putEntry k j f) fun _ => Within me (G.setEntry d j x) held := by
  refine .modify fun s hs => ?_
  have mirrors := hs.toMirrors.putEntry (d := (s.slot k).num) (j := j) (e := f (s.dir (s.slot k).num j))
  rw [hf, hs.num_eq hk] at mirrors
  refine ⟨?_, hs.owes.steady (.slots rfl rfl rfl rfl rfl), hs.nums⟩
  dsimp only
  rw [hs.num_eq hk]
  exact mirrors

theorem createBlock_within (hk : (k, n) ∈ held) : Triple (Within me G held) (createBlock k i) fun _ => Within me G held := by
  have set (z : Fin 9) (v : Nat) :
      Triple (Within me G held) (edit k fun i => { i with zone := Function.update i.zone z v, dirt := true }) fun _ => Within me G held :=
    touch_within hk (fun _ => ⟨rfl, rfl, rfl, rfl, rfl⟩) fun _ old => ⟨old.dir, old.links, old.byte, old.size⟩
  have inner : Triple (Within me G held) (do return (← answer) ≠ 0 : Call Bool) fun _ => Within me G held :=
    .bind answer_within fun _ => .pure fun _ hs => hs
  refine .each fun s hs => .step rfl (.pre (P := Within me G held) ?_ fun u hu => hu ▸ hs)
  split
  next =>
    refine .ite (fun _ => ?_) fun _ => .pure fun _ hs => hs
    exact .bind answer_within fun _ => .ite (fun _ => .pure fun _ hs => hs) fun _ => .bind (set _ _) fun _ => .pure fun _ hs => hs
  next =>
    refine .ite (fun _ => .failure) fun _ => .ite (fun _ => ?_) fun _ => inner
    exact .bind answer_within fun _ => .ite (fun _ => .pure fun _ hs => hs) fun _ => .bind (set _ _) fun _ => inner

/-- A directory gets a place at its end. -/
theorem Within.lengthen (h : Within me G held s) (hk : (k, d) ∈ held) :
    Within me { G with len := Function.update G.len d (G.len d + 1) } held
      (s.setSlot k { s.slot k with size := direntSize * (G.len d + 1), dirt := true, mtime := s.now }) := by
  obtain ⟨-, portrait⟩ := h.node hk
  refine h.assign hk ⟨rfl, rfl, rfl, rfl, rfl⟩ ⟨portrait.dir, portrait.links, portrait.byte, fun _ => ?_⟩ rfl rfl rfl ?_
  · change direntSize * (G.len d + 1) = direntSize * Function.update G.len d (G.len d + 1) d
    rw [Function.update_self]
  · intro x hx
    exact ⟨rfl, rfl, Function.update_of_ne hx _ _⟩

theorem Within.stamp (h : Within me G held s) (hk : (k, n) ∈ held) : Within me G held (s.setSlot k { s.slot k with mtime := s.now }) := by
  have use := h.inUse hk
  have steady : Steady s (s.setSlot k { s.slot k with mtime := s.now }) :=
    Quiet.edit (g := fun i => { i with mtime := s.now }) (fun _ => ⟨rfl, rfl, rfl⟩) s () _ rfl
  refine ⟨h.toMirrors.stamp use, h.owes.steady steady, ?_⟩
  intro x hx
  rw [setSlot_at]
  split
  next same => rw [← same, h.nums x hx]
  next => exact h.nums x hx

/-- The turn of `add_entry` at place `i`. -/
def AfterTake (me : Nat) (G : LinkGraph) (held : List (Nat × Nat)) (d i : Nat) (taken : Bool) (s : Vfs) : Prop :=
  if taken then ∃ G', G.Opens d i G' ∧ Within me G' held s else i < G.len d ∧ Within me G held s

theorem takeEntry_within (hk : (k, d) ∈ held) (hdir : G.dir d = true) (hi : i ≤ G.len d) :
    Triple (Within me G held) (takeEntry k name i) (AfterTake me G held d i) := by
  refine .each fun s hs => .step rfl ?_
  have size : (s.slot k).size = direntSize * G.len d := (hs.node hk).2.size hdir
  refine .ite (fun behind => ?_) fun inside => ?_
  · have last : i = G.len d := by
      rw [size] at behind
      unfold direntSize at behind
      omega
    refine .bind (Q := fun _ => Within me { G with len := Function.update G.len d (G.len d + 1) } held) (.modify fun u hu => ?_) fun _ => ?_
    · rw [hu, last]
      exact hs.lengthen hk
    · refine .bind (putEntry_within hk fun _ => rfl) fun _ => .pure fun u hu => ⟨G.grow d, .grown last, ?_⟩
      rw [last] at hu
      exact hu
  · have inside : i < G.len d := by
      rw [size] at inside
      unfold direntSize at inside
      omega
    refine .ite (fun zero => ?_) fun _ => .pure fun u hu => ⟨inside, hu ▸ hs⟩
    rw [hs.num_eq hk, ← hs.entries] at zero
    refine .bind (Q := fun _ => Within me G held) (.modify fun u hu => ?_) fun _ => ?_
    · rw [hu]
      exact hs.stamp hk
    · refine .bind (putEntry_within hk fun _ => rfl) fun _ => .pure fun u hu => ⟨G, .free inside zero, ?_⟩
      rw [LinkGraph.setEntry_same zero] at hu
      exact hu

/-- After `add_entry`. -/
def AfterRoom (me : Nat) (G : LinkGraph) (held : List (Nat × Nat)) (d : Nat) (o : Option Nat) (s : Vfs) : Prop :=
  match o with
  | none => Within me G held s
  | some e => ∃ G', G.Opens d e G' ∧ Within me G' held s

theorem addEntryFrom_within (hk : (k, d) ∈ held) (hdir : G.dir d = true) (hi : i ≤ G.len d) :
    Triple (Within me G held) (addEntryFrom k name n i) (AfterRoom me G held d) := by
  induction n generalizing i with
  | zero => exact .pure fun _ hs => hs
  | succ n ih =>
    have room : Triple (Within me G held) (roomAt k i) fun _ => Within me G held :=
      .ite (fun _ => createBlock_within hk) fun _ => .pure fun _ hs => hs
    refine .bind room fun room => .ite (fun _ => ?_) fun _ => .pure fun _ hs => hs
    refine .bind (takeEntry_within hk hdir hi) fun taken => ?_
    cases taken with
    | true => exact .pure fun _ hs => hs
    | false => exact .fact fun inside => ih inside

theorem addEntry_within (hk : (k, d) ∈ held) (hdir : G.dir d = true) :
    Triple (Within me G held) (addEntry k name) (AfterRoom me G held d) := by
  refine .each fun s hs => .step rfl ?_
  refine .ite (fun _ => .pure fun u hu => hu ▸ hs) fun _ => ?_
  exact (addEntryFrom_within hk hdir (Nat.zero_le _)).pre fun u hu => hu ▸ hs

/-- What is dirty stays so while a directory gets an entry. -/
theorem addEntry_dirty (hj : s.InUse j) (hdirt : (s.slot k).dirt = true) {o : Option Nat} (ha : addEntry j name s = some (o, s')) :
    (s'.slot k).dirt = true :=
  (addEntry_using (c := True) (D := fun i => i = k) (.inr trivial) s ⟨.refl, hj, fun _ hi => hi ▸ hdirt⟩ o s' ha).dirty k rfl

/-- The one link of a new inode is taken back. -/
theorem Within.discard (h : Within me (G.add n) held s) (hk : (k, n) ∈ held) (hdirt : (s.slot k).dirt = true) :
    Within me ((G.add n).setLinks n 0) held (s.setSlot k { s.slot k with nlinks := ((s.slot k).nlinks + 255) % 256 }) := by
  have one : (s.slot k).nlinks = 1 := (h.node hk).2.links.symm.trans (Function.update_self ..)
  refine h.setLinks hk ⟨rfl, rfl, rfl, rfl, hdirt⟩ ?_ (by decide) rfl rfl
  change ((s.slot k).nlinks + 255) % 256 = 0
  rw [one]

/-- A new inode becomes a file. -/
theorem Within.become {mode : BitVec 16} (h : Within me (G.add n) held s) (hk : (k, n) ∈ held) (hmode : mode.setWidth 32 &&& ifmt = ifreg) :
    Within me (G.add n) held (s.setSlot k { s.slot k with mode := mode, dirt := true }) := by
  obtain ⟨-, portrait⟩ := h.node hk
  have plain : (G.add n).dir n = false := Function.update_self ..
  refine h.assign hk ⟨rfl, rfl, rfl, rfl, rfl⟩ ⟨?_, portrait.links, portrait.byte, ?_⟩ rfl rfl rfl fun _ _ => ⟨rfl, rfl, rfl⟩
  · change (G.add n).dir n = (mode.setWidth 32 &&& ifmt == ifdir)
    rw [plain, hmode]
    decide
  · intro dir
    rw [plain] at dir
    cases dir

/-- What a new inode has for its size and its zones does not show. -/
theorem Within.resize {i : CoreInode} (h : Within me (G.add n) held s) (hk : (k, n) ∈ held) (ha : Assigned (s.slot k) i)
    (hlinks : i.nlinks = (s.slot k).nlinks) (hmode : i.mode = (s.slot k).mode) : Within me (G.add n) held (s.setSlot k i) := by
  obtain ⟨-, portrait⟩ := h.node hk
  refine h.assign hk ha ⟨?_, portrait.links.trans hlinks.symm, hlinks ▸ portrait.byte, ?_⟩ rfl rfl rfl fun _ _ => ⟨rfl, rfl, rfl⟩
  · change (G.add n).dir n = (i.mode.setWidth 32 &&& ifmt == ifdir)
    rw [hmode]
    exact portrait.dir
  · intro dir
    have plain : (G.add n).dir n = false := Function.update_self ..
    rw [plain] at dir
    cases dir

/-- What `open_namei` comes back with. -/
def AfterOpen (me : Nat) (held : List (Nat × Nat)) (x : Except Int Nat) (s : Vfs) : Prop :=
  match x with
  | .error _ => Settled me held s
  | .ok k => ∃ n, Settled me ((k, n) :: held) s

theorem createEntry_settled {mode : BitVec 32} (hG : G.Sound) (hd : G.Live d) (hmode : (mode.truncate 16).setWidth 32 &&& ifmt = ifreg) :
    Triple (Within me G ((dir, d) :: held)) (createEntry t dir basename mode) (AfterOpen me held) := by
  have back {r : Int} : Triple (Within me G ((dir, d) :: held)) (do iput dir; return .error r) (AfterOpen me held) :=
    .bind (iput_settled.pre fun s hs => ⟨G, hG, hs⟩) fun _ => .pure fun _ hs => hs
  refine .each fun s hs => .step rfl (.ite (fun _ => back.pre fun u hu => hu ▸ hs) fun _ => .step rfl ?_)
  refine .bind (newInode_within.pre fun u hu => hu ▸ hs) fun new => ?_
  cases new with
  | none => exact back
  | some k =>
    refine .each fun u hu => ?_
    obtain ⟨n, fresh, positive, top, hu⟩ := hu
    have other := hd.ne_unused fresh
    have here : (k, n) ∈ (k, n) :: (dir, d) :: held := List.mem_cons_self
    have there : (dir, d) ∈ (k, n) :: (dir, d) :: held := List.mem_cons_of_mem _ List.mem_cons_self
    refine .bind (Q := fun _ v => Within me (G.add n) ((k, n) :: (dir, d) :: held) v ∧ (v.slot k).dirt = true) (.modify fun v hv => ?_) fun _ => ?_
    · rw [hv]
      refine ⟨hu.become here hmode, ?_⟩
      dsimp only
      rw [Function.update_self]
    · have isDir : (G.add n).dir d = true := (LinkGraph.add_of_ne other).2.trans hd.2.1
      refine .bind (Q := fun o w => AfterRoom me (G.add n) ((k, n) :: (dir, d) :: held) d o w ∧ (w.slot k).dirt = true) ?_ fun de => ?_
      · intro v hv o w ha
        exact ⟨addEntry_within there isDir v hv.1 o w ha, addEntry_dirty (hv.1.inUse there) hv.2 ha⟩
      · cases de with
        | none =>
          refine .bind (Q := fun _ => Settled me ((k, n) :: (dir, d) :: held)) (.modify fun w hw => ?_) fun _ => ?_
          · exact ⟨_, hG.discard fresh ⟨positive, top⟩, Within.discard hw.1 here hw.2⟩
          · exact .bind iput_settled fun _ => .bind iput_settled fun _ => .pure fun _ hs => hs
        | some e =>
          refine .each fun w hw => .step rfl ?_
          obtain ⟨⟨B', opens, hw⟩, -⟩ := hw
          obtain ⟨B, base, rfl⟩ := opens.of_add
          obtain ⟨sameTop, sameUsed, -, -⟩ := base.same
          have sound : ((B.add n).setEntry d e n).Sound :=
            (base.sound hG).create (base.live.mpr hd) base.place (sameUsed ▸ fresh) ⟨positive, sameTop ▸ top⟩
          have num := hw.num_eq here
          refine .bind ((putEntry_within there fun _ => num).pre fun x hx => hx ▸ hw) fun _ => ?_
          refine .bind (Q := fun _ => Settled me ((k, n) :: held)) ((iput_settled (n := d)).pre fun x hx => ?_) fun _ =>
            .pure fun x hx => ⟨n, hx⟩
          exact Settled.perm ⟨_, sound, hx⟩ (.swap ..)

/-- The mode of a new file. -/
theorem fileMode_isReg {a b : BitVec 32} : BitVec.setWidth 32 ((a &&& 0o777 &&& b ||| ifreg).truncate 16) &&& ifmt = ifreg := by
  refine BitVec.eq_of_getLsbD_eq fun i hi => ?_
  simp only [BitVec.getLsbD_and, BitVec.getLsbD_or, BitVec.getLsbD_setWidth, BitVec.truncate_eq_setWidth]
  unfold ifreg ifmt
  interval_cases i <;> simp

/-- An inode that is no directory is truncated. -/
theorem truncate_within (hk : (k, n) ∈ held) (plain : G.dir n = false) : Triple (Within me G held) (truncate k) fun _ => Within me G held := by
  refine .each fun s hs => .step rfl (.ite (fun _ => ?_) fun _ => .pure fun u hu => hu ▸ hs)
  have file : (s.slot k).isDir = false := (hs.node hk).2.dir.symm.trans plain
  refine .bind (Q := fun _ => Within me G held) (.modify fun u hu => ?_) fun _ => ?_
  · rw [hu, file]
    exact hs
  · refine .each fun u hu => .step rfl (.pre (touch_within hk (fun _ => ⟨rfl, rfl, rfl, rfl, rfl⟩) fun i old => ?_) fun v hv => hv ▸ hu)
    refine ⟨old.dir, old.links, old.byte, fun dir => ?_⟩
    rw [plain] at dir
    cases dir

theorem openNamei_settled {flag mode : BitVec 32} (hG : G.Sound) :
    Triple (Within me G held) (openNamei t filename flag mode) (AfterOpen me held) := by
  have back {k n : Nat} {r : Int} : Triple (Within me G ((k, n) :: held)) (do iput k; return .error r) (AfterOpen me held) :=
    .bind (iput_settled.pre fun s hs => ⟨G, hG, hs⟩) fun _ => .pure fun _ hs => hs
  refine .each fun s hs => .step rfl (.bind ((dirNamei_within hG).pre fun u hu => hu ▸ hs) fun found => ?_)
  cases found with
  | none => exact .pure fun _ hu => hu
  | some found =>
    obtain ⟨dir, basename⟩ := found
    refine .each fun u hu => ?_
    obtain ⟨d, live, hu⟩ := hu
    refine .ite (fun _ => .ite (fun _ => .pure fun v hv => ⟨d, G, hG, hv ▸ hu⟩) fun _ => back.pre fun v hv => hv ▸ hu) fun _ => ?_
    refine .step findEntry_run ?_
    cases hfound : u.foundEntry dir basename with
    | none =>
      refine .ite (fun _ => back.pre fun v hv => hv ▸ hu) fun _ => ?_
      exact (createEntry_settled hG live fileMode_isReg).pre fun v hv => hv ▸ hu
    | some e =>
      refine .ite (fun _ => back.pre fun v hv => hv ▸ hu) fun _ => .bind (enter_within hG hu live hfound) fun k => ?_
      have here : (k, G.entry d e) ∈ (k, G.entry d e) :: held := List.mem_cons_self
      refine .each fun v hv => .step rfl (.step rfl (.ite (fun _ => back.pre fun w hw => hw ▸ hv) fun allowed => ?_))
      refine .ite (fun cut => ?_) fun _ => .pure fun w hw => ⟨_, G, hG, hw ▸ hv⟩
      -- What is opened to be truncated is opened for writing, and directories are not.
      have plain : G.dir (G.entry d e) = false := by
        rw [(hv.node here).2.dir]
        apply Bool.eq_false_iff.mpr
        intro isDir
        exact (not_or.mp allowed).1 ⟨isDir, (Files.checkedFlag_trunc cut).2⟩
      exact .bind ((truncate_within here plain).pre fun w hw => hw ▸ hv) fun _ => .pure fun w hw => ⟨_, G, hG, hw⟩

theorem isDir_of_isReg {i : CoreInode} (h : i.isReg = true) : i.isDir = false := by
  change (i.mode.setWidth 32 &&& ifmt == ifreg) = true at h
  change (i.mode.setWidth 32 &&& ifmt == ifdir) = false
  rw [beq_iff_eq.mp h]
  decide

theorem sysUnlink_settled (hG : G.Sound) : Triple (Within me G held) (sysUnlink t filename) fun _ => Settled me held := by
  refine .bind (dirNamei_within hG) fun found => ?_
  cases found with
  | none => exact .pure fun _ hs => hs
  | some found =>
    obtain ⟨dir, basename⟩ := found
    refine .each fun s hs => ?_
    obtain ⟨d, live, hs⟩ := hs
    have back {r : Int} : Triple (fun u => u = s) (do iput dir; return r) fun _ => Settled me held :=
      back_settled.pre fun u hu => ⟨G, hG, hu ▸ hs⟩
    refine .ite (fun _ => back) fun _ => .step rfl (.ite (fun _ => back) fun _ => .step findEntry_run ?_)
    cases hfound : s.foundEntry dir basename with
    | none => exact back
    | some e =>
      obtain ⟨inside, named, same⟩ := hs.found List.mem_cons_self live hfound
      refine .step rfl (.step (a := G.entry d e) (congrArg (fun x => some (x, s)) same) ?_)
      refine .bind ((iget_within (hG.named d e live inside named)).pre fun u hu => hu ▸ hs) fun k => .each fun u hu => .step rfl ?_
      have here : (k, G.entry d e) ∈ (k, G.entry d e) :: (dir, d) :: held := List.mem_cons_self
      have there : (dir, d) ∈ (k, G.entry d e) :: (dir, d) :: held := List.mem_cons_of_mem _ List.mem_cons_self
      refine .ite (fun _ => back_two_settled.pre fun v hv => ⟨G, hG, hv ▸ hu⟩) fun regular => ?_
      have plain : G.dir (G.entry d e) = false := (hu.node here).2.dir.trans (isDir_of_isReg (Bool.not_eq_false _ ▸ regular))
      refine .bind ((putEntry_within (x := 0) there fun _ => rfl).pre fun v hv => hv ▸ hu) fun _ => ?_
      refine .bind (Q := fun _ => Settled me ((k, G.entry d e) :: (dir, d) :: held)) (.modify fun v hv => ?_) fun _ => back_two_settled
      obtain ⟨-, portrait⟩ := hv.node here
      have links : G.links (G.entry d e) = (v.slot k).nlinks := portrait.links
      have linked := hG.linked live inside named
      have byte := portrait.byte
      refine ⟨_, hG.unlink live inside named plain, hv.setLinks here ⟨rfl, rfl, rfl, rfl, rfl⟩ ?_ (by omega) rfl rfl⟩
      change (if (v.slot k).nlinks = 0 then 1 else (v.slot k).nlinks) - 1 = G.links (G.entry d e) - 1
      rw [← links, if_neg linked]

/-- Nothing is in an empty directory but its first two entries. -/
theorem emptyDir_entries {b : Bool} (h : emptyDir k s = some (b, s')) (hb : b = true) (low : 2 ≤ j)
    (high : j < (s.slot k).size / direntSize) : (s.dir (s.slot k).num j).inode = 0 := by
  cases Option.some.inj h
  have none := Option.isNone_iff_eq_none.mp (Bool.and_eq_true_iff.mp hb).2
  have unnamed := Files.firstIndex_none none low (by omega)
  simpa using unnamed

theorem sysRmdir_settled (hG : G.Sound) : Triple (Within me G held) (sysRmdir t filename) fun _ => Settled me held := by
  refine .each fun s hs => .step rfl (.ite (fun _ => .pure fun u hu => ⟨G, hG, hu ▸ hs⟩) fun _ => ?_)
  refine .bind ((dirNamei_within hG).pre fun u hu => hu ▸ hs) fun found => ?_
  cases found with
  | none => exact .pure fun _ hs => hs
  | some found =>
    obtain ⟨dir, basename⟩ := found
    refine .each fun s hs => ?_
    obtain ⟨d, live, hs⟩ := hs
    have back {r : Int} : Triple (fun u => u = s) (do iput dir; return r) fun _ => Settled me held :=
      back_settled.pre fun u hu => ⟨G, hG, hu ▸ hs⟩
    refine .ite (fun _ => back) fun _ => .step findEntry_run ?_
    cases hfound : s.foundEntry dir basename with
    | none => exact back
    | some e =>
      obtain ⟨inside, named, same⟩ := hs.found List.mem_cons_self live hfound
      refine .step rfl (.ite (fun _ => back) fun _ => .step rfl (.step (a := G.entry d e) (congrArg (fun x => some (x, s)) same) ?_))
      refine .bind ((iget_within (hG.named d e live inside named)).pre fun u hu => hu ▸ hs) fun k => .each fun u hu => .step rfl ?_
      have here : (k, G.entry d e) ∈ (k, G.entry d e) :: (dir, d) :: held := List.mem_cons_self
      have there : (dir, d) ∈ (k, G.entry d e) :: (dir, d) :: held := List.mem_cons_of_mem _ List.mem_cons_self
      have stop {r : Int} : Triple (fun v => v = u) (do iput k; iput dir; return r) fun _ => Settled me held :=
        back_two_settled.pre fun v hv => ⟨G, hG, hv ▸ hu⟩
      obtain ⟨b, hempty⟩ : ∃ b, emptyDir k u = some (b, u) := ⟨_, rfl⟩
      refine .ite (fun _ => stop) fun other => .ite (fun _ => stop) fun isDir => .step hempty (.ite (fun _ => stop) fun empty => ?_)
      obtain ⟨-, portrait⟩ := hu.node here
      have child : G.Live (G.entry d e) :=
        hG.live_of_named live inside named (portrait.dir.trans (Bool.not_eq_false _ ▸ isDir))
      have apart : G.entry d e ≠ d := by
        intro same
        rw [same] at hu here
        exact other (hu.one_slot here (List.mem_cons_of_mem _ List.mem_cons_self))
      have alone : ∀ j, 2 ≤ j → j < G.len (G.entry d e) → G.entry (G.entry d e) j = 0 := by
        intro j low high
        have size : (u.slot k).size / direntSize = G.len (G.entry d e) := by
          rw [portrait.size child.2.1]
          exact Nat.mul_div_cancel_left _ (by decide)
        have zero := emptyDir_entries hempty (Bool.not_eq_false _ ▸ empty) low (size ▸ high)
        rw [hu.num_eq here, ← hu.entries] at zero
        exact zero
      refine .bind ((putEntry_within (x := 0) there fun _ => rfl).pre fun v hv => hv ▸ hu) fun _ => ?_
      refine .bind (Q := fun _ => Within me ((G.setEntry d e 0).setLinks (G.entry d e) 0) ((k, G.entry d e) :: (dir, d) :: held))
        (.modify fun v hv => hv.setLinks here ⟨rfl, rfl, rfl, rfl, rfl⟩ rfl (by decide) rfl rfl) fun _ => .each fun v hv => .step rfl ?_
      refine .bind (Q := fun _ => Settled me ((k, G.entry d e) :: (dir, d) :: held)) (.modify fun w hw => ?_) fun _ => back_two_settled'
      rw [hw]
      have links : G.links d = (v.slot dir).nlinks := by
        rw [← (hv.node there).2.links]
        exact (Function.update_of_ne apart.symm _ _).symm
      have byte := (hv.node there).2.byte
      have linked := live.2.2
      refine ⟨_, hG.removeDir live inside rfl child apart alone, hv.setLinks there ⟨rfl, rfl, rfl, rfl, rfl⟩ ?_ (by omega) rfl rfl⟩
      change ((v.slot dir).nlinks + 255) % 256 = G.links d - 1
      omega

/-- What `sys_link` comes to is a new entry for a file that has 255 links. -/
def LinksFull (s : Vfs) (t : Nat) (oldname newname : List UInt8) : Prop :=
  ∃ k u dir basename v e w, namei t oldname s = some (some k, u) ∧ (u.slot k).isReg = true ∧ (u.slot k).nlinks = 255 ∧
    dirNamei t newname u = some (some (dir, basename), v) ∧ basename ≠ [] ∧
    RheeKernel.permission (v.task t).cred (v.slot dir).view mayWrite ≠ 0 ∧ v.foundEntry dir basename = none ∧
    addEntry dir basename v = some (some e, w)

theorem sysLink_settled {newname : List UInt8} (hG : G.Sound) (hs : Within me G held s) (room : ¬ s.LinksFull t filename newname) :
    Triple (fun u => u = s) (sysLink t filename newname) fun _ => Settled me held := by
  refine .bind (Q := fun o u => namei t filename s = some (o, u) ∧ AfterName me G held o u)
    (.run fun o u ha => ⟨ha, namei_within hG s hs o u ha⟩) fun old => ?_
  cases old with
  | none => exact .pure fun _ hu => hu.2
  | some oldinode =>
    refine .each fun u hu => .step rfl ?_
    obtain ⟨hold, m, linked, hu⟩ := hu
    refine .ite (fun _ => back_settled.pre fun v hv => ⟨G, hG, hv ▸ hu⟩) fun regular => ?_
    have regular : (u.slot oldinode).isReg = true := Bool.not_eq_false _ ▸ regular
    obtain ⟨used, portrait⟩ := hu.node List.mem_cons_self
    have plain : G.dir m = false := portrait.dir.trans (isDir_of_isReg regular)
    refine .bind (Q := fun o v => dirNamei t newname u = some (o, v) ∧ AfterDir me G ((oldinode, m) :: held) o v)
      (.run fun o v ha => ⟨ha, dirNamei_within hG u hu o v ha⟩) fun found => ?_
    cases found with
    | none => exact back_settled.pre fun _ hv => hv.2
    | some found =>
      obtain ⟨dir, basename⟩ := found
      refine .each fun v hv => .step rfl (.step rfl (.step rfl ?_))
      obtain ⟨hnew, d, live, hv⟩ := hv
      have there : (dir, d) ∈ (dir, d) :: (oldinode, m) :: held := List.mem_cons_self
      have here : (oldinode, m) ∈ (dir, d) :: (oldinode, m) :: held := List.mem_cons_of_mem _ List.mem_cons_self
      have settled {w : Vfs} (hw : w = v) : Settled me ((dir, d) :: (oldinode, m) :: held) w := ⟨G, hG, hw ▸ hv⟩
      refine .ite (fun _ => back_two_settled'.pre fun _ => settled) fun named => ?_
      refine .ite (fun _ => back_two_settled.pre fun _ => settled) fun _ => ?_
      refine .ite (fun _ => back_two_settled.pre fun _ => settled) fun write => .step findEntry_run ?_
      cases hfound : v.foundEntry dir basename with
      | some e => exact back_two_settled.pre fun _ => settled
      | none =>
        refine .bind (Q := fun o w => addEntry dir basename v = some (o, w) ∧ AfterRoom me G ((dir, d) :: (oldinode, m) :: held) d o w)
          (.run fun o w ha => ⟨ha, addEntry_within there live.2.1 v hv o w ha⟩) fun de => ?_
        cases de with
        | none => exact back_two_settled.pre fun w hw => ⟨G, hG, hw.2⟩
        | some e =>
          refine .each fun w hw => ?_
          obtain ⟨hadd, B, opens, hw⟩ := hw
          obtain ⟨-, sameUsed, sameDir, sameLinks⟩ := opens.same
          -- This is where `room` is needed: the entry is there, and the count goes up.
          have few : G.links m < 255 := by
            have full : (u.slot oldinode).nlinks ≠ 255 := fun full =>
              room ⟨oldinode, u, dir, basename, v, e, w, hold, regular, full, hnew, named, write, hfound, hadd⟩
            have byte := portrait.byte
            rw [portrait.links]
            omega
          have sound := (opens.sound hG).link (opens.live.mpr live) opens.place (sameUsed ▸ used) (sameDir ▸ plain)
          refine .bind ((putEntry_within there fun _ => hv.num_eq here).pre fun x hx => hx ▸ hw) fun _ => ?_
          refine .bind (Q := fun _ => Within me (B.setEntry d e m) ((oldinode, m) :: held)) (iput_within ?_) fun _ => ?_
          · change B.links d ≠ 0
            rw [sameLinks]
            exact live.2.2
          · refine .bind (Q := fun _ => Settled me ((oldinode, m) :: held)) (.modify fun x hx => ⟨_, sound, ?_⟩) fun _ => back_settled
            rw [← sameLinks] at few
            exact hx.countUp List.mem_cons_self few

/-- What `sys_mkdir` comes to is a new directory in one that has 255 links. -/
def MakesFull (s : Vfs) (t : Nat) (pathname : List UInt8) : Prop :=
  ∃ dir basename u k v, ¬ ((s.task t).cred.euid ≠ 0 ∧ (s.task t).cred.uid ≠ 0) ∧
    dirNamei t pathname s = some (some (dir, basename), u) ∧ (u.slot dir).nlinks = 255 ∧ basename ≠ [] ∧
    RheeKernel.permission (u.task t).cred (u.slot dir).view mayWrite ≠ 0 ∧ u.foundEntry dir basename = none ∧
    newInode (u.slot dir).dev u = some (some k, v) ∧ v.answers.headD 0 ≠ 0 ∧ v.answers.tail.headD 0 ≠ 0

/-- A directory goes back, and the inode in another slot is as before. -/
theorem iput_slot (hput : Vfs.iput j s = some ((), s')) (hne : k ≠ j) : s'.slot k = s.slot k := by
  obtain ⟨i, back⟩ := iput_some hput
  exact (back.toReplaces.at k).trans (if_neg hne)

/-- A new inode that is to be a directory. -/
structure Budding (me : Nat) (G : LinkGraph) (held : List (Nat × Nat)) (k n : Nat) (s : Vfs) : Prop
    extends Within me (G.add n) ((k, n) :: held) s where
  dirt : (s.slot k).dirt = true
  size : (s.slot k).size = 32

theorem Budding.answered (h : Budding me G held k n s) : Budding me G held k n { s with answers := s.answers.tail } :=
  ⟨answer_within s h.toWithin _ _ answer_run, h.dirt, h.size⟩

theorem Within.budding {i : CoreInode} (h : Within me (G.add n) ((k, n) :: held) s) (ha : Assigned (s.slot k) i)
    (hlinks : i.nlinks = (s.slot k).nlinks) (hmode : i.mode = (s.slot k).mode) (hsize : i.size = 32) : Budding me G held k n (s.setSlot k i) := by
  have self : (s.setSlot k i).slot k = i := setSlot_at.trans (if_pos rfl)
  refine ⟨h.resize List.mem_cons_self ha hlinks hmode, ?_, ?_⟩
  · rw [self]
    exact ha.dirt
  · rw [self]
    exact hsize

/-- The ways of `sys_mkdir` to give up once it has an inode. -/
theorem undo_settled {r : Int} (hG : G.Sound) (hd : G.Live d) (fresh : G.used n = false) (bound : 0 < n ∧ n ≤ G.top) :
    Triple (Budding me G ((dir, d) :: held) k n)
      (do iput dir; edit k fun i => { i with nlinks := (i.nlinks + 255) % 256 }; iput k; return r) fun _ => Settled me held := by
  have other := hd.ne_unused fresh
  refine .bind (Q := fun _ s => Within me (G.add n) ((k, n) :: held) s ∧ (s.slot k).dirt = true) ?_ fun _ => ?_
  · intro s hs a s' ha
    have here : (k, n) ∈ (k, n) :: (dir, d) :: held := List.mem_cons_self
    have linked : (G.add n).links d ≠ 0 := by
      have same : (G.add n).links d = G.links d := Function.update_of_ne other _ _
      rw [same]
      exact hd.2.2
    have apart : k ≠ dir := by
      rintro rfl
      have num := hs.num_eq (List.mem_cons_of_mem _ List.mem_cons_self)
      exact other (num.symm.trans (hs.num_eq here))
    refine ⟨iput_within linked s (hs.perm (.swap ..)) a s' ha, ?_⟩
    rw [iput_slot ha apart]
    exact hs.dirt
  · refine .bind (Q := fun _ => Settled me ((k, n) :: held)) (.modify fun s hs => ?_) fun _ => back_settled
    exact ⟨_, hG.discard fresh bound, hs.1.discard List.mem_cons_self hs.2⟩

/-- A new inode with `.` and `..` becomes a directory. -/
theorem Within.becomeDir {mode : BitVec 16} (h : Within me (((G.add n).setEntry n 0 n).setEntry n 1 d) held s) (hk : (k, n) ∈ held)
    (hsize : (s.slot k).size = 32) (hmode : mode.setWidth 32 &&& ifmt = ifdir) :
    Within me (G.sprout d n) held (s.setSlot k { s.slot k with nlinks := 2, mode := mode, dirt := true }) := by
  refine h.assign hk ⟨rfl, rfl, rfl, rfl, rfl⟩ ⟨?_, ?_, ?_, ?_⟩ rfl rfl rfl ?_
  · have isDir : (G.sprout d n).dir n = true := Function.update_self ..
    rw [isDir]
    exact (beq_iff_eq.mpr hmode).symm
  · exact Function.update_self ..
  · change 2 < 256
    decide
  · intro _
    have len : (G.sprout d n).len n = 2 := Function.update_self ..
    rw [len]
    exact hsize
  · intro x hx
    refine ⟨?_, ?_, Function.update_of_ne hx _ _⟩
    · exact (Function.update_of_ne hx true G.dir).trans (Function.update_of_ne hx false G.dir).symm
    · exact (Function.update_of_ne hx 2 G.links).trans (Function.update_of_ne hx 1 G.links).symm

theorem sysMkdir_settled {mode : BitVec 32} (hG : G.Sound) (hs : Within me G held s) (room : ¬ s.MakesFull t filename) :
    Triple (fun u => u = s) (sysMkdir t filename mode) fun _ => Settled me held := by
  refine .step rfl (.ite (fun _ => .pure fun u hu => ⟨G, hG, hu ▸ hs⟩) fun super => ?_)
  refine .bind (Q := fun o u => dirNamei t filename s = some (o, u) ∧ AfterDir me G held o u)
    (.run fun o u ha => ⟨ha, dirNamei_within hG s hs o u ha⟩) fun found => ?_
  cases found with
  | none => exact .pure fun _ hu => hu.2
  | some found =>
    obtain ⟨dir, basename⟩ := found
    refine .each fun u hu => ?_
    obtain ⟨hdir, d, live, hu⟩ := hu
    have back {r : Int} : Triple (fun v => v = u) (do iput dir; return r) fun _ => Settled me held :=
      back_settled.pre fun v hv => ⟨G, hG, hv ▸ hu⟩
    refine .ite (fun _ => back) fun named => .step rfl (.ite (fun _ => back) fun write => .step findEntry_run ?_)
    cases hfound : u.foundEntry dir basename with
    | some e => exact back
    | none =>
      refine .step rfl ?_
      refine .bind (Q := fun o v => newInode (u.slot dir).dev u = some (o, v) ∧ AfterAdd me G ((dir, d) :: held) o v)
        (.run fun o v ha => ⟨ha, newInode_within u hu o v ha⟩) fun new => ?_
      cases new with
      | none => exact back_settled.pre fun v hv => ⟨G, hG, hv.2⟩
      | some k =>
        refine .each fun v hv => .step rfl ?_
        obtain ⟨hnew, n, fresh, positive, top, hv⟩ := hv
        have other := live.ne_unused fresh
        have here : (k, n) ∈ (k, n) :: (dir, d) :: held := List.mem_cons_self
        have there : (dir, d) ∈ (k, n) :: (dir, d) :: held := List.mem_cons_of_mem _ List.mem_cons_self
        have undo {r : Int} : Triple (Budding me G ((dir, d) :: held) k n)
            (do iput dir; edit k fun i => { i with nlinks := (i.nlinks + 255) % 256 }; iput k; return r) fun _ => Settled me held :=
          undo_settled hG live fresh ⟨positive, top⟩
        have sized : Budding me G ((dir, d) :: held) k n (v.setSlot k { v.slot k with size := 32, dirt := true, mtime := v.now }) :=
          hv.budding ⟨rfl, rfl, rfl, rfl, rfl⟩ rfl rfl rfl
        have sizing : edit k (fun i => { i with size := 32, dirt := true, mtime := v.now }) v =
            some ((), v.setSlot k { v.slot k with size := 32, dirt := true, mtime := v.now }) := rfl
        refine .step sizing (.step answer_run ?_)
        have paid := sized.answered
        refine .ite (fun _ => undo.pre fun x hx => hx ▸ paid) fun block => ?_
        refine .bind (Q := fun _ x => Budding me G ((dir, d) :: held) k n x ∧ x.answers = v.answers.tail) (.modify fun x hx => ?_) fun _ => ?_
        · rw [hx]
          exact ⟨paid.toWithin.budding ⟨rfl, rfl, rfl, rfl, rfl⟩ rfl rfl paid.size, rfl⟩
        refine .each fun x hx => .step answer_run (.ite (fun _ => undo.pre fun y hy => hy ▸ hx.1.answered) fun buffer => ?_)
        -- Nothing has been counted yet, and the call will get as far as counting.
        have few : G.links d < 255 := by
          obtain ⟨-, portrait⟩ := hu.node List.mem_cons_self
          have full : (u.slot dir).nlinks ≠ 255 := fun full =>
            room ⟨dir, basename, u, k, v, super, hdir, full, named, write, hfound, hnew, block, hx.2 ▸ buffer⟩
          have byte := portrait.byte
          rw [portrait.links]
          omega
        -- From here on there is no way back: a directory without room is a panic.
        refine .pre (P := Budding me G ((dir, d) :: held) k n) (.each fun w hw => .step rfl ?_) fun y hy => hy ▸ hx.1.answered
        have num := hw.num_eq here
        refine .bind (Q := fun _ y => Within me ((G.add n).setEntry n 0 n) ((k, n) :: (dir, d) :: held) y ∧ (y.slot k).size = 32)
          (.run fun a y ha => ⟨putEntry_within here (fun _ => num) w hw.toWithin a y ha, ?_⟩) fun _ => ?_
        · cases Option.some.inj ha
          exact hw.size
        refine .bind (Q := fun _ y => Within me (((G.add n).setEntry n 0 n).setEntry n 1 d) ((k, n) :: (dir, d) :: held) y ∧
          (y.slot k).size = 32) (.each fun y hy => .run fun a z ha => ⟨?_, ?_⟩) fun _ => ?_
        · exact putEntry_within here (fun _ => hu.num_eq List.mem_cons_self) y hy.1 a z ha
        · cases Option.some.inj ha
          exact hy.2
        refine .bind (Q := fun _ => Within me (G.sprout d n) ((k, n) :: (dir, d) :: held))
          (.modify fun y hy => hy.1.becomeDir here hy.2 DirFs.dirMode_isDir) fun _ => ?_
        have isDir : (G.sprout d n).dir d = true := (Function.update_of_ne other _ _).trans live.2.1
        refine .bind (addEntry_within there isDir) fun de => ?_
        cases de with
        | none => exact .failure
        | some e =>
          refine .each fun y hy => ?_
          obtain ⟨B', opens, hy⟩ := hy
          obtain ⟨B, base, rfl⟩ := opens.of_sprout other
          obtain ⟨sameTop, sameUsed, -, sameLinks⟩ := base.same
          have sound : (((B.sprout d n).setEntry d e n).setLinks d (B.links d + 1)).Sound :=
            (base.sound hG).makeDir (base.live.mpr live) base.place (sameUsed ▸ fresh) ⟨positive, sameTop ▸ top⟩
          refine .bind ((putEntry_within there fun _ => num).pre fun z hz => hz ▸ hy) fun _ => ?_
          refine .bind (Q := fun _ => Settled me ((k, n) :: (dir, d) :: held)) (.modify fun z hz => ⟨_, sound, ?_⟩) fun _ => back_two_settled'
          have same : ((B.sprout d n).setEntry d e n).links d = B.links d := Function.update_of_ne other _ _
          rw [← sameLinks, ← same] at few
          rw [← same]
          exact hz.countUp there few

end Vfs

end RheeKernel
