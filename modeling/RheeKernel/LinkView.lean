import RheeKernel.CurrentInodes
import RheeKernel.InodeTraces
import RheeKernel.LinkGraph

namespace RheeKernel

def DiskInode.isDir (d : DiskInode) : Bool := d.mode.setWidth 32 &&& ifmt == ifdir

/-- The inode `d` as node `n` of a graph of links. -/
structure Portrays (G : LinkGraph) (n : Nat) (d : DiskInode) : Prop where
  dir : G.dir n = d.isDir
  links : G.links n = d.nlinks
  byte : d.nlinks < 256
  size : G.dir n = true → d.size = direntSize * G.len n

theorem DiskInode.isDir_blank {d : DiskInode} (h : d.mode = 0) : d.isDir = false := by
  unfold DiskInode.isDir
  rw [h]
  decide

theorem Portrays.congr {G G' : LinkGraph} {n : Nat} {d : DiskInode} (h : Portrays G n d) (hdir : G'.dir n = G.dir n) (hlinks : G'.links n = G.links n)
    (hlen : G.dir n = true → G'.len n = G.len n) : Portrays G' n d := by
  refine ⟨hdir.trans h.dir, hlinks.trans h.links, h.byte, ?_⟩
  rw [hdir]
  intro dir
  rw [hlen dir]
  exact h.size dir

namespace Vfs

variable {s s' : Vfs} {k e n nr : Nat} {i : CoreInode}

/-- The inodes and the directories make the graph `G`. -/
structure Mirrors (G : LinkGraph) (s : Vfs) : Prop extends Current (fun n => G.used n = true) (Portrays G) s where
  top : G.top = s.ninodes
  boot : s.imap 0 = true
  imap : ∀ n, G.used n = (s.imap n && decide (0 < n ∧ n ≤ s.ninodes))
  entries : ∀ n i, G.entry n i = (s.dir n i).inode

/-- A slot that is in use before and after holds the same inode. -/
structure Abides (s s' : Vfs) : Prop where
  dev : s'.dev = s.dev
  same : ∀ j, 0 < (s.slot j).count → 0 < (s'.slot j).count → (s'.slot j).dev = (s.slot j).dev ∧ (s'.slot j).num = (s.slot j).num

variable {G G' : LinkGraph} {o : Option Nat} {dev d m x : Nat} {g : NameEntry → NameEntry}

theorem Mirrors.current (h : s.Mirrors G) (hc : s'.Current (fun n => G.used n = true) (Portrays G)) (hninodes : s'.ninodes = s.ninodes)
    (himap : s'.imap = s.imap) (hdir : s'.dir = s.dir) : s'.Mirrors G :=
  ⟨hc, hninodes ▸ h.top, himap ▸ h.boot, by rw [himap, hninodes]; exact h.imap, by rw [hdir]; exact h.entries⟩

/-- What is left of a slot that has been changed keeps its inode if it is in use. -/
theorem Replaces.abides {i : CoreInode} (hr : Replaces k i s s')
    (hi : 0 < (s.slot k).count → 0 < i.count → i.dev = (s.slot k).dev ∧ i.num = (s.slot k).num) : Abides s s' := by
  refine ⟨hr.dev, ?_⟩
  intro j hj hj'
  rw [hr.at] at hj' ⊢
  split at hj'
  next same =>
    subst same
    rw [if_pos rfl]
    exact hi hj hj'
  next other =>
    rw [if_neg other]
    exact ⟨rfl, rfl⟩

theorem Mirrors.iget (h : s.Mirrors G) (hnr : G.used nr = true) (hget : Vfs.iget dev nr s = some (k, s')) :
    s'.Mirrors G ∧ Abides s s' ∧ (s'.slot k).dev = s'.dev ∧ (s'.slot k).num = nr := by
  obtain ⟨hdev, e, he, hdirt, ⟨hne, hk, hkdev, hknum, rfl⟩ | ⟨rfl, rfl, hnone, rfl⟩⟩ := iget_some hget
  · obtain ⟨hlt, hzero⟩ := emptySlot_some he
    have home : (s.slot k).dev = s.dev := (h.home k).resolve_left (hkdev ▸ hdev)
    have hsame : (s.emptied e {}).slot k = s.slot k := Function.update_of_ne hne _ _
    have hself : (s.shared e k).slot k = { s.slot k with count := (s.slot k).count + 1 } := Function.update_self _ _ _
    have hshared := (h.clear hlt).recount (n := (s.slot k).count + 1) hk (hsame ▸ home)
    rw [hsame] at hshared
    refine ⟨h.current hshared rfl rfl rfl, ⟨rfl, ?_⟩, ?_, ?_⟩
    · intro j hj _
      by_cases hjk : j = k
      · rw [hjk, hself]
        exact ⟨rfl, rfl⟩
      · have hje : j ≠ e := by
          rintro rfl
          exact absurd hzero (Nat.ne_of_gt hj)
        have hother : (s.shared e k).slot j = s.slot j := (Function.update_of_ne hjk _ _).trans (Function.update_of_ne hje _ _)
        rw [hother]
        exact ⟨rfl, rfl⟩
    · rw [hself]
      exact home
    · rw [hself]
      exact hknum
  · obtain ⟨hlt, hzero⟩ := emptySlot_some he
    have hself : (s.loaded k s.dev nr).slot k = { s.written k nr with dev := s.dev, num := nr, count := 1 } := Function.update_self _ _ _
    refine ⟨h.current (h.load hlt hnr hnone) rfl rfl rfl, ?_, by rw [hself]; rfl, by rw [hself]⟩
    exact (emptied_replaces hdirt).abides fun hpos => absurd hzero (Nat.ne_of_gt hpos)

/-- A new inode has a number that no other one has. -/
theorem Mirrors.newInode (h : s.Mirrors G) (hnew : Vfs.newInode dev s = some (o, s')) :
    Abides s s' ∧ (o = none ∧ s'.Mirrors G ∨ ∃ k n, o = some k ∧ G.used n = false ∧ 0 < n ∧ n ≤ G.top ∧ s'.Mirrors (G.add n) ∧
      s'.slot k = { count := 1, nlinks := 1, dev := s'.dev, dirt := true, num := n, mtime := s.now }) := by
  obtain ⟨e, he, hdirt, rfl, ⟨rfl, _, rfl⟩ | ⟨n, hn, rfl, rfl⟩⟩ := newInode_some hnew
  · obtain ⟨hlt, hzero⟩ := emptySlot_some he
    refine ⟨(emptied_replaces hdirt).abides fun hpos => absurd hzero (Nat.ne_of_gt hpos), Or.inl ⟨rfl, ?_⟩⟩
    exact h.current (h.clear hlt) rfl rfl rfl
  · obtain ⟨hlt, hzero⟩ := emptySlot_some he
    obtain ⟨-, below, free⟩ := Files.firstIndex_spec hn
    have free : s.imap n = false := by simpa using free
    have positive : 0 < n := by
      apply Nat.pos_of_ne_zero
      rintro rfl
      rw [h.boot] at free
      cases free
    have unused : G.used n = false := by
      rw [h.imap, free]
      rfl
    have top : n ≤ s.ninodes := by omega
    have hself : (s.numbered e s.dev n).slot e = { count := 1, nlinks := 1, dev := s.dev, dirt := true, num := n, mtime := s.now } :=
      Function.update_self _ _ _
    refine ⟨⟨rfl, ?_⟩, Or.inr ⟨e, n, rfl, unused, positive, h.top ▸ top, ?_, hself⟩⟩
    · intro j hj _
      have hje : j ≠ e := by
        rintro rfl
        exact absurd hzero (Nat.ne_of_gt hj)
      have hother : (s.numbered e s.dev n).slot j = s.slot j := Function.update_of_ne hje _ _
      rw [hother]
      exact ⟨rfl, rfl⟩
    · have small : 1 < 256 := by decide
      have fresh : Portrays (G.add n) n { nlinks := 1, mtime := s.now } := by
        refine ⟨(Function.update_self _ _ _).trans (DiskInode.isDir_blank rfl).symm, Function.update_self _ _ _, small, ?_⟩
        intro dir
        have plain : (G.add n).dir n = false := Function.update_self _ _ _
        rw [plain] at dir
        cases dir
      have inserted : (s.emptied e { count := 1, nlinks := 1, dev := s.dev, dirt := true, num := n, mtime := s.now }).Current
          (fun x => (G.add n).used x = true) (Portrays (G.add n)) := by
        refine h.insert hlt rfl rfl rfl (by simp [unused]) ⟨Function.update_self _ _ _, fresh⟩ ?_
        intro x d hx
        have used : (G.add n).used x = G.used x := Function.update_of_ne hx _ _
        refine ⟨by rw [used], ?_⟩
        intro old
        exact old.congr (Function.update_of_ne hx _ _) (Function.update_of_ne hx _ _) fun _ => rfl
      refine ⟨inserted.unchanged rfl rfl rfl, h.top, ?_, ?_, h.entries⟩
      · exact (Function.update_of_ne (Nat.ne_of_lt positive) _ _).trans h.boot
      · intro x
        change Function.update G.used n true x = (Function.update s.imap n true x && decide (0 < x ∧ x ≤ s.ninodes))
        by_cases same : x = n
        · rw [same, Function.update_self, Function.update_self]
          simp [positive, top]
        · rw [Function.update_of_ne same, Function.update_of_ne same]
          exact h.imap x

/-- The inode in slot `k` without its blocks. -/
def truncated (s : Vfs) (k : Nat) : Vfs :=
  { s.setSlot k { s.slot k with zone := fun _ => 0, size := 0, dirt := true, mtime := s.now } with
    dir := if (s.slot k).isDir then Function.update s.dir (s.slot k).num fun _ => ⟨0, fun _ => 0⟩ else s.dir }

theorem truncate_eq : truncate k s = some ((), if (s.slot k).isReg || (s.slot k).isDir then s.truncated k else s) := by
  change (if (s.slot k).isReg || (s.slot k).isDir then (do
    modify fun t => { t with dir := if (s.slot k).isDir then Function.update t.dir (s.slot k).num fun _ => ⟨0, fun _ => 0⟩ else t.dir }
    let t ← get
    edit k fun i => { i with zone := fun _ => 0, size := 0, dirt := true, mtime := t.now } : Call Unit) else pure ()) s = _
  split
  next => rfl
  next => rfl

/-- An inode is given up. -/
theorem freeInode_some {y : Unit × Vfs} (hdev : (s.slot k).dev ≠ 0) (hfree : freeInode k s = some y) :
    y.2 = { s.setSlot k {} with imap := Function.update s.imap (s.slot k).num false } := by
  change (if (s.slot k).dev = 0 then _ else if _ then (failure : Call Unit) else _) s = _ at hfree
  rw [if_neg hdev] at hfree
  split at hfree
  next => cases hfree
  next =>
    cases Option.some.inj hfree
    rfl

/-- The number of an inode without links is given up, and its slot is emptied. -/
theorem Mirrors.free (h : s.Mirrors G) (hk : k < nrInode) (hdev : (s.slot k).dev ≠ 0) (hlinks : (s.slot k).nlinks = 0)
    (hr : Replaces k {} s s') (hdisk : s'.disk = s.disk) (hninodes : s'.ninodes = s.ninodes)
    (himap : s'.imap = Function.update s.imap (s.slot k).num false) (hdir : ∀ x, x ≠ (s.slot k).num → s'.dir x = s.dir x) :
    ∃ G', G.Released G' ∧ s'.Mirrors G' := by
  obtain ⟨used, portrait⟩ := h.table k hdev
  have positive : 0 < (s.slot k).num := by
    rw [h.imap, Bool.and_eq_true, decide_eq_true_iff] at used
    exact used.2.1
  have hself : s'.slot k = {} := (hr.at k).trans (if_pos rfl)
  have hother : ∀ j, j ≠ k → s'.slot j = s.slot j := fun j hj => (hr.at j).trans (if_neg hj)
  have same {x : Nat} (hx : Function.update G.used (s.slot k).num false x = true) : x ≠ (s.slot k).num ∧ G.used x = true := by
    by_cases here : x = (s.slot k).num
    · rw [here, Function.update_self] at hx
      cases hx
    · rw [Function.update_of_ne here] at hx
      exact ⟨here, hx⟩
  refine ⟨{ G with used := Function.update G.used (s.slot k).num false, entry := fun x i => (s'.dir x i).inode }, ?_, ?_⟩
  · refine ⟨rfl, fun x hx => (same hx).2, ?_, fun _ _ => rfl, fun _ _ => rfl, fun _ _ _ => rfl, ?_⟩
    · intro x old lost
      by_cases here : x = (s.slot k).num
      · rw [here]
        exact portrait.links.trans hlinks
      · change Function.update G.used (s.slot k).num false x = false at lost
        rw [Function.update_of_ne here, old] at lost
        cases lost
    · intro x i hx _ _
      dsimp only
      rw [hdir x (same hx).1, h.entries]
  · refine ⟨⟨h.toTable.replace hk hr .empty, hr.unique h.unique fun hne => absurd rfl hne, ?_, ?_⟩, h.top.trans hninodes.symm, ?_, ?_, fun _ _ => rfl⟩
    · intro j hj
      have hjk : j ≠ k := by
        rintro rfl
        rw [hself] at hj
        exact hj rfl
      rw [hother j hjk] at hj ⊢
      have apart : (s.slot j).num ≠ (s.slot k).num := by
        intro hnum
        exact hjk (h.unique j k hj (((h.home j).resolve_left hj).trans ((h.home k).resolve_left hdev).symm) hnum)
      obtain ⟨old, shows⟩ := h.table j hj
      exact ⟨(Function.update_of_ne apart _ _).trans old, shows.congr rfl rfl fun _ => rfl⟩
    · intro x hx hclean
      obtain ⟨here, old⟩ := same hx
      rw [hdisk]
      refine (h.disk x old fun j hjdev hjnum => ?_).congr rfl rfl fun _ => rfl
      have hjk : j ≠ k := by
        rintro rfl
        exact here hjnum.symm
      have clean := hclean j
      rw [hother j hjk, hr.dev] at clean
      exact clean hjdev hjnum
    · rw [himap, Function.update_of_ne (Nat.ne_of_lt positive)]
      exact h.boot
    · intro x
      dsimp only
      rw [himap, hninodes]
      by_cases here : x = (s.slot k).num
      · rw [here, Function.update_self, Function.update_self]
        rfl
      · rw [Function.update_of_ne here, Function.update_of_ne here]
        exact h.imap x

/-- A pipe is counted down. -/
theorem Mirrors.drained (h : s.Mirrors G) (hk : k < nrInode) (hpipe : (s.slot k).pipe = true) (hi : i.dev = 0) (hdirt : i.dirt = false)
    (hcount : 0 < i.count → i.pipe = true) : (s.setSlot k i).Mirrors G := by
  have clean : (s.slot k).dirt ≠ true := fun dirt => h.mounted ((h.dirty k dirt).symm.trans (h.pipes k hpipe))
  have fits : s.Fits i := by
    refine ⟨.inl hi, fun _ => hi, ?_, ?_⟩
    · intro hpos plain
      rw [hcount hpos] at plain
      cases plain
    · intro dirt
      rw [hdirt] at dirt
      cases dirt
  refine h.current (h.replace hk setSlot_replaces fits (fun hne => absurd hi hne) (fun hne => absurd hi hne) (.inl ?_)) rfl rfl rfl
  exact (written_clean clean).symm

theorem Mirrors.iput (h : s.Mirrors G) (hput : Vfs.iput k s = some ((), s')) :
    Abides s s' ∧ ∃ G', G.Released G' ∧ s'.Mirrors G' ∧ ((s.slot k).dev ≠ 0 → (s.slot k).nlinks ≠ 0 → G' = G) := by
  constructor
  · obtain ⟨i, back⟩ := iput_some hput
    refine back.toReplaces.abides fun _ hpos => ?_
    rcases back.left with rfl | ⟨_, rfl⟩ | rfl | ⟨_, rfl, _⟩
    · exact ⟨rfl, rfl⟩
    · exact absurd hpos (Nat.lt_irrefl 0)
    · exact absurd hpos (Nat.lt_irrefl 0)
    · exact ⟨rfl, rfl⟩
  · have still {t : Vfs} (ht : t.Mirrors G) :
        ∃ G', G.Released G' ∧ t.Mirrors G' ∧ ((s.slot k).dev ≠ 0 → (s.slot k).nlinks ≠ 0 → G' = G) :=
      ⟨G, .refl, ht, fun _ _ => rfl⟩
    rw [iput_eq] at hput
    split at hput
    next => cases hput
    next zero =>
      have bound : k < nrInode := h.toTable.bound (Nat.pos_of_ne_zero zero)
      split at hput
      next pipe =>
        have none := h.pipes k pipe
        have clean : (s.slot k).dirt = false := by
          by_contra dirt
          exact h.mounted ((h.dirty k (Bool.not_eq_false _ ▸ dirt)).symm.trans none)
        cases Option.some.inj hput
        apply still
        split
        next => exact h.drained bound pipe none rfl fun hpos => absurd hpos (Nat.lt_irrefl 0)
        next => exact h.drained bound pipe none clean fun _ => pipe
      next plain =>
        have named : (s.slot k).dev = s.dev := h.named k ⟨Nat.pos_of_ne_zero zero, Bool.eq_false_iff.mpr plain⟩
        have real : (s.slot k).dev ≠ 0 := named ▸ h.mounted
        have release : (s.released k).Mirrors G := h.current (h.recount bound named) rfl rfl rfl
        split at hput
        next =>
          cases Option.some.inj hput
          exact still release
        next =>
          split at hput
          next last =>
            rw [truncate_eq, Option.bind_some] at hput
            have free : ∃ G', G.Released G' ∧ s'.Mirrors G' := by
              split at hput
              next =>
                have self : (s.truncated k).slot k = { s.slot k with zone := fun _ => 0, size := 0, dirt := true, mtime := s.now } :=
                  Function.update_self _ _ _
                have done := freeInode_some (by rw [self]; exact real) hput
                rw [self] at done
                dsimp only at done
                subst done
                refine h.free bound real last ⟨rfl, ?_, .inl rfl⟩ rfl rfl rfl ?_
                · exact Function.update_idem ..
                · intro x hx
                  change (if (s.slot k).isDir then Function.update s.dir (s.slot k).num fun _ => ⟨0, fun _ => 0⟩ else s.dir) x = s.dir x
                  split
                  next => exact Function.update_of_ne hx _ _
                  next => rfl
              next =>
                have done := freeInode_some real hput
                dsimp only at done
                subst done
                exact h.free bound real last ⟨rfl, rfl, .inl rfl⟩ rfl rfl rfl fun _ _ => rfl
            obtain ⟨G', released, mirrors⟩ := free
            exact ⟨G', released, mirrors, fun _ linked => absurd last linked⟩
          next =>
            split at hput
            next dirt =>
              cases Option.some.inj hput
              exact still (h.current (h.clean bound dirt) rfl rfl rfl)
            next =>
              cases Option.some.inj hput
              exact still release

/-- Fields of an inode in use are assigned together with `i_dirt`. -/
theorem Mirrors.assign (h : s.Mirrors G) (hu : s.InUse k) (ha : Assigned (s.slot k) i)
    (portrait : Portrays G' (s.slot k).num i.toDiskInode) (htop : G'.top = G.top) (hused : G'.used = G.used) (hentry : G'.entry = G.entry)
    (hothers : ∀ x, x ≠ (s.slot k).num → G'.dir x = G.dir x ∧ G'.links x = G.links x ∧ G'.len x = G.len x) : (s.setSlot k i).Mirrors G' := by
  have hdev := h.named k hu
  have bound := h.toTable.bound hu.1
  have used := (h.table k (hdev ▸ h.mounted)).1
  refine ⟨h.toCurrent.assign bound hdev ha.dev ha.num ha.pipe ha.dirt ⟨hused ▸ used, portrait⟩ ?_, htop.trans h.top, h.boot, ?_, ?_⟩
  · intro x d hx
    obtain ⟨dir, links, len⟩ := hothers x hx
    exact ⟨by rw [hused], fun old => old.congr dir links fun _ => len⟩
  · rw [hused]
    exact h.imap
  · rw [hentry]
    exact h.entries

/-- An assignment of `i_mtime` alone. -/
theorem Mirrors.stamp (h : s.Mirrors G) (hu : s.InUse k) : (s.setSlot k { s.slot k with mtime := s.now }).Mirrors G := by
  have hdev := h.named k hu
  have hfits : s.Fits { s.slot k with mtime := s.now } := ⟨h.home k, h.pipes k, fun _ _ => hdev, h.dirty k⟩
  have hnode : (s.slot k).dev ≠ 0 → G.used (s.slot k).num = true ∧ Portrays G (s.slot k).num { (s.slot k).toDiskInode with mtime := s.now } := by
    intro hne
    obtain ⟨used, portrait⟩ := h.table k hne
    exact ⟨used, portrait.dir, portrait.links, portrait.byte, portrait.size⟩
  refine h.current (h.replace (h.toTable.bound hu.1) setSlot_replaces hfits (h.stays rfl rfl) hnode ?_) rfl rfl rfl
  by_cases hdirt : (s.slot k).dirt = true
  · exact .inr ⟨rfl, rfl, rfl, hdirt⟩
  · exact .inl (written_clean hdirt).symm

/-- Entry `j` of directory `d` is written. -/
theorem Mirrors.putEntry {j : Nat} {e : NameEntry} (h : s.Mirrors G) :
    Mirrors (G.setEntry d j e.inode) { s with dir := Function.update s.dir d (Function.update (s.dir d) j e) } := by
  have hcurrent : s.Current (fun n => (G.setEntry d j e.inode).used n = true) (Portrays (G.setEntry d j e.inode)) := by
    refine ⟨h.toTable, h.unique, ?_, ?_⟩
    · intro x hx
      obtain ⟨used, portrait⟩ := h.table x hx
      exact ⟨used, portrait.congr rfl rfl fun _ => rfl⟩
    · intro x hx clean
      exact (h.disk x hx clean).congr rfl rfl fun _ => rfl
  refine ⟨hcurrent.unchanged rfl rfl rfl, h.top, h.boot, h.imap, ?_⟩
  intro x y
  rw [LinkGraph.setEntry_entry, h.entries]
  by_cases same : x = d
  · subst same
    dsimp only
    rw [Function.update_self, Function.update_apply]
    split
    next both => rw [if_pos both.2]
    next other => rw [if_neg fun here => other ⟨rfl, here⟩]
  · dsimp only
    rw [Function.update_of_ne same, if_neg fun both => same both.1]

end Vfs

end RheeKernel
