import RheeKernel.InodeAccounts
import RheeKernel.CallTraces
import RheeKernel.LinkCalls

open Finset

namespace RheeKernel

namespace Vfs

open Triples

variable {G G' : LinkGraph} {held : List (Nat × Nat)} {s s' s₀ s₁ : Vfs} {me t k j n d fd : Nat} {filename : List UInt8} {e : VfsEvent}
  {call : Call Int}

/-- Inode `n` as the table has it, or else the disk. -/
def current (s : Vfs) (n : Nat) : DiskInode :=
  match s.findSlot s.dev n with
  | some k => (s.slot k).toDiskInode
  | none => s.disk n

def Allocated (s : Vfs) (n : Nat) : Prop := 0 < n ∧ n ≤ s.ninodes ∧ s.imap n = true

instance allocatedDecidable : Decidable (s.Allocated n) := inferInstanceAs (Decidable (_ ∧ _))

/-- An allocated directory that has links itself. -/
def LinkedDir (s : Vfs) (d : Nat) : Prop := s.Allocated d ∧ (s.current d).isDir = true ∧ (s.current d).nlinks ≠ 0

instance linkedDirDecidable : Decidable (s.LinkedDir d) := inferInstanceAs (Decidable (_ ∧ _))

/-- The number of entries, `.` and `..` among them, that carry the number `n` and are in a linked directory. -/
def entriesOf (s : Vfs) (n : Nat) : Nat :=
  ∑ d ∈ range (s.ninodes + 1), if s.LinkedDir d then
    ∑ e ∈ range ((s.current d).size / direntSize), if (s.dir d e).inode = n then 1 else 0 else 0

def linkGraph (s : Vfs) : LinkGraph where
  top := s.ninodes
  used := fun n => s.Allocated n
  dir := fun n => (s.current n).isDir
  links := fun n => (s.current n).nlinks
  len := fun n => (s.current n).size / direntSize
  entry := fun d e => (s.dir d e).inode

theorem linkGraph_live : s.linkGraph.Live d ↔ s.LinkedDir d := by
  unfold LinkGraph.Live LinkedDir linkGraph
  rw [decide_eq_true_iff]

theorem linkGraph_refs : s.linkGraph.refs n = s.entriesOf n := by
  apply Finset.sum_congr rfl
  intro d _
  exact if_congr linkGraph_live rfl rfl

theorem Mirrors.current_portrays (h : s.Mirrors G) (hn : G.used n = true) : Portrays G n (s.current n) := by
  unfold Vfs.current
  split
  next k found =>
    obtain ⟨-, dev, num⟩ := findSlot_some found
    have shown := (h.table k (dev.symm ▸ h.mounted)).2
    rw [num] at shown
    exact shown
  next none =>
    apply h.disk n hn
    intro k dev num
    by_cases below : k < nrInode
    · exact absurd ⟨dev, num⟩ (findSlot_none none below)
    · rw [h.far k (Nat.not_lt.mp below)]

theorem Mirrors.used_eq (h : s.Mirrors G) (n : Nat) : s.linkGraph.used n = G.used n := by
  rw [h.imap]
  change decide (0 < n ∧ n ≤ s.ninodes ∧ s.imap n = true) = _
  cases s.imap n with
  | true => simp
  | false => simp

theorem Mirrors.linkGraph_released (h : s.Mirrors G) : G.Released s.linkGraph := by
  have used := h.used_eq
  refine ⟨h.top.symm, fun x hx => (used x).symm.trans hx, ?_, ?_, ?_, ?_, fun x i _ _ _ => (h.entries x i).symm⟩
  · intro x hx lost
    rw [used, hx] at lost
    cases lost
  · intro x hx
    exact (h.current_portrays ((used x).symm.trans hx)).dir.symm
  · intro x hx
    exact (h.current_portrays ((used x).symm.trans hx)).links.symm
  · intro x hx dir
    change (s.current x).size / direntSize = G.len x
    rw [(h.current_portrays ((used x).symm.trans hx)).size dir]
    exact Nat.mul_div_cancel_left _ (by decide)

/-- The graph may be taken to be the one that is read off the state. -/
theorem Mirrors.linkGraph (h : s.Mirrors G) : s.Mirrors s.linkGraph := by
  have same := h.linkGraph_released
  have shows {n : Nat} {d : DiskInode} (used : G.used n = true) (old : Portrays G n d) : Portrays s.linkGraph n d := by
    have used' := (h.used_eq n).trans used
    exact old.congr (same.dir n used') (same.links n used') (same.len n used')
  refine ⟨⟨h.toTable, h.unique, ?_, ?_⟩, rfl, h.boot, ?_, fun _ _ => rfl⟩
  · intro k real
    obtain ⟨used, old⟩ := h.table k real
    exact ⟨(h.used_eq _).trans used, shows used old⟩
  · intro n known clean
    have used : G.used n = true := (h.used_eq n).symm.trans known
    exact shows used (h.disk n used clean)
  · intro n
    rw [h.used_eq]
    exact h.imap n

/-- The file system is consistent: the link counts and the directories are right, and the table agrees with the disk. -/
structure Consistent (s : Vfs) : Prop where
  balanced : s.Balanced []
  mirrors : s.Mirrors s.linkGraph
  sound : s.linkGraph.Sound

/-- The link counts are right, and the table agrees with the disk. -/
def Lawful (s : Vfs) : Prop := ∃ G : LinkGraph, G.Sound ∧ s.Mirrors G

theorem Lawful.consistent (h : s.Lawful) (hb : s.Balanced []) : s.Consistent := by
  obtain ⟨G, sound, mirrors⟩ := h
  exact ⟨hb, mirrors.linkGraph, mirrors.linkGraph_released.sound sound⟩

theorem Settled.lawful (h : Settled me held s) : s.Lawful := by
  obtain ⟨G, sound, within⟩ := h
  exact ⟨G, sound, within.toMirrors⟩

theorem Mirrors.beside (h : s.Mirrors G) (hs : SameTable s s') (hdir : s'.dir = s.dir) : s'.Mirrors G :=
  h.current (h.toCurrent.unchanged hs.dev hs.slot hs.disk) hs.ninodes hs.imap hdir

theorem Lawful.beside (h : s.Lawful) (hs : SameTable s s') (hdir : s'.dir = s.dir) : s'.Lawful := by
  obtain ⟨G, sound, mirrors⟩ := h
  exact ⟨G, sound, mirrors.beside hs hdir⟩

theorem iput_lawful : Triple Lawful (iput k) fun _ => Lawful := by
  intro s hs a s' ha
  obtain ⟨G, sound, mirrors⟩ := hs
  obtain ⟨-, G', released, after, -⟩ := mirrors.iput ha
  exact ⟨G', released.sound sound, after⟩

theorem claimTty_lawful : Triple Lawful (claimTty t k) fun _ => Lawful := by
  refine .each fun s hs => .step rfl (.step rfl (.ite (fun _ => .modify fun u hu => ?_) fun _ => .pure fun u hu => hu ▸ hs))
  rw [hu]
  exact hs.beside ⟨rfl, rfl, rfl, rfl, rfl, rfl⟩ rfl

theorem sysOpen_lawful {flag mode : BitVec 32} (hG : G.Sound) (hs : Within me G [] s) :
    Triple (fun u => u = s) (sysOpen t filename flag mode) fun _ => Lawful := by
  refine .step rfl ?_
  split
  next => exact .pure fun u hu => ⟨G, hG, hu ▸ hs.toMirrors⟩
  next fd _ =>
    have cleared : Within me G [] (s.withFiles (s.files.setCloseOnExec t fd false)) :=
      ⟨hs.toMirrors.beside ⟨rfl, rfl, rfl, rfl, rfl, rfl⟩ rfl, hs.owes.bits rfl rfl, hs.nums⟩
    have clearing : (modify fun s => s.withFiles (s.files.setCloseOnExec t fd false) : Call PUnit) s =
        some (⟨⟩, s.withFiles (s.files.setCloseOnExec t fd false)) := rfl
    refine .step clearing ?_
    split
    next => exact .pure fun u hu => ⟨G, hG, hu ▸ cleared.toMirrors⟩
    next j _ =>
      refine .step rfl (.bind ((openNamei_settled hG).pre fun u hu => hu ▸ cleared) fun opened => ?_)
      cases opened with
      | error e => exact .pure fun u hu => hu.lawful
      | ok k =>
        refine .each fun u hu => .step rfl ?_
        obtain ⟨n, hu⟩ := hu
        refine .ite (fun _ => .bind (iput_lawful.pre fun v hv => hv ▸ hu.lawful) fun _ => .pure fun _ hv => hv) fun _ => ?_
        refine .bind (claimTty_lawful.pre fun v hv => hv ▸ hu.lawful) fun _ => .bind (Q := fun _ => Lawful) (.modify fun v hv => ?_) fun _ =>
          .pure fun _ hv => hv
        exact hv.beside ⟨rfl, rfl, rfl, rfl, rfl, rfl⟩ rfl

theorem sysClose_lawful : Triple Lawful (sysClose t fd) fun _ => Lawful := by
  refine .each fun s hs => .step rfl ?_
  split
  next => exact .failure
  next f r _ =>
    refine .bind (Q := fun _ => Lawful) (.modify fun u hu => ?_) fun _ => ?_
    · rw [hu]
      exact hs.beside ⟨rfl, rfl, rfl, rfl, rfl, rfl⟩ rfl
    · split
      next => exact .pure fun _ hu => hu
      next j _ => exact .ite (fun _ => .bind iput_lawful fun _ => .pure fun _ hu => hu) fun _ => .pure fun _ hu => hu

/-- `sys_open`, `sys_close`, `sys_mkdir`, `sys_rmdir`, `sys_unlink` and `sys_link`, while time goes on and the disk answers. -/
def linkCall : VfsEvent → Bool
  | .sysOpen .. | .sysClose .. | .sysMkdir .. | .sysRmdir .. | .sysUnlink .. | .sysLink .. | .world .. => true
  | _ => false

/-- The call counts a link count up that is 255 already. -/
def CountsOver (s : Vfs) : VfsEvent → Prop
  | .sysMkdir t pathname _ => s.MakesFull t pathname
  | .sysLink t oldname newname => s.LinksFull t oldname newname
  | _ => False

/-- What the process in a call does. -/
theorem vfsStep_code (hcode : code e = some (t, call)) (hs : vfsStep s e = some s') :
    (s.task t).live = true ∧ ∃ r, call s = some (r, s') := by
  unfold vfsStep at hs
  split at hs
  next => cases hcode
  next => cases hcode
  next =>
    rw [hcode, Option.bind_some] at hs
    dsimp only at hs
    split at hs
    next ht =>
      obtain ⟨⟨r, u⟩, hr, rfl⟩ := Option.map_eq_some_iff.mp hs
      exact ⟨ht.2, r, hr⟩
    next => cases hs

theorem call_lawful (hcode : code e = some (t, call)) (hcall : linkCall e = true) (hroom : ¬ s.CountsOver e) (hG : G.Sound)
    (hs : Within t G [] s) :
    Triple (fun u => u = s) call fun _ => Lawful := by
  have settled {c : Call Int} (h : Triple (fun u => u = s) c fun _ => Settled t []) : Triple (fun u => u = s) c fun _ => Lawful :=
    h.post fun _ _ hu => hu.lawful
  cases e with
  | sysOpen => cases Option.some.inj hcode; exact sysOpen_lawful hG hs
  | sysClose => cases Option.some.inj hcode; exact sysClose_lawful.pre fun u hu => ⟨G, hG, hu ▸ hs.toMirrors⟩
  | sysMkdir => cases Option.some.inj hcode; exact settled (sysMkdir_settled hG hs hroom)
  | sysRmdir => cases Option.some.inj hcode; exact settled ((sysRmdir_settled hG).pre fun u hu => hu ▸ hs)
  | sysUnlink => cases Option.some.inj hcode; exact settled ((sysUnlink_settled hG).pre fun u hu => hu ▸ hs)
  | sysLink => cases Option.some.inj hcode; exact settled (sysLink_settled hG hs hroom)
  | world => cases hcode
  | _ => cases hcall

theorem Consistent.step (h : s.Consistent) (hcall : linkCall e = true) (hroom : ¬ s.CountsOver e) (hs : vfsStep s e = some s') : s'.Consistent := by
  refine Lawful.consistent ?_ (h.balanced.step hs)
  cases hcode : code e with
  | some x =>
    obtain ⟨t, call⟩ := x
    obtain ⟨live, r, hr⟩ := vfsStep_code hcode hs
    exact call_lawful hcode hcall hroom h.sound ⟨h.mirrors, ⟨h.balanced, live⟩, fun x hx => nomatch hx⟩ s rfl r s' hr
  | none =>
    cases e with
    | world now answers =>
      cases Option.some.inj hs
      exact ⟨_, h.sound, h.mirrors.beside ⟨rfl, rfl, rfl, rfl, rfl, rfl⟩ rfl⟩
    | fork => cases hcall
    | _ => cases hcode

theorem mountRoot_mirrors (root : G.used 1 = true) : Triple (Mirrors G) (mountRoot t) fun _ => Mirrors G := by
  refine .bind (Q := fun _ => Mirrors G) (.modify fun s hs => hs.beside ⟨rfl, rfl, rfl, rfl, rfl, rfl⟩ rfl) fun _ => ?_
  refine .each fun s hs => .step rfl ?_
  refine .bind (Q := fun k u => u.Mirrors G ∧ (u.slot k).dev = u.dev) (.run fun k u ha => ?_) fun k => ?_
  · obtain ⟨mirrors, -, dev, -⟩ := hs.iget root ha
    exact ⟨mirrors, dev⟩
  · refine .bind (Q := fun _ => Mirrors G) (.modify fun u hu => ?_) fun _ => ?_
    · have below : k < nrInode := by
        by_contra far
        have empty := hu.2
        rw [hu.1.far k (Nat.not_lt.mp far)] at empty
        exact hu.1.mounted empty.symm
      exact hu.1.current (hu.1.recount below hu.2) rfl rfl rfl
    · refine .bind (Q := fun _ => Mirrors G) (.modify fun u hu => hu.beside ⟨rfl, rfl, rfl, rfl, rfl, rfl⟩ rfl) fun _ => .modify fun u hu => ?_
      exact hu.beside ⟨rfl, rfl, rfl, rfl, rfl, rfl⟩ rfl

/-- What `mount_root` finds on a disk that is in order is consistent. -/
theorem Booted.consistent (h : s₀.Booted t) (ht : t < nrTasks) (hmount : mountRoot t s₀ = some ((), s₁)) (hG : G.Sound)
    (htop : G.top = s₀.ninodes) (boot : s₀.imap 0 = true) (himap : ∀ n, G.used n = (s₀.imap n && decide (0 < n ∧ n ≤ s₀.ninodes)))
    (entries : ∀ n i, G.entry n i = (s₀.dir n i).inode) (shows : ∀ n, G.used n = true → Portrays G n (s₀.disk n)) (root : G.used 1 = true) :
    s₁.Consistent := by
  have mirrors : s₀.Mirrors G := by
    refine ⟨⟨h.table hmount, ?_, ?_, fun n hn _ => shows n hn⟩, htop, boot, himap, entries⟩
    · intro j k real
      rw [h.slot] at real
      exact absurd rfl real
    · intro k real
      rw [h.slot] at real
      exact absurd rfl real
  exact Lawful.consistent ⟨G, hG, mountRoot_mirrors root s₀ mirrors () s₁ hmount⟩ (h.balanced ht hmount .start)

/-- What is linked once more, or gets one more directory, has less than 255 links. -/
def roomFor (s : Vfs) : VfsEvent → Bool
  | .sysMkdir t pathname _ => (dirNamei t pathname s).all fun x => x.1.all fun y => (x.2.slot y.1).nlinks != 255
  | .sysLink t oldname _ => (namei t oldname s).all fun x => x.1.all fun k => (x.2.slot k).nlinks != 255
  | _ => true

theorem not_countsOver (h : s.roomFor e = true) : ¬ s.CountsOver e := by
  cases e with
  | sysMkdir t pathname mode =>
    rintro ⟨dir, basename, u, -, -, -, found, full, -⟩
    unfold roomFor at h
    dsimp only at h
    rw [found, Option.all_some, Option.all_some, full] at h
    cases h
  | sysLink t oldname newname =>
    rintro ⟨k, u, -, -, -, -, -, found, -, full, -⟩
    unfold roomFor at h
    dsimp only at h
    rw [found, Option.all_some, Option.all_some, full] at h
    cases h
  | _ => exact id

end Vfs

/-- A root directory with `m` names of one file. -/
def namedGraph (m : Nat) : LinkGraph where
  top := 8
  used := fun n => n = 1 ∨ n = 2
  dir := fun n => n = 1
  links := fun n => if n = 1 then 2 else if n = 2 then m else 0
  len := fun n => if n = 1 then m + 2 else 0
  entry := fun _ i => if i < 2 then 1 else 2

theorem namedGraph_live {m d : Nat} : (namedGraph m).Live d ↔ d = 1 := by
  constructor
  · rintro ⟨-, dir, -⟩
    exact of_decide_eq_true dir
  · rintro rfl
    exact ⟨rfl, rfl, Nat.succ_ne_zero 1⟩

theorem namedGraph_refs {m n : Nat} : (namedGraph m).refs n = m * LinkGraph.hit n 2 + LinkGraph.hit n 1 + LinkGraph.hit n 1 := by
  have own : (namedGraph m).names 1 n = m * LinkGraph.hit n 2 + LinkGraph.hit n 1 + LinkGraph.hit n 1 := by
    rw [LinkGraph.names_live (namedGraph_live.mpr rfl)]
    change ∑ i ∈ range (m + 2), LinkGraph.hit n (if i < 2 then 1 else 2) = _
    have rest : ∑ i ∈ range m, LinkGraph.hit n (if i + 1 + 1 < 2 then 1 else 2) = m * LinkGraph.hit n 2 := by
      rw [sum_congr rfl fun i _ => congrArg (LinkGraph.hit n) (if_neg (by omega))]
      rw [sum_const, card_range, Nat.nsmul_eq_mul]
    rw [sum_range_succ', sum_range_succ', rest]
    rfl
  unfold LinkGraph.refs
  rw [sum_eq_single 1, own]
  · intro d _ other
    exact LinkGraph.names_dead fun live => other (namedGraph_live.mp live)
  · intro outside
    exact absurd (mem_range.mpr (by decide : 1 < 9)) outside

theorem namedGraph_sound (m : Nat) : (namedGraph m).Sound := by
  have entry (d i : Nat) : (namedGraph m).entry d i = if i < 2 then 1 else 2 := rfl
  have file {d i : Nat} (high : 2 ≤ i) : (namedGraph m).dir ((namedGraph m).entry d i) = false := by
    rw [entry, if_neg (by omega)]
    rfl
  constructor
  case toTree =>
    constructor
    case bound =>
      intro n used
      change 0 < n ∧ n ≤ 8
      rcases of_decide_eq_true used with rfl | rfl
      · decide
      · decide
    case named =>
      intro d i _ _ _
      rw [entry]
      split
      next => rfl
      next => rfl
    case long =>
      intro d live
      rw [namedGraph_live.mp live]
      exact Nat.le_add_left 2 m
    case self =>
      intro d live
      exact (namedGraph_live.mp live).symm
    case parent =>
      intro d _
      exact namedGraph_live.mpr rfl
    case up =>
      intro d live other
      exact absurd (namedGraph_live.mp live).symm other
    case down =>
      intro d i _ high _ _ dir
      rw [file high] at dir
      cases dir
    case once =>
      intro d i j _ high _ _ _ _ _ dir
      rw [file high] at dir
      cases dir
  case law =>
    intro n used
    rw [namedGraph_refs]
    rcases of_decide_eq_true used with rfl | rfl
    · change 2 = m * 0 + 1 + 1
      omega
    · change m = m * 1 + 0 + 0
      omega

/-- The name of entry `e`. -/
def entryName (e : Nat) : List UInt8 := [UInt8.ofNat (97 + e / 16), UInt8.ofNat (97 + e % 16)]

/-- A disk with a root directory and a file that has `m` names in it, and process 1 alone. -/
def namedVfs (m : Nat) : Vfs where
  dev := 0x301
  ninodes := 8
  imap := fun n => n < 3
  isup := none
  imount := none
  disk := fun n =>
    if n = 1 then { mode := 0o40755, size := direntSize * (m + 2), nlinks := 2, zone := fun z => if z.val < 7 then 9 + z.val else 0 }
    else if n = 2 then { mode := 0o100644, nlinks := m } else {}
  dir := fun _ e => if e = 0 then ⟨1, padName dotName⟩ else if e = 1 then ⟨1, padName dotdotName⟩ else ⟨2, padName (entryName e)⟩
  slot := fun _ => {}
  last := 0
  file := fun _ => ⟨0, 0, 0, 0, 0⟩
  task := fun t => { live := t = 1, cred := ⟨0, 0, 0, 0, 0, false, -1, 0⟩ }
  now := 0
  answers := []

theorem namedVfs_booted (m : Nat) : (namedVfs m).Booted 1 :=
  ⟨rfl, fun u hu => by rw [of_decide_eq_true hu]; decide, fun _ => ⟨rfl, rfl, fun _ => rfl⟩, fun _ => rfl, rfl, rfl⟩

theorem namedVfs_consistent {m : Nat} {s : Vfs} (hm : m < 256) (hmount : Vfs.mountRoot 1 (namedVfs m) = some ((), s)) : s.Consistent := by
  refine (namedVfs_booted m).consistent (by decide) hmount (namedGraph_sound m) rfl rfl ?_ ?_ ?_ rfl
  · intro n
    rw [Bool.eq_iff_iff]
    change decide (n = 1 ∨ n = 2) = true ↔ (decide (n < 3) && decide (0 < n ∧ n ≤ 8)) = true
    rw [Bool.and_eq_true, decide_eq_true_iff, decide_eq_true_iff, decide_eq_true_iff]
    omega
  · intro n i
    change (if i < 2 then 1 else 2) = NameEntry.inode (if i = 0 then ⟨1, padName dotName⟩ else if i = 1 then ⟨1, padName dotdotName⟩ else
      ⟨2, padName (entryName i)⟩)
    rcases i with _ | _ | i
    · rfl
    · rfl
    · rw [if_neg (by omega), if_neg (by omega), if_neg (by omega)]
  · intro n used
    rcases of_decide_eq_true used with rfl | rfl
    · refine ⟨?_, rfl, ?_, fun _ => rfl⟩
      · change true = ((0o40755 : BitVec 16).setWidth 32 &&& ifmt == ifdir)
        decide
      · change 2 < 256
        decide
    · refine ⟨?_, rfl, hm, ?_⟩
      · change false = ((0o100644 : BitVec 16).setWidth 32 &&& ifmt == ifdir)
        decide
      · intro dir
        cases dir

/-- As long as no call counts a link count of 255 up, which is `sys_link` of a file and `sys_mkdir` in a directory, every link count is the
number of entries in linked directories that name the inode. What is named is allocated, and `iput` frees only what is not named. -/
theorem link_count_law {s₀ s : Vfs} (h₀ : s₀.Consistent)
    (h : Machine.Reach vfsStep (fun s e => Vfs.linkCall e = true ∧ ¬ s.CountsOver e) s₀ s) :
    (∀ n, s.Allocated n → (s.current n).nlinks = s.entriesOf n) ∧
    (∀ d e, s.LinkedDir d → e < (s.current d).size / direntSize → (s.dir d e).inode ≠ 0 → s.Allocated (s.dir d e).inode) ∧
    ∀ k s', Vfs.iput k s = some ((), s') → ∀ n, s.Allocated n → ¬ s'.Allocated n → s.entriesOf n = 0 := by
  have law : s.Consistent := h.invariant h₀ fun u e u' hu hok hs => hu.step hok.1 hok.2 hs
  have counts {n : Nat} (hn : s.Allocated n) : (s.current n).nlinks = s.entriesOf n := by
    rw [← Vfs.linkGraph_refs]
    exact law.sound.law n (decide_eq_true hn)
  refine ⟨fun n hn => counts hn, ?_, ?_⟩
  · intro d e hd he named
    have used := law.sound.named d e (Vfs.linkGraph_live.mpr hd) he named
    exact of_decide_eq_true used
  · intro k s' hput n hn lost
    obtain ⟨-, G', released, mirrors, -⟩ := law.mirrors.iput hput
    have free : G'.used n = false := by
      rw [← mirrors.used_eq]
      exact decide_eq_false lost
    have unlinked : (s.current n).nlinks = 0 := released.gone n (decide_eq_true hn) free
    rw [← counts hn]
    exact unlinked

/-- A file in a new directory comes and goes, and the file of the disk gets a second name. -/
def comeAndGo : List VfsEvent :=
  [.world 3 [5, 6], .sysMkdir 1 [47, 100] 0o777, .sysOpen 1 [47, 100, 47, 102] 0o102 0o644, .sysLink 1 (47 :: entryName 2) [47, 122, 122],
    .sysUnlink 1 [47, 100, 47, 102], .sysRmdir 1 [47, 100], .sysClose 1 0]

theorem link_count_law_run : ∃ s₁ s, Vfs.mountRoot 1 (namedVfs 1) = some ((), s₁) ∧
    Machine.execOk vfsStep (fun s e => Vfs.linkCall e = true ∧ s.roomFor e = true) s₁ comeAndGo = some s ∧
    s.Allocated 2 ∧ (s.current 2).nlinks = 2 ∧ s.entriesOf 2 = 2 := by
  have hrun : ((Vfs.mountRoot 1 (namedVfs 1)).bind fun x =>
      (Machine.execOk vfsStep (fun s e => Vfs.linkCall e = true ∧ s.roomFor e = true) x.2 comeAndGo).map
        fun s => (decide (s.Allocated 2), (s.current 2).nlinks)) = some (true, 2) := by decide +kernel
  obtain ⟨⟨⟨⟩, s₁⟩, hmount, hrun⟩ := Option.bind_eq_some_iff.mp hrun
  obtain ⟨s, hs, hslot⟩ := Option.map_eq_some_iff.mp hrun
  obtain ⟨allocated, links⟩ := Prod.mk.inj hslot
  have reach : Machine.Reach vfsStep (fun s e => Vfs.linkCall e = true ∧ ¬ s.CountsOver e) s₁ s :=
    (Machine.Reach.start.execOk hs).mono fun _ _ hok => ⟨hok.1, Vfs.not_countsOver hok.2⟩
  obtain ⟨law, -, -⟩ := link_count_law (namedVfs_consistent (by decide) hmount) reach
  have allocated := of_decide_eq_true allocated
  exact ⟨s₁, s, hmount, hs, allocated, links, (law 2 allocated).symm.trans links⟩

/-- An open file with 255 names gets one more: its link count is 0. -/
theorem link_count_law_wraps : ¬ ∀ s₀ s : Vfs, s₀.Consistent → Machine.Reach vfsStep (fun _ e => Vfs.linkCall e = true) s₀ s →
    ∀ n, s.Allocated n → (s.current n).nlinks = s.entriesOf n := by
  intro law
  have hrun : ((Vfs.mountRoot 1 (namedVfs 255)).bind fun x => (Machine.execOk vfsStep (fun _ e => Vfs.linkCall e = true) x.2
      [.sysOpen 1 (47 :: entryName 2) 0 0, .sysLink 1 (47 :: entryName 2) [47, 122, 122]]).map
      fun s => (decide (s.Allocated 2), (s.current 2).nlinks, s.entriesOf 2)) = some (true, 0, 256) := by decide +kernel
  obtain ⟨⟨⟨⟩, s₁⟩, hmount, hrun⟩ := Option.bind_eq_some_iff.mp hrun
  obtain ⟨s, hs, hslot⟩ := Option.map_eq_some_iff.mp hrun
  obtain ⟨allocated, counts⟩ := Prod.mk.inj hslot
  obtain ⟨links, names⟩ := Prod.mk.inj counts
  have count := law s₁ s (namedVfs_consistent (by decide) hmount) (Machine.Reach.start.execOk hs) 2 (of_decide_eq_true allocated)
  rw [links, names] at count
  cases count

end RheeKernel
