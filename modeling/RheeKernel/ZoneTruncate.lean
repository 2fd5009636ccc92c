import RheeKernel.ZoneCreate

namespace RheeKernel

/-- The loop over the entries keeps the block's own buffer; the block itself goes last. -/
def freeInd (d : Device) (held : List Nat) (block : Nat) : Option Device :=
  if block = 0 then some d
  else ((List.range 512).foldlM (fun d i =>
      if d.word block i = 0 then some d else freeBlock d (block :: held) (d.word block i)) d).bind
    fun d => freeBlock d held block

def freeDind (d : Device) (block : Nat) : Option Device :=
  if block = 0 then some d
  else ((List.range 512).foldlM (fun d i =>
      if d.word block i = 0 then some d else freeInd d [block] (d.word block i)) d).bind
    fun d => freeBlock d [] block

/-- The zones of a regular file or a directory. -/
def truncateZones (d : Device) (ip : ZoneInode) : Option (Device × ZoneInode) :=
  ((List.range 7).foldlM (fun (r : Device × ZoneInode) i =>
      if r.2.zone i = 0 then some r
      else (freeBlock r.1 [] (r.2.zone i)).map fun d => (d, ⟨Function.update r.2.zone i 0⟩)) (d, ip)).bind
    fun r => (freeInd r.1 [] (r.2.zone 7)).bind fun d => (freeDind d (r.2.zone 8)).map fun d =>
      (d, ⟨Function.update (Function.update r.2.zone 7 0) 8 0⟩)

/-- A loop over `0, .., n - 1` that may fail: an invariant of its rounds holds at its end, and it does not fail. -/
theorem foldlM_range {σ : Type} {f : σ → Nat → Option σ} {I : Nat → σ → Prop} {n : Nat} {a : σ} (base : I 0 a)
    (step : ∀ k < n, ∀ b, I k b → ∃ c, f b k = some c ∧ I (k + 1) c) :
    ∃ b, (List.range n).foldlM f a = some b ∧ I n b := by
  induction n with
  | zero => exact ⟨a, rfl, base⟩
  | succ n ih =>
    obtain ⟨b, hb, hI⟩ := ih fun k hk => step k (by omega)
    obtain ⟨c, hc, hI'⟩ := step n (by omega) b hI
    refine ⟨c, ?_, hI'⟩
    rw [List.range_succ, List.foldlM_append, hb]
    change [n].foldlM f b = some c
    rw [List.foldlM_cons, hc]
    rfl

/-- The bits of the zones in `S` have been cleared, and nothing else has changed. -/
structure Cleared (d d' : Device) (S : Nat → Prop) : Prop where
  map : ∀ m, d'.zmap m = true ↔ d.zmap m = true ∧ ¬ (0 < m ∧ S (m + d.firstdatazone - 1))
  word : d'.word = d.word
  first : d'.firstdatazone = d.firstdatazone
  nzones : d'.nzones = d.nzones
  blocks : d'.zmapBlocks = d.zmapBlocks

variable {d d' d₁ : Device} {ip ip' : ZoneInode} {s s' : ZoneFs} {i j k l n z b : Nat} {p q r : ZonePos}
  {S T : Nat → Prop} {Q Q' : ZonePos → Prop} {held : List Nat}

theorem Cleared.congr (h : Cleared d d' S) (hST : ∀ z, S z ↔ T z) : Cleared d d' T := by
  refine ⟨fun m => ?_, h.word, h.first, h.nzones, h.blocks⟩
  rw [h.map m, hST]

theorem Cleared.marked (h : Cleared d d' S) (hf : 0 < d.firstdatazone) : d'.Marked z ↔ d.Marked z ∧ ¬ S z := by
  unfold Device.Marked
  rw [h.first, bits_congr h.blocks, h.map]
  constructor
  · intro ⟨hlow, hlt, hset, hS⟩
    refine ⟨⟨hlow, hlt, hset⟩, fun hz => hS ⟨by omega, ?_⟩⟩
    rw [show z + 1 - d.firstdatazone + d.firstdatazone - 1 = z by omega]
    exact hz
  · intro ⟨⟨hlow, hlt, hset⟩, hS⟩
    refine ⟨hlow, hlt, hset, fun ⟨_, hz⟩ => hS ?_⟩
    rw [show z + 1 - d.firstdatazone + d.firstdatazone - 1 = z by omega] at hz
    exact hz

/-- `free_block` of a zone in use whose buffer nobody holds. -/
theorem freeBlock_spec (hf : 0 < d.firstdatazone) (h : Cleared d d₁ S) (hm : d₁.Marked z) (hz : z < d.nzones) (hheld : z ∉ held) :
    ∃ d₂, freeBlock d₁ held z = some d₂ ∧ Cleared d d₂ fun y => S y ∨ y = z := by
  obtain ⟨hlow, hlt, hset⟩ := hm
  rw [h.first] at hlow hlt hset
  have hk : z - (d₁.firstdatazone - 1) = z + 1 - d.firstdatazone := by
    rw [h.first]
    omega
  refine ⟨{ d₁ with zmap := Function.update d₁.zmap (z + 1 - d.firstdatazone) false }, ?_,
    ⟨fun m => ?_, h.word, h.first, h.nzones, h.blocks⟩⟩
  · unfold freeBlock
    rw [if_neg (by rw [h.first, h.nzones]; omega), if_neg hheld]
    dsimp only
    rw [hk, if_pos ⟨hlt, hset⟩]
  · change Function.update d₁.zmap (z + 1 - d.firstdatazone) false m = true ↔ _
    by_cases hmz : m = z + 1 - d.firstdatazone
    · rw [hmz, Function.update_self, show z + 1 - d.firstdatazone + d.firstdatazone - 1 = z by omega]
      constructor
      · exact nofun
      · intro ⟨_, hc⟩
        exact absurd ⟨by omega, .inr rfl⟩ hc
    · rw [Function.update_of_ne hmz, h.map]
      constructor
      · intro ⟨hset, hS⟩
        refine ⟨hset, fun ⟨hpos, hc⟩ => ?_⟩
        rcases hc with hc | hc
        · exact hS ⟨hpos, hc⟩
        · omega
      · intro ⟨hset, hS⟩
        exact ⟨hset, fun ⟨hpos, hc⟩ => hS ⟨hpos, .inl hc⟩⟩

namespace ZoneFs

/-- The zones in the places `Q` of inode `i`. -/
def Of (s : ZoneFs) (i : Nat) (Q : ZonePos → Prop) (z : Nat) : Prop := z ≠ 0 ∧ ∃ q, Q q ∧ s.zoneNr i q = z

theorem of_congr (h : ∀ q, s.zoneNr i q ≠ 0 → (Q q ↔ Q' q)) : s.Of i Q z ↔ s.Of i Q' z := by
  constructor
  · intro ⟨hz, q, hq, hat⟩
    exact ⟨hz, q, (h q (by rw [hat]; exact hz)).mp hq, hat⟩
  · intro ⟨hz, q, hq, hat⟩
    exact ⟨hz, q, (h q (by rw [hat]; exact hz)).mpr hq, hat⟩

theorem Sound.of_iff (h : s.Sound) (hne : s.zoneNr i q ≠ 0) : s.Of i Q (s.zoneNr i q) ↔ Q q := by
  constructor
  · intro ⟨_, p, hp, hat⟩
    have hqp := (h.distinct i q i p hne hat.symm).2
    rw [hqp]
    exact hp
  · exact fun hq => ⟨hne, q, hq, rfl⟩

/-- One zone of the tree is freed. -/
theorem Sound.freeOne (h : s.Sound) (hc : Cleared s.dev d (s.Of i Q)) (hne : s.zoneNr i q ≠ 0) (hq : ¬ Q q)
    (hheld : s.zoneNr i q ∉ held) :
    ∃ d', freeBlock d held (s.zoneNr i q) = some d' ∧ Cleared s.dev d' (s.Of i fun p => Q p ∨ p = q) := by
  have hm : d.Marked (s.zoneNr i q) :=
    (hc.marked h.first).mpr ⟨h.zoneNr_marked hne, fun ho => hq ((h.of_iff hne).mp ho)⟩
  obtain ⟨d', hd', hc'⟩ := freeBlock_spec h.first hc hm (h.range i q hne).2 hheld
  refine ⟨d', hd', hc'.congr fun z => ?_⟩
  constructor
  · intro hz
    rcases hz with ⟨hz, p, hp, hat⟩ | hz
    · exact ⟨hz, p, .inl hp, hat⟩
    · exact ⟨hz ▸ hne, q, .inr rfl, hz.symm⟩
  · intro ⟨hz, p, hp, hat⟩
    rcases hp with hp | hp
    · exact .inl ⟨hz, p, hp, hat⟩
    · rw [hp] at hat
      exact .inr hat.symm

/-- The words of a table are the zones of its places. -/
theorem zoneNr_child {c : Nat → ZonePos} (hcp : ∀ l, (c l).parent = some r ∧ (c l).index = l) (hr : s.zoneNr i r ≠ 0)
    (hl : l < 512) : s.dev.word (s.zoneNr i r) l = s.zoneNr i (c l) := by
  have hentry : s.zoneNr i (c l) = tableEntry s.dev (s.zoneNr i r) (c l).index := zoneAt_parent (hcp l).1
  rw [hentry, (hcp l).2, tableEntry_eq hl hr]

theorem zoneNr_child_zero {c : Nat → ZonePos} (hcp : ∀ l, (c l).parent = some r ∧ (c l).index = l)
    (h : s.zoneNr i r = 0 ∨ 512 ≤ l) : s.zoneNr i (c l) = 0 := by
  have hentry : s.zoneNr i (c l) = tableEntry s.dev (s.zoneNr i r) (c l).index := zoneAt_parent (hcp l).1
  rw [hentry, (hcp l).2]
  rcases h with h | h
  · rw [h, tableEntry_zero]
  · exact if_neg fun hc => by omega

/-- A turn of the loop of `free_ind`. -/
theorem Sound.freeInd_turn (h : s.Sound) {c : Nat → ZonePos} {b : Device} {k : Nat} (hcp : ∀ l, (c l).parent = some r ∧ (c l).index = l)
    (hzero : s.zoneNr i r ≠ 0) (hQ : ∀ l, ¬ Q (c l)) (hheld : ∀ y ∈ held, ∃ p, p.depth < r.depth ∧ s.zoneNr i p = y) (hk : k < 512)
    (hb : Cleared s.dev b (s.Of i fun p => Q p ∨ ∃ l < k, p = c l)) :
    ∃ b', (if b.word (s.zoneNr i r) k = 0 then some b else freeBlock b (s.zoneNr i r :: held) (b.word (s.zoneNr i r) k)) = some b' ∧
      Cleared s.dev b' (s.Of i fun p => Q p ∨ ∃ l < k + 1, p = c l) := by
  rw [hb.word, zoneNr_child hcp hzero hk]
  by_cases hz : s.zoneNr i (c k) = 0
  · rw [if_pos hz]
    refine ⟨b, rfl, hb.congr fun z => of_congr fun p hp => ⟨fun hq => ?_, fun hq => ?_⟩⟩
    · rcases hq with hq | ⟨l, hl, hq⟩
      · exact .inl hq
      · exact .inr ⟨l, by omega, hq⟩
    · rcases hq with hq | ⟨l, hl, hq⟩
      · exact .inl hq
      · refine .inr ⟨l, ?_, hq⟩
        by_contra hlk
        rw [show l = k by omega] at hq
        exact hp (hq ▸ hz)
  · rw [if_neg hz]
    have hq : ¬ (Q (c k) ∨ ∃ l < k, c k = c l) := by
      intro hq
      rcases hq with hq | ⟨l, hl, hq⟩
      · exact hQ k hq
      · have := congrArg ZonePos.index hq
        rw [(hcp k).2, (hcp l).2] at this
        omega
    have hnot : s.zoneNr i (c k) ∉ s.zoneNr i r :: held := by
      intro hin
      have hck := ZonePos.depth_parent (hcp k).1
      rcases List.mem_cons.mp hin with heq | hin
      · have hcr := (h.distinct i (c k) i r hz heq).2
        rw [hcr] at hck
        omega
      · obtain ⟨p, hp, hat⟩ := hheld _ hin
        have hcp' := (h.distinct i (c k) i p hz hat.symm).2
        rw [hcp'] at hck
        omega
    obtain ⟨b', hb', hc'⟩ := h.freeOne hb hz hq hnot
    refine ⟨b', hb', hc'.congr fun z => of_congr fun p _ => ⟨fun hq => ?_, fun hq => ?_⟩⟩
    · rcases hq with (hq | ⟨l, hl, hq⟩) | hq
      · exact .inl hq
      · exact .inr ⟨l, by omega, hq⟩
      · exact .inr ⟨k, by omega, hq⟩
    · rcases hq with hq | ⟨l, hl, hq⟩
      · exact .inl (.inl hq)
      · by_cases hlk : l = k
        · exact .inr (hlk ▸ hq)
        · exact .inl (.inr ⟨l, by omega, hq⟩)

/-- `free_ind` on a table of the tree frees the table and all zones in it. -/
theorem Sound.freeInd (h : s.Sound) {c : Nat → ZonePos} (hcp : ∀ l, (c l).parent = some r ∧ (c l).index = l)
    (hc : Cleared s.dev d (s.Of i Q)) (hr : ¬ Q r) (hQ : ∀ l, ¬ Q (c l)) (hheld : ∀ y ∈ held, ∃ p, p.depth < r.depth ∧ s.zoneNr i p = y) :
    ∃ d', RheeKernel.freeInd d held (s.zoneNr i r) = some d' ∧
      Cleared s.dev d' (s.Of i fun p => Q p ∨ p = r ∨ ∃ l, p = c l) := by
  have hdepth : ∀ l, r.depth < (c l).depth := fun l => ZonePos.depth_parent (hcp l).1
  unfold RheeKernel.freeInd
  by_cases hzero : s.zoneNr i r = 0
  · rw [if_pos hzero]
    refine ⟨d, rfl, hc.congr fun z => of_congr fun p hp => ⟨fun hq => .inl hq, fun hq => ?_⟩⟩
    rcases hq with hq | hq | ⟨l, hq⟩
    · exact hq
    · exact absurd hzero (hq ▸ hp)
    · exact absurd (zoneNr_child_zero hcp (.inl hzero)) (hq ▸ hp)
  · rw [if_neg hzero]
    have hloop := @foldlM_range Device
      (fun d l => if d.word (s.zoneNr i r) l = 0 then some d else freeBlock d (s.zoneNr i r :: held) (d.word (s.zoneNr i r) l))
      (fun k d => Cleared s.dev d (s.Of i fun p => Q p ∨ ∃ l < k, p = c l)) 512 d ?_ ?_
    · obtain ⟨d₁, hd₁, hc₁⟩ := hloop
      have hr₁ : ¬ (Q r ∨ ∃ l < 512, r = c l) := by
        intro hq
        rcases hq with hq | ⟨l, _, hq⟩
        · exact hr hq
        · have := hdepth l
          rw [← hq] at this
          omega
      have hnot : s.zoneNr i r ∉ held := by
        intro hin
        obtain ⟨p, hp, hat⟩ := hheld _ hin
        have hpr := (h.distinct i r i p hzero hat.symm).2
        rw [hpr] at hp
        omega
      obtain ⟨d₂, hd₂, hc₂⟩ := h.freeOne hc₁ hzero hr₁ hnot
      refine ⟨d₂, ?_, hc₂.congr fun z => of_congr fun p hp => ?_⟩
      · rw [hd₁]
        exact hd₂
      · constructor
        · intro hq
          rcases hq with (hq | ⟨l, _, hq⟩) | hq
          · exact .inl hq
          · exact .inr (.inr ⟨l, hq⟩)
          · exact .inr (.inl hq)
        · intro hq
          rcases hq with hq | hq | ⟨l, hq⟩
          · exact .inl (.inl hq)
          · exact .inr hq
          · refine .inl (.inr ⟨l, ?_, hq⟩)
            by_contra hl
            exact hp (hq ▸ zoneNr_child_zero hcp (.inr (by omega)))
    · exact hc.congr fun z => of_congr fun p _ => ⟨.inl, fun hq => hq.resolve_right fun ⟨l, hl, _⟩ => by omega⟩
    · exact fun k hk b hb => h.freeInd_turn hcp hzero hQ hheld hk hb

/-- A turn of the loop of `free_dind`. -/
theorem Sound.freeDind_turn (h : s.Sound) {b : Device} {k : Nat} (hzero : s.zoneNr i (.zone 8) ≠ 0)
    (hQ : ∀ p, Q p → p ≠ .zone 8 ∧ (∀ a, p ≠ .dind a) ∧ ∀ a b, p ≠ .leaf a b) (hk : k < 512)
    (hb : Cleared s.dev b (s.Of i fun p => Q p ∨ ∃ a < k, p = .dind a ∨ ∃ l, p = .leaf a l)) :
    ∃ b', (if b.word (s.zoneNr i (.zone 8)) k = 0 then some b
      else RheeKernel.freeInd b [s.zoneNr i (.zone 8)] (b.word (s.zoneNr i (.zone 8)) k)) = some b' ∧
      Cleared s.dev b' (s.Of i fun p => Q p ∨ ∃ a < k + 1, p = .dind a ∨ ∃ l, p = .leaf a l) := by
  have hdind : ∀ a, (ZonePos.dind a).parent = some (.zone 8) ∧ (ZonePos.dind a).index = a := fun a => ⟨rfl, rfl⟩
  have hleaf : ∀ a l, (ZonePos.leaf a l).parent = some (.dind a) ∧ (ZonePos.leaf a l).index = l := fun a l => ⟨rfl, rfl⟩
  rw [hb.word, zoneNr_child hdind hzero hk]
  have hsplit : ∀ p, s.zoneNr i p ≠ 0 →
      ((Q p ∨ ∃ a < k + 1, p = .dind a ∨ ∃ l, p = .leaf a l) ↔
        (Q p ∨ ∃ a < k, p = .dind a ∨ ∃ l, p = .leaf a l) ∨ p = .dind k ∨ ∃ l, p = .leaf k l) := by
    intro p _
    constructor
    · intro hq
      rcases hq with hq | ⟨a, ha, hq⟩
      · exact .inl (.inl hq)
      · by_cases hak : a = k
        · exact .inr (hak ▸ hq)
        · exact .inl (.inr ⟨a, by omega, hq⟩)
    · intro hq
      rcases hq with (hq | ⟨a, ha, hq⟩) | hq
      · exact .inl hq
      · exact .inr ⟨a, by omega, hq⟩
      · exact .inr ⟨k, by omega, hq⟩
  by_cases hz : s.zoneNr i (.dind k) = 0
  · rw [if_pos hz]
    refine ⟨b, rfl, hb.congr fun z => of_congr fun p hp => ?_⟩
    rw [hsplit p hp]
    refine ⟨.inl, fun hq => hq.resolve_right fun hq => ?_⟩
    rcases hq with hq | ⟨l, hq⟩
    · exact hp (hq ▸ hz)
    · exact hp (hq ▸ zoneNr_child_zero (hleaf k) (.inl hz))
  · rw [if_neg hz]
    have hr : ¬ (Q (.dind k) ∨ ∃ a < k, ZonePos.dind k = .dind a ∨ ∃ l, ZonePos.dind k = .leaf a l) := by
      intro hq
      rcases hq with hq | ⟨a, ha, hq | ⟨l, hq⟩⟩
      · exact (hQ _ hq).2.1 k rfl
      · have := ZonePos.dind.inj hq
        omega
      · cases hq
    have hl : ∀ l, ¬ (Q (.leaf k l) ∨ ∃ a < k, ZonePos.leaf k l = .dind a ∨ ∃ m, ZonePos.leaf k l = .leaf a m) := by
      intro l hq
      rcases hq with hq | ⟨a, ha, hq | ⟨m, hq⟩⟩
      · exact (hQ _ hq).2.2 k l rfl
      · cases hq
      · have := (ZonePos.leaf.inj hq).1
        omega
    have hheld : ∀ y ∈ [s.zoneNr i (.zone 8)], ∃ p : ZonePos, p.depth < (ZonePos.dind k).depth ∧ s.zoneNr i p = y := by
      intro y hy
      exact ⟨.zone 8, Nat.zero_lt_one, (List.mem_singleton.mp hy).symm⟩
    obtain ⟨b', hb', hc'⟩ := h.freeInd (hleaf k) hb hr hl hheld
    exact ⟨b', hb', hc'.congr fun z => of_congr fun p hp => (hsplit p hp).symm⟩

/-- `free_dind` frees the table of tables, the tables and all zones in them. -/
theorem Sound.freeDind (h : s.Sound) (hc : Cleared s.dev d (s.Of i Q)) (hQ : ∀ p, Q p → p ≠ .zone 8 ∧ (∀ a, p ≠ .dind a) ∧ ∀ a b, p ≠ .leaf a b) :
    ∃ d', RheeKernel.freeDind d (s.zoneNr i (.zone 8)) = some d' ∧
      Cleared s.dev d' (s.Of i fun p => Q p ∨ p = .zone 8 ∨ (∃ a, p = .dind a) ∨ ∃ a b, p = .leaf a b) := by
  have hdind : ∀ a, (ZonePos.dind a).parent = some (.zone 8) ∧ (ZonePos.dind a).index = a := fun a => ⟨rfl, rfl⟩
  have hleaf : ∀ a l, (ZonePos.leaf a l).parent = some (.dind a) ∧ (ZonePos.leaf a l).index = l := fun a l => ⟨rfl, rfl⟩
  have hleafZero : ∀ a l, s.zoneNr i (.dind a) = 0 → s.zoneNr i (.leaf a l) = 0 :=
    fun a l hz => zoneNr_child_zero (hleaf a) (.inl hz)
  unfold RheeKernel.freeDind
  by_cases hzero : s.zoneNr i (.zone 8) = 0
  · rw [if_pos hzero]
    have hz : ∀ a, s.zoneNr i (.dind a) = 0 := fun a => zoneNr_child_zero hdind (.inl hzero)
    refine ⟨d, rfl, hc.congr fun z => of_congr fun p hp => ⟨fun hq => .inl hq, fun hq => ?_⟩⟩
    rcases hq with hq | hq | ⟨a, hq⟩ | ⟨a, b, hq⟩
    · exact hq
    · exact absurd hzero (hq ▸ hp)
    · exact absurd (hz a) (hq ▸ hp)
    · exact absurd (hleafZero a b (hz a)) (hq ▸ hp)
  · rw [if_neg hzero]
    have hloop := @foldlM_range Device
      (fun d a => if d.word (s.zoneNr i (.zone 8)) a = 0 then some d
        else RheeKernel.freeInd d [s.zoneNr i (.zone 8)] (d.word (s.zoneNr i (.zone 8)) a))
      (fun k d => Cleared s.dev d (s.Of i fun p => Q p ∨ ∃ a < k, p = .dind a ∨ ∃ l, p = .leaf a l)) 512 d ?_ ?_
    · obtain ⟨d₁, hd₁, hc₁⟩ := hloop
      have hr : ¬ (Q (.zone 8) ∨ ∃ a < 512, ZonePos.zone 8 = .dind a ∨ ∃ l, ZonePos.zone 8 = .leaf a l) := by
        intro hq
        rcases hq with hq | ⟨a, _, hq | ⟨l, hq⟩⟩
        · exact (hQ _ hq).1 rfl
        · cases hq
        · cases hq
      obtain ⟨d₂, hd₂, hc₂⟩ := h.freeOne hc₁ hzero hr (show s.zoneNr i (.zone 8) ∉ [] from List.not_mem_nil)
      refine ⟨d₂, ?_, hc₂.congr fun z => of_congr fun p hp => ?_⟩
      · rw [hd₁]
        exact hd₂
      · have hbound : ∀ a, s.zoneNr i (.dind a) ≠ 0 → a < 512 := by
          intro a hne
          by_contra ha
          exact hne (zoneNr_child_zero hdind (.inr (by omega)))
        constructor
        · intro hq
          rcases hq with (hq | ⟨a, _, hq | ⟨l, hq⟩⟩) | hq
          · exact .inl hq
          · exact .inr (.inr (.inl ⟨a, hq⟩))
          · exact .inr (.inr (.inr ⟨a, l, hq⟩))
          · exact .inr (.inl hq)
        · intro hq
          rcases hq with hq | hq | ⟨a, hq⟩ | ⟨a, l, hq⟩
          · exact .inl (.inl hq)
          · exact .inr hq
          · exact .inl (.inr ⟨a, hbound a (hq ▸ hp), .inl hq⟩)
          · refine .inl (.inr ⟨a, hbound a fun hz => ?_, .inr ⟨l, hq⟩⟩)
            exact hp (hq ▸ hleafZero a l hz)
    · exact hc.congr fun z => of_congr fun p _ => ⟨.inl, fun hq => hq.resolve_right fun ⟨l, hl, _⟩ => by omega⟩
    · exact fun k hk b hb => h.freeDind_turn hzero hQ hk hb

/-- A turn of the loop of `truncate` over the zones in the inode. -/
theorem Sound.truncate_turn (h : s.Sound) {ip : ZoneInode} {k : Nat} (hk : k < 7) (hc : Cleared s.dev d (s.Of i fun p => ∃ l < k, p = .zone l))
    (hz : ip.zone = fun l => if l < k then 0 else (s.inode i).zone l) :
    ∃ r : Device × ZoneInode, (if ip.zone k = 0 then some (d, ip)
      else (freeBlock d [] (ip.zone k)).map fun d => (d, ⟨Function.update ip.zone k 0⟩)) = some r ∧
      Cleared s.dev r.1 (s.Of i fun p => ∃ l < k + 1, p = .zone l) ∧ r.2.zone = fun l => if l < k + 1 then 0 else (s.inode i).zone l := by
  have hk' : ip.zone k = (s.inode i).zone k := by
    rw [hz]
    exact if_neg (Nat.lt_irrefl k)
  have hnr : s.zoneNr i (.zone k) = (s.inode i).zone k := if_pos (by omega)
  have hsplit : ∀ p, (∃ l < k + 1, p = ZonePos.zone l) ↔ (∃ l < k, p = .zone l) ∨ p = .zone k := by
    intro p
    constructor
    · intro ⟨l, hl, hp⟩
      by_cases hlk : l = k
      · exact .inr (hlk ▸ hp)
      · exact .inl ⟨l, by omega, hp⟩
    · intro hp
      rcases hp with ⟨l, hl, hp⟩ | hp
      · exact ⟨l, by omega, hp⟩
      · exact ⟨k, by omega, hp⟩
  by_cases hzero : ip.zone k = 0
  · rw [if_pos hzero]
    refine ⟨(d, ip), rfl, hc.congr fun z => of_congr fun p hp => ?_, ?_⟩
    · rw [hsplit]
      refine ⟨.inl, fun hq => hq.resolve_right fun hq => hp ?_⟩
      rw [hq, hnr, ← hk']
      exact hzero
    · funext l
      by_cases hlk : l = k
      · rw [hlk, if_pos (Nat.lt_succ_self k)]
        exact hzero
      · change ip.zone l = _
        rw [hz]
        simp only [show l < k + 1 ↔ l < k by omega]
  · rw [if_neg hzero, hk', ← hnr]
    have hne : s.zoneNr i (.zone k) ≠ 0 := by
      rw [hnr, ← hk']
      exact hzero
    obtain ⟨d', hd', hc'⟩ := h.freeOne hc hne
      (fun ⟨l, hl, hq⟩ => by have := ZonePos.zone.inj hq; omega) (show s.zoneNr i (.zone k) ∉ [] from List.not_mem_nil)
    rw [hd']
    refine ⟨(d', ⟨Function.update ip.zone k 0⟩), rfl, hc'.congr fun z => of_congr fun p _ => (hsplit p).symm, ?_⟩
    funext l
    change Function.update ip.zone k 0 l = _
    by_cases hlk : l = k
    · rw [hlk, Function.update_self, if_pos (Nat.lt_succ_self k)]
    · rw [Function.update_of_ne hlk, hz]
      simp only [show l < k + 1 ↔ l < k by omega]

/-- `truncate` never panics, clears the bits of all zones of the inode and no others, and leaves it without zones. -/
theorem Sound.truncateZones (h : s.Sound) :
    ∃ d' ip', RheeKernel.truncateZones s.dev (s.inode i) = some (d', ip') ∧
      Cleared s.dev d' (s.Of i fun _ => True) ∧ ∀ k < 9, ip'.zone k = 0 := by
  have hloop := @foldlM_range (Device × ZoneInode)
    (fun r k => if r.2.zone k = 0 then some r
      else (freeBlock r.1 [] (r.2.zone k)).map fun d => (d, ⟨Function.update r.2.zone k 0⟩))
    (fun k r => Cleared s.dev r.1 (s.Of i fun p => ∃ l < k, p = .zone l) ∧
      r.2.zone = fun l => if l < k then 0 else (s.inode i).zone l) 7 (s.dev, s.inode i) ?_ ?_
  · obtain ⟨⟨d₁, ip₁⟩, hd₁, hc₁, hz₁⟩ := hloop
    dsimp only at hc₁ hz₁
    have h7 : ip₁.zone 7 = s.zoneNr i (.zone 7) := by
      rw [hz₁]
      rfl
    have h8 : ip₁.zone 8 = s.zoneNr i (.zone 8) := by
      rw [hz₁]
      rfl
    have hind : ∀ l, (ZonePos.ind l).parent = some (.zone 7) ∧ (ZonePos.ind l).index = l := fun l => ⟨rfl, rfl⟩
    obtain ⟨d₂, hd₂, hc₂⟩ := h.freeInd hind hc₁
      (fun ⟨l, hl, hq⟩ => by have := ZonePos.zone.inj hq; omega) (fun l ⟨_, _, hq⟩ => by cases hq)
      (fun y (hy : y ∈ []) => absurd hy List.not_mem_nil)
    obtain ⟨d₃, hd₃, hc₃⟩ := h.freeDind hc₂ fun p hp => by
      rcases hp with ⟨l, hl, rfl⟩ | rfl | ⟨l, rfl⟩
      · exact ⟨fun hq => by have := ZonePos.zone.inj hq; omega, fun _ => nofun, fun _ _ => nofun⟩
      · exact ⟨fun hq => absurd (ZonePos.zone.inj hq) (by decide), fun _ => nofun, fun _ _ => nofun⟩
      · exact ⟨nofun, fun _ => nofun, fun _ _ => nofun⟩
    refine ⟨d₃, ⟨Function.update (Function.update ip₁.zone 7 0) 8 0⟩, ?_, hc₃.congr fun z => of_congr fun p hp => ?_,
      fun k hk => ?_⟩
    · unfold RheeKernel.truncateZones
      rw [hd₁]
      simp only [Option.bind_some, h7, hd₂, h8, hd₃, Option.map_some]
    · refine ⟨fun _ => trivial, fun _ => ?_⟩
      cases p with
      | zone k =>
        have hk : k < 9 := by
          by_contra hout
          exact hp (if_neg hout)
        by_cases h7 : k < 7
        · exact .inl (.inl ⟨k, h7, rfl⟩)
        · by_cases hk7 : k = 7
          · exact .inl (.inr (.inl (congrArg ZonePos.zone hk7)))
          · exact .inr (.inl (congrArg ZonePos.zone (by omega)))
      | ind l => exact .inl (.inr (.inr ⟨l, rfl⟩))
      | dind a => exact .inr (.inr (.inl ⟨a, rfl⟩))
      | leaf a b => exact .inr (.inr (.inr ⟨a, b, rfl⟩))
    · change Function.update (Function.update ip₁.zone 7 0) 8 0 k = 0
      by_cases h8 : k = 8
      · rw [h8, Function.update_self]
      · rw [Function.update_of_ne h8]
        by_cases h7 : k = 7
        · rw [h7, Function.update_self]
        · rw [Function.update_of_ne h7, hz₁]
          exact if_pos (by omega)
  · refine ⟨⟨fun m => ⟨fun hm => ⟨hm, fun ⟨_, _, q, ⟨l, hl, _⟩, _⟩ => by omega⟩, fun hm => hm.1⟩, rfl, rfl, rfl, rfl⟩, ?_⟩
    rfl
  · exact fun k hk r hr => h.truncate_turn hk hr.1 hr.2

end ZoneFs

end RheeKernel
