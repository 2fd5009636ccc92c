import Mathlib.Data.List.DropRight
import Mathlib.Data.List.Infix
import RheeKernel.Machine
import RheeKernel.TtyTurns

namespace RheeKernel

namespace Tty

/-- The characters that end a line; `isEnd` is what the code takes for one. -/
def ends (t : Tty) (c : BitVec 8) : Bool := c = 10 || c = t.termios.eof

/-- The secondary queue up to its last end of a line. -/
def completed (t : Tty) : List (BitVec 8) := t.secondary.contents.rdropWhile fun c => !t.ends c

/-- The next turn of `copy_to_cooked` keeps an end of a line that it does not take for one. -/
def overlooks (t : Tty) : Bool :=
  !t.readQ.isEmpty && !t.secondary.isFull && !t.ignored t.readQ.first &&
    (t.mapped t.readQ.first).any fun c => !(t.termios.canon && sameChar c t.termios.erase) && t.ends c && !t.isEnd c

end Tty

namespace TtyRun

/-- The ends of lines that are counted and not yet in the queue. -/
def pending (s : TtyRun) : Nat := s.frames.countP fun f => match f with | .put c => s.tty.ends c | _ => false

/-- `secondary.data` is the number of ends of lines, all of them such as the code sees. -/
structure Counts (s : TtyRun) : Prop where
  data : s.tty.secondary.data = BitVec.ofNat 32 (s.tty.secondary.contents.countP s.tty.ends + s.pending)
  queued : ∀ c ∈ s.tty.secondary.contents, s.tty.ends c = true → s.tty.isEnd c = true
  counted : ∀ c, .put c ∈ s.frames → s.tty.ends c = true → s.tty.isEnd c = true

/-- No end of a line is overlooked, and what a nested call has done to the secondary queue costs no end of a line when its caller goes on. -/
def Careful (s : TtyRun) : TtyEvent → Prop
  | .next =>
    match s.frames with
    | .cooked :: _ => s.tty.overlooks = false
    | .put c :: _ => s.tty.secondary.isFull = false ∨ ∀ b ∈ c :: s.tty.secondary.contents, s.tty.ends b = false
    | .dec :: _ => if s.tty.secondary.isEmpty then ∀ b ∈ s.tty.secondary.dec.contents, s.tty.ends b = false
      else s.tty.ends s.tty.secondary.last = false
    | _ => True
  | .ioctl termios => termios.eof = s.tty.termios.eof
  | _ => True

instance {s : TtyRun} {e : TtyEvent} : Decidable (s.Careful e) :=
  match s, e with
  | ⟨_, .cooked :: _⟩, .next => inferInstanceAs (Decidable (_ = _))
  | ⟨_, .put _ :: _⟩, .next => inferInstanceAs (Decidable (_ ∨ _))
  | ⟨t, .dec :: _⟩, .next => inferInstanceAs (Decidable (if t.secondary.isEmpty then ∀ b ∈ t.secondary.dec.contents, t.ends b = false
      else t.ends t.secondary.last = false))
  | ⟨_, []⟩, .next | ⟨_, .respond :: _⟩, .next | ⟨_, .write :: _⟩, .next | ⟨_, .conWrite _ :: _⟩, .next => inferInstanceAs (Decidable True)
  | ⟨_, _⟩, .ioctl _ => inferInstanceAs (Decidable (_ = _))
  | _, .keyboard _ | _, .receive _ | _, .transmit | _, .put _ | _, .flush | _, .read => inferInstanceAs (Decidable True)

/-- Completed lines are left to the reader, who takes the first character. -/
def Keeps (s : TtyRun) (e : TtyEvent) (s' : TtyRun) : Prop :=
  match e with
  | .read => s'.tty.completed = s.tty.completed.tail
  | _ => s.tty.completed <+: s'.tty.completed

variable {t t' : Tty} {s s' : TtyRun} {e : TtyEvent} {k : List TtyFrame} {c : BitVec 8} {cs : List (BitVec 8)} {p : BitVec 8 → Bool}

theorem ends_of_isEnd (h : t.isEnd c = true) : t.ends c = true := by
  unfold Tty.isEnd at h
  unfold Tty.ends
  rcases Bool.or_eq_true_iff.mp h with h | h
  · rw [h]
    rfl
  · rw [decide_eq_true (Tty.sameChar_eq h), Bool.or_true]

/-- Without its first element a list ends where it ended before. -/
theorem rdropWhile_tail : cs.rdropWhile p = ((c :: cs).rdropWhile p).tail := by
  induction cs using List.reverseRecOn with
  | nil =>
    rw [List.rdropWhile_singleton]
    split <;> rfl
  | append_singleton cs d ih =>
    rw [← List.cons_append]
    by_cases hd : p d = true
    · rw [List.rdropWhile_concat_pos _ _ _ hd, List.rdropWhile_concat_pos _ _ _ hd, ih]
    · rw [List.rdropWhile_concat_neg _ _ _ hd, List.rdropWhile_concat_neg _ _ _ hd]
      rfl

/-- An element more at the end leaves what was completed as it was. -/
theorem rdropWhile_concat_prefix : cs.rdropWhile p <+: (cs ++ [c]).rdropWhile p := by
  by_cases hc : p c = true
  · rw [List.rdropWhile_concat_pos _ _ _ hc]
  · rw [List.rdropWhile_concat_neg _ _ _ hc]
    exact (List.rdropWhile_prefix _ _).trans (List.prefix_append _ _)

theorem count_concat {a b : Bool} {n : Nat} :
    BitVec.ofNat 32 n + (if a then 1 else 0) = BitVec.ofNat 32 (n + if b then 1 else 0) ↔ a = b := by
  cases a <;> cases b <;> simp <;> bv_omega

theorem count_drop {d n : Nat} (hd : d ≤ ttyBufSize) : BitVec.ofNat 32 (d + n) = BitVec.ofNat 32 n ↔ d = 0 := by
  unfold ttyBufSize at hd
  refine ⟨fun h => ?_, fun h => by rw [h, Nat.zero_add]⟩
  have h := congrArg BitVec.toNat h
  rw [BitVec.toNat_ofNat, BitVec.toNat_ofNat] at h
  omega

/-- A step that changes neither the lines nor what is pending. -/
structure Same (s s' : TtyRun) : Prop where
  eof : s'.tty.termios.eof = s.tty.termios.eof
  data : s'.tty.secondary.data = s.tty.secondary.data
  contents : s'.tty.secondary.contents = s.tty.secondary.contents
  pending : s'.pending = s.pending
  puts : ∀ c, .put c ∈ s'.frames → .put c ∈ s.frames

theorem ends_congr (h : t'.termios.eof = t.termios.eof) : t'.ends = t.ends ∧ t'.isEnd = t.isEnd := by
  refine ⟨funext fun c => ?_, funext fun c => ?_⟩
  · unfold Tty.ends
    rw [h]
  · unfold Tty.isEnd
    rw [h]

theorem completed_congr (heof : t'.termios.eof = t.termios.eof) (h : t'.secondary.contents = t.secondary.contents) :
    t'.completed = t.completed := by
  unfold Tty.completed
  rw [h, (ends_congr heof).1]

theorem Same.counts (h : s.Same s') (hI : s.Counts) : s'.Counts := by
  obtain ⟨hends, hisEnd⟩ := ends_congr h.eof
  refine ⟨?_, ?_, fun c hc => ?_⟩
  · rw [h.data, h.contents, h.pending, hends]
    exact hI.data
  · rw [h.contents, hends, hisEnd]
    exact hI.queued
  · rw [hends, hisEnd]
    exact hI.counted c (h.puts c hc)

theorem Same.completed (h : s.Same s') : s.tty.completed <+: s'.tty.completed := by
  rw [completed_congr h.eof h.contents]

/-- What one step does to the lines. -/
structure Lined (s : TtyRun) (e : TtyEvent) (s' : TtyRun) : Prop where
  counts : s'.Counts ↔ s.Careful e
  keeps : s.Careful e → s.Keeps e s'

theorem Same.lined (h : s.Same s') (hI : s.Counts) (hcareful : s.Careful e) (hread : e ≠ .read) : s.Lined e s' := by
  refine ⟨⟨fun _ => hcareful, fun _ => h.counts hI⟩, fun _ => ?_⟩
  unfold Keeps
  split
  next => exact absurd rfl hread
  next => exact h.completed

/-- Frames in front that put nothing into the secondary queue come or go. -/
theorem Same.swap {f g : List TtyFrame} (heof : t'.termios.eof = t.termios.eof) (hsecondary : t'.secondary = t.secondary)
    (hf : ∀ c, .put c ∉ f) (hg : ∀ c, .put c ∉ g) : Same ⟨t, f ++ k⟩ ⟨t', g ++ k⟩ := by
  have hnone : ∀ f : List TtyFrame, (∀ c, .put c ∉ f) → (f.countP fun f => match f with | .put c => t.ends c | _ => false) = 0 := by
    intro f hf
    refine List.countP_eq_zero.mpr fun g hg => ?_
    cases g with
    | put c => exact absurd hg (hf c)
    | _ => exact Bool.false_ne_true
  refine ⟨heof, congrArg _ hsecondary, congrArg _ hsecondary, ?_, fun c hc => ?_⟩
  · unfold TtyRun.pending
    rw [List.countP_append, List.countP_append, (ends_congr heof).1, hnone f hf, hnone g hg]
  · exact List.mem_append_right _ ((List.mem_append.mp hc).resolve_left (hg c))

theorem pending_put : pending ⟨t, .put c :: k⟩ = pending ⟨t, k⟩ + if t.ends c then 1 else 0 := by
  unfold pending
  rw [List.countP_cons]

theorem counted_spec : (t.counted c).data = t.secondary.data + (if t.isEnd c then 1 else 0) ∧ (t.counted c).contents = t.secondary.contents ∧
    (t.counted c).isFull = t.secondary.isFull := by
  unfold Tty.counted
  split
  next => exact ⟨rfl, rfl, rfl⟩
  next => exact ⟨(BitVec.add_zero _).symm, rfl, rfl⟩

/-- A character that is kept is counted as it should be if and only if it is not overlooked. -/
theorem overlooks_kept (hread : t.readQ.isEmpty = false) (hroom : t.secondary.isFull = false) (hignored : t.ignored t.readQ.first = false)
    (hc : t.mapped t.readQ.first = some c) (herase : ¬ (t.termios.canon ∧ sameChar c t.termios.erase)) :
    t.overlooks = false ↔ t.isEnd c = t.ends c := by
  have herase : (t.termios.canon && sameChar c t.termios.erase) = false := Bool.eq_false_iff.mpr fun h => herase (Bool.and_eq_true_iff.mp h)
  have hends := @ends_of_isEnd t c
  unfold Tty.overlooks
  rw [hread, hroom, hignored, hc, Option.any_some, herase]
  cases hend : t.isEnd c with
  | false => simp
  | true => simp [hends hend]

theorem cooked_lined (hI : Counts ⟨t, .cooked :: k⟩) : Lined ⟨t, .cooked :: k⟩ .next (t.copyToCooked k) := by
  by_cases hexit : t.readQ.isEmpty = true ∨ t.secondary.isFull = true
  · have hcareful : t.overlooks = false := by
      unfold Tty.overlooks
      rcases hexit with h | h <;> simp [h]
    rw [Tty.copyToCooked_exit hexit]
    exact Same.lined (Same.swap (f := [.cooked]) (g := []) rfl rfl (by simp) (by simp)) hI hcareful nofun
  · obtain ⟨hread, hroom⟩ := not_or.mp hexit
    have hread := Bool.eq_false_iff.mpr hread
    have hroom := Bool.eq_false_iff.mpr hroom
    have hturn := Tty.turn (k := k) hread hroom
    generalize t.copyToCooked k = y at hturn ⊢
    cases hturn with
    | skip stopped hignored =>
      have hcareful : t.overlooks = false := by
        unfold Tty.overlooks
        simp [hignored]
      exact Same.lined (Same.swap (f := [.cooked]) (g := [.cooked]) rfl rfl (by simp) (by simp)) hI hcareful nofun
    | rub c hignored hc herase hlive hecho =>
      have hcareful : t.overlooks = false := by
        unfold Tty.overlooks
        simp [hc, herase.1, herase.2]
      have hcontents := TtyQueue.contents_dec hlive.1
      have hlast : t.ends t.secondary.last = false := by
        refine Bool.eq_false_iff.mpr fun hends => ?_
        have := hI.queued t.secondary.last (by rw [hcontents]; simp) hends
        rw [hlive.2] at this
        cases this
      refine ⟨⟨fun _ => hcareful, fun _ => ⟨?_, fun b hb => hI.queued b ?_, fun b hb => hI.counted b hb⟩⟩, fun _ => ?_⟩
      · have hdata := hI.data
        rw [hcontents, List.countP_append, List.countP_singleton, hlast] at hdata
        exact hdata
      · rw [hcontents]
        exact List.mem_append_left _ hb
      · change (t.secondary.contents.rdropWhile fun c => !t.ends c) <+: t.secondary.dec.contents.rdropWhile fun c => !t.ends c
        rw [hcontents, List.rdropWhile_concat_pos _ _ _ (by rw [hlast]; rfl)]
    | keep c hignored hc herase hecho =>
      obtain ⟨hdata, hcontents, hfull⟩ := @counted_spec t c
      have hkept := overlooks_kept hread hroom hignored hc herase
      have hput := (TtyQueue.contents_putch (c := c) (hfull.trans hroom)).trans (congrArg (· ++ [c]) hcontents)
      have hsum : (t.secondary.contents ++ [c]).countP t.ends + pending ⟨t, .cooked :: k⟩ =
          t.secondary.contents.countP t.ends + pending ⟨t, .cooked :: k⟩ + if t.ends c then 1 else 0 := by
        rw [List.countP_append, List.countP_singleton]
        omega
      refine ⟨Iff.trans ⟨fun h => ?_, fun h => ⟨?_, fun b hb => ?_, fun b hb => hI.counted b hb⟩⟩ hkept.symm, fun _ => ?_⟩
      · have h : (t.counted c).data = BitVec.ofNat 32 (((t.counted c).putch c).contents.countP t.ends + pending ⟨t, .cooked :: k⟩) := h.data
        rw [hput, hsum, hdata, show t.secondary.data = _ from hI.data] at h
        exact count_concat.mp h
      · change (t.counted c).data = BitVec.ofNat 32 (((t.counted c).putch c).contents.countP t.ends + pending ⟨t, .cooked :: k⟩)
        rw [hput, hsum, hdata, show t.secondary.data = _ from hI.data]
        exact count_concat.mpr h
      · change b ∈ ((t.counted c).putch c).contents at hb
        rw [hput] at hb
        rcases List.mem_append.mp hb with hb | hb
        · exact hI.queued b hb
        · rw [List.mem_singleton.mp hb]
          exact fun hends => h.trans hends
      · change (t.secondary.contents.rdropWhile fun c => !t.ends c) <+: ((t.counted c).putch c).contents.rdropWhile fun c => !t.ends c
        rw [hput]
        exact rdropWhile_concat_prefix
    | rubEcho c hignored hc herase hlive hecho =>
      have hcareful : t.overlooks = false := by
        unfold Tty.overlooks
        simp [hc, herase.1, herase.2]
      exact Same.lined (Same.swap (f := [.cooked]) (g := [.write, .dec, .cooked]) rfl rfl (by simp) (by simp)) hI hcareful nofun
    | keepEcho c hignored hc herase hecho =>
      obtain ⟨hdata, hcontents, _⟩ := @counted_spec t c
      have hkept := overlooks_kept hread hroom hignored hc herase
      have hpending : pending ⟨{ t with readQ := t.readQ.getch, secondary := t.counted c, writeQ := t.writeQ.putAll (t.echoed c) },
          .write :: .put c :: .cooked :: k⟩ = pending ⟨t, .cooked :: k⟩ + if t.ends c then 1 else 0 := pending_put
      refine ⟨Iff.trans ⟨fun h => ?_, fun h => ⟨?_, fun b hb => ?_, fun b hb => ?_⟩⟩ hkept.symm, fun _ => ?_⟩
      · have h : (t.counted c).data = BitVec.ofNat 32 ((t.counted c).contents.countP t.ends + pending _) := h.data
        rw [hpending, hcontents, hdata, show t.secondary.data = _ from hI.data, ← Nat.add_assoc] at h
        exact count_concat.mp h
      · change (t.counted c).data = BitVec.ofNat 32 ((t.counted c).contents.countP t.ends + pending _)
        rw [hpending, hcontents, hdata, show t.secondary.data = _ from hI.data, ← Nat.add_assoc]
        exact count_concat.mpr h
      · exact hI.queued b (hcontents ▸ hb)
      · rcases List.mem_cons.mp hb with hb | hb
        · cases hb
        · rcases List.mem_cons.mp hb with hb | hb
          · cases hb
            exact fun hends => h.trans hends
          · exact hI.counted b hb
      · change (t.secondary.contents.rdropWhile fun c => !t.ends c) <+: (t.counted c).contents.rdropWhile fun c => !t.ends c
        rw [hcontents]

theorem count_le {q : TtyQueue} : q.contents.countP p ≤ ttyBufSize - 1 := by
  have hlen := @TtyQueue.length_contents q
  have hlt := @TtyQueue.chars_lt q
  have hle := List.countP_le_length (p := p) (l := q.contents)
  unfold ttyBufSize at *
  omega

theorem put_lined (hI : Counts ⟨t, .put c :: k⟩) : Lined ⟨t, .put c :: k⟩ .next ⟨{ t with secondary := t.secondary.putch c }, k⟩ := by
  have hdata : t.secondary.data = BitVec.ofNat 32 (t.secondary.contents.countP t.ends + pending ⟨t, .put c :: k⟩) := hI.data
  rw [pending_put] at hdata
  have hcounted : ∀ b, .put b ∈ k → t.ends b = true → t.isEnd b = true := fun b hb => hI.counted b (List.mem_cons_of_mem _ hb)
  cases hfull : t.secondary.isFull with
  | false =>
    have hput := TtyQueue.contents_putch (c := c) hfull
    refine ⟨⟨fun _ => .inl hfull, fun _ => ⟨?_, fun b hb => ?_, hcounted⟩⟩, fun _ => ?_⟩
    · change t.secondary.data = BitVec.ofNat 32 ((t.secondary.putch c).contents.countP t.ends + pending ⟨t, k⟩)
      rw [hdata, hput, List.countP_append, List.countP_singleton]
      congr 1
      omega
    · change b ∈ (t.secondary.putch c).contents at hb
      rw [hput] at hb
      rcases List.mem_append.mp hb with hb | hb
      · exact hI.queued b hb
      · rw [List.mem_singleton.mp hb]
        exact hI.counted c List.mem_cons_self
    · change (t.secondary.contents.rdropWhile fun c => !t.ends c) <+: (t.secondary.putch c).contents.rdropWhile fun c => !t.ends c
      rw [hput]
      exact rdropWhile_concat_prefix
  | true =>
    have hput := TtyQueue.contents_putch_full (c := c) hfull
    have hzero : (t.secondary.contents.countP t.ends + if t.ends c then 1 else 0) = 0 ↔ ∀ b ∈ c :: t.secondary.contents, t.ends b = false := by
      rw [← List.countP_cons, List.countP_eq_zero]
      exact forall₂_congr fun b _ => Bool.not_eq_true _ ▸ Iff.rfl
    have hle := @count_le t.ends t.secondary
    have hone : (if t.ends c then 1 else 0) ≤ 1 := by split <;> omega
    have hdrop : t.secondary.data = BitVec.ofNat 32 (pending ⟨t, k⟩) ↔ ∀ b ∈ c :: t.secondary.contents, t.ends b = false := by
      rw [hdata, ← hzero, ← count_drop (n := pending ⟨t, k⟩) (by unfold ttyBufSize at *; omega)]
      rw [Nat.add_comm (pending _), Nat.add_assoc]
    have hcareful : Careful ⟨t, .put c :: k⟩ .next ↔ ∀ b ∈ c :: t.secondary.contents, t.ends b = false := by
      refine ⟨fun h => h.resolve_left ?_, .inr⟩
      rw [hfull]
      exact nofun
    have hcounts : Counts ⟨{ t with secondary := t.secondary.putch c }, k⟩ ↔ t.secondary.data = BitVec.ofNat 32 (pending ⟨t, k⟩) := by
      refine ⟨fun h => ?_, fun h => ⟨?_, fun b hb => ?_, hcounted⟩⟩
      · have h : t.secondary.data = BitVec.ofNat 32 ((t.secondary.putch c).contents.countP t.ends + pending ⟨t, k⟩) := h.data
        rw [hput, List.countP_nil, Nat.zero_add] at h
        exact h
      · change t.secondary.data = BitVec.ofNat 32 ((t.secondary.putch c).contents.countP t.ends + pending ⟨t, k⟩)
        rw [hput, List.countP_nil, Nat.zero_add]
        exact h
      · change b ∈ (t.secondary.putch c).contents at hb
        rw [hput] at hb
        cases hb
    refine ⟨hcounts.trans (hdrop.trans hcareful.symm), fun h => ?_⟩
    have hnone := hcareful.mp h
    have hnil : t.completed = [] := List.rdropWhile_eq_nil_iff.mpr fun b hb => by rw [hnone b (List.mem_cons_of_mem _ hb)]; rfl
    change t.completed <+: _
    rw [hnil]
    exact List.nil_prefix

theorem dec_lined (hI : Counts ⟨t, .dec :: k⟩) : Lined ⟨t, .dec :: k⟩ .next ⟨{ t with secondary := t.secondary.dec }, k⟩ := by
  have hdata : t.secondary.data = BitVec.ofNat 32 (t.secondary.contents.countP t.ends + pending ⟨t, k⟩) := hI.data
  have hcounted : ∀ b, .put b ∈ k → t.ends b = true → t.isEnd b = true := fun b hb => hI.counted b (List.mem_cons_of_mem _ hb)
  cases hempty : t.secondary.isEmpty with
  | true =>
    have hnil := TtyQueue.isEmpty_iff_contents.mp hempty
    have hle := @count_le t.ends t.secondary.dec
    have hzero : t.secondary.dec.contents.countP t.ends = 0 ↔ ∀ b ∈ t.secondary.dec.contents, t.ends b = false := by
      rw [List.countP_eq_zero]
      exact forall₂_congr fun b _ => Bool.not_eq_true _ ▸ Iff.rfl
    have hcareful : Careful ⟨t, .dec :: k⟩ .next ↔ ∀ b ∈ t.secondary.dec.contents, t.ends b = false := by
      change (if t.secondary.isEmpty = true then _ else _) ↔ _
      rw [if_pos hempty]
    rw [hnil, List.countP_nil, Nat.zero_add] at hdata
    have hdrop : t.secondary.data = BitVec.ofNat 32 (t.secondary.dec.contents.countP t.ends + pending ⟨t, k⟩) ↔
        t.secondary.dec.contents.countP t.ends = 0 := by
      rw [hdata, ← count_drop (n := pending ⟨t, k⟩) (by unfold ttyBufSize at *; omega)]
      exact eq_comm
    refine ⟨⟨fun h => hcareful.mpr (hzero.mp (hdrop.mp h.data)), fun h => ?_⟩, fun h => ?_⟩
    · refine ⟨hdrop.mpr (hzero.mpr (hcareful.mp h)), fun b hb hends => ?_, hcounted⟩
      exact absurd ((hcareful.mp h b hb).symm.trans hends) Bool.false_ne_true
    · change (t.secondary.contents.rdropWhile fun c => !t.ends c) <+: _
      rw [hnil]
      exact List.nil_prefix
  | false =>
    have hcontents := TtyQueue.contents_dec hempty
    have hcareful : Careful ⟨t, .dec :: k⟩ .next ↔ t.ends t.secondary.last = false := by
      change (if t.secondary.isEmpty = true then _ else _) ↔ _
      rw [if_neg (by rw [hempty]; exact Bool.false_ne_true)]
    rw [hcontents, List.countP_append, List.countP_singleton] at hdata
    have hdrop : t.secondary.data = BitVec.ofNat 32 (t.secondary.dec.contents.countP t.ends + pending ⟨t, k⟩) ↔ t.ends t.secondary.last = false := by
      rw [hdata]
      cases t.ends t.secondary.last with
      | true =>
        have hone := @count_drop 1 (t.secondary.dec.contents.countP t.ends + pending ⟨t, k⟩) (by decide)
        rw [if_pos rfl, Nat.add_comm _ 1, Nat.add_assoc]
        exact ⟨fun h => absurd (hone.mp h) (by decide), fun h => absurd h nofun⟩
      | false => exact ⟨fun _ => rfl, fun _ => rfl⟩
    refine ⟨⟨fun h => hcareful.mpr (hdrop.mp h.data), fun h => ?_⟩, fun h => ?_⟩
    · refine ⟨hdrop.mpr (hcareful.mp h), fun b hb => hI.queued b ?_, hcounted⟩
      rw [hcontents]
      exact List.mem_append_left _ hb
    · change (t.secondary.contents.rdropWhile fun c => !t.ends c) <+: t.secondary.dec.contents.rdropWhile fun c => !t.ends c
      rw [hcontents, List.rdropWhile_concat_pos _ _ _ (by rw [hcareful.mp h]; rfl)]

theorem next_lined (hI : s.Counts) (hs : s.next = some s') : s.Lined .next s' := by
  obtain ⟨t, frames⟩ := s
  cases frames with
  | nil => cases hs
  | cons f k =>
    cases f with
    | cooked =>
      cases Option.some.inj hs
      exact cooked_lined hI
    | put c =>
      cases Option.some.inj hs
      exact put_lined hI
    | dec =>
      cases Option.some.inj hs
      exact dec_lined hI
    | write =>
      cases Option.some.inj hs
      change Lined ⟨t, .write :: k⟩ .next (t.write k)
      unfold Tty.write
      split
      next => exact Same.lined (Same.swap (f := [.write]) (g := [.conWrite _]) rfl rfl (by simp) (by simp)) hI trivial nofun
      next => exact Same.lined (Same.swap (f := [.write]) (g := []) rfl rfl (by simp) (by simp)) hI trivial nofun
    | conWrite nr =>
      cases nr with
      | zero =>
        cases Option.some.inj hs
        exact Same.lined (Same.swap (f := [.conWrite 0]) (g := []) rfl rfl (by simp) (by simp)) hI trivial nofun
      | succ nr =>
        obtain ⟨c, _, rfl⟩ := Option.map_eq_some_iff.mp hs
        unfold Tty.conWrite
        dsimp only
        split
        next => exact Same.lined (Same.swap (f := [.conWrite (nr + 1)]) (g := [.respond, .conWrite nr]) rfl rfl (by simp) (by simp)) hI trivial nofun
        next => exact Same.lined (Same.swap (f := [.conWrite (nr + 1)]) (g := [.conWrite nr]) rfl rfl (by simp) (by simp)) hI trivial nofun
    | respond =>
      cases Option.some.inj hs
      exact Same.lined (Same.swap (f := [.respond]) (g := [.cooked]) rfl rfl (by simp) (by simp)) hI trivial nofun

theorem read_lined (hI : s.Counts) (hlive : s.tty.secondary.isEmpty = false) : s.Lined .read { s with tty := TtyRun.read s.tty } := by
  have hcontents := TtyQueue.contents_getch hlive
  have hends : s.tty.ends s.tty.secondary.first = s.tty.isEnd s.tty.secondary.first := by
    cases hend : s.tty.isEnd s.tty.secondary.first with
    | true => exact ends_of_isEnd hend
    | false =>
      refine Bool.eq_false_iff.mpr fun h => ?_
      have := hI.queued _ (by rw [hcontents]; exact List.mem_cons_self) h
      rw [hend] at this
      cases this
  have hqueue : (TtyRun.read s.tty).secondary.contents = s.tty.secondary.getch.contents ∧
      (TtyRun.read s.tty).secondary.data = s.tty.secondary.data - if s.tty.isEnd s.tty.secondary.first then 1 else 0 := by
    unfold TtyRun.read
    dsimp only
    split
    next => exact ⟨rfl, rfl⟩
    next => exact ⟨rfl, (BitVec.sub_zero _).symm⟩
  obtain ⟨hrest, hdata⟩ := hqueue
  have hnow := hI.data
  rw [hcontents, List.countP_cons, hends] at hnow
  refine ⟨⟨fun _ => trivial, fun _ => ⟨?_, fun b hb => hI.queued b ?_, hI.counted⟩⟩, fun _ => ?_⟩
  · change (TtyRun.read s.tty).secondary.data = BitVec.ofNat 32 ((TtyRun.read s.tty).secondary.contents.countP s.tty.ends + s.pending)
    rw [hdata, hrest, hnow]
    generalize s.tty.secondary.getch.contents.countP s.tty.ends = n
    split <;> bv_omega
  · change b ∈ (TtyRun.read s.tty).secondary.contents at hb
    rw [hrest] at hb
    rw [hcontents]
    exact List.mem_cons_of_mem _ hb
  · change ((TtyRun.read s.tty).secondary.contents.rdropWhile fun c => !s.tty.ends c) = (s.tty.secondary.contents.rdropWhile fun c => !s.tty.ends c).tail
    rw [hrest, hcontents]
    exact rdropWhile_tail

theorem step_lined (hI : s.Counts) (hs : ttyStep s e = some s') (hfixed : ∀ termios, e = .ioctl termios → termios.eof = s.tty.termios.eof) :
    s.Lined e s' := by
  obtain ⟨t, frames⟩ := s
  cases e with
  | next => exact next_lined hI hs
  | keyboard cs =>
    obtain ⟨_, hs⟩ := Option.ite_none_right_eq_some.mp hs
    cases Option.some.inj hs
    exact Same.lined (Same.swap (f := []) (g := [.cooked]) rfl rfl (by simp) (by simp)) hI trivial nofun
  | receive c =>
    obtain ⟨_, hs⟩ := Option.ite_none_right_eq_some.mp hs
    cases Option.some.inj hs
    split
    next => exact Same.lined (Same.swap (f := []) (g := []) rfl rfl (by simp) (by simp)) hI trivial nofun
    next => exact Same.lined (Same.swap (f := []) (g := [.cooked]) rfl rfl (by simp) (by simp)) hI trivial nofun
  | transmit =>
    obtain ⟨_, hs⟩ := Option.ite_none_right_eq_some.mp hs
    cases Option.some.inj hs
    split
    next => exact Same.lined (Same.swap (f := []) (g := []) rfl rfl (by simp) (by simp)) hI trivial nofun
    next => exact Same.lined (Same.swap (f := []) (g := []) rfl rfl (by simp) (by simp)) hI trivial nofun
  | put c =>
    obtain ⟨_, hs⟩ := Option.ite_none_right_eq_some.mp hs
    cases Option.some.inj hs
    exact Same.lined (Same.swap (f := []) (g := []) rfl rfl (by simp) (by simp)) hI trivial nofun
  | flush =>
    obtain ⟨hnone, hs⟩ := Option.ite_none_right_eq_some.mp hs
    cases hnone
    cases Option.some.inj hs
    exact Same.lined (Same.swap (f := []) (g := [.write]) rfl rfl (by simp) (by simp)) hI trivial nofun
  | read =>
    obtain ⟨⟨_, hlive⟩, hs⟩ := Option.ite_none_right_eq_some.mp hs
    cases Option.some.inj hs
    exact read_lined hI hlive
  | ioctl termios =>
    obtain ⟨_, hs⟩ := Option.ite_none_right_eq_some.mp hs
    cases Option.some.inj hs
    exact Same.lined (Same.swap (f := []) (g := []) (hfixed termios rfl) rfl (by simp) (by simp)) hI (hfixed termios rfl) nofun

end TtyRun

/-- The console before any character, with another VEOF. -/
def bootWithEof (eof : BitVec 8) : TtyRun :=
  let t := ttyInit (some (Console.conInit (fun _ => 0) 0 0)) fun _ => false
  ⟨{ t with termios := { t.termios with cc := fun i => if i = 4 then eof else t.termios.cc i } }, []⟩

end RheeKernel
