import Mathlib.Data.List.Perm.Subperm
import RheeKernel.TtyTurns

namespace RheeKernel

/-- `n` steps of the calls under way. -/
inductive TtyRun.Steps : TtyRun → Nat → TtyRun → Prop
  | zero {s} : Steps s 0 s
  | succ {n s t u} : s.next = some t → Steps t n u → Steps s (n + 1) u

theorem TtyRun.Steps.trans {n m : Nat} {x y z : TtyRun} (h : x.Steps n y) (h' : y.Steps m z) : x.Steps (n + m) z := by
  induction h with
  | zero =>
    rw [Nat.zero_add]
    exact h'
  | succ h _ ih =>
    rw [Nat.add_right_comm]
    exact .succ h (ih h')

namespace Tty

open TtyRun

/-- What every step does to the output: characters are appended to what was put in and to what has come out, and those that come out are
written to the console. -/
structure Outputs (t t' : Tty) : Prop where
  termios : t'.termios = t.termios
  upper : t'.upper = t.upper
  stored : t.writeQ.stored <+: t'.writeQ.stored
  underrun : t.writeQ.underrun = true → t'.writeQ.underrun = true
  fetched : ∀ s, t.console = some s → ∃ cs, t'.writeQ.fetched = t.writeQ.fetched ++ cs ∧
    t'.console = some (s.writeAll (cs.map fun c => (t.termios.erase, c)))

variable {t t' u : Tty} {f : TtyFrame} {s : Console} {k : List TtyFrame} {n m nr : Nat} {c : BitVec 8} {cs bs : List (BitVec 8)} {q : TtyQueue} {x y z : TtyRun}

theorem Outputs.refl : Outputs t t :=
  ⟨rfl, rfl, List.prefix_rfl, id, fun s hs => ⟨[], (List.append_nil _).symm, hs⟩⟩

theorem writeAll_append : s.writeAll (cs.map (Prod.mk c) ++ bs.map (Prod.mk c)) = (s.writeAll (cs.map (Prod.mk c))).writeAll (bs.map (Prod.mk c)) :=
  List.foldl_append

theorem Outputs.trans (h : Outputs t t') (h' : Outputs t' u) : Outputs t u := by
  refine ⟨h'.termios.trans h.termios, h'.upper.trans h.upper, h.stored.trans h'.stored, fun hu => h'.underrun (h.underrun hu), fun s hs => ?_⟩
  obtain ⟨cs, hcs, hs'⟩ := h.fetched s hs
  obtain ⟨bs, hbs, hs''⟩ := h'.fetched _ hs'
  refine ⟨cs ++ bs, ?_, ?_⟩
  · rw [hbs, hcs, List.append_assoc]
  · rw [hs'', h.termios, List.map_append, writeAll_append]

theorem putAll_keeps : (q.putAll cs).stored = q.stored ++ cs ∧ (q.putAll cs).fetched = q.fetched ∧ (q.putAll cs).underrun = q.underrun := by
  induction cs generalizing q with
  | nil => exact ⟨(List.append_nil _).symm, rfl, rfl⟩
  | cons c cs ih =>
    obtain ⟨hstored, hfetched, hunder⟩ := @ih (q.putch c)
    refine ⟨hstored.trans ?_, hfetched, hunder⟩
    exact List.append_assoc q.stored [c] cs

theorem Outputs.putAll : Outputs t { t with writeQ := t.writeQ.putAll cs } := by
  obtain ⟨hstored, hfetched, hunder⟩ := @putAll_keeps cs t.writeQ
  refine ⟨rfl, rfl, ?_, fun hu => hunder.trans hu, fun s hs => ⟨[], ?_, hs⟩⟩
  · change t.writeQ.stored <+: (t.writeQ.putAll cs).stored
    rw [hstored]
    exact List.prefix_append _ _
  · rw [List.append_nil]
    exact hfetched

/-- A step that leaves the write queue alone. -/
theorem Outputs.quiet (htermios : t'.termios = t.termios) (hupper : t'.upper = t.upper) (hqueue : t'.writeQ = t.writeQ)
    (hconsole : t'.console = t.console) : Outputs t t' := by
  refine ⟨htermios, hupper, hqueue ▸ List.prefix_rfl, fun hu => hqueue ▸ hu, fun s hs => ⟨[], ?_, hconsole.trans hs⟩⟩
  rw [hqueue, List.append_nil]

theorem keep_outputs : Outputs t (t.keep c k).tty := by
  have hdata : Outputs t (if t.isEnd c then { t with secondary := { t.secondary with data := t.secondary.data + 1 } } else t) := by
    split
    next => exact .quiet rfl rfl rfl rfl
    next => exact .refl
  unfold keep
  generalize (if t.isEnd c then { t with secondary := { t.secondary with data := t.secondary.data + 1 } } else t) = u at hdata ⊢
  dsimp only
  split
  next => exact hdata.trans .putAll
  next => exact hdata.trans (.quiet rfl rfl rfl rfl)

theorem eraseLast_outputs : Outputs t (t.eraseLast k).tty := by
  unfold eraseLast
  split_ifs
  · exact .refl
  · exact .putAll
  · exact .quiet rfl rfl rfl rfl

theorem cook_outputs : Outputs t (t.cook c k).tty := by
  unfold cook
  split_ifs
  · exact eraseLast_outputs
  · exact .quiet rfl rfl rfl rfl
  · exact .quiet rfl rfl rfl rfl
  · exact .refl
  · exact keep_outputs

theorem copyToCooked_outputs : Outputs t (t.copyToCooked k).tty := by
  unfold copyToCooked
  split
  next => exact .refl
  next =>
    have htaken : Outputs t { t with readQ := t.readQ.getch } := .quiet rfl rfl rfl rfl
    dsimp only
    cases Tty.mapped { t with readQ := t.readQ.getch } t.readQ.first with
    | none => exact htaken
    | some c => exact htaken.trans cook_outputs

theorem conWrite_outputs (hs : t.console = some s) : Outputs t (t.conWrite s nr k).tty := by
  refine ⟨rfl, rfl, List.prefix_rfl, fun hu => ?_, fun s' hs' => ⟨[t.writeQ.first], rfl, ?_⟩⟩
  · change (t.writeQ.underrun || t.writeQ.isEmpty) = true
    rw [hu]
    rfl
  · cases Option.some.inj (hs.symm.trans hs')
    rfl

theorem next_outputs (h : x.next = some y) : Outputs x.tty y.tty := by
  obtain ⟨t, frames⟩ := x
  cases frames with
  | nil => cases h
  | cons f k =>
    cases f with
    | cooked =>
      cases Option.some.inj h
      exact copyToCooked_outputs
    | put c =>
      cases Option.some.inj h
      exact .quiet rfl rfl rfl rfl
    | dec =>
      cases Option.some.inj h
      exact .quiet rfl rfl rfl rfl
    | write =>
      cases Option.some.inj h
      change Outputs t (t.write k).tty
      unfold Tty.write
      split <;> exact .refl
    | conWrite nr =>
      cases nr with
      | zero =>
        cases Option.some.inj h
        exact .refl
      | succ nr =>
        obtain ⟨s, hs, rfl⟩ := Option.map_eq_some_iff.mp h
        exact conWrite_outputs hs
    | respond =>
      have h : some (t.respond k) = some y := h
      rw [← Option.some.inj h]
      exact (Outputs.quiet rfl rfl rfl rfl : Outputs t { t with readQ := t.readQ.putAll response })

theorem steps_outputs (h : x.Steps n y) : Outputs x.tty y.tty := by
  induction h with
  | zero => exact .refl
  | succ h _ ih => exact (next_outputs h).trans ih

/-- A `Z` may be echoed, and answered. -/
def weight (t : Tty) (c : BitVec 8) : Nat := if t.mapped c = some (Console.byte 'Z') ∨ t.mapped c = some 26 then 9 else 1

/-- The echo of the character is short, and only a character of that weight has a `Z` in it, at the end. -/
structure Echo (t : Tty) (c : BitVec 8) (cs : List (BitVec 8)) : Prop where
  length : cs.length ≤ 2
  middle : Console.byte 'Z' ∉ cs.dropLast
  weight : Console.byte 'Z' ∈ cs → t.weight c = 9

/-- A turn as the output sees it: the character is ignored, or taken without an echo, or echoed. -/
inductive Takes (t : Tty) (k : List TtyFrame) : TtyRun → Prop
  | skip (stopped : Bool) (h : t.ignored t.readQ.first = true) : Takes t k ⟨{ t with readQ := t.readQ.getch, stopped := stopped }, .cooked :: k⟩
  | silent (secondary : TtyQueue) (h : t.ignored t.readQ.first = false) (hecho : t.termios.echo = false) :
    Takes t k ⟨{ t with readQ := t.readQ.getch, secondary := secondary }, .cooked :: k⟩
  | echo (secondary : TtyQueue) (cs : List (BitVec 8)) (f : TtyFrame) (h : t.ignored t.readQ.first = false) (hecho : t.termios.echo = true)
    (hcs : t.Echo t.readQ.first cs) (hf : f = .dec ∨ ∃ c, f = .put c) :
    Takes t k ⟨{ t with readQ := t.readQ.getch, secondary := secondary, writeQ := t.writeQ.putAll cs }, .write :: f :: .cooked :: k⟩

theorem Echo.plain {b : BitVec 8} (hlength : cs.length ≤ 2) (h : Console.byte 'Z' ∉ cs) : t.Echo b cs :=
  ⟨hlength, fun hz => h (List.dropLast_subset _ hz), fun hz => absurd hz h⟩

theorem echoed_echo {b : BitVec 8} (h : t.mapped b = some c) : t.Echo b (t.echoed c) := by
  unfold echoed
  split_ifs
  · exact .plain (Nat.le_refl 2) (by decide)
  · refine ⟨Nat.le_refl 2, show Console.byte 'Z' ∉ [Console.byte '^'] by decide, fun hz => ?_⟩
    have hz : Console.byte 'Z' = c + 64 := by
      rcases List.mem_cons.mp hz with hz | hz
      · exact absurd hz (by decide)
      · exact List.mem_singleton.mp hz
    have hc : c = 26 := by
      change 90#8 = c + 64 at hz
      bv_omega
    exact if_pos (.inr (h.trans (congrArg some hc)))
  · exact .plain (Nat.zero_le 2) List.not_mem_nil
  · refine ⟨Nat.le_succ 1, List.not_mem_nil, fun hz => ?_⟩
    exact if_pos (.inl (h.trans (congrArg some (List.mem_singleton.mp hz).symm)))

theorem rubbed_echo {b : BitVec 8} : t.Echo b (rubbed c) := by
  unfold rubbed
  split
  next => exact .plain (Nat.le_refl 2) (by decide)
  next => exact .plain (Nat.le_succ 1) (by decide)

theorem takes (hread : t.readQ.isEmpty = false) (hroom : t.secondary.isFull = false) : t.Takes k (t.copyToCooked k) := by
  have hturn := turn (k := k) hread hroom
  generalize t.copyToCooked k = y at hturn ⊢
  cases hturn with
  | skip stopped h => exact .skip stopped h
  | rub c h hc herase hlive hecho => exact .silent _ h hecho
  | keep c h hc herase hecho => exact .silent _ h hecho
  | rubEcho c h hc herase hlive hecho => exact .echo t.secondary _ .dec h hecho rubbed_echo (.inl rfl)
  | keepEcho c h hc herase hecho => exact .echo _ _ (.put c) h hecho (echoed_echo hc) (.inr ⟨c, rfl⟩)

/-- The weights of the characters that a queue holds. -/
def load (t : Tty) (q : TtyQueue) : Nat := (q.contents.map t.weight).sum

theorem weight_congr (htermios : t'.termios = t.termios) (hupper : t'.upper = t.upper) : t'.weight = t.weight := by
  obtain ⟨termios, _, _, upper, _, _, _⟩ := t
  obtain ⟨termios', _, _, upper', _, _, _⟩ := t'
  cases htermios
  cases hupper
  rfl

theorem weight_pos : 0 < t.weight c := by
  unfold weight
  split <;> decide

theorem load_getch (h : q.isEmpty = false) : t.load q = t.weight q.first + t.load q.getch := by
  unfold load
  rw [TtyQueue.contents_getch h, List.map_cons, List.sum_cons]

theorem load_putch : t.load (q.putch c) ≤ t.load q + t.weight c := by
  unfold load
  cases hfull : q.isFull with
  | true =>
    rw [TtyQueue.contents_putch_full hfull]
    exact Nat.zero_le _
  | false =>
    rw [TtyQueue.contents_putch hfull, List.map_append, List.sum_append]
    exact Nat.le_refl _

theorem load_putAll (h : ∀ c ∈ cs, t.weight c = 1) : t.load (q.putAll cs) ≤ t.load q + cs.length := by
  induction cs generalizing q with
  | nil => exact Nat.le_refl _
  | cons c cs ih =>
    have hput := @load_putch t c q
    have hc := h c List.mem_cons_self
    have hrest := @ih (q.putch c) fun d hd => h d (List.mem_cons_of_mem _ hd)
    rw [List.length_cons]
    exact hrest.trans (by omega)

/-- The characters of the answer are no letters that `tolower` changes. -/
theorem mapped_response (h : c ∈ response) : t.mapped c = some c := by
  have hplain : ∀ c ∈ response, c ≠ 13 ∧ c ≠ 10 ∧ 0 ≤ c.toInt ∧ ¬ (65 ≤ c.toInt ∧ c.toInt ≤ 90) := by decide
  obtain ⟨hcr, hnl, hpos, hupper⟩ := hplain c h
  have hlower : t.toLower c = c := by
    unfold toLower isUpper
    rw [if_pos hpos, if_neg (by simpa using hupper)]
  unfold mapped
  rw [if_neg hcr, if_neg fun h => hnl h.1, Option.map_some, hlower, ite_self]

theorem weight_response (h : c ∈ response) : t.weight c = 1 := by
  have hother : ∀ c ∈ response, c ≠ Console.byte 'Z' ∧ c ≠ 26 := by decide
  obtain ⟨hz, hsub⟩ := hother c h
  unfold weight
  rw [mapped_response h, if_neg]
  rintro (h | h)
  · exact hz (Option.some.inj h)
  · exact hsub (Option.some.inj h)

theorem load_respond : t.load (t.readQ.putAll response) ≤ t.load t.readQ + 7 := load_putAll fun _ hc => weight_response hc

/-- A step of `con_write` with the character that it takes. -/
structure Shown (t : Tty) (s : Console) (c : BitVec 8) (cs : List (BitVec 8)) (t' : Tty) : Prop where
  outputs : Outputs t t'
  contents : t'.writeQ.contents = cs
  whole : t.writeQ.Whole → t'.writeQ.Whole
  console : t'.console = some (s.write t.termios.erase c)
  readQ : t'.readQ = t.readQ
  secondary : t'.secondary = t.secondary

theorem conWrite_next (hs : t.console = some s) (hc : t.writeQ.contents = c :: cs) : ∃ t', t.Shown s c cs t' ∧
    TtyRun.next ⟨t, .conWrite (cs.length + 1) :: k⟩ =
      some ⟨t', if s.asks c then .respond :: .conWrite cs.length :: k else .conWrite cs.length :: k⟩ := by
  have hpos : t.writeQ.isEmpty = false := by
    refine Bool.eq_false_iff.mpr fun h => ?_
    rw [TtyQueue.isEmpty_iff_contents.mp h] at hc
    cases hc
  have hfirst := (TtyQueue.contents_getch hpos).symm.trans hc
  obtain ⟨hfirst, hrest⟩ := List.cons.inj hfirst
  refine ⟨(t.conWrite s cs.length k).tty, ⟨conWrite_outputs hs, hrest, fun h => h.getch hpos, ?_, rfl, rfl⟩, ?_⟩
  · rw [← hfirst]
    rfl
  · change (t.console.map fun s => t.conWrite s cs.length k) = _
    rw [hs, ← hfirst]
    rfl

/-- Calls under way leave an empty write queue from which nothing is missing. -/
structure Settles (t t' : Tty) : Prop where
  outputs : Outputs t t'
  console : t'.console.isSome
  empty : t'.writeQ.contents = []
  whole : t'.writeQ.Whole

theorem Outputs.console (h : Outputs t t') (hs : t.console.isSome) : t'.console.isSome := by
  obtain ⟨s, hs⟩ := Option.isSome_iff_exists.mp hs
  obtain ⟨_, _, hs'⟩ := h.fetched s hs
  rw [hs']
  rfl

/-- A short echo goes to the console, and an answer that it may ask for is dealt with as `copy_to_cooked` does. -/
theorem echo_shown (hs : t.console.isSome) (hc : t.writeQ.contents = cs) (hw : t.writeQ.Whole) (hmiddle : Console.byte 'Z' ∉ cs.dropLast)
    (hcooked : Console.byte 'Z' ∈ cs → ∀ u k, u.console.isSome → u.writeQ.contents = [] → u.writeQ.Whole → u.load u.readQ ≤ t.load t.readQ + 7 →
      ∃ n u', Steps ⟨u, .cooked :: k⟩ n ⟨u', k⟩ ∧ u.Settles u' ∧ u'.load u'.readQ ≤ u.load u.readQ) :
    ∃ n t', Steps ⟨t, .conWrite cs.length :: k⟩ n ⟨t', k⟩ ∧ t.Settles t' ∧
      t'.load t'.readQ ≤ t.load t.readQ + if Console.byte 'Z' ∈ cs then 7 else 0 := by
  induction cs generalizing t with
  | nil => exact ⟨1, t, .succ rfl .zero, ⟨.refl, hs, hc, hw⟩, Nat.le_refl _⟩
  | cons c cs ih =>
    obtain ⟨s, hs⟩ := Option.isSome_iff_exists.mp hs
    obtain ⟨u, hu, hnext⟩ := conWrite_next (k := k) hs hc
    have hconsole : u.console.isSome := by
      rw [hu.console]
      rfl
    have hload : u.load u.readQ = t.load t.readQ := by
      unfold load
      rw [hu.readQ, weight_congr hu.outputs.termios hu.outputs.upper]
    cases hasks : s.asks c with
    | false =>
      rw [hasks, if_neg Bool.false_ne_true] at hnext
      have hmiddle' : Console.byte 'Z' ∉ cs.dropLast := fun hz => by
        cases cs with
        | nil => cases hz
        | cons d ds => exact hmiddle (List.mem_cons_of_mem _ hz)
      obtain ⟨n, t', hsteps, hset, hle⟩ := ih hconsole hu.contents (hu.whole hw) hmiddle' fun hz v k hv hv' hv'' hle =>
        hcooked (List.mem_cons_of_mem _ hz) v k hv hv' hv'' (hload ▸ hle)
      refine ⟨n + 1, t', .succ hnext hsteps, ⟨hu.outputs.trans hset.outputs, hset.console, hset.empty, hset.whole⟩, ?_⟩
      rw [hload] at hle
      refine hle.trans (Nat.add_le_add_left ?_ _)
      split
      next hz => rw [if_pos (List.mem_cons_of_mem _ hz)]
      next => exact Nat.zero_le _
    | true =>
      rw [hasks, if_pos rfl] at hnext
      have hz : c = Console.byte 'Z' := (of_decide_eq_true hasks).2
      have hnil : cs = [] := by
        cases cs with
        | nil => rfl
        | cons d ds => exact absurd (hz ▸ List.mem_cons_self) hmiddle
      subst hnil
      have hmem : Console.byte 'Z' ∈ [c] := hz ▸ List.mem_cons_self
      have hanswer : u.load (u.readQ.putAll response) ≤ t.load t.readQ + 7 := by
        rw [← hload]
        exact load_respond
      have hweight : Tty.weight { u with readQ := u.readQ.putAll response } = u.weight := weight_congr rfl rfl
      obtain ⟨n, t', hsteps, hset, hle⟩ := hcooked hmem { u with readQ := u.readQ.putAll response } (.conWrite 0 :: k) hconsole hu.contents
        (hu.whole hw) (by unfold load at hanswer ⊢; rw [hweight]; exact hanswer)
      have hquiet : Outputs u { u with readQ := u.readQ.putAll response } := .quiet rfl rfl rfl rfl
      refine ⟨n + 1 + 1 + 1, t', .succ hnext (.succ rfl (hsteps.trans (.succ rfl .zero))), ⟨(hu.outputs.trans hquiet).trans hset.outputs,
        hset.console, hset.empty, hset.whole⟩, hle.trans ?_⟩
      rw [if_pos hmem]
      unfold load at hanswer ⊢
      rw [hweight]
      exact hanswer

theorem putAll_empty (hc : q.contents = []) (hlength : cs.length ≤ 7) :
    (q.putAll cs).contents = cs ∧ (q.putAll cs).chars = cs.length ∧ (q.Whole → (q.putAll cs).Whole) := by
  have hchars : q.chars = 0 := by rw [← TtyQueue.length_contents, hc, List.length_nil]
  have hleft := @TtyQueue.left_eq q
  obtain ⟨hcontents, hlen, _, hwhole⟩ := @TtyQueue.contents_putAll q cs (by unfold ttyBufSize at hleft; omega)
  rw [hc, List.nil_append] at hcontents
  rw [hchars, Nat.zero_add] at hlen
  exact ⟨hcontents, hlen, hwhole⟩

theorem write_next (hs : t.console.isSome) (hn : t.writeQ.chars = n) : TtyRun.next ⟨t, .write :: k⟩ = some ⟨t, .conWrite n :: k⟩ := by
  change some (t.write k) = _
  unfold Tty.write
  rw [if_pos hs, hn]

/-- From an empty write queue on, `copy_to_cooked` comes to its end and leaves the queue empty. -/
theorem cooked_returns (w : Nat) (hs : t.console.isSome) (hc : t.writeQ.contents = []) (hw : t.writeQ.Whole) (hle : t.load t.readQ ≤ w) :
    ∃ n t', Steps ⟨t, .cooked :: k⟩ n ⟨t', k⟩ ∧ t.Settles t' ∧ t'.load t'.readQ ≤ t.load t.readQ := by
  induction w using Nat.strong_induction_on generalizing t k with
  | _ w ih =>
    by_cases hexit : t.readQ.isEmpty = true ∨ t.secondary.isFull = true
    · have hnext : TtyRun.next ⟨t, .cooked :: k⟩ = some ⟨t, k⟩ := congrArg some (copyToCooked_exit hexit)
      exact ⟨1, t, .succ hnext .zero, ⟨.refl, hs, hc, hw⟩, Nat.le_refl _⟩
    · obtain ⟨hread, hroom⟩ := not_or.mp hexit
      have hread := Bool.eq_false_iff.mpr hread
      have hpos := @weight_pos t t.readQ.first
      have hdrop := @load_getch t _ hread
      -- With less in the read queue the loop goes on as it should.
      have hless : ∀ u : Tty, u.console.isSome → u.writeQ.contents = [] → u.writeQ.Whole → u.load u.readQ < t.load t.readQ → Outputs t u →
          ∃ n t', Steps ⟨u, .cooked :: k⟩ n ⟨t', k⟩ ∧ t.Settles t' ∧ t'.load t'.readQ ≤ t.load t.readQ := by
        intro u hs hc hw hlt hout
        obtain ⟨n, t', hsteps, hset, hle⟩ := ih _ (hlt.trans_le ‹_›) hs hc hw (Nat.le_refl _)
        exact ⟨n, t', hsteps, ⟨hout.trans hset.outputs, hset.console, hset.empty, hset.whole⟩, hle.trans hlt.le⟩
      have hcase := takes (k := k) hread (Bool.eq_false_iff.mpr hroom)
      have hnext : TtyRun.next ⟨t, .cooked :: k⟩ = some (t.copyToCooked k) := rfl
      generalize t.copyToCooked k = y at hcase hnext
      cases hcase with
      | skip stopped h =>
        obtain ⟨n, t', hsteps, hset⟩ := hless { t with readQ := t.readQ.getch, stopped := stopped } hs hc hw
          (by change t.load t.readQ.getch < _; omega) (.quiet rfl rfl rfl rfl)
        exact ⟨n + 1, t', .succ hnext hsteps, hset⟩
      | silent secondary h hecho =>
        obtain ⟨n, t', hsteps, hset⟩ := hless { t with readQ := t.readQ.getch, secondary := secondary } hs hc hw
          (by change t.load t.readQ.getch < _; omega) (.quiet rfl rfl rfl rfl)
        exact ⟨n + 1, t', .succ hnext hsteps, hset⟩
      | echo secondary cs f h hecho hcs hf =>
        obtain ⟨hcontents, hchars, hwhole⟩ := putAll_empty hc (hcs.length.trans (by decide))
        obtain ⟨n, u, hsteps, hset, hle⟩ := echo_shown (t := { t with readQ := t.readQ.getch, secondary := secondary, writeQ := t.writeQ.putAll cs })
          (k := f :: .cooked :: k) hs hcontents (hwhole hw) hcs.middle fun hz u k hs hc hw hle' => by
            have hlt : u.load u.readQ < t.load t.readQ := by
              have := hcs.weight hz
              change _ ≤ t.load t.readQ.getch + 7 at hle'
              omega
            exact ih _ (hlt.trans_le ‹_›) hs hc hw (Nat.le_refl _)
        have hless' : u.load u.readQ < t.load t.readQ := by
          change _ ≤ t.load t.readQ.getch + _ at hle
          split at hle
          next hz =>
            have := hcs.weight hz
            omega
          next => omega
        have hsecond : ∃ q, TtyRun.next ⟨u, f :: .cooked :: k⟩ = some ⟨{ u with secondary := q }, .cooked :: k⟩ := by
          rcases hf with rfl | ⟨c, rfl⟩
          · exact ⟨_, rfl⟩
          · exact ⟨_, rfl⟩
        obtain ⟨q, hsecond⟩ := hsecond
        have hout : Outputs t { t with readQ := t.readQ.getch, secondary := secondary, writeQ := t.writeQ.putAll cs } :=
          Outputs.putAll.trans (.quiet rfl rfl rfl rfl)
        have hlast : Outputs u { u with secondary := q } := .quiet rfl rfl rfl rfl
        obtain ⟨m, t', hsteps', hset'⟩ := hless { u with secondary := q } hset.console hset.empty hset.whole hless'
          ((hout.trans hset.outputs).trans hlast)
        have hwrite := write_next (t := { t with readQ := t.readQ.getch, secondary := secondary, writeQ := t.writeQ.putAll cs })
          (k := f :: .cooked :: k) hs hchars
        exact ⟨n + (m + 1) + 1 + 1, t', .succ hnext (.succ hwrite (hsteps.trans (.succ hsecond hsteps'))), hset'⟩

/-- No character that `copy_to_cooked` takes now is echoed. -/
def Mute (t : Tty) : Prop := t.termios.echo = false ∨ t.secondary.isFull = true ∨ ∀ c ∈ t.readQ.contents, t.ignored c = true

theorem mute_withReadQ {q : TtyQueue} (h : t.termios.echo = false ∨ t.secondary.isFull = true ∨ ∀ c ∈ q.contents, t.ignored c = true) :
    Mute { t with readQ := q } := h

/-- Without an echo `copy_to_cooked` has nothing to do with the output; if it might echo, it does not change the secondary queue. -/
theorem mute_returns (hmute : t.Mute) : ∃ n t', Steps ⟨t, .cooked :: k⟩ n ⟨t', k⟩ ∧ t'.termios = t.termios ∧ t'.upper = t.upper ∧
    t'.console = t.console ∧ t'.writeQ = t.writeQ ∧ (t.termios.echo = true → t'.secondary = t.secondary ∧
      (t.secondary.isFull = true ∨ t'.readQ.contents = [])) := by
  induction hn : t.readQ.chars generalizing t with
  | zero =>
    have hempty := TtyQueue.isEmpty_iff.mpr hn
    have hnext : TtyRun.next ⟨t, .cooked :: k⟩ = some ⟨t, k⟩ := congrArg some (copyToCooked_exit (.inl hempty))
    exact ⟨1, t, .succ hnext .zero, rfl, rfl, rfl, rfl, fun _ => ⟨rfl, .inr (TtyQueue.isEmpty_iff_contents.mp hempty)⟩⟩
  | succ m ih =>
    have hread : t.readQ.isEmpty = false := by
      refine Bool.eq_false_iff.mpr fun h => ?_
      have := TtyQueue.isEmpty_iff.mp h
      omega
    have hchars := TtyQueue.chars_getch hread
    cases hfull : t.secondary.isFull with
    | true =>
      have hnext : TtyRun.next ⟨t, .cooked :: k⟩ = some ⟨t, k⟩ := congrArg some (copyToCooked_exit (.inr hfull))
      exact ⟨1, t, .succ hnext .zero, rfl, rfl, rfl, rfl, fun _ => ⟨rfl, .inl rfl⟩⟩
    | false =>
      have hcase := takes (k := k) hread hfull
      have hnext : TtyRun.next ⟨t, .cooked :: k⟩ = some (t.copyToCooked k) := rfl
      generalize t.copyToCooked k = y at hcase hnext
      have hrest : ∀ c ∈ t.readQ.getch.contents, c ∈ t.readQ.contents := fun c hc => by
        rw [TtyQueue.contents_getch hread]
        exact List.mem_cons_of_mem _ hc
      cases hcase with
      | skip stopped h =>
        have hmute' : Mute { t with readQ := t.readQ.getch, stopped := stopped } := by
          rcases hmute with hecho | hfull | hall
          · exact .inl hecho
          · exact .inr (.inl hfull)
          · exact .inr (.inr fun c hc => hall c (hrest c hc))
        obtain ⟨n, t', hsteps, htermios, hupper, hconsole, hqueue, hsame⟩ := ih hmute' (by dsimp only; omega)
        refine ⟨n + 1, t', .succ hnext hsteps, htermios, hupper, hconsole, hqueue, fun he => ?_⟩
        obtain ⟨hsecondary, hempty⟩ := hsame he
        rw [hfull] at hempty
        exact ⟨hsecondary, hempty⟩
      | silent secondary h hecho =>
        obtain ⟨n, t', hsteps, htermios, hupper, hconsole, hqueue, _⟩ :=
          @ih { t with readQ := t.readQ.getch, secondary := secondary } (.inl hecho) (by dsimp only; omega)
        refine ⟨n + 1, t', .succ hnext hsteps, htermios, hupper, hconsole, hqueue, fun he => ?_⟩
        rw [hecho] at he
        cases he
      | echo secondary cs f h hecho hcs hf =>
        rcases hmute with hno | hno | hall
        · rw [hecho] at hno
          cases hno
        · rw [hfull] at hno
          cases hno
        · have hfirst := hall t.readQ.first (by rw [TtyQueue.contents_getch hread]; exact List.mem_cons_self)
          rw [h] at hfirst
          cases hfirst

/-- No answer that is asked for before the last of the characters is echoed: there is no echo, or no room behind it, or no such answer, or
one that is ignored with all that waits in front of it. -/
def Undisturbed (t : Tty) (s : Console) (cs : List (BitVec 8)) : Prop :=
  t.termios.echo = false ∨ t.secondary.isFull = true ∨ s.queries t.termios.erase cs.dropLast = 0 ∨
    s.queries t.termios.erase cs.dropLast = 1 ∧ ∀ c ∈ (t.readQ.putAll response).contents, t.ignored c = true

theorem ignored_congr (htermios : t'.termios = t.termios) (hupper : t'.upper = t.upper) (hsecondary : t'.secondary = t.secondary) :
    t'.ignored = t.ignored := by
  obtain ⟨termios, _, _, upper, _, _, secondary⟩ := t
  obtain ⟨termios', _, _, upper', _, _, secondary'⟩ := t'
  cases htermios
  cases hupper
  cases hsecondary
  rfl

theorem undisturbed_cons (hu : t.Shown s c cs u) (hasks : s.asks c = false) :
    t.Undisturbed s (c :: cs) ↔ u.Undisturbed (s.write t.termios.erase c) cs := by
  unfold Undisturbed
  rw [hu.outputs.termios, hu.secondary, hu.readQ, ignored_congr hu.outputs.termios hu.outputs.upper hu.secondary]
  cases cs with
  | nil => exact ⟨fun _ => .inr (.inr (.inl rfl)), fun _ => .inr (.inr (.inl rfl))⟩
  | cons d ds =>
    have hqueries : s.queries t.termios.erase (c :: d :: ds).dropLast =
        (s.write t.termios.erase c).queries t.termios.erase (d :: ds).dropLast := by
      change (if s.asks c then 1 else 0) + _ = _
      rw [hasks, if_neg Bool.false_ne_true, Nat.zero_add]
    rw [hqueries]

theorem conWrite_returns (hs : t.console = some s) (hc : t.writeQ.contents = cs) (hw : t.writeQ.Whole) (hcalm : t.Undisturbed s cs) :
    ∃ n t', Steps ⟨t, .conWrite cs.length :: k⟩ n ⟨t', k⟩ ∧ t.Settles t' := by
  induction cs generalizing t s with
  | nil => exact ⟨1, t, .succ rfl .zero, .refl, by rw [hs]; rfl, hc, hw⟩
  | cons c cs ih =>
    obtain ⟨u, hu, hnext⟩ := conWrite_next (k := k) hs hc
    have htermios := hu.outputs.termios
    have hignored := ignored_congr htermios hu.outputs.upper hu.secondary
    cases hasks : s.asks c with
    | false =>
      rw [hasks, if_neg Bool.false_ne_true] at hnext
      obtain ⟨n, t', hsteps, hset⟩ := ih hu.console hu.contents (hu.whole hw) ((undisturbed_cons hu hasks).mp hcalm)
      exact ⟨n + 1, t', .succ hnext hsteps, hu.outputs.trans hset.outputs, hset.console, hset.empty, hset.whole⟩
    | true =>
      rw [hasks, if_pos rfl] at hnext
      have hquiet : Outputs u { u with readQ := u.readQ.putAll response } := .quiet rfl rfl rfl rfl
      have hrespond : TtyRun.next ⟨u, .respond :: .conWrite cs.length :: k⟩ =
          some ⟨{ u with readQ := u.readQ.putAll response }, .cooked :: .conWrite cs.length :: k⟩ := rfl
      have hconsole : u.console.isSome := by
        rw [hu.console]
        rfl
      cases cs with
      | nil =>
        obtain ⟨n, t', hsteps, hset, _⟩ := cooked_returns (t := { u with readQ := u.readQ.putAll response }) (k := .conWrite 0 :: k) _
          hconsole hu.contents (hu.whole hw) (Nat.le_refl _)
        exact ⟨n + 1 + 1 + 1, t', .succ hnext (.succ hrespond (hsteps.trans (.succ rfl .zero))), (hu.outputs.trans hquiet).trans hset.outputs,
          hset.console, hset.empty, hset.whole⟩
      | cons d ds =>
        have hqueries : s.queries t.termios.erase (c :: d :: ds).dropLast =
            1 + (s.write t.termios.erase c).queries t.termios.erase (d :: ds).dropLast := by
          change (if s.asks c then 1 else 0) + _ = _
          rw [hasks, if_pos rfl]
        unfold Undisturbed at hcalm
        rw [hqueries] at hcalm
        have hmute : Mute { u with readQ := u.readQ.putAll response } := by
          apply mute_withReadQ
          rcases hcalm with hecho | hfull | hzero | ⟨_, hall⟩
          · exact .inl (htermios ▸ hecho)
          · exact .inr (.inl (hu.secondary ▸ hfull))
          · omega
          · refine .inr (.inr fun c hc => ?_)
            rw [hu.readQ] at hc
            exact (congrFun hignored c).trans (hall c hc)
        obtain ⟨n, v, hsteps, hvtermios, hvupper, hvconsole, hvqueue, hsame⟩ := mute_returns (k := .conWrite (d :: ds).length :: k) hmute
        have hv : Outputs u v := hquiet.trans (.quiet hvtermios hvupper hvqueue hvconsole)
        have hcalm' : v.Undisturbed (s.write t.termios.erase c) (d :: ds) := by
          have hvtermios : v.termios = t.termios := hv.termios.trans htermios
          cases hecho : t.termios.echo with
          | false => exact .inl (by rw [hvtermios, hecho])
          | true =>
            obtain ⟨hsecondary, _⟩ := hsame (by dsimp only; rw [htermios, hecho])
            rcases hcalm with hno | hfull | hzero | ⟨hone, _⟩
            · rw [hecho] at hno
              cases hno
            · refine .inr (.inl ?_)
              rw [hsecondary]
              exact hu.secondary ▸ hfull
            · omega
            · refine .inr (.inr (.inl ?_))
              rw [hvtermios]
              omega
        obtain ⟨m, t', hsteps', hset⟩ := @ih v _ (hvconsole.trans hu.console) (hvqueue ▸ hu.contents) (hvqueue ▸ hu.whole hw) hcalm'
        exact ⟨n + m + 1 + 1, t', .succ hnext (.succ hrespond (hsteps.trans hsteps')), (hu.outputs.trans hv).trans hset.outputs,
          hset.console, hset.empty, hset.whole⟩

/-- A character too many is taken from behind the head. -/
theorem underrun_absurd (h : Steps ⟨t, .conWrite (nr + 1) :: k⟩ n y) (hs : t.console.isSome) (hempty : t.writeQ.isEmpty = true)
    (hlen : y.frames = []) : y.tty.writeQ.underrun = true := by
  cases h with
  | zero => cases hlen
  | succ hnext hsteps =>
    obtain ⟨s, hs⟩ := Option.isSome_iff_exists.mp hs
    have hfirst : (t.conWrite s nr k).tty.writeQ.underrun = true := by
      change (t.writeQ.underrun || t.writeQ.isEmpty) = true
      rw [hempty, Bool.or_true]
    have hnext : (t.console.map fun s => t.conWrite s nr k) = some _ := hnext
    rw [hs] at hnext
    cases Option.some.inj hnext
    exact (steps_outputs hsteps).underrun hfirst

/-- Of a run that ends, the part in which the calls within `k` go on. A call that gets the output going leaves an empty write queue, and
`copy_to_cooked` does if it echoes. -/
theorem passes (h : Steps ⟨t, f :: k⟩ n y) (hend : y.frames = []) (hunder : y.tty.writeQ.underrun = false) (hs : t.console.isSome)
    (hready : ∀ nr, f = .conWrite nr → t.writeQ.chars = nr) :
    ∃ m t', m < n ∧ Steps ⟨t', k⟩ m y ∧ t'.console.isSome ∧
      (t'.writeQ.isEmpty = true ∨ t'.writeQ = t.writeQ ∧ f ≠ .write ∧ ∀ nr, f ≠ .conWrite nr) := by
  induction n using Nat.strong_induction_on generalizing t f k with
  | _ n ih =>
    cases h with
    | zero => cases hend
    | @succ n _ z _ hnext hsteps =>
      cases f with
      | cooked =>
        have hnext : some (t.copyToCooked k) = some z := hnext
        by_cases hexit : t.readQ.isEmpty = true ∨ t.secondary.isFull = true
        · rw [copyToCooked_exit hexit] at hnext
          cases Option.some.inj hnext
          exact ⟨n, t, Nat.lt_succ_self n, hsteps, hs, .inr ⟨rfl, nofun, nofun⟩⟩
        · obtain ⟨hread, hroom⟩ := not_or.mp hexit
          have hcase := takes (k := k) (Bool.eq_false_iff.mpr hread) (Bool.eq_false_iff.mpr hroom)
          rw [Option.some.inj hnext] at hcase
          cases hcase with
          | skip stopped h =>
            obtain ⟨m, t', hm, hrest, hs', hleft⟩ := ih n (Nat.lt_succ_self n) hsteps hs nofun
            exact ⟨m, t', hm.trans (Nat.lt_succ_self n), hrest, hs', hleft⟩
          | silent secondary h hecho =>
            obtain ⟨m, t', hm, hrest, hs', hleft⟩ := ih n (Nat.lt_succ_self n) hsteps hs nofun
            exact ⟨m, t', hm.trans (Nat.lt_succ_self n), hrest, hs', hleft⟩
          | echo secondary cs f h hecho hcs hf =>
            have hf' : f ≠ .write ∧ ∀ nr, f ≠ .conWrite nr := by
              rcases hf with rfl | ⟨c, rfl⟩
              · exact ⟨nofun, nofun⟩
              · exact ⟨nofun, nofun⟩
            obtain ⟨i, u, hi, hrest, hu, hleft⟩ := ih n (Nat.lt_succ_self n) hsteps hs nofun
            have hempty : u.writeQ.isEmpty = true := hleft.resolve_right fun h => h.2.1 rfl
            obtain ⟨j, v, hj, hrest, hv, hleft⟩ := ih i (by omega) hrest hu fun nr h => absurd h (hf'.2 nr)
            have hempty : v.writeQ.isEmpty = true := hleft.elim id fun h => h.1 ▸ hempty
            obtain ⟨m, t', hm, hrest, hs', hleft⟩ := ih j (by omega) hrest hv nofun
            exact ⟨m, t', by omega, hrest, hs', .inl (hleft.elim id fun h => h.1 ▸ hempty)⟩
      | put c =>
        cases Option.some.inj hnext
        exact ⟨n, _, Nat.lt_succ_self n, hsteps, hs, .inr ⟨rfl, nofun, nofun⟩⟩
      | dec =>
        cases Option.some.inj hnext
        exact ⟨n, _, Nat.lt_succ_self n, hsteps, hs, .inr ⟨rfl, nofun, nofun⟩⟩
      | write =>
        rw [write_next hs rfl] at hnext
        cases Option.some.inj hnext
        obtain ⟨m, t', hm, hrest, hs', hleft⟩ := ih n (Nat.lt_succ_self n) hsteps hs fun nr h => by cases h; rfl
        exact ⟨m, t', hm.trans (Nat.lt_succ_self n), hrest, hs', .inl (hleft.resolve_right fun h => h.2.2 _ rfl)⟩
      | conWrite nr =>
        have hchars := hready nr rfl
        cases nr with
        | zero =>
          cases Option.some.inj hnext
          exact ⟨n, t, Nat.lt_succ_self n, hsteps, hs, .inl (TtyQueue.isEmpty_iff.mpr hchars)⟩
        | succ nr =>
          obtain ⟨c, cs, hcs⟩ := List.exists_cons_of_length_eq_add_one (TtyQueue.length_contents.trans hchars)
          have hlen : cs.length = nr := by
            have := TtyQueue.length_contents.trans hchars
            rw [hcs, List.length_cons] at this
            omega
          obtain ⟨s, hs⟩ := Option.isSome_iff_exists.mp hs
          obtain ⟨u, hu, hnext'⟩ := conWrite_next (k := k) hs hcs
          rw [hlen, hnext] at hnext'
          have hconsole : u.console.isSome := by
            rw [hu.console]
            rfl
          have huchars : u.writeQ.chars = nr := by rw [← TtyQueue.length_contents, hu.contents, hlen]
          cases hasks : s.asks c with
          | false =>
            rw [hasks, if_neg Bool.false_ne_true] at hnext'
            cases Option.some.inj hnext'
            obtain ⟨m, t', hm, hrest, hs', hleft⟩ := ih n (Nat.lt_succ_self n) hsteps hconsole fun nr h => by cases h; exact huchars
            exact ⟨m, t', hm.trans (Nat.lt_succ_self n), hrest, hs', .inl (hleft.resolve_right fun h => h.2.2 _ rfl)⟩
          | true =>
            rw [hasks, if_pos rfl] at hnext'
            cases Option.some.inj hnext'
            obtain ⟨i, v, hi, hrest, hv, hleft⟩ := ih n (Nat.lt_succ_self n) hsteps hconsole nofun
            have hvchars : v.writeQ.chars = nr := by
              rcases hleft with hempty | ⟨hsame, _⟩
              · cases nr with
                | zero => exact TtyQueue.isEmpty_iff.mp hempty
                | succ nr =>
                  have := underrun_absurd hrest hv hempty hend
                  rw [hunder] at this
                  cases this
              · rw [hsame, huchars]
            obtain ⟨m, t', hm, hrest, hs', hleft⟩ := ih i (by omega) hrest hv fun nr h => by cases h; exact hvchars
            exact ⟨m, t', by omega, hrest, hs', .inl (hleft.resolve_right fun h => h.2.2 _ rfl)⟩
      | respond =>
        cases Option.some.inj hnext
        obtain ⟨m, t', hm, hrest, hs', hleft⟩ := @ih n (Nat.lt_succ_self n) { t with readQ := t.readQ.putAll response } .cooked k hsteps hs nofun
        exact ⟨m, t', hm.trans (Nat.lt_succ_self n), hrest, hs', hleft.imp id fun h => ⟨h.1, nofun, nofun⟩⟩

/-- If a character of the read queue is echoed, the write queue is empty afterwards. -/
theorem echo_empties (h : Steps ⟨t, .cooked :: k⟩ n y) (hend : y.frames = []) (hunder : y.tty.writeQ.underrun = false) (hs : t.console.isSome)
    (hmute : ¬ t.Mute) : ∃ m t', Steps ⟨t', k⟩ m y ∧ t'.console.isSome ∧ t'.writeQ.isEmpty = true := by
  induction hn : t.readQ.chars generalizing t n with
  | zero =>
    refine absurd (.inr (.inr fun c hc => ?_)) hmute
    rw [TtyQueue.isEmpty_iff_contents.mp (TtyQueue.isEmpty_iff.mpr hn)] at hc
    cases hc
  | succ i ih =>
    have hread : t.readQ.isEmpty = false := by
      refine Bool.eq_false_iff.mpr fun h => ?_
      have := TtyQueue.isEmpty_iff.mp h
      omega
    have hroom : t.secondary.isFull = false := Bool.eq_false_iff.mpr fun h => hmute (.inr (.inl h))
    have hchars := TtyQueue.chars_getch hread
    have hcase := takes (k := k) hread hroom
    cases h with
    | zero => cases hend
    | @succ n _ z _ hnext hsteps =>
      rw [show t.copyToCooked k = z from Option.some.inj hnext] at hcase
      cases hcase with
      | skip stopped h =>
        refine ih (t := { t with readQ := t.readQ.getch, stopped := stopped }) hsteps hs (fun hmute' => hmute ?_) (by dsimp only; omega)
        rcases hmute' with hecho | hfull | hall
        · exact .inl hecho
        · exact .inr (.inl hfull)
        · refine .inr (.inr fun c hc => ?_)
          rw [TtyQueue.contents_getch hread] at hc
          rcases List.mem_cons.mp hc with rfl | hc
          · exact h
          · exact hall c hc
      | silent secondary h hecho => exact absurd (.inl hecho) hmute
      | echo secondary cs f h hecho hcs hf =>
        have hf' : f ≠ .write ∧ ∀ nr, f ≠ .conWrite nr := by
          rcases hf with rfl | ⟨c, rfl⟩
          · exact ⟨nofun, nofun⟩
          · exact ⟨nofun, nofun⟩
        obtain ⟨i, u, _, hrest, hu, hleft⟩ := passes hsteps hend hunder hs nofun
        have hempty : u.writeQ.isEmpty = true := hleft.resolve_right fun h => h.2.1 rfl
        obtain ⟨j, v, _, hrest, hv, hleft⟩ := passes hrest hend hunder hu fun nr h => absurd h (hf'.2 nr)
        have hempty : v.writeQ.isEmpty = true := hleft.elim id fun h => h.1 ▸ hempty
        obtain ⟨m, t', _, hrest, hs', hleft⟩ := passes hrest hend hunder hv nofun
        exact ⟨m, t', hrest, hs', hleft.elim id fun h => h.1 ▸ hempty⟩

/-- The answer has seven characters, and four can be ignored. -/
theorem response_heard : ¬ ∀ c ∈ response, t.ignored c = true := by
  intro hall
  have hsub : response ⊆ [t.termios.erase, t.termios.stop, t.termios.start, t.termios.intr] := by
    intro c hc
    have hignored := hall c hc
    unfold ignored at hignored
    rw [mapped_response hc] at hignored
    dsimp only at hignored
    split at hignored
    next h => simp [sameChar_eq h.2]
    next =>
      rcases of_decide_eq_true hignored with ⟨_, h | h⟩ | ⟨_, h⟩
      · simp [sameChar_eq h]
      · simp [sameChar_eq h]
      · simp [sameChar_eq h]
  have hle := (List.subperm_of_subset (by decide) hsub).length_le
  exact absurd hle (show ¬ 7 ≤ 4 by decide)

/-- A run that ends goes through every state that its start leads to. -/
theorem steps_through (h : Steps x n y) (h' : Steps x m z) (hend : z.frames = []) : ∃ i, Steps y i z := by
  induction h generalizing m with
  | zero => exact ⟨m, h'⟩
  | succ hnext _ ih =>
    cases h' with
    | zero =>
      obtain ⟨t, frames⟩ := z
      cases hend
      cases hnext
    | succ hnext' hsteps =>
      cases Option.some.inj (hnext.symm.trans hnext')
      exact ih hsteps

theorem undisturbed_of_steps (h : Steps ⟨t, .conWrite cs.length :: k⟩ n y) (hend : y.frames = []) (hunder : y.tty.writeQ.underrun = false)
    (hs : t.console = some s) (hc : t.writeQ.contents = cs) : t.Undisturbed s cs := by
  induction cs generalizing t s n with
  | nil => exact .inr (.inr (.inl rfl))
  | cons c cs ih =>
    obtain ⟨u, hu, hnext⟩ := conWrite_next (k := k) hs hc
    have htermios := hu.outputs.termios
    have hconsole : u.console.isSome := by
      rw [hu.console]
      rfl
    cases h with
    | zero => cases hend
    | @succ n _ z _ hnext' hsteps =>
      have hz := Option.some.inj (hnext'.symm.trans hnext)
      cases hasks : s.asks c with
      | false =>
        rw [hasks, if_neg Bool.false_ne_true] at hz
        subst hz
        exact (undisturbed_cons hu hasks).mpr (ih hsteps hu.console hu.contents)
      | true =>
        rw [hasks, if_pos rfl] at hz
        subst hz
        cases cs with
        | nil => exact .inr (.inr (.inl rfl))
        | cons d ds =>
          have hqueries : s.queries t.termios.erase (c :: d :: ds).dropLast =
              1 + (s.write t.termios.erase c).queries t.termios.erase (d :: ds).dropLast := by
            change (if s.asks c then 1 else 0) + _ = _
            rw [hasks, if_pos rfl]
          cases hsteps with
          | zero => cases hend
          | succ hrespond hsteps =>
            cases Option.some.inj hrespond
            have hmute : Mute { u with readQ := u.readQ.putAll response } := by
              by_contra hmute
              obtain ⟨m, v, hrest, hv, hempty⟩ := echo_empties (t := { u with readQ := u.readQ.putAll response }) hsteps hend hunder hconsole hmute
              have := underrun_absurd hrest hv hempty hend
              rw [hunder] at this
              cases this
            obtain ⟨i, v, hreturn, hvtermios, hvupper, hvconsole, hvqueue, hsame⟩ := mute_returns (k := .conWrite (d :: ds).length :: k) hmute
            obtain ⟨m, hrest⟩ := steps_through hreturn hsteps hend
            have hcalm := ih hrest (hvconsole.trans hu.console) (hvqueue ▸ hu.contents)
            unfold Undisturbed at hcalm ⊢
            rw [hqueries]
            have hvtermios : v.termios = t.termios := hvtermios.trans htermios
            have hignored := ignored_congr htermios hu.outputs.upper hu.secondary
            cases hecho : t.termios.echo with
            | false => exact .inl rfl
            | true =>
              cases hfull : t.secondary.isFull with
              | true => exact .inr (.inl rfl)
              | false =>
                have hfull' : u.secondary.isFull = false := by rw [hu.secondary, hfull]
                obtain ⟨hsecondary, hleft⟩ := hsame (by dsimp only; rw [htermios, hecho])
                have hleft : v.readQ.contents = [] := by
                  rw [hfull'] at hleft
                  exact hleft.resolve_left Bool.false_ne_true
                have hall : ∀ c ∈ (t.readQ.putAll response).contents, t.ignored c = true := by
                  rcases hmute with hno | hno | hall
                  · rw [show u.termios.echo = true by rw [htermios, hecho]] at hno
                    cases hno
                  · rw [hfull'] at hno
                    cases hno
                  · rw [hu.readQ] at hall
                    exact fun c hc => (congrFun hignored c).symm.trans (hall c hc)
                rcases hcalm with hno | hno | hzero | ⟨_, hagain⟩
                · rw [hvtermios, hecho] at hno
                  cases hno
                · rw [hsecondary] at hno
                  rw [hfull'] at hno
                  cases hno
                · rw [hvtermios] at hzero
                  exact .inr (.inr (.inr ⟨by omega, hall⟩))
                · rw [(putAll_empty hleft (by decide)).1] at hagain
                  exact absurd hagain response_heard

/-- `con_write` comes to its end. It has written to the console what was in the queue and what was put in meanwhile, in this order, it leaves
the queue empty, and it has taken nothing from behind the head. -/
def Consumes (t : Tty) (s : Console) : Prop :=
  ∃ n t' cs, Steps ⟨t, [.write]⟩ n ⟨t', []⟩ ∧ t'.writeQ.isEmpty = true ∧ t'.writeQ.underrun = false ∧ t'.writeQ.stored = t.writeQ.stored ++ cs ∧
    t'.writeQ.fetched = t.writeQ.fetched ++ t.writeQ.contents ++ cs ∧
    t'.console = some (s.writeAll ((t.writeQ.contents ++ cs).map fun c => (t.termios.erase, c)))

theorem Consumes.undisturbed (h : t.Consumes s) (hs : t.console = some s) : t.Undisturbed s t.writeQ.contents := by
  obtain ⟨n, t', _, hsteps, _, hunder, _⟩ := h
  have hchars : t.writeQ.chars = t.writeQ.contents.length := TtyQueue.length_contents.symm
  have hfirst : Steps ⟨t, [.write]⟩ 1 ⟨t, [.conWrite t.writeQ.contents.length]⟩ :=
    .succ (write_next (by rw [hs]; rfl) hchars) .zero
  obtain ⟨m, hrest⟩ := steps_through hfirst hsteps rfl
  exact undisturbed_of_steps hrest rfl hunder hs rfl

end Tty

/-- `con_write` does with its queue what it should if and only if no answer that is asked for before the last character is echoed. -/
theorem con_write_consumes_iff {t : Tty} {s : Console} (hs : t.console = some s) (hw : t.writeQ.Whole) :
    t.Consumes s ↔ t.Undisturbed s t.writeQ.contents := by
  refine ⟨fun h => h.undisturbed hs, fun hcalm => ?_⟩
  obtain ⟨n, t', hsteps, hset⟩ := Tty.conWrite_returns (k := []) hs rfl hw hcalm
  obtain ⟨cs, hstored⟩ := hset.outputs.stored
  obtain ⟨ds, hfetched, hconsole⟩ := hset.outputs.fetched s hs
  have horder := hset.whole.order
  rw [hset.empty, List.append_nil, ← hstored, hw.order, hfetched, List.append_assoc] at horder
  have hds := List.append_cancel_left horder
  have hwrite := Tty.write_next (t := t) (k := []) (by rw [hs]; rfl) TtyQueue.length_contents.symm
  refine ⟨n + 1, t', cs, .succ hwrite hsteps, TtyQueue.isEmpty_iff_contents.mpr hset.empty, hset.whole.underrun, hstored.symm, ?_, ?_⟩
  · rw [hfetched, ← hds, List.append_assoc]
  · rw [hconsole, ← hds]

/-- The console with characters in its write queue. -/
def sampleOutput (cs : List (BitVec 8)) : Tty :=
  let t := ttyInit (some (Console.conInit (fun _ => 0) 0 0)) fun _ => false
  { t with writeQ := t.writeQ.putAll cs }

/-- An answer that is asked for by the last character is echoed to an empty queue. -/
theorem con_write_consumes_query : (sampleOutput [65, 27, Console.byte 'Z']).Consumes (Console.conInit (fun _ => 0) 0 0) :=
  (con_write_consumes_iff rfl ⟨by decide, rfl, rfl⟩).mpr (.inr (.inr (.inl (by decide))))

/-- The echo of the answer takes the character behind the query, and the loop then takes one more. -/
theorem con_write_consumes_fails : ¬ (sampleOutput [27, Console.byte 'Z', 65]).Consumes (Console.conInit (fun _ => 0) 0 0) := by
  intro h
  have hcalm := h.undisturbed rfl
  unfold Tty.Undisturbed at hcalm
  revert hcalm
  decide

end RheeKernel
