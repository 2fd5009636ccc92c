import Mathlib.Data.List.Forall2
import Mathlib.Data.List.TakeWhile
import RheeKernel.StringSearches

namespace RheeKernel.Strings

open StringOps

/-! ### `strtok` -/

/-- From label 6 on, with the token in `ebx`: the result, and what `___strtok` is then. -/
def tokenEnd (token : Addr) (c : Processor) : Addr × Addr × Processor :=
  let token := if c.mem token = 0 then 0 else token
  (token, if token = 0 then 0 else c.esi, c)

/-- From label 3 on. -/
def tokenScan (ct : Addr) (fuel : Nat) (c : Processor) : Option (Addr × Addr × Processor) :=
  (WhileLoop.run (fun c => some (spanTurn ct false c)) some fuel c).map fun d =>
    let d' := { d with esi := d.esi - 1 }
    if d.al = 0 ∨ d'.mem d'.esi = 0 then tokenEnd c.esi { d' with esi := 0 }
    else tokenEnd c.esi { d' with mem := Function.update d'.mem d'.esi 0, esi := d'.esi + 1 }

/-- `kept` is `___strtok`; its new value is the second part of the result. -/
def strtok (c : Processor) (kept s ct : Addr) (fuel : Nat) : Option (Addr × Addr × Processor) :=
  if s = 0 ∧ kept = 0 then some (0, 0, c)
  else
    let c := setLength { c with esi := if s = 0 then kept else s, eax := 0, ecx := 0xffffffff, df := false } ct
    if c.zf then some (0, 0, c)
    else
      (WhileLoop.run (fun c => some (spanTurn ct true c)) some fuel c).bind fun c =>
        let c' := { c with esi := c.esi - 1 }
        if c.zf ∨ c'.mem c'.esi = 0 then some (0, 0, c') else tokenScan ct fuel c'

/-- Call after call until there is no token any more, the first one with the text and the others with a null pointer. -/
def tokens (ct : Addr) (fuel : Nat) : Nat → Processor → Addr → Addr → Option (List Addr × Processor)
  | 0, _, _, _ => none
  | n + 1, c, kept, s => (strtok c kept s ct fuel).bind fun r =>
      if r.1 = 0 then some ([], r.2.2) else (tokens ct fuel n r.2.2 r.2.1 0).map fun t => (r.1 :: t.1, t.2)

/-- The parts between the separators that are not empty. -/
def pieces (set l : List UInt8) : List (List UInt8) := (l.splitOnP fun b => decide (b ∈ set)).filter fun t => !t.isEmpty

variable {c d : Processor} {m : Addr → UInt8} {kept s ct start : Addr} {b : UInt8} {l set token rest : List UInt8} {k n fuel : Nat}

/-! ### Pieces -/

theorem pieces_skip (skipped : ∀ b ∈ token, b ∈ set) : pieces set (token ++ l) = pieces set l := by
  induction token with
  | nil => rfl
  | cons b token ih =>
    have here := skipped b List.mem_cons_self
    have later := ih fun x inside => skipped x (List.mem_cons_of_mem b inside)
    unfold pieces at later ⊢
    rw [List.cons_append, List.splitOnP_cons_eq_if_modifyHead, if_pos (decide_eq_true here)]
    exact later

theorem pieces_last (inside : ∀ b ∈ token, b ∉ set) (filled : token ≠ []) : pieces set token = [token] := by
  unfold pieces
  rw [List.splitOnP_eq_singleton fun x member => decide_eq_false (inside x member)]
  cases token with
  | nil => exact absurd rfl filled
  | cons b token => rfl

theorem pieces_first (inside : ∀ b ∈ token, b ∉ set) (filled : token ≠ []) (separator : b ∈ set) :
    pieces set (token ++ b :: rest) = token :: pieces set rest := by
  unfold pieces
  rw [List.splitOnP_append_cons_of_forall_mem (fun x member => decide_eq_false (inside x member)) b (decide_eq_true separator)]
  cases token with
  | nil => exact absurd rfl filled
  | cons b token => rfl

theorem pieces_none (skipped : ∀ b ∈ l, b ∈ set) : pieces set l = [] := by
  have none := pieces_skip (l := []) skipped
  rw [List.append_nil] at none
  exact none

/-! ### One call -/

/-- The token is there and lies behind address zero. -/
theorem tokenEnd_some {a : Addr} (there : c.mem a ≠ 0) (nonzero : a ≠ 0) : tokenEnd a c = (a, c.esi, c) := by
  unfold tokenEnd
  dsimp only
  rw [if_neg there, if_neg nonzero]

theorem tokenScan_last (h : SetReady c ct set) (text : Text c.mem c.esi token) (inside : ∀ b ∈ token, b ∉ set) (filled : token ≠ [])
    (nonzero : c.esi ≠ 0) (enough : token.length < fuel) : ∃ d, tokenScan ct fuel c = some (c.esi, 0, d) ∧ d.mem = c.mem := by
  obtain ⟨d, run, -, mem, -, al, -⟩ := span_run false h text enough
  have whole : (token.dropWhile fun b => decide (b ∈ set) == false) = [] :=
    List.dropWhile_eq_nil_iff.mpr fun b member => by simpa using inside b member
  rw [whole, List.headD_nil] at al
  have there : c.mem c.esi ≠ 0 := by
    cases token with
    | nil => exact absurd rfl filled
    | cons b token =>
      rw [text.1]
      exact text.2.1
  refine ⟨{ d with esi := 0 }, ?_, mem⟩
  unfold tokenScan
  rw [run, Option.map_some]
  dsimp only
  rw [if_pos (Or.inl al), tokenEnd_some (by rw [mem]; exact there) nonzero]

theorem tokenScan_more (h : SetReady c ct set) (text : Text c.mem c.esi (token ++ b :: rest)) (inside : ∀ b ∈ token, b ∉ set) (filled : token ≠ [])
    (separator : b ∈ set) (nonzero : c.esi ≠ 0) (room : token.length < 2 ^ 32) (enough : (token ++ b :: rest).length < fuel) :
    ∃ d, tokenScan ct fuel c = some (c.esi, c.esi + BitVec.ofNat 32 (token.length + 1), d) ∧
      d.mem = Function.update c.mem (c.esi + BitVec.ofNat 32 token.length) 0 := by
  obtain ⟨d, run, esi, mem, -, al, -⟩ := span_run false h text enough
  have out : ∀ x ∈ token, (decide (x ∈ set) == false) = true := fun x member => by simpa using inside x member
  have stop : ¬ (decide (b ∈ set) == false) = true := by simpa using separator
  rw [List.takeWhile_append_of_pos out, List.takeWhile_cons_of_neg (p := fun b => decide (b ∈ set) == false) stop, List.append_nil] at esi
  rw [List.dropWhile_append_of_pos out, List.dropWhile_cons_of_neg (p := fun b => decide (b ∈ set) == false) stop, List.headD_cons] at al
  have back : d.esi - 1 = c.esi + BitVec.ofNat 32 token.length := by
    rw [esi, BitVec.ofNat_add, ← BitVec.add_assoc]
    exact BitVec.add_sub_cancel _ 1
  have live (k : Nat) (before : k < (token ++ b :: rest).length) : c.mem (c.esi + BitVec.ofNat 32 k) ≠ 0 := text.ne_zero before
  have cursor : d.mem (d.esi - 1) ≠ 0 := by
    rw [back, mem]
    exact live _ (by rw [List.length_append, List.length_cons]; omega)
  have letter : d.al ≠ 0 := by
    rw [al]
    exact fun zero => text.nonzero (by rw [← zero]; exact List.mem_append_right _ List.mem_cons_self)
  have positive : 0 < token.length := List.length_pos_iff.mpr filled
  have kept : Function.update d.mem (d.esi - 1) 0 c.esi ≠ 0 := by
    rw [back, update_ahead room (by rw [sub_self]; exact positive.ne), mem]
    have first := live 0 (by rw [List.length_append]; omega)
    rwa [show c.esi + BitVec.ofNat 32 0 = c.esi from BitVec.add_zero _] at first
  refine ⟨{ d with mem := Function.update d.mem (d.esi - 1) 0, esi := d.esi - 1 + 1 }, ?_, ?_⟩
  · unfold tokenScan
    rw [run, Option.map_some]
    dsimp only
    rw [if_neg (not_or.mpr ⟨letter, cursor⟩), tokenEnd_some kept nonzero, sub_add_cancel, esi]
  · show Function.update d.mem (d.esi - 1) 0 = _
    rw [back, mem]

section Calls

variable (source : (if s = 0 then kept else s) = start) (nonzero : start ≠ 0) (chars : Text c.mem ct set) (filled : set.isEmpty = false)
  (room : set.length + 1 < 2 ^ 32)

include source nonzero chars filled room

theorem strtok_scan (text : Text c.mem start l) (enough : l.length < fuel) :
    ∃ d, (strtok c kept s ct fuel = if (l.dropWhile fun b => decide (b ∈ set)).isEmpty ∨ d.mem (d.esi - 1) = 0 then
        some (0, 0, { d with esi := d.esi - 1 }) else tokenScan ct fuel { d with esi := d.esi - 1 }) ∧
      d.esi - 1 = start + BitVec.ofNat 32 (l.takeWhile fun b => decide (b ∈ set)).length ∧ d.mem = c.mem ∧ SetReady d ct set := by
  obtain ⟨ready, zf, esi, mem⟩ := setLength_spec (c := { c with esi := if s = 0 then kept else s, eax := 0, ecx := 0xffffffff, df := false }) rfl
    (al_zero rfl) rfl chars room
  subst source
  obtain ⟨d, run, stopped, mem', ready', -, flag⟩ := span_run true ready (by rw [esi, mem]; exact text) enough
  simp only [beq_true, Bool.not_true, Bool.or_false] at stopped flag
  refine ⟨d, ?_, ?_, mem'.trans mem, ready'⟩
  · have some_text : ¬ (s = 0 ∧ kept = 0) := by
      rintro ⟨rfl, rfl⟩
      exact nonzero (if_pos rfl)
    unfold strtok
    rw [if_neg some_text]
    dsimp only
    rw [zf, filled, if_neg Bool.false_ne_true, run, Option.bind_some, flag]
  · rw [stopped, esi, BitVec.ofNat_add, ← BitVec.add_assoc]
    exact BitVec.add_sub_cancel _ 1

end Calls

/-- A list as what is skipped in front, and nothing or what begins with an element that is not. -/
theorem skip_parts (p : UInt8 → Bool) (l : List UInt8) : (∀ x ∈ l, p x = true) ∨
    ∃ skip b rest, l = skip ++ b :: rest ∧ (∀ x ∈ skip, p x = true) ∧ p b = false ∧ l.takeWhile p = skip ∧ l.dropWhile p = b :: rest := by
  have parts := List.takeWhile_append_dropWhile (p := p) (l := l)
  cases tail : l.dropWhile p with
  | nil =>
    rw [tail, List.append_nil] at parts
    refine Or.inl fun x member => ?_
    rw [← parts] at member
    exact List.mem_takeWhile_imp member
  | cons b rest =>
    have first := List.head?_dropWhile_not p l
    rw [tail] at first parts
    exact Or.inr ⟨l.takeWhile p, b, rest, parts.symm, fun x member => List.mem_takeWhile_imp member, first, rfl, rfl⟩

/-- What lies outside of the string that is divided. -/
def Aside (start : Addr) (l : List UInt8) (ct : Addr) (set : List UInt8) : Prop :=
  ∀ i ≤ l.length, ∀ k ≤ set.length, ct + BitVec.ofNat 32 k ≠ start + BitVec.ofNat 32 i

theorem behind_toNat {i : Nat} (small : i < 2 ^ 32) (a : Addr) :
    (a - (start + BitVec.ofNat 32 i)).toNat = (2 ^ 32 - i + (a - start).toNat) % 2 ^ 32 := by
  rw [← sub_sub, BitVec.toNat_sub, count_toNat small]

theorem ahead_flat {i : Nat} (flat : start.toNat + i < 2 ^ 32) : (start + BitVec.ofNat 32 i).toNat = start.toNat + i := by
  rw [BitVec.toNat_add, count_toNat (by omega), Nat.mod_eq_of_lt flat]

theorem ahead_nonzero {i : Nat} (nonzero : start ≠ 0) (flat : start.toNat + i < 2 ^ 32) : start + BitVec.ofNat 32 i ≠ 0 := by
  intro zero
  have place := congrArg BitVec.toNat zero
  rw [ahead_flat flat, show (0 : BitVec 32).toNat = 0 from rfl] at place
  exact nonzero (BitVec.eq_of_toNat_eq (show start.toNat = 0 by omega))

/-- The tokens of call after call: the separator behind a token is overwritten with a zero, and nothing else is changed. -/
theorem tokens_run (source : (if s = 0 then kept else s) = start) (nonzero : start ≠ 0) (flat : start.toNat + l.length < 2 ^ 32)
    (text : Text c.mem start l) (chars : Text c.mem ct set) (filled : set.isEmpty = false) (room : set.length + 1 < 2 ^ 32)
    (aside : Aside start l ct set) (enough : l.length < fuel) (calls : l.length < n) : ∃ addrs d, tokens ct fuel n c kept s = some (addrs, d) ∧
      List.Forall₂ (fun a t => Text d.mem a t) addrs (pieces set l) ∧ ∀ a, l.length ≤ (a - start).toNat → d.mem a = c.mem a := by
  induction n generalizing c kept s start l with
  | zero => exact absurd calls (Nat.not_lt_zero _)
  | succ n ih =>
    obtain ⟨e, call, cursor, mem, ready⟩ := strtok_scan source nonzero chars filled room text enough
    unfold tokens
    rcases skip_parts (fun b => decide (b ∈ set)) l with all | ⟨skip, b, rest, parts, skipped, first, front, tail⟩
    · rw [List.dropWhile_eq_nil_iff.mpr all, if_pos (Or.inl (show ([] : List UInt8).isEmpty = true from rfl))] at call
      rw [call, Option.bind_some, if_pos rfl]
      refine ⟨[], _, rfl, ?_, fun a _ => congrFun mem a⟩
      rw [pieces_none fun b member => of_decide_eq_true (all b member)]
      exact List.Forall₂.nil
    have long : l.length = skip.length + (rest.length + 1) := by rw [parts, List.length_append, List.length_cons]
    rw [front] at cursor
    have here : Text e.mem (e.esi - 1) (b :: rest) := by
      rw [mem, cursor]
      rw [parts] at text
      exact text.drop
    have away : e.esi - 1 ≠ 0 := by
      rw [cursor]
      exact ahead_nonzero nonzero (by omega)
    rw [tail, if_neg (by rw [here.1]; exact not_or.mpr ⟨Bool.false_ne_true, here.2.1⟩)] at call
    have pieces_here : pieces set l = pieces set (b :: rest) := by
      rw [parts]
      exact pieces_skip fun x member => of_decide_eq_true (skipped x member)
    have ready' : SetReady { e with esi := e.esi - 1 } ct set := ready.of_eq rfl rfl rfl
    rcases skip_parts (fun b => decide (b ∉ set)) (b :: rest) with all | ⟨token, sep, rest', parts', inside, separator, -, -⟩
    · have inside : ∀ x ∈ b :: rest, x ∉ set := fun x member => of_decide_eq_true (all x member)
      obtain ⟨d, scan, mem'⟩ := tokenScan_last (c := { e with esi := e.esi - 1 }) ready' here inside (List.cons_ne_nil _ _) away
        (by rw [List.length_cons]; omega : (b :: rest).length < fuel)
      obtain ⟨n, rfl⟩ : ∃ k, n = k + 1 := ⟨n - 1, by omega⟩
      have ended : tokens ct fuel (n + 1) d 0 0 = some ([], d) := by
        unfold tokens strtok
        rw [if_pos ⟨rfl, rfl⟩, Option.bind_some, if_pos rfl]
      rw [call, scan, Option.bind_some, if_neg away]
      refine ⟨_, _, congrArg (Option.map _) ended, ?_, fun a _ => congrFun (mem'.trans mem) a⟩
      rw [pieces_here, pieces_last inside (List.cons_ne_nil _ _)]
      refine List.Forall₂.cons ?_ List.Forall₂.nil
      dsimp only
      rw [mem']
      exact here
    · have inside : ∀ x ∈ token, x ∉ set := fun x member => of_decide_eq_true (inside x member)
      have separator : sep ∈ set := by simpa using separator
      have filled' : token ≠ [] := by
        rintro rfl
        rw [(List.cons.inj parts').1] at first
        exact absurd (decide_eq_true separator) (by rw [first]; decide)
      have short : rest.length + 1 = token.length + (rest'.length + 1) := by
        rw [← List.length_cons, parts', List.length_append, List.length_cons]
      have bound : (token ++ sep :: rest').length < fuel := by
        rw [← parts', List.length_cons]
        omega
      have letters := here.nonzero
      rw [parts'] at here letters
      obtain ⟨d, scan, mem'⟩ := tokenScan_more (c := { e with esi := e.esi - 1 }) ready' here inside filled' separator away (by omega) bound
      dsimp only at scan mem'
      rw [cursor, add_ofNat_add] at scan mem'
      rw [cursor, mem] at here
      rw [cursor] at away
      rw [mem] at mem'
      have kept_at (i : Nat) (small : i < 2 ^ 32) (other : i ≠ skip.length + token.length) :
          d.mem (start + BitVec.ofNat 32 i) = c.mem (start + BitVec.ofNat 32 i) := by
        rw [mem', update_ahead (by omega) (by rw [ahead_toNat small]; exact other)]
      have text' : Text d.mem (start + BitVec.ofNat 32 (skip.length + (token.length + 1))) rest' := by
        have whole : Text c.mem (start + BitVec.ofNat 32 skip.length) ((token ++ [sep]) ++ rest') := by
          rw [List.append_assoc]
          exact here
        have behind := whole.drop
        rw [List.length_append, List.length_singleton, add_ofNat_add] at behind
        refine behind.copied fun k inside => ?_
        rw [add_ofNat_add]
        exact kept_at _ (by omega) (by omega)
      have chars' : Text d.mem ct set := chars.copied fun k inside => by rw [mem', Function.update_of_ne (aside _ (by omega) k inside)]
      have aside' : Aside (start + BitVec.ofNat 32 (skip.length + (token.length + 1))) rest' ct set := by
        intro i within k inside
        rw [add_ofNat_add]
        exact aside _ (by omega) k inside
      have flat' : (start + BitVec.ofNat 32 (skip.length + (token.length + 1))).toNat + rest'.length < 2 ^ 32 := by
        rw [ahead_flat (by omega)]
        omega
      obtain ⟨addrs, d', run, texts, others⟩ := ih (show (if (0 : Addr) = 0 then start + BitVec.ofNat 32 (skip.length + (token.length + 1)) else 0) = _
        from if_pos rfl) (ahead_nonzero nonzero (by omega)) flat' text' chars' aside' (by omega) (by omega)
      rw [call, cursor, scan, Option.bind_some]
      dsimp only
      rw [if_neg away, run]
      refine ⟨_, _, rfl, ?_, fun a beyond => ?_⟩
      · rw [pieces_here, parts', pieces_first inside filled' separator]
        refine List.Forall₂.cons ?_ texts
        refine Text.of_getD (fun zero => letters (List.mem_append_left _ zero)) fun k within => ?_
        have index : start + BitVec.ofNat 32 (skip.length + k) - start = BitVec.ofNat 32 (skip.length + k) := add_sub_cancel_left _ _
        rw [add_ofNat_add, others _ (by rw [behind_toNat (by omega), index, count_toNat (by omega)]; omega)]
        by_cases last : k = token.length
        · rw [last, mem', Function.update_self, List.getD_eq_getElem?_getD, List.getElem?_eq_none (Nat.le_refl _), Option.getD_none]
        · rw [kept_at _ (by omega) (by omega), ← add_ofNat_add, here.getD (by rw [List.length_append]; omega), List.getD_eq_getElem?_getD,
            List.getElem?_append_left (by omega), ← List.getD_eq_getElem?_getD]
      · rw [others a (by rw [behind_toNat (by omega)]; have := (a - start).isLt; omega), mem', update_ahead (by omega) (by omega)]

/-- With no separators there is no token at all, not the whole text. -/
theorem strtok_empty (chars : Text c.mem ct []) : ∃ d, strtok c kept s ct fuel = some (0, 0, d) ∧ d.mem = c.mem := by
  unfold strtok
  by_cases none : s = 0 ∧ kept = 0
  · rw [if_pos none]
    exact ⟨c, rfl, rfl⟩
  obtain ⟨-, zf, -, mem⟩ := setLength_spec (c := { c with esi := if s = 0 then kept else s, eax := 0, ecx := 0xffffffff, df := false }) rfl
    (al_zero rfl) rfl chars (by decide)
  rw [List.isEmpty_nil] at zf
  rw [if_neg none]
  dsimp only
  rw [if_pos zf]
  exact ⟨_, rfl, mem⟩

/-- A text is divided by calls of `strtok` into its parts between separators, each a text of its own in memory at the end. -/
theorem strtok_splits (nonzero : s ≠ 0) (flat : s.toNat + l.length < 2 ^ 32) (text : Text c.mem s l) (chars : Text c.mem ct set)
    (filled : set.isEmpty = false) (room : set.length + 1 < 2 ^ 32) (aside : Aside s l ct set) (enough : l.length < fuel) (calls : l.length < n) :
    ∃ addrs d, tokens ct fuel n c kept s = some (addrs, d) ∧ List.Forall₂ (fun a t => Text d.mem a t) addrs (pieces set l) ∧
      ∀ a, l.length ≤ (a - s).toNat → d.mem a = c.mem a :=
  tokens_run (if_neg nonzero) nonzero flat text chars filled room aside enough calls

theorem strtok_splits_ab : ∃ addrs d, tokens 16 3 3 twoTexts 0 8 = some (addrs, d) ∧
    List.Forall₂ (fun a t => Text d.mem a t) addrs (pieces [98] [97, 98]) ∧ ∀ a : Addr, 2 ≤ (a - 8).toNat → d.mem a = twoTexts.mem a := by
  have aside : Aside 8 [97, 98] 16 [98] := by
    unfold Aside
    decide
  exact strtok_splits (by decide) (by decide) twoTexts_ab twoTexts_b rfl (by decide) aside (by decide) (by decide)

end RheeKernel.Strings
