import RheeKernel.FormatScan

open ByteMemory

namespace RheeKernel.Format

/-- The conversions that take an argument. -/
def conversionChars : List Char := "csopxXdiun".toList

/-- How many arguments the conversion takes. -/
def takes : List Char → Nat
  | [] => 0
  | c :: _ => if c ∈ conversionChars then 1 else 0

section Convert

variable {limit i j k k' x : Nat} {c : Char} {fmt tail more text : List Char} {args pick : Nat → Nat} {d : Directive} {o o' : PrintBuf}

theorem put_len {b : UInt8} : (o.put b).len = o.len + 1 := rfl

theorem put_other {b : UInt8} (h : x ≠ o.buf + o.len) : (o.put b).mem x = o.mem x := Function.update_of_ne h _ _

theorem puts_buf : (o.puts text).buf = o.buf := by
  induction text generalizing o with
  | nil => rfl
  | cons c text ih => exact ih

theorem copy_buf {n s : Nat} : (o.copy n s).buf = o.buf := by
  induction n generalizing o s with
  | zero => rfl
  | succ n ih => exact ih

theorem puts_below (h : x < o.buf + o.len) : (o.puts text).mem x = o.mem x := PrintBuf.puts_other (.inl h)

theorem copy_below {n s : Nat} (h : x < o.buf + o.len) : (o.copy n s).mem x = o.mem x := by
  induction n generalizing o s with
  | zero => rfl
  | succ n ih =>
    rw [PrintBuf.copy, ih]
    · exact put_other (by omega)
    · exact Nat.lt_succ_of_lt h

/-- Text behind what is stored: the buffer stays where it is, and what it and the memory before it hold. -/
def Extends (o o' : PrintBuf) : Prop := o'.buf = o.buf ∧ o.len ≤ o'.len ∧ ∀ x, x < o.buf + o.len → o'.mem x = o.mem x

theorem Extends.trans {o'' : PrintBuf} (h : Extends o o') (h' : Extends o' o'') : Extends o o'' := by
  obtain ⟨hbuf, hlen, hmem⟩ := h
  obtain ⟨hbuf', hlen', hmem'⟩ := h'
  refine ⟨hbuf'.trans hbuf, Nat.le_trans hlen hlen', fun x hx => ?_⟩
  rw [hmem' x (by omega), hmem x hx]

theorem extends_put {b : UInt8} : Extends o (o.put b) := ⟨rfl, Nat.le_succ _, fun _ hx => put_other (by omega)⟩

theorem extends_puts : Extends o (o.puts text) :=
  ⟨puts_buf, by rw [PrintBuf.puts_len]; exact Nat.le_add_right _ _, fun _ hx => puts_below hx⟩

theorem extends_copy {n s : Nat} : Extends o (o.copy n s) :=
  ⟨copy_buf, by rw [PrintBuf.copy_len]; exact Nat.le_add_right _ _, fun _ hx => copy_below hx⟩

theorem extends_printChar {w : Nat} : Extends o (printChar d w o) := by
  unfold printChar
  split
  next => exact extends_put.trans extends_puts
  next => exact extends_puts.trans extends_put

theorem extends_printString {s n : Nat} : Extends o (printString d s n o) := by
  unfold printString
  split
  next => exact extends_copy.trans extends_puts
  next => exact extends_puts.trans extends_copy

/-- Apart from `%n` a conversion only adds text. -/
theorem convert_extends (h : convert limit args d o = some (k', o')) (hn : ∀ tail, d.rest ≠ 'n' :: tail) : Extends o o' := by
  unfold convert at h
  split at h
  next => cases h; exact extends_puts
  next => cases h; exact extends_printChar
  next =>
    obtain ⟨n, _, h⟩ := Option.map_eq_some_iff.mp h
    cases h
    exact extends_printString
  next => cases h; exact extends_puts
  next =>
    split at h
    next => cases h; exact extends_puts
    next => cases h; exact extends_puts
  next => cases h; exact extends_puts
  next => cases h; exact extends_puts
  next => cases h; exact extends_puts
  next => cases h; exact extends_puts
  next => cases h; exact extends_puts
  next hrest => exact absurd hrest (hn _)
  next => cases h; exact extends_puts
  next => cases h; exact extends_puts

theorem convert_n (h : d.rest = 'n' :: tail) :
    convert limit args d o = some (d.next + 1, { o with mem := putLong o.mem (args d.next) o.len }) := by
  unfold convert
  rw [h]
  rfl

/-- Memory below the end of the text changes only where `%n` stores. -/
theorem convert_keeps (h : convert limit args d o = some (k', o')) (hx : x < o.buf + o.len) (hn : x < args d.next ∨ args d.next + 4 ≤ x) :
    o'.mem x = o.mem x := by
  by_cases hrest : ∃ tail, d.rest = 'n' :: tail
  · obtain ⟨tail, hrest⟩ := hrest
    rw [convert_n hrest] at h
    cases h
    exact putLong_other hn
  · exact (convert_extends h fun tail htail => hrest ⟨tail, htail⟩).2.2 x hx

theorem convert_buf (h : convert limit args d o = some (k', o')) : o'.buf = o.buf ∧ o.len ≤ o'.len := by
  by_cases hrest : ∃ tail, d.rest = 'n' :: tail
  · obtain ⟨tail, hrest⟩ := hrest
    rw [convert_n hrest] at h
    cases h
    exact ⟨rfl, Nat.le_refl _⟩
  · obtain ⟨hbuf, hlen, _⟩ := convert_extends h fun tail htail => hrest ⟨tail, htail⟩
    exact ⟨hbuf, hlen⟩

theorem convert_next (h : convert limit args d o = some (k', o')) : k' = d.next + takes d.rest := by
  unfold convert at h
  split at h
  next hrest => cases h; rw [hrest]; rfl
  next hrest => cases h; rw [hrest]; rfl
  next hrest =>
    obtain ⟨n, _, h⟩ := Option.map_eq_some_iff.mp h
    cases h
    rw [hrest]
    rfl
  next hrest => cases h; rw [hrest]; rfl
  next hrest =>
    rw [hrest]
    split at h
    next => cases h; rfl
    next => cases h; rfl
  next hrest => cases h; rw [hrest]; rfl
  next hrest => cases h; rw [hrest]; rfl
  next hrest => cases h; rw [hrest]; rfl
  next hrest => cases h; rw [hrest]; rfl
  next hrest => cases h; rw [hrest]; rfl
  next hrest => cases h; rw [hrest]; rfl
  next hrest => cases h; rw [hrest]; rfl
  next c tail hc hs ho hp hx hX hd hi hu hn hpercent hrest =>
    cases h
    rw [hrest]
    have hother : c ∉ conversionChars := by
      intro hmem
      have hcases : c ∈ ['c', 's', 'o', 'p', 'x', 'X', 'd', 'i', 'u', 'n'] := hmem
      simp only [List.mem_cons, List.not_mem_nil, or_false] at hcases
      rcases hcases with rfl | rfl | rfl | rfl | rfl | rfl | rfl | rfl | rfl | rfl
      · exact hc rfl
      · exact hs rfl
      · exact ho rfl
      · exact hp rfl
      · exact hx rfl
      · exact hX rfl
      · exact hd rfl
      · exact hi rfl
      · exact hu rfl
      · exact hn rfl
    rw [takes, if_neg hother]
    rfl

/-- Only a string can be a fault. -/
theorem convert_none (h : convert limit args d o = none) : (∃ tail, d.rest = 's' :: tail) ∧ strlen limit o.mem (args d.next) = none := by
  unfold convert at h
  split at h
  next => cases h
  next => cases h
  next tail hrest => exact ⟨⟨tail, hrest⟩, Option.map_eq_none_iff.mp h⟩
  next => cases h
  next => split at h <;> cases h
  next => cases h
  next => cases h
  next => cases h
  next => cases h
  next => cases h
  next => cases h
  next => cases h
  next => cases h

/-- A conversion that takes no argument, and is not the end of the format, prints a `%` and what is not one. -/
theorem convert_plain (h : d.rest = c :: tail) (hc : c ∉ conversionChars) :
    convert limit args d o = some (d.next, o.puts (if c = '%' then ['%'] else ['%', c])) := by
  have hne : ∀ {b : Char}, b ∈ conversionChars → c ≠ b := fun hb heq => hc (heq ▸ hb)
  unfold convert
  split
  next hnil => exact absurd (h.symm.trans hnil) (List.cons_ne_nil _ _)
  next hrest => exact absurd (List.cons.inj (h.symm.trans hrest)).1 (hne (by decide))
  next hrest => exact absurd (List.cons.inj (h.symm.trans hrest)).1 (hne (by decide))
  next hrest => exact absurd (List.cons.inj (h.symm.trans hrest)).1 (hne (by decide))
  next hrest => exact absurd (List.cons.inj (h.symm.trans hrest)).1 (hne (by decide))
  next hrest => exact absurd (List.cons.inj (h.symm.trans hrest)).1 (hne (by decide))
  next hrest => exact absurd (List.cons.inj (h.symm.trans hrest)).1 (hne (by decide))
  next hrest => exact absurd (List.cons.inj (h.symm.trans hrest)).1 (hne (by decide))
  next hrest => exact absurd (List.cons.inj (h.symm.trans hrest)).1 (hne (by decide))
  next hrest => exact absurd (List.cons.inj (h.symm.trans hrest)).1 (hne (by decide))
  next hrest => exact absurd (List.cons.inj (h.symm.trans hrest)).1 (hne (by decide))
  next hrest => rw [if_pos (List.cons.inj (h.symm.trans hrest)).1]
  next b tail' _ _ _ _ _ _ _ _ _ _ hpercent hrest =>
    obtain ⟨rfl, rfl⟩ := List.cons.inj (h.symm.trans hrest)
    rw [if_neg hpercent]

theorem convert_end (h : d.rest = []) : convert limit args d o = some (d.next, o.puts ['%']) := by
  unfold convert
  rw [h]

theorem convert_within (hrest : d.rest ≠ [] ∨ more = []) (hargs : ∀ i, i < d.next + takes d.rest → args (j + i) = pick i) :
    convert limit args (within j more d) o = (convert limit pick d o).map fun r => (j + r.1, r.2) := by
  obtain ⟨f, w, p, rest, n⟩ := d
  cases rest with
  | nil =>
    obtain rfl : more = [] := hrest.resolve_left fun h => h rfl
    rfl
  | cons c tail =>
    by_cases hc : c ∈ conversionChars
    · have harg : args (j + n) = pick n := by
        apply hargs
        rw [takes, if_pos hc]
        exact Nat.lt_succ_self n
      have hcases : c ∈ ['c', 's', 'o', 'p', 'x', 'X', 'd', 'i', 'u', 'n'] := hc
      simp only [List.mem_cons, List.not_mem_nil, or_false] at hcases
      unfold convert within
      rcases hcases with rfl | rfl | rfl | rfl | rfl | rfl | rfl | rfl | rfl | rfl
      · dsimp only [List.cons_append]
        rw [harg]
        rfl
      · dsimp only [List.cons_append]
        rw [harg]
        cases strlen limit o.mem (pick n) with
        | none => rfl
        | some len => rfl
      · dsimp only [List.cons_append]
        rw [harg]
        rfl
      · dsimp only [List.cons_append]
        rw [harg]
        change (if w = -1 then _ else _) = Option.map _ (if w = -1 then _ else _)
        split <;> rfl
      · dsimp only [List.cons_append]
        rw [harg]
        rfl
      · dsimp only [List.cons_append]
        rw [harg]
        rfl
      · dsimp only [List.cons_append]
        rw [harg]
        rfl
      · dsimp only [List.cons_append]
        rw [harg]
        rfl
      · dsimp only [List.cons_append]
        rw [harg]
        rfl
      · dsimp only [List.cons_append]
        rw [harg]
        rfl
    · rw [@convert_plain limit c tail pick ⟨f, w, p, c :: tail, n⟩ o rfl hc,
        @convert_plain limit c (tail ++ more) args (within j more ⟨f, w, p, c :: tail, n⟩) o rfl hc]
      rfl

end Convert

/-- How many arguments a directive takes. -/
def spent (fmt : List Char) : Nat := (outline fmt).next + takes (outline fmt).rest

theorem spent_conversion {c : Char} {fmt tail : List Char} (h : (outline fmt).rest = c :: tail) (hc : c ∈ conversionChars) :
    spent fmt = (outline fmt).next + 1 := by
  unfold spent takes
  rw [h]
  exact congrArg _ (if_pos hc)

@[elab_as_elim]
theorem format_induction {P : List Char → Prop} (nil : P []) (char : ∀ c fmt, c ≠ '%' → P fmt → P (c :: fmt))
    (directive : ∀ fmt, P (outline fmt).rest.tail → P ('%' :: fmt)) (fmt : List Char) : P fmt := by
  induction hn : fmt.length using Nat.strong_induction_on generalizing fmt with
  | _ n ih =>
    cases fmt with
    | nil => exact nil
    | cons c fmt =>
      rw [List.length_cons] at hn
      by_cases hc : c = '%'
      · subst hc
        have hlen := @outline_length fmt
        apply directive fmt
        apply ih _ _ _ rfl
        rw [List.length_tail]
        omega
      · apply char c fmt hc
        exact ih fmt.length (by omega) fmt rfl

section Run

variable {limit j k k' n n' x : Nat} {c : Char} {fmt more text : List Char} {args args' pick : Nat → Nat} {o o' e e' : PrintBuf}

theorem vsprintf_char (hc : c ≠ '%') : vsprintf limit args (c :: fmt) k o = vsprintf limit args fmt k (o.put (UInt8.ofNat c.toNat)) := by
  rw [vsprintf, if_pos hc]

theorem vsprintf_directive (h : convert limit args (parseDirective args fmt k) o = some (k', o')) :
    k' = k + spent fmt ∧ vsprintf limit args ('%' :: fmt) k o = vsprintf limit args (outline fmt).rest.tail (k + spent fmt) o' := by
  obtain ⟨hrest, hnext⟩ := @parseDirective_alike fmt args k
  have hk := convert_next h
  rw [hrest, hnext, Nat.add_assoc] at hk
  refine ⟨hk, ?_⟩
  rw [vsprintf, if_neg (not_not.mpr rfl), h, ← hrest]
  dsimp only
  rw [hk]
  rfl

theorem vsprintf_directive_done (h : vsprintf limit args ('%' :: fmt) k o = .done e n) :
    ∃ o', convert limit args (parseDirective args fmt k) o = some (k + spent fmt, o') ∧
      vsprintf limit args (outline fmt).rest.tail (k + spent fmt) o' = .done e n := by
  cases hconv : convert limit args (parseDirective args fmt k) o with
  | none =>
    rw [vsprintf, if_neg (not_not.mpr rfl), hconv] at h
    cases h
  | some r =>
    obtain ⟨k', o'⟩ := r
    obtain ⟨rfl, hrun⟩ := vsprintf_directive hconv
    exact ⟨o', rfl, hrun ▸ h⟩

/-- The format alone says how many arguments a run takes. -/
theorem vsprintf_next (h : vsprintf limit args fmt k o = .done e n) (h' : vsprintf limit args' fmt k' o' = .done e' n') : n + k' = n' + k := by
  induction fmt using format_induction generalizing k k' o o' with
  | nil =>
    rw [vsprintf] at h h'
    cases h
    cases h'
    exact Nat.add_comm _ _
  | char c fmt hc ih =>
    rw [vsprintf_char hc] at h h'
    exact ih h h'
  | directive fmt ih =>
    obtain ⟨u, _, h⟩ := vsprintf_directive_done h
    obtain ⟨u', _, h'⟩ := vsprintf_directive_done h'
    have hnext := ih h h'
    omega

/-- The buffer stays where it is, and at least the zero byte is stored. -/
theorem vsprintf_buf (h : vsprintf limit args fmt k o = .done e n) : e.buf = o.buf ∧ o.len < e.len := by
  induction fmt using format_induction generalizing k o with
  | nil =>
    rw [vsprintf] at h
    cases h
    exact ⟨rfl, Nat.lt_succ_self _⟩
  | char c fmt hc ih =>
    rw [vsprintf_char hc] at h
    obtain ⟨hbuf, hlen⟩ := ih h
    exact ⟨hbuf, Nat.lt_of_succ_lt hlen⟩
  | directive fmt ih =>
    obtain ⟨u, hconv, h⟩ := vsprintf_directive_done h
    obtain ⟨hbuf, hlen⟩ := ih h
    obtain ⟨hbuf', hlen'⟩ := convert_buf hconv
    exact ⟨hbuf.trans hbuf', Nat.lt_of_le_of_lt hlen' hlen⟩

/-- What is stored stays, where no argument points to it. -/
theorem vsprintf_keeps (h : vsprintf limit args fmt k o = .done e n) (hargs : ∀ i, x < args i ∨ args i + 4 ≤ x) (hx : x < o.buf + o.len) :
    e.mem x = o.mem x := by
  induction fmt using format_induction generalizing k o with
  | nil =>
    rw [vsprintf] at h
    cases h
    exact put_other (by omega)
  | char c fmt hc ih =>
    rw [vsprintf_char hc] at h
    rw [ih h (Nat.lt_succ_of_lt hx)]
    exact put_other (by omega)
  | directive fmt ih =>
    obtain ⟨u, hconv, h⟩ := vsprintf_directive_done h
    obtain ⟨hbuf, hlen⟩ := convert_buf hconv
    rw [ih h (by omega)]
    exact convert_keeps hconv hx (hargs _)

/-- A run takes its arguments from anywhere. -/
theorem vsprintf_shift (h : vsprintf limit pick fmt k o = .done e n) (hargs : ∀ i, args (j + i) = pick i) :
    vsprintf limit args fmt (j + k) o = .done e (j + n) := by
  induction fmt using format_induction generalizing k o with
  | nil =>
    rw [vsprintf] at h ⊢
    cases h
    rfl
  | char c fmt hc ih =>
    rw [vsprintf_char hc] at h ⊢
    exact ih h
  | directive fmt ih =>
    obtain ⟨u, hconv, h⟩ := vsprintf_directive_done h
    have hdir := @parseDirective_within fmt [] args pick j k (.inr rfl) fun i _ => hargs i
    have hconv' := @convert_within limit j [] args pick (parseDirective pick fmt k) o (.inr rfl) fun i _ => hargs i
    rw [List.append_nil] at hdir
    rw [← hdir, hconv] at hconv'
    obtain ⟨_, hrun⟩ := vsprintf_directive hconv'
    rw [hrun, Nat.add_assoc]
    exact ih h

theorem skipString_finds {m : Nat → UInt8} {s z : Nat} (hz : m z = 0) (hs : s ≤ z) (hn : z < s + n) : ∃ a, skipString m n s = some a := by
  induction n generalizing s with
  | zero => omega
  | succ n ih =>
    unfold skipString
    split
    next => exact ⟨s + 1, rfl⟩
    next hne =>
      have hsz : s ≠ z := fun heq => hne (heq ▸ hz)
      exact ih (by omega) (by omega)

/-- At address 4 there is an empty string, below the buffer. -/
def Calm (limit : Nat) (o : PrintBuf) : Prop := 4 < limit ∧ 4 < o.buf ∧ o.mem 4 = 0

theorem Calm.strlen_le (h : Calm limit o) {s : Nat} (hs : s ≤ 4) : strlen limit o.mem s ≠ none := by
  obtain ⟨hlimit, _, hmem⟩ := h
  obtain ⟨a, ha⟩ := @skipString_finds (limit - s) o.mem s 4 hmem hs (by omega)
  unfold strlen
  rw [ha]
  exact Option.some_ne_none _

theorem Calm.strlen_four (h : Calm limit o) : strlen limit o.mem 4 = some 0 := by
  obtain ⟨hlimit, _, hmem⟩ := h
  obtain ⟨n, hn⟩ : ∃ n, limit - 4 = n + 1 := ⟨limit - 5, by omega⟩
  unfold strlen
  rw [hn, skipString, if_pos hmem]
  rfl

theorem Calm.extends (h : Calm limit o) (he : Extends o o') : Calm limit o' := by
  obtain ⟨hlimit, hbuf, hmem⟩ := h
  obtain ⟨hbuf', _, hmem'⟩ := he
  refine ⟨hlimit, hbuf' ▸ hbuf, ?_⟩
  rw [hmem' 4 (by omega), hmem]

/-- A directive whose argument is at most 4 is no fault; `%n` may have the address 0 only. -/
theorem Calm.convert {d : Directive} (h : Calm limit o) (harg : args d.next ≤ 4) (hn : ∀ tail, d.rest = 'n' :: tail → args d.next = 0) :
    ∃ o', convert limit args d o = some (d.next + takes d.rest, o') ∧ Calm limit o' ∧ o'.buf = o.buf := by
  cases hconv : RheeKernel.convert limit args d o with
  | none => exact absurd (convert_none hconv).2 (h.strlen_le harg)
  | some r =>
    obtain ⟨k', o'⟩ := r
    obtain rfl := convert_next hconv
    refine ⟨o', rfl, ?_, (convert_buf hconv).1⟩
    by_cases hrest : ∃ tail, d.rest = 'n' :: tail
    · obtain ⟨tail, hrest⟩ := hrest
      obtain ⟨hlimit, hbuf, hmem⟩ := h
      have hzero := hn tail hrest
      refine ⟨hlimit, (convert_buf hconv).1 ▸ hbuf, ?_⟩
      rw [convert_keeps hconv (by omega) (by omega), hmem]
    · exact h.extends (convert_extends hconv fun tail htail => hrest ⟨tail, htail⟩)

/-- With no argument but zeros `vsprintf` comes to its end. -/
theorem Calm.done (h : Calm limit o) : ∃ e n, vsprintf limit (fun _ => 0) fmt k o = .done e n := by
  induction fmt using format_induction generalizing k o with
  | nil => exact ⟨_, _, by rw [vsprintf]⟩
  | char c fmt hc ih =>
    rw [vsprintf_char hc]
    exact ih (h.extends extends_put)
  | directive fmt ih =>
    obtain ⟨u, hconv, hcalm, _⟩ := @Calm.convert limit (fun _ => 0) o (parseDirective (fun _ => 0) fmt k) h (Nat.zero_le 4) fun _ _ => rfl
    obtain ⟨_, hrun⟩ := vsprintf_directive hconv
    rw [hrun]
    exact ih hcalm

theorem length_string {d : Directive} {w : Nat} (h : ∀ tail, d.rest ≠ 's' :: tail) : d.length w n = d.length w n' := by
  unfold Directive.length
  split
  next => rfl
  next => rfl
  next hrest => exact absurd hrest (h _)
  all_goals rfl

/-- An own argument that makes a directive's text as long in every memory: the address 0 for `%n`, else the empty string. -/
def steadyArg (fmt : List Char) : Nat := if (outline fmt).rest.head? = some 'n' then 0 else 4

theorem steadyArg_le : steadyArg fmt ≤ 4 := by
  unfold steadyArg
  split <;> omega

/-- The arguments `pick`, behind `m` times `a`. -/
def behind (m a : Nat) (pick : Nat → Nat) (i : Nat) : Nat := if i < m then a else pick (i - m)

theorem behind_less {m a i : Nat} (h : i < m) : behind m a pick i = a := if_pos h

theorem behind_later {m a : Nat} (i : Nat) : behind m a pick (m + i) = pick i := by
  unfold behind
  rw [if_neg (by omega), Nat.add_sub_cancel_left]

theorem behind_le {m a b : Nat} (ha : a ≤ b) (h : ∀ i, pick i ≤ b) (i : Nat) : behind m a pick i ≤ b := by
  unfold behind
  split
  next => exact ha
  next => exact h _

theorem steadyArg_own (h : (parseDirective args fmt 0).rest = c :: text) (hc : c ∈ conversionChars) :
    behind (spent fmt) (steadyArg fmt) pick (parseDirective args fmt 0).next = if c = 'n' then 0 else 4 := by
  obtain ⟨hrest, hnext⟩ := @parseDirective_alike fmt args 0
  have hout : (outline fmt).rest = c :: text := hrest ▸ h
  have hlt : (parseDirective args fmt 0).next < spent fmt := by
    rw [spent_conversion hout hc, hnext]
    omega
  rw [behind_less hlt]
  unfold steadyArg
  rw [hout, List.head?_cons]
  exact if_congr Option.some_inj rfl rfl

/-- The text of such a directive has a length that does not depend on the memory. -/
theorem Calm.directive {d : Directive} (h : Calm limit o) (hpick : ∀ i, pick i ≤ 4) (hd : d = parseDirective (behind (spent fmt) (steadyArg fmt) pick) fmt 0) :
    ∃ o', RheeKernel.convert limit (behind (spent fmt) (steadyArg fmt) pick) d o = some (d.next + takes d.rest, o') ∧ Calm limit o' ∧
      o'.len = o.len + d.length (behind (spent fmt) (steadyArg fmt) pick d.next) 0 := by
  obtain ⟨o', hconv, hcalm, _⟩ := @Calm.convert limit (behind (spent fmt) (steadyArg fmt) pick) o d h (behind_le steadyArg_le hpick _) fun tail htail =>
    hd ▸ steadyArg_own (hd ▸ htail) (by decide)
  refine ⟨o', hconv, hcalm, ?_⟩
  rw [convert_length hconv]
  by_cases hs : ∃ tail, d.rest = 's' :: tail
  · obtain ⟨tail, hs⟩ := hs
    have hfour : behind (spent fmt) (steadyArg fmt) pick d.next = 4 := hd ▸ steadyArg_own (hd ▸ hs) (by decide)
    rw [hfour, h.strlen_four]
    rfl
  · rw [@length_string _ 0 d _ fun tail htail => hs ⟨tail, htail⟩]

/-- For each format there are arguments that make its text as long in every memory. -/
theorem steady (fmt : List Char) : ∃ (pick : Nat → Nat) (len : Nat), (∀ i, pick i ≤ 4) ∧
    ∀ limit o, Calm limit o → ∃ e n, vsprintf limit pick fmt 0 o = .done e n ∧ e.len = o.len + len := by
  induction fmt using format_induction with
  | nil =>
    refine ⟨fun _ => 0, 1, fun _ => Nat.zero_le 4, fun limit o _ => ⟨_, _, by rw [vsprintf], rfl⟩⟩
  | char c fmt hc ih =>
    obtain ⟨pick, len, hpick, hrun⟩ := ih
    refine ⟨pick, len + 1, hpick, fun limit o h => ?_⟩
    obtain ⟨e, n, he, hlen⟩ := hrun limit _ (h.extends (@extends_put o (UInt8.ofNat c.toNat)))
    rw [put_len] at hlen
    exact ⟨e, n, by rw [vsprintf_char hc, he], by omega⟩
  | directive fmt ih =>
    obtain ⟨pick, len, hpick, hrun⟩ := ih
    generalize hd : parseDirective (behind (spent fmt) (steadyArg fmt) pick) fmt 0 = d
    refine ⟨behind (spent fmt) (steadyArg fmt) pick, d.length (behind (spent fmt) (steadyArg fmt) pick d.next) 0 + len, behind_le steadyArg_le hpick, fun limit o h => ?_⟩
    obtain ⟨o', hconv, hcalm, hlength⟩ := h.directive hpick hd.symm
    obtain ⟨_, hstep⟩ := vsprintf_directive (hd ▸ hconv)
    obtain ⟨e, n, he, hlen⟩ := hrun limit o' hcalm
    refine ⟨e, spent fmt + n, ?_, by omega⟩
    rw [hstep, Nat.add_comm]
    exact vsprintf_shift he behind_later

end Run

end RheeKernel.Format
