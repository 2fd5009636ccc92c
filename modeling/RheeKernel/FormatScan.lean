import Mathlib.Data.List.TakeWhile
import RheeKernel.Printk

namespace RheeKernel.Format

section Scan

variable {c : Char} {fmt rest more text : List Char} {args pick : Nat → Nat} {f : NumberFlags} {d e : Directive} {i j k base : Nat}

theorem skipAtoi_rest : (skipAtoi fmt i).2 = fmt.dropWhile Char.isDigit := by
  induction fmt generalizing i with
  | nil => rfl
  | cons c fmt ih =>
    unfold skipAtoi
    split
    next hc => rw [List.dropWhile_cons_of_pos hc, ih]
    next hc => rw [List.dropWhile_cons_of_neg hc]

/-- A number that ends inside of a format is the same one with more behind it. -/
theorem skipAtoi_append (h : (skipAtoi fmt i).2 ≠ [] ∨ more = []) :
    skipAtoi (fmt ++ more) i = ((skipAtoi fmt i).1, (skipAtoi fmt i).2 ++ more) := by
  induction fmt generalizing i with
  | nil =>
    obtain rfl : more = [] := h.resolve_left (not_not_intro rfl)
    rfl
  | cons c fmt ih =>
    rw [List.cons_append]
    unfold skipAtoi at h ⊢
    split
    next hc =>
      rw [if_pos hc] at h
      exact ih h
    next => rfl

def flagChars : List Char := "-+ #0".toList

theorem parseFlags_flags (h : ∀ c ∈ text, c ∈ flagChars) (f : NumberFlags) :
    ∃ f', ∀ fmt, parseFlags (text ++ fmt) f = parseFlags fmt f' := by
  induction text generalizing f with
  | nil => exact ⟨f, fun fmt => rfl⟩
  | cons c text ih =>
    have htext : ∀ c ∈ text, c ∈ flagChars := fun b hb => h b (List.mem_cons_of_mem c hb)
    have hc : c ∈ ['-', '+', ' ', '#', '0'] := h c List.mem_cons_self
    simp only [List.mem_cons, List.not_mem_nil, or_false] at hc
    rcases hc with rfl | rfl | rfl | rfl | rfl <;> exact ih htext _

theorem parseFlags_stop (h : c ∉ flagChars) : parseFlags (c :: fmt) f = (f, c :: fmt) := by
  have hc : ¬ (c = '-' ∨ c = '+' ∨ c = ' ' ∨ c = '#' ∨ c = '0') := by simpa [flagChars] using h
  push Not at hc
  obtain ⟨hminus, hplus, hspace, hsharp, hzero⟩ := hc
  unfold parseFlags
  split
  next heq => exact absurd (List.cons.inj heq).1 hminus
  next heq => exact absurd (List.cons.inj heq).1 hplus
  next heq => exact absurd (List.cons.inj heq).1 hspace
  next heq => exact absurd (List.cons.inj heq).1 hsharp
  next heq => exact absurd (List.cons.inj heq).1 hzero
  next => rfl

theorem parseFlags_append (h : (parseFlags fmt f).2 ≠ [] ∨ more = []) :
    parseFlags (fmt ++ more) f = ((parseFlags fmt f).1, (parseFlags fmt f).2 ++ more) := by
  induction fmt generalizing f with
  | nil =>
    obtain rfl : more = [] := h.resolve_left (not_not_intro rfl)
    rfl
  | cons c fmt ih =>
    by_cases hc : c ∈ flagChars
    · have hcases : c ∈ ['-', '+', ' ', '#', '0'] := hc
      simp only [List.mem_cons, List.not_mem_nil, or_false] at hcases
      rcases hcases with rfl | rfl | rfl | rfl | rfl <;> exact ih h
    · rw [List.cons_append, parseFlags_stop hc, parseFlags_stop hc]
      rfl

variable {w : Int} {p : Int} {n : Nat}

theorem parseWidth_digit (h : c.isDigit = true) :
    parseWidth args ⟨f, w, p, c :: fmt, n⟩ = ⟨f, (skipAtoi (c :: fmt) 0).1, p, (skipAtoi (c :: fmt) 0).2, n⟩ :=
  if_pos h

/-- Behind a width that is a `*` the format stays at the `*`. -/
theorem parseWidth_star : parseWidth args ⟨f, w, p, '*' :: fmt, n⟩ =
    ⟨{ f with left := f.left || decide (asInt (args n) < 0) }, |asInt (args n)|, p, '*' :: fmt, n + 1⟩ := by
  change (if asInt (args n) < 0 then _ else _) = _
  split
  next h => simp [h, abs_of_neg h]
  next h => simp [h, abs_of_nonneg (not_lt.mp h)]

theorem parseWidth_other (h : c.isDigit ≠ true) (hstar : c ≠ '*') : parseWidth args ⟨f, w, p, c :: fmt, n⟩ = ⟨f, w, p, c :: fmt, n⟩ := by
  change (if c.isDigit then _ else if c = '*' then _ else _) = _
  rw [if_neg h, if_neg hstar]

theorem parsePrecision_digit (h : c.isDigit = true) :
    parsePrecision args ⟨f, w, p, '.' :: c :: fmt, n⟩ = ⟨f, w, (skipAtoi (c :: fmt) 0).1, (skipAtoi (c :: fmt) 0).2, n⟩ :=
  if_pos h

theorem parsePrecision_star :
    parsePrecision args ⟨f, w, p, '.' :: '*' :: fmt, n⟩ = ⟨f, w, max (asInt (args n)) 0, '*' :: fmt, n + 1⟩ := rfl

theorem parsePrecision_other (h : c.isDigit ≠ true) (hstar : c ≠ '*') :
    parsePrecision args ⟨f, w, p, '.' :: c :: fmt, n⟩ = ⟨f, w, 0, c :: fmt, n⟩ := by
  change (if c.isDigit then _ else if c = '*' then _ else _) = _
  rw [if_neg h, if_neg hstar]

theorem parsePrecision_without (h : c ≠ '.') : parsePrecision args ⟨f, w, p, c :: fmt, n⟩ = ⟨f, w, p, c :: fmt, n⟩ := by
  unfold parsePrecision
  split
  next heq => exact absurd (List.cons.inj heq).1 h
  next => rfl

theorem skipQualifier_qualifier (h : c ∈ ['h', 'l', 'L']) : skipQualifier ⟨f, w, p, c :: fmt, n⟩ = ⟨f, w, p, fmt, n⟩ := by
  simp only [List.mem_cons, List.not_mem_nil, or_false] at h
  rcases h with rfl | rfl | rfl <;> rfl

theorem skipQualifier_other (h : c ∉ ['h', 'l', 'L']) : skipQualifier ⟨f, w, p, c :: fmt, n⟩ = ⟨f, w, p, c :: fmt, n⟩ := by
  simp only [List.mem_cons, List.not_mem_nil, or_false, not_or] at h
  unfold skipQualifier
  split
  next heq => exact absurd (List.cons.inj heq).1 h.1
  next heq => exact absurd (List.cons.inj heq).1 h.2.1
  next heq => exact absurd (List.cons.inj heq).1 h.2.2
  next => rfl

end Scan

/-- The same directive in a longer format, and with its arguments `j` places further on. -/
def within (j : Nat) (more : List Char) (d : Directive) : Directive := { d with rest := d.rest ++ more, next := j + d.next }

section Within

variable {fmt more : List Char} {args pick : Nat → Nat} {d : Directive} {j : Nat}

theorem parseWidth_within (hrest : (parseWidth pick d).rest ≠ [] ∨ more = [])
    (hargs : ∀ i, i < (parseWidth pick d).next → args (j + i) = pick i) :
    parseWidth args (within j more d) = within j more (parseWidth pick d) := by
  obtain ⟨f, w, p, rest, n⟩ := d
  cases rest with
  | nil =>
    obtain rfl : more = [] := hrest.resolve_left (not_not_intro rfl)
    rfl
  | cons c rest =>
    by_cases hdigit : c.isDigit = true
    · rw [parseWidth_digit hdigit] at hrest ⊢
      have hnum := skipAtoi_append hrest
      rw [List.cons_append] at hnum
      unfold within
      rw [List.cons_append, parseWidth_digit hdigit, hnum]
    · by_cases hstar : c = '*'
      · subst hstar
        rw [parseWidth_star] at hargs ⊢
        have harg : args (j + n) = pick n := hargs n (Nat.lt_succ_self n)
        unfold within
        rw [List.cons_append, parseWidth_star, harg]
        rfl
      · rw [parseWidth_other hdigit hstar]
        exact parseWidth_other hdigit hstar

theorem parsePrecision_within (hrest : (parsePrecision pick d).rest ≠ [] ∨ more = [])
    (hargs : ∀ i, i < (parsePrecision pick d).next → args (j + i) = pick i) :
    parsePrecision args (within j more d) = within j more (parsePrecision pick d) := by
  obtain ⟨f, w, p, rest, n⟩ := d
  rcases rest with _ | ⟨c, rest⟩
  · obtain rfl : more = [] := hrest.resolve_left (not_not_intro rfl)
    rfl
  · by_cases hdot : c = '.'
    · subst hdot
      rcases rest with _ | ⟨b, rest⟩
      · obtain rfl : more = [] := hrest.resolve_left (not_not_intro rfl)
        rfl
      · by_cases hdigit : b.isDigit = true
        · rw [parsePrecision_digit hdigit] at hrest ⊢
          have hnum := skipAtoi_append hrest
          rw [List.cons_append] at hnum
          unfold within
          rw [List.cons_append, List.cons_append, parsePrecision_digit hdigit, hnum]
        · by_cases hstar : b = '*'
          · subst hstar
            rw [parsePrecision_star] at hargs ⊢
            have harg : args (j + n) = pick n := hargs n (Nat.lt_succ_self n)
            unfold within
            rw [List.cons_append, List.cons_append, parsePrecision_star, harg]
            rfl
          · rw [parsePrecision_other hdigit hstar]
            exact parsePrecision_other hdigit hstar
    · rw [parsePrecision_without hdot]
      exact parsePrecision_without hdot

theorem skipQualifier_within (hrest : (skipQualifier d).rest ≠ [] ∨ more = []) :
    skipQualifier (within j more d) = within j more (skipQualifier d) := by
  obtain ⟨f, w, p, rest, n⟩ := d
  cases rest with
  | nil =>
    obtain rfl : more = [] := hrest.resolve_left (not_not_intro rfl)
    rfl
  | cons c rest =>
    by_cases hc : c ∈ ['h', 'l', 'L']
    · rw [skipQualifier_qualifier hc]
      exact skipQualifier_qualifier hc
    · rw [skipQualifier_other hc]
      exact skipQualifier_other hc

theorem parsePrecision_next : d.next ≤ (parsePrecision args d).next := by
  unfold parsePrecision
  split
  next =>
    split
    next => exact Nat.le_refl _
    next =>
      split
      next => exact Nat.le_refl _
      next =>
        split
        next => exact Nat.le_succ _
        next => exact Nat.le_refl _
  next => exact Nat.le_refl _

theorem skipQualifier_next : (skipQualifier d).next = d.next := by
  unfold skipQualifier
  split <;> rfl

/-- With the same arguments, a directive that is complete reads the same in a longer format. -/
theorem parseDirective_within {k : Nat} (hrest : (parseDirective pick fmt k).rest ≠ [] ∨ more = [])
    (hargs : ∀ i, i < (parseDirective pick fmt k).next → args (j + i) = pick i) :
    parseDirective args (fmt ++ more) (j + k) = within j more (parseDirective pick fmt k) := by
  unfold parseDirective at hrest hargs ⊢
  generalize hd : (⟨(parseFlags fmt noFlags).1, -1, -1, (parseFlags fmt noFlags).2, k⟩ : Directive) = d at hrest hargs ⊢
  have hback : ∀ {x y : List Char}, x.length ≤ y.length → x ≠ [] ∨ more = [] → y ≠ [] ∨ more = [] := by
    intro x y hlen hx
    rcases hx with hx | hx
    · have hpos := List.length_pos_of_ne_nil hx
      exact .inl (List.ne_nil_of_length_pos (by omega))
    · exact .inr hx
  have hprec := hback skipQualifier_length hrest
  have hwidth := hback parsePrecision_length hprec
  have hflags := hback parseWidth_length hwidth
  have hstart : (⟨(parseFlags (fmt ++ more) noFlags).1, -1, -1, (parseFlags (fmt ++ more) noFlags).2, j + k⟩ : Directive) =
      within j more d := by
    rw [← hd] at hflags
    rw [parseFlags_append hflags, ← hd]
    rfl
  rw [skipQualifier_next] at hargs
  rw [hstart, parseWidth_within hwidth fun i hi => hargs i (Nat.lt_of_lt_of_le hi parsePrecision_next),
    parsePrecision_within hprec hargs, skipQualifier_within hrest]

end Within

/-- What the format alone says about a directive: where its conversion stands and how many arguments come before. -/
def outline (fmt : List Char) : Directive := parseDirective (fun _ => 0) fmt 0

/-- Two directives at the same place of the format, the first one `k` arguments further on. -/
def Alike (k : Nat) (d e : Directive) : Prop := d.rest = e.rest ∧ d.next = k + e.next

section Outline

variable {fmt rest : List Char} {args pick : Nat → Nat} {d e : Directive} {k : Nat}

theorem Alike.width (h : Alike k d e) : Alike k (parseWidth args d) (parseWidth pick e) := by
  obtain ⟨f, w, p, rest, n⟩ := d
  obtain ⟨f', w', p', rest', n'⟩ := e
  obtain ⟨rfl, rfl⟩ : rest = rest' ∧ n = k + n' := h
  cases rest with
  | nil => exact ⟨rfl, rfl⟩
  | cons c rest =>
    by_cases hdigit : c.isDigit = true
    · rw [parseWidth_digit hdigit, parseWidth_digit hdigit]
      exact ⟨rfl, rfl⟩
    · by_cases hstar : c = '*'
      · subst hstar
        rw [parseWidth_star, parseWidth_star]
        exact ⟨rfl, rfl⟩
      · rw [parseWidth_other hdigit hstar, parseWidth_other hdigit hstar]
        exact ⟨rfl, rfl⟩

theorem Alike.precision (h : Alike k d e) : Alike k (parsePrecision args d) (parsePrecision pick e) := by
  obtain ⟨f, w, p, rest, n⟩ := d
  obtain ⟨f', w', p', rest', n'⟩ := e
  obtain ⟨rfl, rfl⟩ : rest = rest' ∧ n = k + n' := h
  rcases rest with _ | ⟨c, rest⟩
  · exact ⟨rfl, rfl⟩
  · by_cases hdot : c = '.'
    · subst hdot
      rcases rest with _ | ⟨b, rest⟩
      · exact ⟨rfl, rfl⟩
      · by_cases hdigit : b.isDigit = true
        · rw [parsePrecision_digit hdigit, parsePrecision_digit hdigit]
          exact ⟨rfl, rfl⟩
        · by_cases hstar : b = '*'
          · subst hstar
            exact ⟨rfl, rfl⟩
          · rw [parsePrecision_other hdigit hstar, parsePrecision_other hdigit hstar]
            exact ⟨rfl, rfl⟩
    · rw [parsePrecision_without hdot, parsePrecision_without hdot]
      exact ⟨rfl, rfl⟩

theorem Alike.qualifier (h : Alike k d e) : Alike k (skipQualifier d) (skipQualifier e) := by
  obtain ⟨f, w, p, rest, n⟩ := d
  obtain ⟨f', w', p', rest', n'⟩ := e
  obtain ⟨rfl, rfl⟩ : rest = rest' ∧ n = k + n' := h
  cases rest with
  | nil => exact ⟨rfl, rfl⟩
  | cons c rest =>
    by_cases hc : c ∈ ['h', 'l', 'L']
    · rw [skipQualifier_qualifier hc, skipQualifier_qualifier hc]
      exact ⟨rfl, rfl⟩
    · rw [skipQualifier_other hc, skipQualifier_other hc]
      exact ⟨rfl, rfl⟩

theorem parseDirective_alike : Alike k (parseDirective args fmt k) (outline fmt) :=
  Alike.qualifier (Alike.precision (Alike.width ⟨rfl, rfl⟩))

theorem outline_length : (outline fmt).rest.length ≤ fmt.length := parseDirective_length

/-- The text `rest` up to the conversion has no `%`, and a `*` that takes an argument is the conversion itself. -/
def Reads (rest : List Char) (base : Nat) (d : Directive) : Prop :=
  ∃ text, rest = text ++ d.rest ∧ '%' ∉ text ∧ (d.next = base ∨ d.next = base + 1 ∧ ∃ tail, d.rest = '*' :: tail)

theorem reads_digits {base : Nat} {f : NumberFlags} {w p : Int} {i : Nat} (h : Reads fmt base ⟨f, w, p, rest, base⟩) :
    ∀ {w' p' : Int}, Reads fmt base ⟨f, w', p', (skipAtoi rest i).2, base⟩ := by
  intro w' p'
  obtain ⟨text, htext, hpercent, _⟩ := h
  refine ⟨text ++ rest.takeWhile Char.isDigit, ?_, ?_, .inl rfl⟩
  · change fmt = _ ++ (skipAtoi rest i).2
    rw [skipAtoi_rest, List.append_assoc, List.takeWhile_append_dropWhile]
    exact htext
  · intro hmem
    rcases List.mem_append.mp hmem with hmem | hmem
    · exact hpercent hmem
    · exact absurd (List.mem_takeWhile_imp hmem) (by decide)

/-- One more character that is no `%` is read. -/
theorem reads_char {base : Nat} {f : NumberFlags} {w p : Int} {c : Char} (h : Reads fmt base ⟨f, w, p, c :: rest, base⟩) (hc : c ≠ '%') :
    ∀ {w' p' : Int}, Reads fmt base ⟨f, w', p', rest, base⟩ := by
  intro w' p'
  obtain ⟨text, htext, hpercent, _⟩ := h
  refine ⟨text ++ [c], ?_, ?_, .inl rfl⟩
  · rw [List.append_assoc]
    exact htext
  · intro hmem
    rcases List.mem_append.mp hmem with hmem | hmem
    · exact hpercent hmem
    · exact hc (List.mem_singleton.mp hmem).symm

theorem Reads.precision {base : Nat} (h : Reads fmt base d) : Reads fmt base (parsePrecision args d) := by
  obtain ⟨f, w, p, rest, n⟩ := d
  have hwhole := h
  obtain ⟨text, htext, hpercent, hn | ⟨hn, tail, htail⟩⟩ := h
  · obtain rfl : n = base := hn
    rcases rest with _ | ⟨c, rest⟩
    · exact hwhole
    · by_cases hdot : c = '.'
      · subst hdot
        have hdotted := @reads_char fmt rest n f w p '.' hwhole (by decide)
        rcases rest with _ | ⟨b, rest⟩
        · exact hdotted
        · by_cases hdigit : b.isDigit = true
          · rw [parsePrecision_digit hdigit]
            exact reads_digits (@hdotted w p)
          · by_cases hstar : b = '*'
            · subst hstar
              rw [parsePrecision_star]
              obtain ⟨text', htext', hpercent', _⟩ := @hdotted w p
              exact ⟨text', htext', hpercent', .inr ⟨rfl, rest, rfl⟩⟩
            · rw [parsePrecision_other hdigit hstar]
              exact hdotted
      · rw [parsePrecision_without hdot]
        exact hwhole
  · obtain rfl : rest = '*' :: tail := htail
    rw [parsePrecision_without (by decide)]
    exact hwhole

theorem Reads.qualifier {base : Nat} (h : Reads fmt base d) : Reads fmt base (skipQualifier d) := by
  obtain ⟨f, w, p, rest, n⟩ := d
  have hwhole := h
  obtain ⟨text, htext, hpercent, hn | ⟨hn, tail, htail⟩⟩ := h
  · obtain rfl : n = base := hn
    cases rest with
    | nil => exact hwhole
    | cons c rest =>
      by_cases hc : c ∈ ['h', 'l', 'L']
      · rw [skipQualifier_qualifier hc]
        apply reads_char hwhole
        rintro rfl
        exact absurd hc (by decide)
      · rw [skipQualifier_other hc]
        exact hwhole
  · obtain rfl : rest = '*' :: tail := htail
    rw [skipQualifier_other (by decide)]
    exact hwhole

theorem Reads.width {f : NumberFlags} {base : Nat} (h : Reads fmt base ⟨f, -1, -1, rest, base⟩) :
    Reads fmt base (parseWidth args ⟨f, -1, -1, rest, base⟩) := by
  cases rest with
  | nil => exact h
  | cons c rest =>
    by_cases hdigit : c.isDigit = true
    · rw [parseWidth_digit hdigit]
      exact reads_digits h
    · by_cases hstar : c = '*'
      · subst hstar
        rw [parseWidth_star]
        obtain ⟨text, htext, hpercent, _⟩ := h
        exact ⟨text, htext, hpercent, .inr ⟨rfl, rest, rfl⟩⟩
      · rw [parseWidth_other hdigit hstar]
        exact h

theorem parseFlags_reads {f : NumberFlags} : ∃ text, fmt = text ++ (parseFlags fmt f).2 ∧ '%' ∉ text := by
  induction fmt generalizing f with
  | nil => exact ⟨[], rfl, by decide⟩
  | cons c fmt ih =>
    by_cases hc : c ∈ flagChars
    · have hnext : ∃ f', parseFlags (c :: fmt) f = parseFlags fmt f' := by
        obtain ⟨f', hf'⟩ := @parseFlags_flags [c] (fun b hb => List.mem_singleton.mp hb ▸ hc) f
        exact ⟨f', hf' fmt⟩
      obtain ⟨f', hf'⟩ := hnext
      obtain ⟨text, htext, hpercent⟩ := @ih f'
      refine ⟨c :: text, ?_, ?_⟩
      · rw [hf', List.cons_append, ← htext]
      · intro hmem
        rcases List.mem_cons.mp hmem with rfl | hmem
        · exact absurd hc (by decide)
        · exact hpercent hmem
    · rw [parseFlags_stop hc]
      exact ⟨[], rfl, by decide⟩

/-- Up to its conversion a directive has no second `%`. -/
theorem outline_reads : Reads fmt 0 (outline fmt) := by
  obtain ⟨text, htext, hpercent⟩ := @parseFlags_reads fmt noFlags
  exact Reads.qualifier (Reads.precision (Reads.width ⟨text, htext, hpercent, .inl rfl⟩))

end Outline

end RheeKernel.Format
