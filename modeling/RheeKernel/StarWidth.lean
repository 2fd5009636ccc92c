import Mathlib.Data.Nat.Digits.Lemmas
import Mathlib.Tactic.IntervalCases
import RheeKernel.FormatRuns

namespace RheeKernel.Format

/-- A piece of a format that ends outside of a directive, and the number of arguments that it takes. -/
inductive Closed : List Char → Nat → Prop
  | nil : Closed [] 0
  | char {c : Char} {fmt : List Char} {n : Nat} : c ≠ '%' → Closed fmt n → Closed (c :: fmt) n
  | directive {fmt tail : List Char} {c : Char} {n : Nat} : (outline fmt).rest = c :: tail → Closed tail n →
      Closed ('%' :: fmt) (spent fmt + n)

section Differ

variable {limit k n : Nat} {c : Char} {fmt tail rest flags ds before : List Char} {args args' : Nat → Nat} {o e e' : PrintBuf} {b : UInt8}

/-- With zeros as arguments such a piece is no fault, and `vsprintf` goes on behind it. -/
theorem Closed.run (h : Closed before n) (hcalm : Calm limit o) : ∃ u, Calm limit u ∧ u.buf = o.buf ∧
    ∀ args fmt, (∀ i, i < n → args (k + i) = 0) → vsprintf limit args (before ++ fmt) k o = vsprintf limit args fmt (k + n) u := by
  induction h generalizing k o with
  | nil => exact ⟨o, hcalm, rfl, fun args fmt _ => rfl⟩
  | @char c before n hc _ ih =>
    obtain ⟨u, hu, hbuf, hrun⟩ := @ih k _ (hcalm.extends (@extends_put o (UInt8.ofNat c.toNat)))
    refine ⟨u, hu, hbuf, fun args fmt hargs => ?_⟩
    rw [List.cons_append, vsprintf_char hc]
    exact hrun args fmt hargs
  | @directive format tail c n hrest _ ih =>
    obtain ⟨o', hconv, hcalm', hbuf'⟩ := @Calm.convert limit (fun _ => 0) o (outline format) hcalm (Nat.zero_le 4) fun _ _ => rfl
    obtain ⟨u, hu, hbuf, hrun⟩ := @ih (k + spent format) o' hcalm'
    refine ⟨u, hu, hbuf.trans hbuf', fun args fmt hargs => ?_⟩
    have hne : (outline format).rest ≠ [] := hrest ▸ List.cons_ne_nil _ _
    have hdir : parseDirective args (format ++ fmt) k = within k fmt (outline format) := by
      refine @parseDirective_within format fmt args _ k 0 (.inl hne) fun i hi => hargs i ?_
      exact Nat.lt_of_lt_of_le hi (Nat.le_trans (Nat.le_add_right _ _) (Nat.le_add_right _ _))
    have hout : outline (format ++ fmt) = within 0 fmt (outline format) :=
      @parseDirective_within format fmt _ _ 0 0 (.inl hne) fun _ _ => rfl
    have hconv' : convert limit args (parseDirective args (format ++ fmt) k) o = some (k + spent format, o') := by
      rw [hdir, @convert_within limit k fmt args (fun _ => 0) _ o (.inl hne) fun i hi => hargs i (Nat.lt_of_lt_of_le hi (Nat.le_add_right _ _)), hconv]
      rfl
    obtain ⟨hspent, hstep⟩ := vsprintf_directive hconv'
    rw [List.cons_append, hstep, ← hspent, hout, ← Nat.add_assoc]
    unfold within
    rw [hrest]
    refine hrun args fmt fun i hi => ?_
    rw [Nat.add_assoc]
    exact hargs _ (Nat.add_lt_add_left hi _)

/-- A directive that takes no argument for its conversion. -/
theorem plain_run (h : (outline fmt).rest = c :: tail) (hc : c ∉ conversionChars) : vsprintf limit args ('%' :: fmt) k o =
    vsprintf limit args tail (k + (outline fmt).next) (o.puts (if c = '%' then ['%'] else ['%', c])) := by
  obtain ⟨hrest, hnext⟩ := @parseDirective_alike fmt args k
  obtain ⟨hspent, hrun⟩ := vsprintf_directive (@convert_plain limit c tail args (parseDirective args fmt k) o (hrest.trans h) hc)
  rw [hrun, ← hspent, hnext, h]
  rfl

/-- A directive that the end of the format breaks off. -/
theorem end_run (h : (outline fmt).rest = []) : vsprintf limit args ('%' :: fmt) k o =
    vsprintf limit args [] (k + (outline fmt).next) (o.puts ['%']) := by
  obtain ⟨hrest, hnext⟩ := @parseDirective_alike fmt args k
  obtain ⟨hspent, hrun⟩ := vsprintf_directive (@convert_end limit args (parseDirective args fmt k) o (hrest.trans h))
  rw [hrun, ← hspent, hnext, h]
  rfl

/-- A `*` in a directive is printed behind the `%`, and what follows is text. -/
theorem star_run (h : (outline fmt).rest = '*' :: rest) (hnext : (outline fmt).next = 1) :
    vsprintf limit args ('%' :: fmt) k o = vsprintf limit args rest (k + 1) (o.puts ['%', '*']) := by
  rw [plain_run h (by decide), hnext]
  rfl

/-- A byte that is stored is in the text at the end. -/
theorem put_stays (h : vsprintf limit args fmt k (o.put b) = .done e n) (hargs : ∀ i, args i + 4 ≤ o.buf) : e.mem (o.buf + o.len) = b := by
  rw [vsprintf_keeps h (fun i => .inr (Nat.le_trans (hargs i) (Nat.le_add_right _ _))) (Nat.lt_succ_self _)]
  exact Function.update_self _ _ _

theorem outline_percent : (outline ('%' :: fmt)).rest = '%' :: fmt ∧ (outline ('%' :: fmt)).next = 0 := by
  unfold outline parseDirective
  rw [parseFlags_stop (by decide), parseWidth_other (by decide) (by decide), parsePrecision_without (by decide),
    skipQualifier_other (by decide)]
  exact ⟨rfl, rfl⟩

theorem outline_star : (outline ('*' :: fmt)).rest = '*' :: fmt ∧ (outline ('*' :: fmt)).next = 1 := by
  unfold outline parseDirective
  rw [parseFlags_stop (by decide), parseWidth_star, parsePrecision_without (by decide), skipQualifier_other (by decide)]
  exact ⟨rfl, rfl⟩

theorem conversion_ne_percent (h : c ∈ conversionChars) : c ≠ '%' := by
  rintro rfl
  exact absurd h (by decide)

theorem byte_inj {a : Char} (hc : c.toNat < 256) (ha : a.toNat < 256) (h : UInt8.ofNat c.toNat = UInt8.ofNat a.toNat) : c = a := by
  have hnat := congrArg UInt8.toNat h
  rw [UInt8.toNat_ofNat_of_lt' hc, UInt8.toNat_ofNat_of_lt' ha] at hnat
  exact Char.toNat_inj.mp hnat

/-- Where the first run has a `%%` and the second one the same `%` behind a star, they differ. -/
theorem percent_differs (hbytes : ∀ c ∈ tail, c.toNat < 256) {u : PrintBuf} (hl : vsprintf limit args tail k (o.put 37) = .done e n)
    (hs : vsprintf limit args' ('%' :: tail) (k + 1) u = .done e' (n + 1)) (hargs : ∀ i, args i + 4 ≤ o.buf) :
    e.mem (o.buf + (o.len + 1)) ≠ UInt8.ofNat '*'.toNat := by
  intro hbyte
  cases tail with
  | nil =>
    rw [vsprintf] at hl
    cases hl
    have hzero : ((o.put 37).put 0).mem (o.buf + (o.len + 1)) = 0 := Function.update_self _ _ _
    rw [hzero] at hbyte
    exact absurd hbyte (by decide)
  | cons c tail =>
    by_cases hc : c = '%'
    · subst hc
      rw [plain_run outline_percent.1 (by decide), outline_percent.2] at hs
      cases hrest : (outline tail).rest with
      | nil =>
        rw [end_run hrest] at hl
        have hsecond := @put_stays limit _ n _ _ (o.put 37) e _ hl hargs
        exact absurd (hsecond.symm.trans hbyte) (by decide)
      | cons a tail' =>
        by_cases ha : a ∈ conversionChars
        · obtain ⟨u', _, hl⟩ := vsprintf_directive_done hl
          obtain ⟨text, htext, hpercent, _⟩ := @outline_reads tail
          rw [hrest] at htext hl
          rw [htext, vsprintf_text hpercent, vsprintf_char (conversion_ne_percent ha)] at hs
          have hnext := vsprintf_next hl hs
          have hspent := spent_conversion hrest ha
          omega
        · rw [plain_run hrest ha] at hl
          have hfirst : ∃ text, (if a = '%' then ['%'] else ['%', a]) = '%' :: text := by
            split
            next => exact ⟨[], rfl⟩
            next => exact ⟨[a], rfl⟩
          obtain ⟨text, htext⟩ := hfirst
          rw [htext] at hl
          have hsecond : e.mem (o.buf + (o.len + 1)) = UInt8.ofNat '%'.toNat := by
            rw [vsprintf_keeps hl (fun i => .inr (Nat.le_trans (hargs i) (Nat.le_add_right _ _))) ?_]
            · change ((((o.put 37).put _)).puts text).mem _ = _
              rw [puts_below (Nat.lt_succ_self _)]
              exact Function.update_self _ _ _
            · rw [puts_buf, PrintBuf.puts_len]
              change _ < o.buf + (o.len + 1 + (text.length + 1))
              omega
          exact absurd (hsecond.symm.trans hbyte) (by decide)
    · by_cases hstar : c = '*'
      · subst hstar
        rw [vsprintf_char hc] at hl
        rw [star_run outline_star.1 outline_star.2] at hs
        have hnext := vsprintf_next hl hs
        omega
      · rw [vsprintf_char hc] at hl
        have hsecond := @put_stays limit _ n _ _ (o.put 37) e _ hl hargs
        exact hstar (byte_inj (hbytes c List.mem_cons_self) (by decide) (hsecond.symm.trans hbyte))

/-- Runs with a star and with a number there can only agree where the number ends at another star. -/
theorem only_star (hreads : Reads rest 0 (outline fmt)) (hbytes : ∀ c ∈ rest, c.toNat < 256)
    (hl : vsprintf limit args ('%' :: fmt) k o = .done e n)
    (hs : vsprintf limit args' rest (k + 1) (o.puts ['%', '*']) = .done e' (n + 1)) (hlen : e'.len = e.len)
    (hmem : e'.mem (o.buf + (o.len + 1)) = e.mem (o.buf + (o.len + 1))) (hargs : ∀ i, args i + 4 ≤ o.buf)
    (hargs' : ∀ i, args' i + 4 ≤ o.buf) : (outline fmt).next = 0 ∧ ∃ tail, (outline fmt).rest = '*' :: tail := by
  have hbyte : e.mem (o.buf + (o.len + 1)) = UInt8.ofNat '*'.toNat :=
    hmem.symm.trans (@put_stays limit _ _ _ _ (o.put (UInt8.ofNat '%'.toNat)) e' _ hs hargs')
  obtain ⟨text, htext, hpercent, hnext⟩ := hreads
  cases hrest : (outline fmt).rest with
  | nil =>
    -- The directive is the `%` at the end.
    rw [end_run hrest, vsprintf] at hl
    cases hl
    have hlonger := (vsprintf_buf hs).2
    change o.len + 2 < _ at hlonger
    rw [hlen] at hlonger
    exact absurd hlonger (Nat.lt_irrefl _)
  | cons c tail =>
    rw [hrest] at htext hnext
    rw [htext, vsprintf_text hpercent] at hs
    by_cases hc : c ∈ conversionChars
    · -- The number's directive takes one argument more.
      obtain ⟨u', _, hl⟩ := vsprintf_directive_done hl
      rw [hrest] at hl
      rw [vsprintf_char (conversion_ne_percent hc)] at hs
      have hindex := vsprintf_next hl hs
      have hspent := spent_conversion hrest hc
      omega
    · rw [plain_run hrest hc] at hl
      rcases hnext with hnext | ⟨hnext, tail', htail⟩
      · rw [hnext] at hl
        by_cases hpercent' : c = '%'
        · subst hpercent'
          have htail : ∀ c ∈ tail, c.toNat < 256 := by
            intro b hb
            apply hbytes b
            rw [htext]
            exact List.mem_append_right _ (List.mem_cons_of_mem _ hb)
          exact absurd hbyte (percent_differs htail hl hs hargs)
        · rw [if_neg hpercent'] at hl
          have hsecond := @put_stays limit _ n _ _ (o.put (UInt8.ofNat '%'.toNat)) e _ hl hargs
          have hcbyte : c.toNat < 256 := by
            apply hbytes c
            rw [htext]
            exact List.mem_append_right _ List.mem_cons_self
          obtain rfl := byte_inj hcbyte (by decide) (hsecond.symm.trans hbyte)
          exact ⟨hnext, tail, rfl⟩
      · -- The number's directive has the argument of a precision.
        obtain ⟨rfl, rfl⟩ := List.cons.inj htail
        rw [vsprintf_char (by decide)] at hs
        have hindex := vsprintf_next hl hs
        omega

/-- Where it ends at another star, there are arguments with which the texts have different lengths. -/
theorem star_longer (hreads : Reads rest 0 (outline fmt)) (hnext : (outline fmt).next = 0) (hrest : (outline fmt).rest = '*' :: tail) :
    ∃ pick : Nat → Nat, (∀ i, pick i ≤ 4) ∧ ∀ args args' o, Calm limit o → (∀ i, args (k + i) = pick i) → (∀ i, args' (k + 1 + i) = pick i) →
      ∃ e n e' n', vsprintf limit args ('%' :: fmt) k o = .done e n ∧
        vsprintf limit args' rest (k + 1) (o.puts ['%', '*']) = .done e' n' ∧ e.len < e'.len := by
  obtain ⟨pick, len, hpick, hrun⟩ := steady tail
  refine ⟨pick, hpick, fun args args' o hcalm hargs hargs' => ?_⟩
  obtain ⟨text, htext, hpercent, _⟩ := hreads
  have hcalm' := hcalm.extends (@extends_puts ['%', '*'] o)
  have hcalm'' := (hcalm'.extends (@extends_puts text _)).extends (@extends_put _ (UInt8.ofNat '*'.toNat))
  obtain ⟨e, n, he, hlen⟩ := hrun limit _ hcalm'
  obtain ⟨e', n', he', hlen'⟩ := hrun limit _ hcalm''
  refine ⟨e, k + n, e', k + 1 + n', ?_, ?_, ?_⟩
  · rw [plain_run hrest (by decide), hnext]
    exact vsprintf_shift he hargs
  · rw [htext, hrest, vsprintf_text hpercent, vsprintf_char (by decide)]
    exact vsprintf_shift he' hargs'
  · rw [put_len, PrintBuf.puts_len] at hlen'
    omega

end Differ

/-- What stands between the flags and the field: nothing before a width, and before a precision the width and the point. -/
inductive Field
  | width
  | precision (digits : List Char) (areDigits : ∀ c ∈ digits, c.isDigit = true)
  | precisionBehindStar

def Field.text : Field → List Char
  | width => []
  | precision ds _ => ds ++ ['.']
  | precisionBehindStar => ['*', '.']

/-- How many arguments that takes. -/
def Field.args : Field → Nat
  | width => 0
  | precision _ _ => 0
  | precisionBehindStar => 1

/-- A place in a format where a width or a precision may stand. The characters of a format are bytes. -/
structure Position where
  before : List Char
  taken : Nat
  closed : Closed before taken
  flags : List Char
  areFlags : ∀ c ∈ flags, c ∈ flagChars
  field : Field
  rest : List Char
  bytes : ∀ c ∈ before ++ rest, c.toNat < 256

/-- The format with a text at that place. -/
def Position.format (p : Position) (text : List Char) : List Char :=
  p.before ++ '%' :: (p.flags ++ (p.field.text ++ (text ++ p.rest)))

/-- The number of the argument for a `*` at that place. -/
def Position.arg (p : Position) : Nat := p.taken + p.field.args

/-- The decimal digits of a number, as `number` writes them. -/
def decimal (w : Nat) : List Char := (digitText 10 w false).reverse

/-- The arguments with one more, `w`, as number `j`. -/
def withArg (args : Nat → Nat) (j w : Nat) (i : Nat) : Nat := if i < j then args i else if i = j then w else args (i - 1)

def output (o : PrintBuf) : List UInt8 := (List.range o.len).map fun i => o.mem (o.buf + i)

/-- The same text, and of the arguments the first run has taken one more; or a fault in both. -/
def Agree : PrintEnd → PrintEnd → Prop
  | .done o k, .done o' k' => output o = output o' ∧ k = k' + 1
  | .fault _, .fault _ => True
  | _, _ => False

/-- A `*` with the argument `w` does what the digits of `w` do. -/
def Position.StarMeans (p : Position) (w : Nat) : Prop :=
  ∀ limit args mem buf, (∀ i, args i < 2 ^ 32) →
    Agree (vsprintf limit (withArg args p.arg w) (p.format ['*']) 0 ⟨buf, mem, 0⟩)
      (vsprintf limit args (p.format (decimal w)) 0 ⟨buf, mem, 0⟩)

section Decimal

variable {c : Char} {w i : Nat} {text fmt : List Char} {f : NumberFlags} {args : Nat → Nat}

theorem digit_char {d : Nat} (h : d < 10) : ((digits false).getD d ' ').isDigit = true ∧ (d ≠ 0 → (digits false).getD d ' ' ∉ flagChars) := by
  interval_cases d <;> decide

/-- The first digit of a positive number is no flag. -/
theorem decimal_cons (h : 1 ≤ w) : ∃ c ds, decimal w = c :: ds ∧ c.isDigit = true ∧ c ∉ flagChars ∧ ∀ b ∈ ds, b.isDigit = true := by
  have hne : Nat.digits 10 w ≠ [] := Nat.digits_ne_nil_iff_ne_zero.mpr (by omega)
  have hlast := Nat.getLast_digit_ne_zero 10 (by omega : w ≠ 0)
  have hlt : ∀ d ∈ Nat.digits 10 w, d < 10 := fun d hd => Nat.digits_lt_base (by decide) hd
  have hsplit := List.dropLast_append_getLast hne
  have hdec : decimal w = (digits false).getD ((Nat.digits 10 w).getLast hne) ' ' ::
      ((Nat.digits 10 w).dropLast.map fun d => (digits false).getD d ' ').reverse := by
    unfold decimal digitText
    rw [if_neg (by omega)]
    conv_lhs => rw [← hsplit]
    rw [List.map_append, List.reverse_append]
    rfl
  refine ⟨_, _, hdec, (digit_char (hlt _ (List.getLast_mem hne))).1, (digit_char (hlt _ (List.getLast_mem hne))).2 hlast, fun b hb => ?_⟩
  obtain ⟨d, hd, rfl⟩ := List.mem_map.mp (List.mem_reverse.mp hb)
  exact (digit_char (hlt d (List.dropLast_subset _ hd))).1

theorem isDigit_not_flag (h : c.isDigit = true) (hzero : c ≠ '0') : c ∉ flagChars := by
  intro hmem
  have hcases : c ∈ ['-', '+', ' ', '#', '0'] := hmem
  simp only [List.mem_cons, List.not_mem_nil, or_false] at hcases
  rcases hcases with rfl | rfl | rfl | rfl | rfl
  · exact absurd h (by decide)
  · exact absurd h (by decide)
  · exact absurd h (by decide)
  · exact absurd h (by decide)
  · exact hzero rfl

/-- Digits before a point are a width, apart from zeros, which are flags. -/
theorem width_point (h : ∀ b ∈ text, b.isDigit = true) : ∃ f' w',
    parseWidth args ⟨(parseFlags (text ++ '.' :: fmt) f).1, -1, -1, (parseFlags (text ++ '.' :: fmt) f).2, 0⟩ = ⟨f', w', -1, '.' :: fmt, 0⟩ := by
  induction text generalizing f with
  | nil =>
    refine ⟨f, -1, ?_⟩
    rw [List.nil_append, parseFlags_stop (by decide), parseWidth_other (by decide) (by decide)]
  | cons c text ih =>
    have hc : c.isDigit = true := h c List.mem_cons_self
    have htext : ∀ b ∈ text, b.isDigit = true := fun b hb => h b (List.mem_cons_of_mem c hb)
    by_cases hzero : c = '0'
    · subst hzero
      exact ih htext
    · rw [List.cons_append, parseFlags_stop (isDigit_not_flag hc hzero), parseWidth_digit hc]
      refine ⟨_, _, congrArg (fun r => (⟨_, _, -1, r, 0⟩ : Directive)) ?_⟩
      rw [skipAtoi_rest, ← List.cons_append, List.dropWhile_append_of_pos h]
      exact List.dropWhile_cons_of_neg (by decide)

/-- What the code makes of a number `c :: ds` and what follows it is read as a part of the rest of the format. -/
theorem number_reads {ds : List Char} (hds : ∀ b ∈ ds, b.isDigit = true) (hc : c.isDigit = true) {w' p' : Int} :
    Reads fmt 0 ⟨f, w', p', (skipAtoi (c :: (ds ++ fmt)) 0).2, 0⟩ := by
  have hall : ∀ b ∈ c :: ds, b.isDigit = true := List.forall_mem_cons.mpr ⟨hc, hds⟩
  rw [skipAtoi_rest, ← List.cons_append, List.dropWhile_append_of_pos hall, ← @skipAtoi_rest fmt 0]
  exact @reads_digits fmt fmt 0 f w' p' 0 ⟨[], rfl, by decide, .inl rfl⟩ _ _

/-- With a star in the field the directive ends at the star. -/
theorem star_outline {flags : List Char} {field : Field} (hflags : ∀ c ∈ flags, c ∈ flagChars) (hfield : field ≠ .precisionBehindStar) :
    (outline (flags ++ (field.text ++ '*' :: fmt))).rest = '*' :: fmt ∧ (outline (flags ++ (field.text ++ '*' :: fmt))).next = 1 := by
  obtain ⟨f', hf'⟩ := parseFlags_flags hflags noFlags
  unfold outline parseDirective
  cases field with
  | width =>
    rw [hf' _]
    change (skipQualifier (parsePrecision _ (parseWidth _ ⟨(parseFlags ('*' :: fmt) f').1, -1, -1, (parseFlags ('*' :: fmt) f').2, 0⟩))).rest = _ ∧
      (skipQualifier (parsePrecision _ (parseWidth _ ⟨(parseFlags ('*' :: fmt) f').1, -1, -1, (parseFlags ('*' :: fmt) f').2, 0⟩))).next = _
    rw [parseFlags_stop (by decide), parseWidth_star, parsePrecision_without (by decide), skipQualifier_other (by decide)]
    exact ⟨rfl, rfl⟩
  | precision ds hds =>
    obtain ⟨g, w', hwidth⟩ := @width_point ds ('*' :: fmt) f' (fun _ => 0) hds
    rw [hf' _, Field.text, List.append_assoc, List.singleton_append, hwidth, parsePrecision_star, skipQualifier_other (by decide)]
    exact ⟨rfl, rfl⟩
  | precisionBehindStar => exact absurd rfl hfield

theorem number_outline {flags : List Char} {field : Field} (hflags : ∀ c ∈ flags, c ∈ flagChars) (hfield : field ≠ .precisionBehindStar)
    (hw : 1 ≤ w) : Reads fmt 0 (outline (flags ++ (field.text ++ (decimal w ++ fmt)))) := by
  obtain ⟨f', hf'⟩ := parseFlags_flags hflags noFlags
  obtain ⟨c, ds, hdec, hc, hflag, hds⟩ := decimal_cons hw
  rw [hdec, List.cons_append]
  unfold outline parseDirective
  rw [hf' _]
  cases field with
  | width =>
    apply Reads.qualifier
    apply Reads.precision
    change Reads fmt 0 (parseWidth _ ⟨(parseFlags (c :: (ds ++ fmt)) f').1, -1, -1, (parseFlags (c :: (ds ++ fmt)) f').2, 0⟩)
    rw [parseFlags_stop hflag, parseWidth_digit hc]
    exact number_reads hds hc
  | precision text htext =>
    obtain ⟨g, w', hwidth⟩ := @width_point text (c :: (ds ++ fmt)) f' (fun _ => 0) htext
    rw [Field.text, List.append_assoc, List.singleton_append, hwidth, parsePrecision_digit hc]
    exact Reads.qualifier (number_reads hds hc)
  | precisionBehindStar => exact absurd rfl hfield

theorem agree_done {s : PrintEnd} {e : PrintBuf} {n : Nat} (h : Agree s (.done e n)) : ∃ e', s = .done e' (n + 1) ∧ output e' = output e := by
  cases s with
  | done o k =>
    obtain ⟨hout, rfl⟩ := h
    exact ⟨o, rfl, hout⟩
  | fault o => exact absurd h id

theorem output_length {o : PrintBuf} : (output o).length = o.len := by
  rw [output, List.length_map, List.length_range]

theorem output_byte {o o' : PrintBuf} (h : output o = output o') (hi : i < o.len) : o.mem (o.buf + i) = o'.mem (o'.buf + i) := by
  have hlen : o.len = o'.len := by rw [← output_length, h, output_length]
  have hget : (output o)[i]? = (output o')[i]? := congrArg (·[i]?) h
  unfold output at hget
  rw [List.getElem?_map, List.getElem?_map, List.getElem?_range hi, List.getElem?_range (hlen ▸ hi)] at hget
  exact Option.some.inj hget

theorem withArg_less {j : Nat} (h : i < j) : withArg args j w i = args i := if_pos h

theorem withArg_more {j : Nat} : withArg args j w (j + 1 + i) = args (j + i) := by
  unfold withArg
  rw [if_neg (by omega), if_neg (by omega)]
  congr 1
  omega

/-- Zeros and a `w` do not point into a buffer behind `w + 8`. -/
theorem withArg_room {j : Nat} {o : PrintBuf} (h : w + 8 = o.buf) : withArg (fun _ => 0) j w i + 4 ≤ o.buf := by
  unfold withArg
  dsimp only
  split
  next => omega
  next => split <;> omega

end Decimal

/-- A place of a buffer where no argument points to, in a memory of zeros. -/
def quiet (w : Nat) : PrintBuf := ⟨w + 8, fun _ => 0, 0⟩

section Never

variable {w n : Nat} {before stars numbers rest : List Char} {p : Position}

theorem quiet_calm : Calm kernelLimit (quiet w) := by
  refine ⟨?_, ?_, rfl⟩
  · unfold kernelLimit
    omega
  · change 4 < w + 8
    omega

/-- A directive that ends at a star and one with a number in its place: there are arguments with which they differ. -/
theorem directives_differ (hstar : (outline stars).rest = '*' :: rest ∧ (outline stars).next = 1) (hreads : Reads rest 0 (outline numbers))
    (hbytes : ∀ c ∈ rest, c.toNat < 256) (hclosed : Closed before n) :
    ∃ args, (∀ i, args i ≤ 4) ∧ ¬ Agree (vsprintf kernelLimit (withArg args n w) (before ++ '%' :: stars) 0 (quiet w))
      (vsprintf kernelLimit args (before ++ '%' :: numbers) 0 (quiet w)) := by
  obtain ⟨u, hcalm, hbuf, hrun⟩ := @Closed.run kernelLimit 0 n before (quiet w) hclosed quiet_calm
  rw [Nat.zero_add] at hrun
  by_cases hend : (outline numbers).next = 0 ∧ ∃ tail, (outline numbers).rest = '*' :: tail
  · obtain ⟨hnext, tail, hrest⟩ := hend
    obtain ⟨pick, hpick, hlonger⟩ := @star_longer kernelLimit n numbers tail rest hreads hnext hrest
    refine ⟨behind n 0 pick, behind_le (Nat.zero_le 4) hpick, fun hagree => ?_⟩
    obtain ⟨e, m, e', m', he, he', hlt⟩ := hlonger (behind n 0 pick) (withArg (behind n 0 pick) n w) u hcalm behind_later
      fun i => withArg_more.trans (behind_later i)
    have hzero : ∀ i, i < n → behind n 0 pick (0 + i) = 0 := fun i hi => behind_less (by omega)
    have hless : ∀ i, i < n → withArg (behind n 0 pick) n w (0 + i) = 0 := by
      intro i hi
      rw [withArg_less (by omega)]
      exact hzero i hi
    rw [hrun (behind n 0 pick) _ hzero, hrun (withArg (behind n 0 pick) n w) _ hless, star_run hstar.1 hstar.2, he, he'] at hagree
    have hlen := congrArg List.length hagree.1
    rw [output_length, output_length] at hlen
    omega
  · refine ⟨fun _ => 0, fun _ => Nat.zero_le 4, fun hagree => ?_⟩
    obtain ⟨e, m, he⟩ := @Calm.done kernelLimit n ('%' :: numbers) u hcalm
    have hless : ∀ i, i < n → withArg (fun _ => 0) n w (0 + i) = 0 := fun i hi => withArg_less (by omega)
    rw [hrun (fun _ => 0) _ (fun _ _ => rfl), hrun (withArg (fun _ => 0) n w) _ hless, star_run hstar.1 hstar.2, he] at hagree
    obtain ⟨e', he', hout⟩ := agree_done hagree
    have hlen := congrArg List.length hout
    rw [output_length, output_length] at hlen
    obtain ⟨hbuf', hlt'⟩ := vsprintf_buf he'
    change e'.buf = u.buf at hbuf'
    change u.len + 2 < e'.len at hlt'
    have hbyte := @output_byte (u.len + 1) e' e hout (by omega)
    rw [hbuf', (vsprintf_buf he).1] at hbyte
    have hroom : w + 8 = u.buf := hbuf.symm
    exact hend (only_star hreads hbytes he he' hlen hbyte (fun i => by omega) fun i => withArg_room hroom)

/-- Behind a width that is a star the precision is text, with the star or with the digits in it. -/
theorem texts_differ (hw : 1 ≤ w) (hclosed : Closed before n) {flags : List Char} (hflags : ∀ c ∈ flags, c ∈ flagChars) :
    ¬ Agree (vsprintf kernelLimit (withArg (fun _ => 0) (n + 1) w) (before ++ '%' :: (flags ++ '*' :: '.' :: '*' :: rest)) 0 (quiet w))
      (vsprintf kernelLimit (fun _ => 0) (before ++ '%' :: (flags ++ '*' :: '.' :: (decimal w ++ rest))) 0 (quiet w)) := by
  intro hagree
  obtain ⟨u, hcalm, hbuf, hrun⟩ := @Closed.run kernelLimit 0 n before (quiet w) hclosed quiet_calm
  rw [Nat.zero_add] at hrun
  obtain ⟨c, ds, hdec, hc, _, _⟩ := decimal_cons hw
  have hpercent : c ≠ '%' := by
    rintro rfl
    exact absurd hc (by decide)
  have hless : ∀ i, i < n → withArg (fun _ => 0) (n + 1) w (0 + i) = 0 := fun i hi => withArg_less (by omega)
  have hstar : ∀ fmt, (outline (flags ++ '*' :: fmt)).rest = '*' :: fmt ∧ (outline (flags ++ '*' :: fmt)).next = 1 :=
    fun fmt => @star_outline fmt flags .width hflags (by intro h; cases h)
  obtain ⟨e, m, he⟩ := @Calm.done kernelLimit (n + 1) ('.' :: (decimal w ++ rest)) _ (hcalm.extends (@extends_puts ['%', '*'] u))
  rw [hrun (fun _ => 0) _ (fun _ _ => rfl), hrun (withArg (fun _ => 0) (n + 1) w) _ hless, star_run (hstar _).1 (hstar _).2,
    star_run (hstar _).1 (hstar _).2, he] at hagree
  obtain ⟨e', he', hout⟩ := agree_done hagree
  rw [hdec, List.cons_append, vsprintf_char (by decide), vsprintf_char hpercent] at he
  rw [vsprintf_char (by decide), vsprintf_char (by decide)] at he'
  have hroom : w + 8 = u.buf := hbuf.symm
  obtain ⟨hbuf', hlt'⟩ := vsprintf_buf he'
  change e'.buf = u.buf at hbuf'
  change u.len + 4 < e'.len at hlt'
  have hbyte := @output_byte (u.len + 3) e' e hout (by omega)
  have hfirst := @put_stays _ _ _ _ _ _ e' _ he' fun i => withArg_room hroom
  have hsecond := @put_stays _ _ _ _ _ _ e _ he fun i => by
    change 0 + 4 ≤ u.buf
    omega
  rw [hbuf', (vsprintf_buf he).1] at hbyte
  have hcbyte : c.toNat < 256 := by
    have hle := (Bool.and_eq_true_iff.mp hc).2
    have hval : c.val ≤ 57 := of_decide_eq_true hle
    have hnat : c.toNat ≤ 57 := hval
    omega
  have hcstar : c = '*' := byte_inj hcbyte (by decide) ((hsecond.symm.trans hbyte.symm).trans hfirst)
  rw [hcstar] at hc
  exact absurd hc (by decide)

/-- At no place and for no number a star means what the digits of the number mean. -/
theorem star_never_means (p : Position) (hw : 1 ≤ w) : ¬ p.StarMeans w := by
  intro hmeans
  have hbytes : ∀ c ∈ p.rest, c.toNat < 256 := fun c hc => p.bytes c (List.mem_append_right _ hc)
  have hword : ∀ {args : Nat → Nat}, (∀ i, args i ≤ 4) → ∀ i, args i < 2 ^ 32 := fun h i => Nat.lt_of_le_of_lt (h i) (by decide)
  by_cases hfield : p.field = .precisionBehindStar
  · have hagree := hmeans kernelLimit (fun _ => 0) (fun _ => 0) (w + 8) fun _ => by decide
    unfold Position.format Position.arg at hagree
    rw [hfield] at hagree
    exact texts_differ hw p.closed p.areFlags hagree
  · obtain ⟨args, hargs, hdiffer⟩ := @directives_differ w p.taken p.before _ _ p.rest (star_outline p.areFlags hfield)
      (number_outline p.areFlags hfield hw) hbytes p.closed
    have hagree := hmeans kernelLimit args (fun _ => 0) (w + 8) (hword hargs)
    have harg : p.arg = p.taken := by
      unfold Position.arg Field.args
      split
      next => rfl
      next => rfl
      next heq => exact absurd heq hfield
    rw [harg] at hagree
    exact hdiffer hagree

/-- The width of `%d`. -/
def decimalWidth : Position :=
  ⟨[], 0, .nil, [], (fun _ h => nomatch h), .width, ['d'], fun _ h => by rcases List.mem_singleton.mp h with rfl; decide⟩

theorem star_never_means_decimal : 1 ≤ 5 ∧ ¬ decimalWidth.StarMeans 5 := ⟨by decide, star_never_means decimalWidth (by decide)⟩

/-- `%*d` with 5 and 7 prints `%*d` and takes the 5 only. -/
theorem star_decimal : ¬ ∀ (p : Position) (w : Nat), 1 ≤ w → p.StarMeans w := by
  intro hall
  have hagree := hall decimalWidth 5 (by decide) kernelLimit (fun _ => 7) (fun _ => 0) 0 fun _ => by decide
  have hstar : decimalWidth.format ['*'] = ['%', '*', 'd'] := rfl
  have hnumber : decimalWidth.format (decimal 5) = ['%', '5', 'd'] := by decide
  have htaken : spent ['5', 'd'] = 1 := by decide
  have htail : (outline ['5', 'd']).rest.tail = [] := by decide
  have hconv : convert kernelLimit (fun _ => 7) (parseDirective (fun _ => 7) ['5', 'd'] 0) ⟨0, fun _ => 0, 0⟩ =
      some (1, PrintBuf.puts ⟨0, fun _ => 0, 0⟩ (number 7 10 5 (-1) { noFlags with sign := true })) := rfl
  rw [hstar, hnumber, star_run outline_star.1 outline_star.2, vsprintf_char (by decide), vsprintf, (vsprintf_directive hconv).2, htaken,
    htail, vsprintf] at hagree
  exact absurd hagree.2 (by decide)

end Never

end RheeKernel.Format
