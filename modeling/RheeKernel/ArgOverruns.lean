import RheeKernel.ArgRefusals

open ByteMemory

namespace RheeKernel

def pagesFor (n : Nat) : Nat := (n + 4095) / 4096

/-- The array and its strings lie in the segment of the caller. -/
structure Passed (mem : Nat → UInt8) (argv : Nat) (strs : List (List UInt8)) : Prop extends StringArray mem argv strs where
  few : strs.length < segLimit / 4
  inside : ∀ s ∈ strs, s.length < segLimit

/-- Some of the strings, from the last one on, still fit into the area behind `used` bytes, but there are not enough pages for them. -/
def PagesShort (free used : Nat) (strs : List (List UInt8)) : Prop :=
  ∃ j ≤ strs.length, used + (flat (strs.drop j)).length ≤ argBytes ∧ free < pagesFor (used + (flat (strs.drop j)).length)

/-- The two calls of `copy_strings` in `do_execve`. -/
def copyPair (mem : Nat → UInt8) (argv argc envp envc free : Nat) : CopyEnd :=
  match (copyStrings mem envp envc (noPages free) argBytes).value with
  | some (a, p) => copyStrings mem argv argc a p
  | none => copyStrings mem envp envc (noPages free) argBytes

/-- The strings need 128 KiB or more, or more pages than there are. -/
def TooLarge (free : Nat) (args envs : List (List UInt8)) : Prop :=
  argBytes ≤ (flat envs).length + (flat args).length ∨ free < pagesFor ((flat envs).length + (flat args).length)

/-- The calls stay within `page[]`, and return 0 for strings that are too large and for no others. -/
structure SafelyRefused (mem : Nat → UInt8) (argv envp free : Nat) (args envs : List (List UInt8)) : Prop where
  inside : copyPair mem argv args.length envp envs.length free ≠ .wild
  value : ∃ a p, (copyPair mem argv args.length envp envs.length free).value = some (a, p) ∧ (p = 0 ↔ TooLarge free args envs)
  refused : ∀ seg, passArguments mem seg argv envp free = .refused ↔ TooLarge free args envs

/-- The environment fits into the area and onto the free pages, and so do the arguments, unless the pages run out before the
area does; or there are no arguments and the pages run out in the environment. -/
def StopsInside (free : Nat) (args envs : List (List UInt8)) : Prop :=
  ((flat envs).length ≤ argBytes ∧ pagesFor (flat envs).length ≤ free ∧
      ((flat envs).length + (flat args).length ≤ argBytes ∨ PagesShort free (flat envs).length args)) ∨
    (args = [] ∧ PagesShort free 0 envs)

variable {mem : Nat → UInt8} {argv envp free used n m p : Nat} {a a' : ArgPages} {strs args envs : List (List UInt8)}
  {str bs : List UInt8}

theorem flat_concat : flat (strs ++ [str]) = flat strs ++ (str ++ [0]) := by
  simp [flat_append]

theorem flat_drop_le {j : Nat} : (flat (strs.drop j)).length ≤ (flat strs).length := by
  have hsplit := @flat_append (strs.take j) (strs.drop j)
  rw [List.take_append_drop] at hsplit
  rw [hsplit, List.length_append]
  omega

theorem pagesShort_concat : PagesShort free used (strs ++ [str]) ↔
    (used ≤ argBytes ∧ free < pagesFor used) ∨ PagesShort free (used + (str.length + 1)) strs := by
  have hlen : ∀ j ≤ strs.length, used + (flat ((strs ++ [str]).drop j)).length =
      used + (str.length + 1) + (flat (strs.drop j)).length := by
    intro j hj
    rw [List.drop_append_of_le_length hj, flat_concat]
    simp only [List.length_append, List.length_cons, List.length_nil]
    omega
  constructor
  · rintro ⟨j, hj, hroom, hshort⟩
    by_cases hlast : j ≤ strs.length
    · rw [hlen j hlast] at hroom hshort
      exact .inr ⟨j, hlast, hroom, hshort⟩
    · have hall : (strs ++ [str]).length ≤ j := by
        simp only [List.length_append, List.length_cons, List.length_nil]
        omega
      rw [List.drop_eq_nil_of_le hall] at hroom hshort
      exact .inl ⟨hroom, hshort⟩
  · rintro (⟨hroom, hshort⟩ | ⟨j, hj, hroom, hshort⟩)
    · refine ⟨(strs ++ [str]).length, Nat.le_refl _, ?_⟩
      rw [List.drop_length]
      exact ⟨hroom, hshort⟩
    · rw [← hlen j hj] at hroom hshort
      exact ⟨j, by simp only [List.length_append]; omega, hroom, hshort⟩

theorem pagesShort_self (hroom : used ≤ argBytes) (hshort : free < pagesFor used) : PagesShort free used strs := by
  refine ⟨strs.length, Nat.le_refl _, ?_⟩
  rw [List.drop_length]
  exact ⟨hroom, hshort⟩

theorem ArgPages.Filled.pages (h : a.Filled n p bs) : pagesFor bs.length ≤ n ∧ bs.length ≤ argBytes := by
  have hlength := h.length
  have hfree := h.free
  have hmax : maxArgPages = 32 := rfl
  have hbytes : argBytes = 131072 := rfl
  unfold pagesFor
  omega

/-- The turn of `copy_strings` for string `m`. -/
theorem copyStrings_turn (hstrs : Passed mem argv strs) (hm : m < strs.length) (h : a.Filled n p bs) :
    (strs[m].length + 1 ≤ p ∧ ∃ a', copyStrings mem argv (m + 1) a p = copyStrings mem argv m a' (p - (strs[m].length + 1)) ∧
        a'.Filled n (p - (strs[m].length + 1)) (strs[m] ++ [0] ++ bs)) ∨
      (strs[m].length + 1 ≤ p ∧ n < pagesFor (bs.length + (strs[m].length + 1)) ∧ ∃ a', copyStrings mem argv (m + 1) a p = .refused a') ∨
      (p < strs[m].length + 1 ∧ (copyStrings mem argv (m + 1) a p).value = none) := by
  have hlength := h.length
  have hmax : maxArgPages = 32 := rfl
  have hbytes : argBytes = 131072 := rfl
  obtain ⟨hne, hholds⟩ := hstrs.pointer m hm
  have hmem := List.getElem_mem hm
  have hlt := hstrs.inside _ hmem
  have ht := skipString_eq hholds (hstrs.noZero _ hmem) hlt
  rcases copyString_cases h hne hholds ht hlt with ⟨hroom, _, a', hround, hfilled⟩ | ⟨hroom, hshort, a', hround⟩ | ⟨hlong, hround⟩
  · refine .inl ⟨hroom, a', ?_, hfilled⟩
    conv => lhs; unfold copyStrings
    rw [hround]
  · refine .inr (.inl ⟨hroom, ?_, a', ?_⟩)
    · unfold pagesFor
      omega
    · unfold copyStrings
      rw [hround]
  · refine .inr (.inr ⟨hlong, ?_⟩)
    unfold copyStrings
    split
    next hback =>
      rw [hback] at hround
      cases hround
    next => exact hround

/-- A value is returned only if the strings fit, or if the pages run out first. -/
theorem copyStrings_value (hstrs : Passed mem argv strs) (hm : m ≤ strs.length) (h : a.Filled n p bs) {r : ArgPages × Nat}
    (hr : (copyStrings mem argv m a p).value = some r) :
    ((flat (strs.take m)).length ≤ p ∧ pagesFor (bs.length + (flat (strs.take m)).length) ≤ n) ∨
      PagesShort n bs.length (strs.take m) := by
  induction m generalizing a p bs with
  | zero => exact .inl ⟨Nat.zero_le _, h.pages.1⟩
  | succ m ih =>
    have hlength := h.length
    have htake : strs.take (m + 1) = strs.take m ++ [strs[m]] := (List.take_concat_get' strs m hm).symm
    have hflat : (flat (strs.take (m + 1))).length = (flat (strs.take m)).length + (strs[m].length + 1) := by
      rw [htake, flat_concat]
      simp
    have hbs : (strs[m] ++ [0] ++ bs).length = bs.length + (strs[m].length + 1) := by
      simp only [List.length_append, List.length_cons, List.length_nil]
      omega
    rcases copyStrings_turn hstrs hm h with ⟨hroom, a', hround, hfilled⟩ | ⟨hroom, hshort, a', _⟩ | ⟨_, hnone⟩
    · rw [hround] at hr
      rw [hflat]
      rcases ih (by omega) hfilled hr with ⟨hfits, hpages⟩ | hshort
      · refine .inl ⟨by omega, ?_⟩
        rw [hbs] at hpages
        rwa [Nat.add_comm (flat _).length, ← Nat.add_assoc]
      · rw [hbs] at hshort
        exact .inr (htake ▸ pagesShort_concat.mpr (.inr hshort))
    · exact .inr (htake ▸ pagesShort_concat.mpr (.inr (pagesShort_self (by omega) hshort)))
    · rw [hr] at hnone
      cases hnone

/-- The call is refused where the pages run out. -/
theorem copyStrings_short (hstrs : Passed mem argv strs) (hm : m ≤ strs.length) (h : a.Filled n p bs)
    (hshort : PagesShort n bs.length (strs.take m)) : ∃ a', copyStrings mem argv m a p = .refused a' := by
  induction m generalizing a p bs with
  | zero =>
    obtain ⟨j, _, _, hlt⟩ := hshort
    have hpages := h.pages.1
    simp only [List.take_zero, List.drop_nil, flat_nil, List.length_nil, Nat.add_zero] at hlt
    omega
  | succ m ih =>
    have hlength := h.length
    have htake : strs.take (m + 1) = strs.take m ++ [strs[m]] := (List.take_concat_get' strs m hm).symm
    have hbs : (strs[m] ++ [0] ++ bs).length = bs.length + (strs[m].length + 1) := by
      simp only [List.length_append, List.length_cons, List.length_nil]
      omega
    have hrest : PagesShort n (bs.length + (strs[m].length + 1)) (strs.take m) := by
      rw [htake] at hshort
      rcases pagesShort_concat.mp hshort with ⟨_, hlt⟩ | hrest
      · have hpages := h.pages.1
        omega
      · exact hrest
    rcases copyStrings_turn hstrs hm h with ⟨_, a', hround, hfilled⟩ | ⟨_, _, hround⟩ | ⟨hlong, _⟩
    · rw [hround]
      apply ih (by omega) hfilled
      rw [hbs]
      exact hrest
    · exact hround
    · obtain ⟨j, _, hroom, _⟩ := hrest
      omega

/-- From `p = 0` on nothing is returned but for an empty array. -/
theorem copyStrings_zero_value (hstrs : Passed mem argv strs) {r : ArgPages × Nat}
    (hr : (copyStrings mem argv strs.length a 0).value = some r) : strs = [] := by
  cases hlen : strs.length with
  | zero => exact List.length_eq_zero_iff.mp hlen
  | succ m =>
    obtain ⟨hne, hholds⟩ := hstrs.pointer m (by omega)
    have hmem := List.getElem_mem (show m < strs.length by omega)
    have hnone := @copyString_from_zero mem a _ _ hne (skipString_eq hholds (hstrs.noZero _ hmem) (hstrs.inside _ hmem))
    rw [hlen] at hr
    unfold copyStrings at hr
    split at hr
    next hback =>
      rw [hback] at hnone
      cases hnone
    next =>
      rw [hr] at hnone
      cases hnone

theorem copyPair_value {r : ArgPages × Nat} {argc envc : Nat} (h : (copyPair mem argv argc envp envc free).value = some r) :
    ∃ a p, (copyStrings mem envp envc (noPages free) argBytes).value = some (a, p) ∧ (copyStrings mem argv argc a p).value = some r := by
  unfold copyPair at h
  split at h
  next a p henv => exact ⟨a, p, henv, h⟩
  next hnone =>
    rw [h] at hnone
    cases hnone

theorem copyPair_eq {a : ArgPages} {p argc envc : Nat} (h : (copyStrings mem envp envc (noPages free) argBytes).value = some (a, p)) :
    copyPair mem argv argc envp envc free = copyStrings mem argv argc a p := by
  unfold copyPair
  rw [h]

/-- With the environment in place the arguments are copied or refused, as they fit. -/
theorem copyStrings_stops (hargs : Passed mem argv args) (h : a.Filled free p bs)
    (hstop : bs.length + (flat args).length ≤ argBytes ∨ PagesShort free bs.length args) :
    ∃ a' p', (copyStrings mem argv args.length a p).value = some (a', p') ∧
      (p' = 0 ↔ argBytes ≤ bs.length + (flat args).length ∨ free < pagesFor (bs.length + (flat args).length)) := by
  have hlength := h.length
  have hmax : maxArgPages = 32 := rfl
  have hbytes : argBytes = 131072 := rfl
  have hall : args.take args.length = args := List.take_length
  by_cases hshort : PagesShort free bs.length args
  · obtain ⟨a', ha'⟩ := copyStrings_short hargs (Nat.le_refl _) h (hall.symm ▸ hshort)
    refine ⟨a', 0, ?_, fun _ => .inr ?_, fun _ => rfl⟩
    · rw [ha']
      rfl
    · obtain ⟨j, _, _, hlt⟩ := hshort
      have hle := @flat_drop_le args j
      unfold pagesFor at hlt ⊢
      omega
  · have hroom := hstop.resolve_right hshort
    have hpages : pagesFor (bs.length + (flat args).length) ≤ free := by
      by_contra hlt
      exact hshort ⟨0, Nat.zero_le _, hroom, Nat.lt_of_not_le hlt⟩
    obtain ⟨a', ha', _⟩ := copyStrings_spec hargs.toStringArray h (Nat.le_refl args.length) (by rw [hall]; omega)
      (by rw [hall]; unfold pagesFor at hpages; omega)
    rw [hall] at ha'
    refine ⟨a', p - (flat args).length, ?_, ?_⟩
    · rw [ha']
      rfl
    · omega

theorem StopsInside.value (hargs : Passed mem argv args) (henvs : Passed mem envp envs) (h : StopsInside free args envs) :
    ∃ a p, (copyPair mem argv args.length envp envs.length free).value = some (a, p) ∧ (p = 0 ↔ TooLarge free args envs) := by
  have hmax : maxArgPages = 32 := rfl
  have hbytes : argBytes = 131072 := rfl
  have hall : envs.take envs.length = envs := List.take_length
  rcases h with ⟨hroom, hpages, hstop⟩ | ⟨rfl, hshort⟩
  · obtain ⟨a₁, hcopy, hfilled⟩ := copyStrings_spec henvs.toStringArray (ArgPages.filled_nil (n := free)) (Nat.le_refl envs.length)
      (by rw [hall]; exact hroom) (by rw [hall]; unfold pagesFor at hpages; omega)
    rw [hall, List.append_nil] at hfilled
    rw [hall] at hcopy
    rw [copyPair_eq (congrArg CopyEnd.value hcopy)]
    exact copyStrings_stops hargs hfilled hstop
  · obtain ⟨a₁, hcopy⟩ := copyStrings_short henvs (Nat.le_refl _) (ArgPages.filled_nil (n := free)) (hall.symm ▸ hshort)
    rw [copyPair_eq (congrArg CopyEnd.value hcopy)]
    refine ⟨a₁, 0, rfl, fun _ => .inr ?_, fun _ => rfl⟩
    obtain ⟨j, _, _, hlt⟩ := hshort
    have hle := @flat_drop_le envs j
    unfold pagesFor at hlt ⊢
    rw [flat_nil, List.length_nil]
    omega

/-- What is not within these bounds does not come back, or reads and writes outside of `page[]`. -/
theorem StopsInside.of_value (hargs : Passed mem argv args) (henvs : Passed mem envp envs) {r : ArgPages × Nat}
    (hr : (copyPair mem argv args.length envp envs.length free).value = some r) : StopsInside free args envs := by
  have hmax : maxArgPages = 32 := rfl
  have hbytes : argBytes = 131072 := rfl
  have hallE : envs.take envs.length = envs := List.take_length
  have hallA : args.take args.length = args := List.take_length
  obtain ⟨a, p, henv, harg⟩ := copyPair_value hr
  have hcases := copyStrings_value henvs (Nat.le_refl _) (ArgPages.filled_nil (n := free)) henv
  rw [hallE, List.length_nil, Nat.zero_add] at hcases
  by_cases hshort : PagesShort free 0 envs
  · obtain ⟨a₁, hcopy⟩ := copyStrings_short henvs (Nat.le_refl _) (ArgPages.filled_nil (n := free)) (hallE.symm ▸ hshort)
    rw [hcopy] at henv
    cases henv
    exact .inr ⟨copyStrings_zero_value hargs harg, hshort⟩
  · obtain ⟨hroom, hpages⟩ := hcases.resolve_right hshort
    obtain ⟨a₁, hcopy, hfilled⟩ := copyStrings_spec henvs.toStringArray (ArgPages.filled_nil (n := free)) (Nat.le_refl envs.length)
      (by rw [hallE]; exact hroom) (by rw [hallE]; unfold pagesFor at hpages; omega)
    rw [hallE, List.append_nil] at hfilled
    rw [hcopy] at henv
    cases henv
    rw [hallE] at harg
    refine .inl ⟨hroom, hpages, ?_⟩
    rcases copyStrings_value hargs (Nat.le_refl _) hfilled harg with ⟨hfits, _⟩ | hshort'
    · rw [hallA] at hfits
      left
      omega
    · exact .inr (hallA ▸ hshort')

theorem passArguments_refused {seg : Nat → UInt8} (hargs : Passed mem argv args) (henvs : Passed mem envp envs)
    (h : (copyPair mem argv args.length envp envs.length free).value = some (a, p)) :
    passArguments mem seg argv envp free = .refused ↔ p = 0 := by
  obtain ⟨a₁, p₁, henv, harg⟩ := copyPair_value h
  unfold passArguments
  rw [hargs.count_of_few hargs.few, henvs.count_of_few henvs.few]
  dsimp only
  rw [henv]
  dsimp only
  rw [harg]
  dsimp only
  split
  next hp => exact ⟨fun _ => hp, fun _ => rfl⟩
  next hp =>
    refine ⟨fun hc => ?_, fun hc => absurd hc hp⟩
    split at hc
    next => cases hc
    next => cases hc

/-- Argument lists that are too large are refused safely just when the strings stop inside of the area: `p-len < 0` is never true, and
the second call is made with the 0 that the first one has returned. -/
theorem safely_refused_iff (hargs : Passed mem argv args) (henvs : Passed mem envp envs) :
    SafelyRefused mem argv envp free args envs ↔ StopsInside free args envs := by
  constructor
  · intro h
    obtain ⟨a, p, hr, _⟩ := h.value
    exact StopsInside.of_value hargs henvs hr
  · intro h
    obtain ⟨a, p, hr, hp⟩ := h.value hargs henvs
    refine ⟨fun hwild => ?_, ⟨a, p, hr, hp⟩, fun seg => (passArguments_refused hargs henvs hr).trans hp⟩
    rw [hwild] at hr
    cases hr

/-- Two strings, of one byte at 256 and of 131071 bytes at 512, and the array of their addresses at 16. -/
def argSample (x : Nat) : UInt8 :=
  if x = 17 then 1 else if x = 21 then 2 else if x = 256 then 1 else if 512 ≤ x ∧ x < 131583 then 1 else 0

theorem argSample_long : Holds argSample 512 (List.replicate 131071 1 ++ [0]) := by
  intro k hk
  rw [List.length_append, List.length_replicate, List.length_singleton] at hk
  unfold argSample
  rw [if_neg (by omega), if_neg (by omega), if_neg (by omega)]
  by_cases hlast : k < 131071
  · rw [if_pos (by omega), List.getElem_append_left (by rw [List.length_replicate]; exact hlast), List.getElem_replicate]
  · rw [if_neg (by omega), List.getElem_append_right (by rw [List.length_replicate]; omega), List.getElem_singleton]

theorem argSample_short : Holds argSample 256 ([1] ++ [0]) := by
  intro k hk
  have hk : k = 0 ∨ k = 1 := by
    simp only [List.length_append, List.length_singleton] at hk
    omega
  rcases hk with rfl | rfl
  · rfl
  · rfl

theorem argSample_pointers : getLong argSample 16 = 256 ∧ getLong argSample 20 = 512 ∧ getLong argSample 24 = 0 := by decide

theorem not_mem_replicate : (0 : UInt8) ∉ List.replicate 131071 1 := by
  intro h
  have := List.eq_of_mem_replicate h
  cases this

theorem passed_none : Passed argSample 0 [] :=
  ⟨⟨fun i h => absurd h (Nat.not_lt_zero i), fun _ h => (nomatch h), fun h => absurd rfl h, fun _ => rfl⟩, by decide, fun _ h => nomatch h⟩

theorem passed_long : Passed argSample 20 [List.replicate 131071 1] := by
  have hseg : segLimit = 67108864 := rfl
  refine ⟨⟨fun i hi => ?_, fun s hs => ?_, fun _ => argSample_pointers.2.2, fun h => nomatch h⟩, by rw [hseg]; decide, fun s hs => ?_⟩
  · have hi : i = 0 := by
      rw [List.length_singleton] at hi
      omega
    subst hi
    rw [Nat.mul_zero, Nat.add_zero, argSample_pointers.2.1]
    exact ⟨by omega, argSample_long⟩
  · rw [List.mem_singleton.mp hs]
    exact not_mem_replicate
  · rw [List.mem_singleton.mp hs, List.length_replicate]
    omega

theorem passed_both : Passed argSample 16 [[1], List.replicate 131071 1] := by
  have hseg : segLimit = 67108864 := rfl
  refine ⟨⟨fun i hi => ?_, fun s hs => ?_, fun _ => argSample_pointers.2.2, fun h => nomatch h⟩, by rw [hseg]; decide, fun s hs => ?_⟩
  · have hi : i = 0 ∨ i = 1 := by
      simp only [List.length_cons, List.length_nil] at hi
      omega
    rcases hi with rfl | rfl
    · rw [Nat.mul_zero, Nat.add_zero, argSample_pointers.1]
      exact ⟨by omega, argSample_short⟩
    · rw [Nat.mul_one, argSample_pointers.2.1]
      exact ⟨by omega, argSample_long⟩
  · rcases List.mem_pair.mp hs with rfl | rfl
    · decide
    · exact not_mem_replicate
  · rcases List.mem_pair.mp hs with rfl | rfl
    · rw [hseg, List.length_singleton]
      omega
    · rw [List.length_replicate]
      omega

theorem flat_long : (flat [List.replicate 131071 1]).length = 131072 := by
  rw [flat_cons, flat_nil, List.append_nil, List.length_append, List.length_replicate, List.length_singleton]

/-- One string of just 128 KiB is refused, whatever there is of memory. -/
theorem safely_refused_iff_long : SafelyRefused argSample 20 0 100 [List.replicate 131071 1] [] := by
  refine (safely_refused_iff passed_long passed_none).mpr (.inl ⟨?_, ?_, .inl ?_⟩)
  · exact Nat.zero_le _
  · exact Nat.zero_le _
  · rw [flat_long]
    exact Nat.le_refl _

/-- With one more string of one byte the copy goes on below the area. -/
theorem safely_refused_fails : ¬ SafelyRefused argSample 16 0 100 [[1], List.replicate 131071 1] [] := by
  intro h
  obtain ⟨a, p, hr, _⟩ := h.value
  have hlen : (flat [[1], List.replicate 131071 (1 : UInt8)]).length = 131074 := by
    rw [flat_cons, List.length_append, flat_long]
    rfl
  have hbytes : argBytes = 131072 := rfl
  rcases StopsInside.of_value passed_both passed_none hr with ⟨_, _, hroom | ⟨j, _, hroom, hshort⟩⟩ | ⟨hnil, _⟩
  · rw [hlen, flat_nil, List.length_nil] at hroom
    omega
  · unfold pagesFor at hshort
    omega
  · cases hnil

end RheeKernel
