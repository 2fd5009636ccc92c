import RheeKernel.ExecArgs

open ByteMemory

namespace RheeKernel

/-- A search that ends has found a string. -/
theorem skipString_holds {mem : Nat → UInt8} {n tmp t : Nat} (h : skipString mem n tmp = some t) :
    ∃ str, Holds mem tmp (str ++ [0]) ∧ 0 ∉ str ∧ t = tmp + str.length + 1 ∧ str.length < n := by
  induction n generalizing tmp with
  | zero => cases h
  | succ n ih =>
    unfold skipString at h
    split at h
    next hzero =>
      cases Option.some.inj h
      refine ⟨[], fun k hk => ?_, by simp, rfl, by simp⟩
      have hk : k = 0 := by simpa using hk
      subst hk
      exact hzero
    next hne =>
      obtain ⟨str, hholds, hnot, ht, hlt⟩ := ih h
      refine ⟨mem tmp :: str, ?_, ?_, ?_, ?_⟩
      · rw [List.cons_append, ← List.singleton_append]
        refine holds_append.mpr ⟨fun k hk => ?_, hholds⟩
        have hk : k = 0 := by simpa using hk
        subst hk
        rfl
      · intro hmem
        rcases List.mem_cons.mp hmem with heq | hmem
        · exact hne heq.symm
        · exact hnot hmem
      · simp only [List.length_cons]
        omega
      · simp only [List.length_cons]
        omega

theorem grabPages_none {a : ArgPages} {i : Nat} : grabPages a 0 i = (a, true) := rfl

/-- Too few pages: the loop gives up. -/
theorem grabPages_short {a : ArgPages} {i m : Nat} (hm : m ≤ maxArgPages)
    (hmiss : ∀ j, i ≤ j → j < m → (a.page j).isSome = false) (hfree : a.free < m - i) :
    (grabPages a (maxArgPages - i) i).2 = false := by
  induction hk : m - i generalizing a i with
  | zero => omega
  | succ k ih =>
    obtain ⟨n, hn⟩ : ∃ n, maxArgPages - i = n + 1 := ⟨maxArgPages - i - 1, by omega⟩
    have hnext : maxArgPages - (i + 1) = n := by omega
    rw [hn]
    unfold grabPages
    rw [if_neg (by simp [hmiss i le_rfl (by omega)])]
    split
    next => rfl
    next hsome =>
      rw [← hnext]
      refine ih (fun j hj hlt => ?_) ?_ (by omega)
      · have hpage : (a.setPage i fun _ => 0).page j = a.page j := Function.update_of_ne (by omega) _ _
        exact (congrArg Option.isSome hpage).trans (hmiss j (by omega) hlt)
      · show a.free - 1 < m - (i + 1)
        omega

/-- A string longer than the room before `p` makes the byte loop run past address 0. -/
theorem copyBytes_wraps {mem : Nat → UInt8} {n : Nat} {a : ArgPages} {tmp p : Nat} (hn : p < n) (hp : p ≤ argBytes) :
    (copyBytes mem n a tmp p).value = none := by
  induction n generalizing a tmp p with
  | zero => omega
  | succ n ih =>
    have hbytes : argBytes = 131072 := rfl
    unfold copyBytes
    dsimp only
    by_cases hp0 : p = 0
    · have hlast : maxArgPages ≤ (p + 2 ^ 32 - 1) % 2 ^ 32 / 4096 := by
        unfold maxArgPages
        omega
      rw [if_pos hlast]
      rfl
    · have hdec : (p + 2 ^ 32 - 1) % 2 ^ 32 = p - 1 := by omega
      rw [hdec, if_neg (by unfold maxArgPages; omega)]
      split
      next => rfl
      next => exact ih (by omega) (by omega)

theorem copyString_found {mem : Nat → UInt8} {a : ArgPages} {p tmp t : Nat} (hne : tmp ≠ 0)
    (ht : skipString mem segLimit tmp = some t) :
    copyString mem tmp a p =
      let r := grabPages a (maxArgPages - (p + 2 ^ 32 - (t - tmp)) % 2 ^ 32 / 4096) ((p + 2 ^ 32 - (t - tmp)) % 2 ^ 32 / 4096)
      if r.2 then copyBytes mem (t - tmp) r.1 t p else .refused r.1 := by
  unfold copyString
  rw [if_neg hne, ht]

/-- What is copied is a string of the caller's memory. -/
theorem copyString_string {mem : Nat → UInt8} {a a' : ArgPages} {p p' tmp : Nat} (h : copyString mem tmp a p = .returned a' p') :
    tmp ≠ 0 ∧ ∃ t, skipString mem segLimit tmp = some t := by
  unfold copyString at h
  by_cases hne : tmp = 0
  · rw [if_pos hne] at h
    cases h
  · rw [if_neg hne] at h
    cases ht : skipString mem segLimit tmp with
    | none =>
      rw [ht] at h
      cases h
    | some t => exact ⟨hne, t, rfl⟩

/-- A string is copied, or there are too few pages for it, or it is too long: `p-len` wraps, no page is asked for, and the byte loop
does not come back. -/
theorem copyString_cases {mem : Nat → UInt8} {a : ArgPages} {n p tmp : Nat} {bs str : List UInt8} (hfilled : a.Filled n p bs)
    (hne : tmp ≠ 0) (hholds : Holds mem tmp (str ++ [0])) (ht : skipString mem segLimit tmp = some (tmp + str.length + 1))
    (hlt : str.length < segLimit) :
    (str.length + 1 ≤ p ∧ maxArgPages - (p - (str.length + 1)) / 4096 ≤ n ∧ ∃ a',
        copyString mem tmp a p = .returned a' (p - (str.length + 1)) ∧ a'.Filled n (p - (str.length + 1)) (str ++ [0] ++ bs)) ∨
      (str.length + 1 ≤ p ∧ n < maxArgPages - (p - (str.length + 1)) / 4096 ∧ ∃ a', copyString mem tmp a p = .refused a') ∨
      (p < str.length + 1 ∧ (copyString mem tmp a p).value = none) := by
  have hlength := hfilled.length
  have hfree := hfilled.free
  have hbytes : argBytes = 131072 := rfl
  have hmax : maxArgPages = 32 := rfl
  have hseg : segLimit = 67108864 := rfl
  have hdiff : tmp + str.length + 1 - tmp = str.length + 1 := by omega
  rw [copyString_found hne ht, hdiff]
  dsimp only
  by_cases hroom : str.length + 1 ≤ p
  · have hwrap : (p + 2 ^ 32 - (str.length + 1)) % 2 ^ 32 = p - (str.length + 1) := by omega
    rw [hwrap]
    by_cases hpages : maxArgPages - (p - (str.length + 1)) / 4096 ≤ n
    · obtain ⟨a₁, a₂, hgrab, hcopy, hfilled'⟩ := hfilled.copyString hholds hroom hpages
      rw [hgrab, if_pos rfl, hcopy]
      exact .inl ⟨hroom, hpages, a₂, rfl, hfilled'⟩
    · have hshort := @grabPages_short a ((p - (str.length + 1)) / 4096) (p / 4096) (by omega)
        (fun j hj hlt => by
          have hiff := hfilled.page j (by omega)
          rw [Bool.eq_false_iff]
          intro hsome
          have := hiff.mp hsome
          omega) (by omega)
      rw [hshort]
      exact .inr (.inl ⟨hroom, by omega, _, rfl⟩)
  · have hnone : maxArgPages - (p + 2 ^ 32 - (str.length + 1)) % 2 ^ 32 / 4096 = 0 := by omega
    rw [hnone, grabPages_none, if_pos rfl]
    exact .inr (.inr ⟨by omega, copyBytes_wraps (by omega) (by omega)⟩)

/-- A string that is copied is one, lies in the caller's memory, and had room and pages. -/
theorem copyString_returned {mem : Nat → UInt8} {a a' : ArgPages} {n p p' tmp : Nat} {bs : List UInt8} (hfilled : a.Filled n p bs)
    (h : copyString mem tmp a p = .returned a' p') :
    ∃ str, tmp ≠ 0 ∧ Holds mem tmp (str ++ [0]) ∧ 0 ∉ str ∧ p' + (str.length + 1) = p ∧ a'.Filled n p' (str ++ [0] ++ bs) := by
  obtain ⟨hne, t, ht⟩ := copyString_string h
  obtain ⟨str, hholds, hnot, rfl, hlt⟩ := skipString_holds ht
  rcases copyString_cases hfilled hne hholds ht hlt with ⟨hroom, _, a₂, hround, hfilled'⟩ | ⟨_, _, a₂, hround⟩ | ⟨_, hround⟩
  · rw [hround] at h
    cases h
    exact ⟨str, hne, hholds, hnot, by omega, hfilled'⟩
  · rw [hround] at h
    cases h
  · rw [h] at hround
    cases hround

/-- The strings that `copy_strings` has copied, when it returns a value of `p`. -/
theorem copyStrings_returned {mem : Nat → UInt8} {argv n m p p' : Nat} {a a' : ArgPages} {bs : List UInt8}
    (hfilled : a.Filled n p bs) (h : copyStrings mem argv m a p = .returned a' p') :
    ∃ strs : List (List UInt8), strs.length = m ∧
      (∀ i (h : i < strs.length), getLong mem (argv + 4 * i) ≠ 0 ∧ Holds mem (getLong mem (argv + 4 * i)) (strs[i] ++ [0])) ∧
      (∀ s ∈ strs, 0 ∉ s) ∧ p' + (flat strs).length = p ∧ a'.Filled n p' (flat strs ++ bs) := by
  induction m generalizing a p bs with
  | zero =>
    cases h
    exact ⟨[], rfl, fun i hi => by simp at hi, fun s hs => by simp at hs, by simp, hfilled⟩
  | succ m ih =>
    unfold copyStrings at h
    split at h
    next a₁ p₁ hround =>
      obtain ⟨str, hne, hholds, hnot, hp, hfilled₁⟩ := copyString_returned hfilled hround
      obtain ⟨strs, hlen, hptr, hzero, hp', hfilled'⟩ := ih hfilled₁ h
      have hflat : flat (strs ++ [str]) = flat strs ++ (str ++ [0]) := by simp [flat_append]
      refine ⟨strs ++ [str], by simp [hlen], fun i hi => ?_, fun s hs => ?_, ?_, ?_⟩
      · by_cases him : i < strs.length
        · rw [List.getElem_append_left him]
          exact hptr i him
        · have him : i = strs.length := by
            simp at hi
            omega
          subst him
          rw [← hlen] at hne hholds
          rw [List.getElem_append_right le_rfl]
          simpa using ⟨hne, hholds⟩
      · rcases List.mem_append.mp hs with hs | hs
        · exact hzero s hs
        · exact (List.mem_singleton.mp hs) ▸ hnot
      · rw [hflat]
        simp only [List.length_append, List.length_cons, List.length_nil]
        omega
      · rw [hflat, List.append_assoc]
        exact hfilled'
    next hround =>
      exact absurd h (hround a' p')

theorem countFrom_stop {mem : Nat → UInt8} {n tmp i k : Nat} (h : countFrom mem n tmp i = some k) :
    i ≤ k ∧ getLong mem (tmp + 4 * (k - i)) = 0 := by
  induction n generalizing tmp i with
  | zero => cases h
  | succ n ih =>
    unfold countFrom at h
    split at h
    next hzero =>
      cases Option.some.inj h
      exact ⟨le_rfl, by rw [Nat.sub_self]; exact hzero⟩
    next =>
      obtain ⟨hle, hstop⟩ := ih h
      refine ⟨by omega, ?_⟩
      rw [← hstop]
      exact congrArg (getLong mem) (by omega)

/-- Strings behind all of the pointers that `count` has counted. -/
theorem stringArray_of_count {mem : Nat → UInt8} {argv : Nat} {strs : List (List UInt8)}
    (hcount : count mem argv = some strs.length)
    (hptr : ∀ i (h : i < strs.length), getLong mem (argv + 4 * i) ≠ 0 ∧ Holds mem (getLong mem (argv + 4 * i)) (strs[i] ++ [0]))
    (hzero : ∀ s ∈ strs, 0 ∉ s) : StringArray mem argv strs := by
  unfold count at hcount
  split at hcount
  next hnull =>
    refine ⟨hptr, hzero, fun hne => absurd hnull hne, fun _ => ?_⟩
    exact List.length_eq_zero_iff.mp (Option.some.inj hcount).symm
  next hne =>
    obtain ⟨_, hstop⟩ := countFrom_stop hcount
    exact ⟨hptr, hzero, fun _ => hstop, fun hnull => absurd hnull hne⟩

/-- `argv` and `envp` are arrays of strings that take less than 128 KiB together, and as many pages as are
free. -/
def ArgsFit (mem : Nat → UInt8) (argv envp free : Nat) : Prop :=
  ∃ args envs, StringArray mem argv args ∧ StringArray mem envp envs ∧
    (flat args).length + (flat envs).length < argBytes ∧
    ((flat args).length + (flat envs).length + 4095) / 4096 ≤ free

/-- The two calls of `copy_strings` in `do_execve`. -/
def copyArgs (mem : Nat → UInt8) (argv argc envp envc free : Nat) : Option (ArgPages × Nat) :=
  (copyStrings mem envp envc (noPages free) argBytes).value.bind fun (a, p) => (copyStrings mem argv argc a p).value

theorem value_returned {r : CopyEnd} {a : ArgPages} {p : Nat} (h : r.value = some (a, p)) (hp : p ≠ 0) : r = .returned a p := by
  cases r with
  | returned a p => cases Option.some.inj h; rfl
  | refused a => cases Option.some.inj h; exact absurd rfl hp
  | panic => cases h
  | wild => cases h
  | fault => cases h

/-- From `p = 0` on a string is copied to addresses below the area. -/
theorem copyString_from_zero {mem : Nat → UInt8} {a : ArgPages} {tmp t : Nat} (hne : tmp ≠ 0) (ht : skipString mem segLimit tmp = some t) :
    (copyString mem tmp a 0).value = none := by
  obtain ⟨str, _, _, rfl, hlt⟩ := skipString_holds ht
  have hseg : segLimit = 67108864 := rfl
  have hmax : maxArgPages = 32 := rfl
  have hnone : maxArgPages - (0 + 2 ^ 32 - (tmp + str.length + 1 - tmp)) % 2 ^ 32 / 4096 = 0 := by omega
  rw [copyString_found hne ht]
  dsimp only
  rw [hnone, grabPages_none, if_pos rfl]
  exact copyBytes_wraps (by omega) (Nat.zero_le _)

/-- Once `copy_strings` has returned 0 for the environment, the second call copies nothing. -/
theorem copyStrings_from_zero {mem : Nat → UInt8} {argv m p' : Nat} {a a' : ArgPages}
    (h : copyStrings mem argv m a 0 = .returned a' p') : p' = 0 := by
  cases m with
  | zero => cases h; rfl
  | succ m =>
    unfold copyStrings at h
    split at h
    next a₁ p₁ hround =>
      obtain ⟨hne, t, ht⟩ := copyString_string hround
      have hnone := @copyString_from_zero mem a _ t hne ht
      rw [hround] at hnone
      cases hnone
    next hround => exact absurd h (hround a' p')

/-- The arguments are ready exactly when they fit. -/
theorem copyArgs_iff {mem : Nat → UInt8} {argv envp argc envc free : Nat} (hargc : count mem argv = some argc)
    (henvc : count mem envp = some envc) :
    (∃ a p, copyArgs mem argv argc envp envc free = some (a, p) ∧ p ≠ 0) ↔ ArgsFit mem argv envp free := by
  have hbytes : argBytes = 131072 := rfl
  have hmax : maxArgPages = 32 := rfl
  constructor
  · intro h
    obtain ⟨a, p, h, hp⟩ := h
    obtain ⟨⟨a₁, p₁⟩, henv, harg⟩ := Option.bind_eq_some_iff.mp h
    have harg := value_returned harg hp
    have hp₁ : p₁ ≠ 0 := fun h0 => hp (copyStrings_from_zero (h0 ▸ harg))
    obtain ⟨envs, henvlen, henvptr, henvzero, hsum₁, hfilled₁⟩ :=
      copyStrings_returned ArgPages.filled_nil (value_returned henv hp₁)
    obtain ⟨args, harglen, hargptr, hargzero, hsum, hfilled⟩ := copyStrings_returned hfilled₁ harg
    have hfree := hfilled.free
    refine ⟨args, envs, stringArray_of_count (harglen ▸ hargc) hargptr hargzero,
      stringArray_of_count (henvlen ▸ henvc) henvptr henvzero, by omega, by omega⟩
  · intro h
    obtain ⟨args, envs, hargs, henvs, hsize, hfree⟩ := h
    have hall : ∀ {strs : List (List UInt8)}, strs.take strs.length = strs := List.take_length
    have harglen : argc = args.length := Option.some.inj (hargc.symm.trans (hargs.count_eq (by omega)))
    have henvlen : envc = envs.length := Option.some.inj (henvc.symm.trans (henvs.count_eq (by omega)))
    obtain ⟨a₁, hcopy₁, hfilled₁⟩ := @copyStrings_spec mem envp free envs.length argBytes envs _ _ henvs ArgPages.filled_nil
      le_rfl (by rw [hall]; omega) (by rw [hall]; omega)
    rw [hall] at hcopy₁ hfilled₁
    obtain ⟨a₂, hcopy₂, _⟩ := copyStrings_spec hargs hfilled₁ (le_refl args.length) (by rw [hall]; omega) (by rw [hall]; omega)
    rw [hall] at hcopy₂
    refine ⟨a₂, argBytes - (flat envs).length - (flat args).length, ?_, by omega⟩
    unfold copyArgs
    rw [henvlen, hcopy₁, harglen]
    exact congrArg CopyEnd.value hcopy₂

end RheeKernel
