import Mathlib.Logic.Function.Basic
import RheeKernel.ByteMemory

open ByteMemory

namespace RheeKernel

def maxArgPages : Nat := 32
def argBytes : Nat := 32 * 4096

/-- The limit of the data segment, set by `change_ldt`. -/
def segLimit : Nat := 0x4000000

/-- The array `page[]` with the contents of the pages, and the number of pages `get_free_page` can give. -/
structure ArgPages where
  page : Nat → Option (Nat → UInt8)
  free : Nat

namespace ArgPages

def setPage (a : ArgPages) (i : Nat) (c : Nat → UInt8) : ArgPages := { a with page := Function.update a.page i (some c) }

/-- The byte at offset `q` of the argument area. -/
def byte (a : ArgPages) (q : Nat) : Option UInt8 := (a.page (q / 4096)).map fun c => c (q % 4096)

end ArgPages

def noPages (free : Nat) : ArgPages := { page := fun _ => none, free := free }

/-- The loop that takes pages from `i` on, `n` at most, up to the first one already there; `false` when
`get_free_page` has none. -/
def grabPages (a : ArgPages) : Nat → Nat → ArgPages × Bool
  | 0, _ => (a, true)
  | n + 1, i =>
    if (a.page i).isSome then (a, true)
    else if a.free = 0 then (a, false)
    else grabPages { a.setPage i (fun _ => 0) with free := a.free - 1 } n (i + 1)

/-- How `copy_strings` ends: with a value of `p`, with the return of 0 for want of a page, in one of its
panics, with an index outside of `page[]`, or with an address outside of the caller's segment. -/
inductive CopyEnd
  | returned (a : ArgPages) (p : Nat)
  | refused (a : ArgPages)
  | panic
  | wild
  | fault

/-- The loop that copies `n` bytes backwards from before `tmp` to before `p`. -/
def copyBytes (mem : Nat → UInt8) : Nat → ArgPages → Nat → Nat → CopyEnd
  | 0, a, _, p => .returned a p
  | n + 1, a, tmp, p =>
    let p := (p + 2 ^ 32 - 1) % 2 ^ 32
    if maxArgPages ≤ p / 4096 then .wild
    else
      match a.page (p / 4096) with
      | none => .panic
      | some c => copyBytes mem n (a.setPage (p / 4096) (Function.update c (p % 4096) (mem (tmp - 1)))) (tmp - 1) p

/-- One round of the loop of `copy_strings`, for the string at `tmp`. `p` is a 32-bit unsigned number, so
that `p-len < 0` never holds. -/
def copyString (mem : Nat → UInt8) (tmp : Nat) (a : ArgPages) (p : Nat) : CopyEnd :=
  if tmp = 0 then .panic
  else
    match skipString mem segLimit tmp with
    | none => .fault
    | some e =>
      let i := (p + 2 ^ 32 - (e - tmp)) % 2 ^ 32 / 4096
      let r := grabPages a (maxArgPages - i) i
      if r.2 then copyBytes mem (e - tmp) r.1 e p else .refused r.1

def copyStrings (mem : Nat → UInt8) (argv : Nat) : Nat → ArgPages → Nat → CopyEnd
  | 0, a, p => .returned a p
  | argc + 1, a, p =>
    match copyString mem (getLong mem (argv + 4 * argc)) a p with
    | .returned a p => copyStrings mem argv argc a p
    | r => r

/-- The value that `copy_strings` returns, if it does, with `page[]` as it leaves it. -/
def CopyEnd.value : CopyEnd → Option (ArgPages × Nat)
  | .returned a p => some (a, p)
  | .refused a => some (a, 0)
  | _ => none

/-- The loop of `count`: pointers from `tmp` up to a null pointer. -/
def countFrom (mem : Nat → UInt8) : Nat → Nat → Nat → Option Nat
  | 0, _, _ => none
  | n + 1, tmp, i => if getLong mem tmp = 0 then some i else countFrom mem n (tmp + 4) (i + 1)

def count (mem : Nat → UInt8) (argv : Nat) : Option Nat :=
  if argv = 0 then some 0 else countFrom mem (segLimit / 4) argv 0

/-- The new data segment after `change_ldt`: the pages it has put below the limit, the old contents
elsewhere. -/
def changeLdt (a : ArgPages) (seg : Nat → UInt8) : Nat → UInt8 := fun x =>
  if segLimit - argBytes ≤ x ∧ x < segLimit then (a.byte (x - (segLimit - argBytes))).getD (seg x) else seg x

/-- A loop of `create_tables`: `n` string addresses, the first one `p`, go to the table at `t`. -/
def tableLoop : Nat → (Nat → UInt8) → Nat → Nat → Option ((Nat → UInt8) × Nat × Nat)
  | 0, seg, p, t => some (seg, p, t)
  | n + 1, seg, p, t =>
    let seg := putLong seg t p
    (skipString seg segLimit p).bind fun p => tableLoop n seg p (t + 4)

/-- The user memory and the stack pointer that `create_tables` leaves. Pages below the strings appear on
the first store. -/
def createTables (seg : Nat → UInt8) (p argc envc : Nat) : Option ((Nat → UInt8) × Nat) :=
  let envp := p / 4 * 4 - 4 * (envc + 1)
  let argv := envp - 4 * (argc + 1)
  let sp := argv - 4
  (tableLoop argc (putLong seg sp argc) p argv).bind fun (seg, p, argv) =>
    (tableLoop envc (putLong seg argv 0) p envp).map fun (seg, _, envp) => (putLong seg envp 0, sp)

/-- What `do_execve` makes of its arguments: memory and stack pointer of the new program, a return to
the caller with the error -1, or no return. -/
inductive ExecArgs
  | ready (seg : Nat → UInt8) (sp : Nat)
  | refused
  | stuck

/-- The steps of `do_execve` that deal with `argv` and `envp`, for the caller's memory `mem`; `seg` is the
user memory once the program is loaded. -/
def passArguments (mem seg : Nat → UInt8) (argv envp free : Nat) : ExecArgs :=
  match count mem argv, count mem envp with
  | some argc, some envc =>
    match (copyStrings mem envp envc (noPages free) argBytes).value with
    | none => .stuck
    | some (a, p) =>
      match (copyStrings mem argv argc a p).value with
      | none => .stuck
      | some (a, p) =>
        if p = 0 then .refused
        else
          match createTables (changeLdt a seg) (p + segLimit - argBytes) argc envc with
          | some (seg, sp) => .ready seg sp
          | none => .stuck
  | _, _ => .stuck

/-- A null-terminated array of pointers at `a` whose strings are `strs`. -/
structure StringArray (mem : Nat → UInt8) (a : Nat) (strs : List (List UInt8)) : Prop where
  pointer : ∀ i (h : i < strs.length), getLong mem (a + 4 * i) ≠ 0 ∧ Holds mem (getLong mem (a + 4 * i)) (strs[i] ++ [0])
  noZero : ∀ s ∈ strs, 0 ∉ s
  stop : a ≠ 0 → getLong mem (a + 4 * strs.length) = 0
  null : a = 0 → strs = []

namespace ArgPages

/-- The bytes fill the argument area from `p` to its end, on exactly the pages they need, out of `n` pages. -/
structure Filled (a : ArgPages) (n p : Nat) (bs : List UInt8) : Prop where
  length : p + bs.length = argBytes
  page : ∀ i, i < maxArgPages → ((a.page i).isSome = true ↔ p < (i + 1) * 4096)
  bytes : ∀ k (h : k < bs.length), a.byte (p + k) = some bs[k]
  free : a.free + (maxArgPages - p / 4096) = n

theorem filled_nil {n : Nat} : (noPages n).Filled n argBytes [] := by
  refine ⟨rfl, fun i hi => ?_, fun k hk => by simp at hk, rfl⟩
  unfold maxArgPages at hi
  simp [noPages, argBytes]
  omega

theorem setPage_isSome {a : ArgPages} {i j : Nat} {c : Nat → UInt8} (hi : (a.page i).isSome = true) :
    ((a.setPage i c).page j).isSome = (a.page j).isSome := by
  by_cases hj : j = i
  · subst hj
    simp [setPage, hi]
  · simp [setPage, hj]

/-- A store to one byte of a page that is there. -/
theorem byte_store {a : ArgPages} {c : Nat → UInt8} {p q : Nat} {v : UInt8} (hc : a.page (p / 4096) = some c) :
    (a.setPage (p / 4096) (Function.update c (p % 4096) v)).byte q = if q = p then some v else a.byte q := by
  unfold byte
  by_cases hq : q / 4096 = p / 4096
  · have hnew : (a.setPage (p / 4096) (Function.update c (p % 4096) v)).page (p / 4096) =
        some (Function.update c (p % 4096) v) := Function.update_self ..
    rw [hq, hnew, hc]
    by_cases hqp : q = p
    · rw [if_pos hqp, hqp]
      simp
    · rw [if_neg hqp]
      have hmod : q % 4096 ≠ p % 4096 := by omega
      simp [hmod]
  · have hne : q ≠ p := fun heq => hq (by rw [heq])
    simp [setPage, hq, hne]

end ArgPages

/-- The pages taken are those missing from `i` up to `m`. -/
theorem grabPages_spec {a : ArgPages} {i m : Nat} (him : i ≤ m) (hm : m ≤ maxArgPages)
    (hmiss : ∀ j, i ≤ j → j < m → (a.page j).isSome = false) (hstop : m < maxArgPages → (a.page m).isSome = true)
    (hfree : m - i ≤ a.free) :
    ∃ a', grabPages a (maxArgPages - i) i = (a', true) ∧ a'.free + (m - i) = a.free ∧
      (∀ j, j < i ∨ m ≤ j → a'.page j = a.page j) ∧ ∀ j, i ≤ j → j < m → (a'.page j).isSome = true := by
  induction hk : m - i generalizing a i with
  | zero =>
    have heq : i = m := by omega
    subst heq
    refine ⟨a, ?_, by omega, fun _ _ => rfl, fun j hj hlt => by omega⟩
    cases hn : maxArgPages - i with
    | zero => rfl
    | succ n =>
      unfold grabPages
      rw [if_pos (hstop (by omega))]
  | succ k ih =>
    obtain ⟨n, hn⟩ : ∃ n, maxArgPages - i = n + 1 := ⟨maxArgPages - i - 1, by omega⟩
    have hnext : maxArgPages - (i + 1) = n := by omega
    have hmissing := hmiss i (by omega) (by omega)
    rw [hn]
    unfold grabPages
    rw [if_neg (by simp [hmissing]), if_neg (by omega)]
    have hpage : ∀ j, j ≠ i → (a.setPage i fun _ => 0).page j = a.page j := fun j hj => Function.update_of_ne hj _ _
    obtain ⟨a', ha', hfree', hsame, hnew⟩ := @ih { a.setPage i (fun _ => 0) with free := a.free - 1 } (i + 1) (by omega)
      (fun j hj hlt => by
        show ((a.setPage i fun _ => 0).page j).isSome = false
        rw [hpage j (by omega)]
        exact hmiss j (by omega) hlt)
      (fun hlt => by
        show ((a.setPage i fun _ => 0).page m).isSome = true
        rw [hpage m (by omega)]
        exact hstop hlt)
      (by show m - (i + 1) ≤ a.free - 1; omega) (by omega)
    rw [hnext] at ha'
    refine ⟨a', ha', ?_, fun j hj => ?_, fun j hj hlt => ?_⟩
    · have : a'.free + k = a.free - 1 := hfree'
      omega
    · exact (hsame j (by omega)).trans (hpage j (by omega))
    · by_cases hji : j = i
      · rw [hji, hsame i (by omega)]
        simp [ArgPages.setPage]
      · exact hnew j (by omega) hlt

/-- The byte loop moves a block of `n` bytes to pages that are there. -/
theorem copyBytes_spec {mem : Nat → UInt8} {n : Nat} {a : ArgPages} {tmp p : Nat} (hn : n ≤ p) (hp : p ≤ argBytes)
    (hpage : ∀ q, p - n ≤ q → q < p → (a.page (q / 4096)).isSome = true) (htmp : n ≤ tmp) :
    ∃ a', copyBytes mem n a tmp p = .returned a' (p - n) ∧ a'.free = a.free ∧
      (∀ j, (a'.page j).isSome = (a.page j).isSome) ∧
      ∀ q, a'.byte q = if p - n ≤ q ∧ q < p then some (mem (tmp - n + (q - (p - n)))) else a.byte q := by
  induction n generalizing a tmp p with
  | zero => exact ⟨a, rfl, rfl, fun _ => rfl, fun q => by rw [if_neg (by omega)]⟩
  | succ n ih =>
    have hlow : argBytes = 131072 := rfl
    have hdec : (p + 2 ^ 32 - 1) % 2 ^ 32 = p - 1 := by omega
    obtain ⟨c, hc⟩ := Option.isSome_iff_exists.mp (hpage (p - 1) (by omega) (by omega))
    unfold copyBytes
    dsimp only
    rw [hdec, if_neg (by unfold maxArgPages; omega), hc]
    dsimp only
    have hsome : (a.page ((p - 1) / 4096)).isSome = true := by rw [hc]; rfl
    obtain ⟨a', ha', hfree, hsame, hbyte⟩ := @ih
      (a.setPage ((p - 1) / 4096) (Function.update c ((p - 1) % 4096) (mem (tmp - 1)))) (tmp - 1) (p - 1) (by omega) (by omega)
      (fun q hq hlt => by rw [ArgPages.setPage_isSome hsome]; exact hpage q (by omega) (by omega)) (by omega)
    refine ⟨a', ?_, hfree, fun j => (hsame j).trans (ArgPages.setPage_isSome hsome), fun q => ?_⟩
    · rw [ha', Nat.sub_sub, Nat.add_comm 1 n]
    · rw [hbyte, ArgPages.byte_store hc]
      by_cases hq : q = p - 1
      · rw [if_neg (by omega), if_pos hq, if_pos (by omega)]
        exact congrArg (fun x => some (mem x)) (by omega)
      · rw [if_neg hq]
        by_cases hin : p - 1 - n ≤ q ∧ q < p - 1
        · rw [if_pos hin, if_pos (by omega)]
          exact congrArg (fun x => some (mem x)) (by omega)
        · rw [if_neg hin, if_neg (by omega)]

namespace ArgPages

/-- Pages for `len` more bytes: the ones already filled keep their bytes. -/
theorem Filled.grab {a : ArgPages} {n p len : Nat} {bs : List UInt8} (h : a.Filled n p bs) (hlen : len ≤ p)
    (hfree : maxArgPages - (p - len) / 4096 ≤ n) :
    ∃ a', grabPages a (maxArgPages - (p - len) / 4096) ((p - len) / 4096) = (a', true) ∧
      (∀ i, i < maxArgPages → ((a'.page i).isSome = true ↔ p - len < (i + 1) * 4096)) ∧
      (∀ q, p ≤ q → a'.byte q = a.byte q) ∧ a'.free + (maxArgPages - (p - len) / 4096) = n := by
  have hp : p ≤ argBytes := by
    have := h.length
    omega
  have hmax : maxArgPages = 32 := rfl
  have hbytes : argBytes = 131072 := rfl
  have hold := h.free
  obtain ⟨a', ha', hfree', hsame, hnew⟩ := @grabPages_spec a ((p - len) / 4096) (p / 4096) (by omega) (by omega)
    (fun j hj hlt => by
      have hiff := h.page j (by omega)
      rw [Bool.eq_false_iff]
      intro hsome
      have := hiff.mp hsome
      omega)
    (fun hlt => (h.page _ hlt).mpr (by omega)) (by omega)
  refine ⟨a', ha', fun j hj => ?_, fun q hq => ?_, by omega⟩
  · by_cases hin : (p - len) / 4096 ≤ j ∧ j < p / 4096
    · exact ⟨fun _ => by omega, fun _ => hnew j hin.1 hin.2⟩
    · rw [hsame j (by omega), h.page j hj]
      omega
  · unfold byte
    rw [hsame (q / 4096) (by omega)]

/-- One string is copied in front of the bytes that are there. -/
theorem Filled.copyString {mem : Nat → UInt8} {a : ArgPages} {n p tmp : Nat} {bs str : List UInt8} (h : a.Filled n p bs)
    (hstr : Holds mem tmp (str ++ [0])) (hlen : str.length + 1 ≤ p)
    (hfree : maxArgPages - (p - (str.length + 1)) / 4096 ≤ n) :
    ∃ a₁ a₂, grabPages a (maxArgPages - (p - (str.length + 1)) / 4096) ((p - (str.length + 1)) / 4096) = (a₁, true) ∧
      copyBytes mem (str.length + 1) a₁ (tmp + str.length + 1) p = .returned a₂ (p - (str.length + 1)) ∧
      a₂.Filled n (p - (str.length + 1)) (str ++ [0] ++ bs) := by
  have hlength := h.length
  have hmax : maxArgPages = 32 := rfl
  have hbytes : argBytes = 131072 := rfl
  obtain ⟨a₁, hgrab, hpage, hkeep, hfree₁⟩ := h.grab hlen hfree
  obtain ⟨a₂, hcopy, hfree₂, hsame, hbyte⟩ := @copyBytes_spec mem (str.length + 1) a₁ (tmp + str.length + 1) p hlen (by omega)
    (fun q hq hlt => (hpage _ (by omega)).mpr (by omega)) (by omega)
  refine ⟨a₁, a₂, hgrab, hcopy, ⟨?_, fun i hi => ?_, fun k hk => ?_, by omega⟩⟩
  · simp only [List.length_append, List.length_cons, List.length_nil]
    omega
  · rw [hsame, hpage i hi]
  · rw [hbyte]
    by_cases hin : k < str.length + 1
    · rw [if_pos (by omega), List.getElem_append_left (by simpa using hin), ← hstr k (by simpa using hin)]
      exact congrArg (fun x => some (mem x)) (by omega)
    · simp only [List.length_append, List.length_cons, List.length_nil] at hk
      rw [if_neg (by omega), hkeep _ (by omega), List.getElem_append_right (by simpa using hin)]
      simp only [List.length_append, List.length_cons, List.length_nil]
      rw [← h.bytes (k - (str.length + 1)) (by omega)]
      exact congrArg a.byte (by omega)

end ArgPages

theorem StringArray.take_succ {strs : List (List UInt8)} {n : Nat} (hn : n < strs.length) :
    flat (strs.take (n + 1)) = flat (strs.take n) ++ (strs[n] ++ [0]) := by
  rw [List.take_add_one, List.getElem?_eq_getElem hn, flat_append]
  simp

/-- `copy_strings` puts the strings, in their order, in front of the bytes that are there. -/
theorem copyStrings_spec {mem : Nat → UInt8} {argv n m p : Nat} {strs : List (List UInt8)} {a : ArgPages} {bs : List UInt8}
    (hstrs : StringArray mem argv strs) (h : a.Filled n p bs) (hm : m ≤ strs.length)
    (hsize : (flat (strs.take m)).length ≤ p) (hfree : maxArgPages - (p - (flat (strs.take m)).length) / 4096 ≤ n) :
    ∃ a', copyStrings mem argv m a p = .returned a' (p - (flat (strs.take m)).length) ∧
      a'.Filled n (p - (flat (strs.take m)).length) (flat (strs.take m) ++ bs) := by
  have hbytes : argBytes = 131072 := rfl
  induction m generalizing a p bs with
  | zero => exact ⟨a, rfl, h⟩
  | succ m ih =>
    have hlength := h.length
    have hflat := StringArray.take_succ (n := m) (by omega : m < strs.length)
    have hlen : (flat (strs.take (m + 1))).length = (flat (strs.take m)).length + (strs[m].length + 1) := by
      rw [hflat]
      simp
    obtain ⟨hptr, hstr⟩ := hstrs.pointer m (by omega)
    have hskip : skipString mem segLimit (getLong mem (argv + 4 * m)) = some (getLong mem (argv + 4 * m) + strs[m].length + 1) := by
      refine skipString_eq hstr (hstrs.noZero _ (List.getElem_mem _)) ?_
      have hseg : segLimit = 67108864 := rfl
      omega
    obtain ⟨a₁, a₂, hgrab, hcopy, hfilled⟩ := h.copyString hstr (by omega) (by omega)
    have hwrap : (p + 2 ^ 32 - (strs[m].length + 1)) % 2 ^ 32 = p - (strs[m].length + 1) := by omega
    have hdiff : getLong mem (argv + 4 * m) + strs[m].length + 1 - getLong mem (argv + 4 * m) = strs[m].length + 1 := by omega
    obtain ⟨a', ha', hfilled'⟩ := ih hfilled (by omega) (by omega) (by
      rw [Nat.sub_sub]
      rw [hlen] at hfree
      rwa [Nat.add_comm (strs[m].length + 1)])
    have hend : p - (strs[m].length + 1) - (flat (strs.take m)).length = p - (flat (strs.take (m + 1))).length := by omega
    have hround : copyString mem (getLong mem (argv + 4 * m)) a p = .returned a₂ (p - (strs[m].length + 1)) := by
      unfold copyString
      rw [if_neg hptr, hskip]
      dsimp only
      rw [hdiff, hwrap, hgrab, if_pos rfl]
      exact hcopy
    refine ⟨a', ?_, ?_⟩
    · unfold copyStrings
      rw [hround]
      dsimp only
      rw [ha', hend]
    · rw [← hend, hflat, List.append_assoc]
      simpa using hfilled'

theorem countFrom_eq {mem : Nat → UInt8} {tmp n i k : Nat} (hptr : ∀ j, j < n → getLong mem (tmp + 4 * j) ≠ 0)
    (hstop : getLong mem (tmp + 4 * n) = 0) (hk : n < k) : countFrom mem k tmp i = some (i + n) := by
  induction n generalizing tmp i k with
  | zero =>
    obtain ⟨k, rfl⟩ : ∃ l, k = l + 1 := ⟨k - 1, by omega⟩
    have hzero : getLong mem tmp = 0 := hstop
    unfold countFrom
    rw [if_pos hzero]
    rfl
  | succ n ih =>
    obtain ⟨k, rfl⟩ : ∃ l, k = l + 1 := ⟨k - 1, by omega⟩
    have hne : getLong mem tmp ≠ 0 := hptr 0 (by omega)
    have hptr' : ∀ j, j < n → getLong mem (tmp + 4 + 4 * j) ≠ 0 := by
      intro j hj
      have := hptr (j + 1) (by omega)
      rwa [show tmp + 4 * (j + 1) = tmp + 4 + 4 * j by omega] at this
    have hstop' : getLong mem (tmp + 4 + 4 * n) = 0 := by
      rwa [show tmp + 4 * (n + 1) = tmp + 4 + 4 * n by omega] at hstop
    unfold countFrom
    rw [if_neg hne, ih hptr' hstop' (by omega)]
    congr 1
    omega

theorem StringArray.count_of_few {mem : Nat → UInt8} {argv : Nat} {strs : List (List UInt8)} (h : StringArray mem argv strs)
    (hfew : strs.length < segLimit / 4) : count mem argv = some strs.length := by
  unfold count
  split
  next hnull => rw [h.null hnull]; rfl
  next hne =>
    rw [countFrom_eq (fun j hj => (h.pointer j hj).1) (h.stop hne) hfew]
    simp

theorem StringArray.count_eq {mem : Nat → UInt8} {argv : Nat} {strs : List (List UInt8)} (h : StringArray mem argv strs)
    (hsize : (flat strs).length < argBytes) : count mem argv = some strs.length := by
  have hle := @length_le_flat strs
  have hseg : segLimit / 4 = 16777216 := rfl
  have hbytes : argBytes = 131072 := rfl
  exact h.count_of_few (by omega)

/-- The strings stand at the end of the new segment. -/
theorem ArgPages.Filled.changeLdt {a : ArgPages} {n p : Nat} {bs : List UInt8} (h : a.Filled n p bs) (seg : Nat → UInt8) :
    Holds (changeLdt a seg) (p + segLimit - argBytes) bs := by
  intro k hk
  have hlength := h.length
  have hseg : segLimit = 67108864 := rfl
  have hbytes : argBytes = 131072 := rfl
  unfold RheeKernel.changeLdt
  rw [if_pos (by omega), show p + segLimit - argBytes + k - (segLimit - argBytes) = p + k by omega, h.bytes k hk]
  rfl

/-- A table loop writes the address of each string and nothing outside of its table. -/
theorem tableLoop_spec {n : Nat} {seg : Nat → UInt8} {p t : Nat} {strs : List (List UInt8)} {rest : List UInt8}
    (hn : n = strs.length) (hstrs : Holds seg p (flat strs ++ rest)) (hzero : ∀ s ∈ strs, 0 ∉ s) (hbelow : t + 4 * n ≤ p)
    (hend : p + (flat strs).length ≤ segLimit) :
    ∃ seg', tableLoop n seg p t = some (seg', p + (flat strs).length, t + 4 * n) ∧
      (∀ i, i < n → getLong seg' (t + 4 * i) = p + (flat (strs.take i)).length) ∧
      ∀ x, x < t ∨ t + 4 * n ≤ x → seg' x = seg x := by
  have hseg : segLimit = 67108864 := rfl
  induction strs generalizing n seg p t with
  | nil =>
    subst hn
    exact ⟨seg, rfl, fun i hi => by simp at hi, fun _ _ => rfl⟩
  | cons s strs ih =>
    subst hn
    simp only [List.length_cons] at hbelow ⊢
    simp only [flat_cons, List.length_append, List.length_cons, List.length_nil] at hend
    have hkeep : ∀ x, p ≤ x → putLong seg t p x = seg x := fun x hx => putLong_other (by omega)
    have hall : Holds (putLong seg t p) p (s ++ [0] ++ (flat strs ++ rest)) := by
      rw [flat_cons, List.append_assoc] at hstrs
      exact hstrs.congr fun x hx _ => hkeep x hx
    obtain ⟨hhead, htail⟩ := holds_append.mp hall
    have hskip : skipString (putLong seg t p) segLimit p = some (p + s.length + 1) :=
      skipString_eq hhead (hzero s (by simp)) (by omega)
    have hlen : (s ++ [(0 : UInt8)]).length = s.length + 1 := by simp
    rw [hlen] at htail
    obtain ⟨seg', hloop, hptr, hsame⟩ := @ih strs.length (putLong seg t p) (p + s.length + 1) (t + 4) rfl htail
      (fun s hs => hzero s (List.mem_cons_of_mem _ hs)) (by omega) (by omega)
    refine ⟨seg', ?_, fun i hi => ?_, fun x hx => ?_⟩
    · unfold tableLoop
      dsimp only
      have hall : (flat (s :: strs)).length = s.length + 1 + (flat strs).length := by
        rw [flat_cons, List.length_append, hlen]
      have hp : p + s.length + 1 + (flat strs).length = p + (s.length + 1 + (flat strs).length) := by omega
      have ht : t + 4 + 4 * strs.length = t + 4 * (strs.length + 1) := by omega
      rw [hskip, Option.bind_some, hloop, hall, hp, ht]
    · cases i with
      | zero =>
        have hfirst : getLong seg' t = getLong (putLong seg t p) t := getLong_congr fun x _ hx => hsame x (.inl hx)
        simpa [hfirst] using getLong_putLong (m := seg) (a := t) (by omega : p < 2 ^ 32)
      | succ i =>
        have := hptr i (by omega)
        rw [show t + 4 * (i + 1) = t + 4 + 4 * i by omega, this, List.take_succ_cons, flat_cons, List.length_append, hlen]
        omega
    · rw [hsame x (by omega)]
      exact putLong_other (by omega)

/-- What a program finds at its stack pointer: `argc`, the two tables of pointers with a null pointer after
each, and behind them the strings. -/
structure StackHolds (seg : Nat → UInt8) (sp : Nat) (args envs : List (List UInt8)) : Prop where
  argc : getLong seg sp = args.length
  argv : ∀ i (h : i < args.length), Holds seg (getLong seg (sp + 4 + 4 * i)) (args[i] ++ [0])
  argvEnd : getLong seg (sp + 4 + 4 * args.length) = 0
  envp : ∀ i (h : i < envs.length), Holds seg (getLong seg (sp + 4 + 4 * (args.length + 1) + 4 * i)) (envs[i] ++ [0])
  envpEnd : getLong seg (sp + 4 + 4 * (args.length + 1) + 4 * envs.length) = 0
  -- The tables end before the first string.
  argvApart : ∀ i, i < args.length → sp + 4 * (args.length + envs.length + 3) ≤ getLong seg (sp + 4 + 4 * i)
  envpApart : ∀ i, i < envs.length →
    sp + 4 * (args.length + envs.length + 3) ≤ getLong seg (sp + 4 + 4 * (args.length + 1) + 4 * i)

theorem createTables_spec {seg : Nat → UInt8} {p : Nat} {args envs : List (List UInt8)}
    (hargs : ∀ s ∈ args, 0 ∉ s) (henvs : ∀ s ∈ envs, 0 ∉ s) (h : Holds seg p (flat args ++ flat envs))
    (hend : p + (flat args).length + (flat envs).length = segLimit) (hroom : 4 * (args.length + envs.length + 4) ≤ p) :
    ∃ seg' sp, createTables seg p args.length envs.length = some (seg', sp) ∧ StackHolds seg' sp args envs := by
  have hseg : segLimit = 67108864 := rfl
  obtain ⟨sp, hsp⟩ : ∃ sp, sp = p / 4 * 4 - 4 * (envs.length + 1) - 4 * (args.length + 1) - 4 := ⟨_, rfl⟩
  have hargv : p / 4 * 4 - 4 * (envs.length + 1) - 4 * (args.length + 1) = sp + 4 := by omega
  have henvp : p / 4 * 4 - 4 * (envs.length + 1) = sp + 4 + 4 * (args.length + 1) := by omega
  have htop : sp + 4 * (args.length + envs.length + 3) ≤ p := by omega
  -- The store of `argc`, and the table of arguments.
  have h₀ : Holds (putLong seg sp args.length) p (flat args ++ flat envs) :=
    h.congr fun x hx _ => putLong_other (by omega)
  obtain ⟨seg₁, hloop₁, hptr₁, hsame₁⟩ := tableLoop_spec rfl h₀ hargs (by omega : sp + 4 + 4 * args.length ≤ p) (by omega)
  -- Its null pointer, and the table of the environment.
  have h₁ : Holds (putLong seg₁ (sp + 4 + 4 * args.length) 0) p (flat args ++ flat envs) :=
    h₀.congr fun x hx _ => (putLong_other (by omega)).trans (hsame₁ x (by omega))
  obtain ⟨seg₂, hloop₂, hptr₂, hsame₂⟩ := @tableLoop_spec envs.length (putLong seg₁ (sp + 4 + 4 * args.length) 0)
    (p + (flat args).length) (sp + 4 + 4 * (args.length + 1)) envs [] rfl
    (by rw [List.append_nil]; exact (holds_append.mp h₁).2) henvs (by omega) (by omega)
  have h₂ : Holds (putLong seg₂ (sp + 4 + 4 * (args.length + 1) + 4 * envs.length) 0) p (flat args ++ flat envs) :=
    h₁.congr fun x hx _ => (putLong_other (by omega)).trans (hsame₂ x (by omega))
  -- Words below the table of the environment are as the first loop left them.
  have hlow : ∀ a, a + 4 ≤ sp + 4 + 4 * (args.length + 1) →
      getLong (putLong seg₂ (sp + 4 + 4 * (args.length + 1) + 4 * envs.length) 0) a =
        getLong (putLong seg₁ (sp + 4 + 4 * args.length) 0) a :=
    fun a ha => getLong_congr fun x hl hu => (putLong_other (by omega)).trans (hsame₂ x (by omega))
  have hpa : ∀ i, i < args.length →
      getLong (putLong seg₂ (sp + 4 + 4 * (args.length + 1) + 4 * envs.length) 0) (sp + 4 + 4 * i) =
        p + (flat (args.take i)).length :=
    fun i hi => ((hlow _ (by omega)).trans (getLong_putLong_other (by omega))).trans (hptr₁ i hi)
  have hpe : ∀ i, i < envs.length →
      getLong (putLong seg₂ (sp + 4 + 4 * (args.length + 1) + 4 * envs.length) 0) (sp + 4 + 4 * (args.length + 1) + 4 * i) =
        p + (flat args).length + (flat (envs.take i)).length :=
    fun i hi => (getLong_putLong_other (by omega)).trans (hptr₂ i hi)
  refine ⟨putLong seg₂ (sp + 4 + 4 * (args.length + 1) + 4 * envs.length) 0, sp, ?_,
    ⟨?_, fun i hi => ?_, ?_, fun i hi => ?_, ?_, fun i hi => ?_, fun i hi => ?_⟩⟩
  · unfold createTables
    dsimp only
    rw [hargv, henvp, Nat.add_sub_cancel, hloop₁, Option.bind_some]
    dsimp only
    rw [hloop₂, Option.map_some]
  · have hfirst : getLong seg₁ sp = getLong (putLong seg sp args.length) sp := getLong_congr fun x _ hx => hsame₁ x (by omega)
    rw [hlow sp (by omega), getLong_putLong_other (by omega), hfirst, getLong_putLong (by omega)]
  · rw [hpa i hi]
    exact (holds_append.mp h₂).1.flat_getElem hi
  · rw [hlow _ (by omega), getLong_putLong (by omega)]
  · rw [hpe i hi]
    exact (holds_append.mp h₂).2.flat_getElem hi
  · exact getLong_putLong (by omega)
  · rw [hpa i hi]
    omega
  · rw [hpe i hi]
    omega

/-- Arguments and environment of less than 128 KiB arrive in the new program as they were passed. -/
theorem arguments_round_trip {mem seg : Nat → UInt8} {argv envp free : Nat} {args envs : List (List UInt8)}
    (hargs : StringArray mem argv args) (henvs : StringArray mem envp envs)
    (hsize : (flat args).length + (flat envs).length < argBytes)
    (hfree : ((flat args).length + (flat envs).length + 4095) / 4096 ≤ free) :
    ∃ seg' sp, passArguments mem seg argv envp free = .ready seg' sp ∧ StackHolds seg' sp args envs := by
  have hbytes : argBytes = 131072 := rfl
  have hseg : segLimit = 67108864 := rfl
  have hmax : maxArgPages = 32 := rfl
  have hall : ∀ {strs : List (List UInt8)}, strs.take strs.length = strs := List.take_length
  obtain ⟨a₁, hcopy₁, hfilled₁⟩ := @copyStrings_spec mem envp free envs.length argBytes envs _ _ henvs ArgPages.filled_nil le_rfl
    (by rw [hall]; omega) (by rw [hall]; omega)
  rw [hall] at hcopy₁ hfilled₁
  obtain ⟨a₂, hcopy₂, hfilled₂⟩ := copyStrings_spec hargs hfilled₁ (le_refl args.length) (by rw [hall]; omega)
    (by rw [hall]; omega)
  rw [hall] at hcopy₂
  rw [hall, List.append_nil] at hfilled₂
  have hholds := hfilled₂.changeLdt seg
  have hla := @length_le_flat args
  have hle := @length_le_flat envs
  obtain ⟨seg', sp, htables, hstack⟩ := createTables_spec hargs.noZero henvs.noZero hholds (by omega) (by omega)
  refine ⟨seg', sp, ?_, hstack⟩
  unfold passArguments
  rw [hargs.count_eq (by omega), henvs.count_eq (by omega)]
  dsimp only
  rw [hcopy₁]
  simp only [CopyEnd.value]
  rw [hcopy₂]
  dsimp only
  rw [if_neg (by omega), htables]

/-- A caller's memory with the argument `a` and the environment string `b`. -/
def sampleMemory : Nat → UInt8 :=
  putLong (putLong (fun x => if x = 100 then 97 else if x = 104 then 98 else 0) 16 100) 32 104

theorem sampleMemory_strings : StringArray sampleMemory 16 [[97]] ∧ StringArray sampleMemory 32 [[98]] := by
  have hone : ∀ {a t : Nat} {c : UInt8}, c ≠ 0 → getLong sampleMemory a = t → t ≠ 0 → sampleMemory t = c → sampleMemory (t + 1) = 0 →
      getLong sampleMemory (a + 4) = 0 → a ≠ 0 → StringArray sampleMemory a [[c]] := by
    intro a t c hc ha ht h0 h1 hstop hne
    refine ⟨fun i hi => ?_, fun s hs => ?_, fun _ => hstop, fun h => absurd h hne⟩
    · have hi0 : i = 0 := by simpa using hi
      subst hi0
      rw [show a + 4 * 0 = a from rfl, ha]
      refine ⟨ht, fun k hk => ?_⟩
      have hk : k = 0 ∨ k = 1 := by
        simp at hk
        omega
      rcases hk with rfl | rfl
      · exact h0
      · exact h1
    · have hs : s = [c] := by simpa using hs
      rw [hs]
      simpa using hc.symm
  exact ⟨hone (t := 100) (by decide) (by decide) (by decide) (by decide) (by decide) (by decide) (by decide),
    hone (t := 104) (by decide) (by decide) (by decide) (by decide) (by decide) (by decide) (by decide)⟩

theorem arguments_round_trip_sample :
    ∃ seg' sp, passArguments sampleMemory (fun _ => 0) 16 32 1 = .ready seg' sp ∧ StackHolds seg' sp [[97]] [[98]] :=
  arguments_round_trip sampleMemory_strings.1 sampleMemory_strings.2 (by decide) (by decide)

end RheeKernel
