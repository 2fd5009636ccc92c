import RheeKernel.DirScan
import RheeKernel.Printk
import RheeKernel.StringComparisons

namespace RheeKernel.Strings

open StringOps ByteMemory

variable {c : Processor} {m : Nat → UInt8} {cs ct : Addr} {l l' name : List UInt8} {de : NameEntry} {s n k e limit fuel : Nat}

/-! ### `strlen` in `vsprintf` -/

theorem skipString_text (same : ∀ a, c.mem a = m a.toNat) (flat : s + k < 2 ^ 32) (found : skipString m k s = some e) :
    ∃ l, Text c.mem (BitVec.ofNat 32 s) l ∧ l.length < k ∧ e = s + l.length + 1 := by
  induction k generalizing s with
  | zero => exact absurd found (by simp [skipString])
  | succ k ih =>
    have here : c.mem (BitVec.ofNat 32 s) = m s := by rw [same, count_toNat (by omega)]
    unfold skipString at found
    by_cases zero : m s = 0
    · rw [if_pos zero] at found
      exact ⟨[], here.trans zero, Nat.succ_pos k, (Option.some.inj found).symm⟩
    · rw [if_neg zero] at found
      obtain ⟨l, text, short, rfl⟩ := ih (by omega) found
      rw [BitVec.ofNat_add] at text
      refine ⟨m s :: l, ⟨here, zero, text⟩, Nat.succ_lt_succ short, ?_⟩
      rw [List.length_cons]
      omega

/-- The length that `vsprintf` goes by is what the instructions of `strlen` count. -/
theorem printk_strlen (same : ∀ a, c.mem a = m a.toNat) (flat : limit < 2 ^ 32) (found : RheeKernel.strlen limit m s = some n) :
    strlen c (BitVec.ofNat 32 s) = BitVec.ofNat 32 n := by
  obtain ⟨e, skipped, rfl⟩ := Option.map_eq_some_iff.mp found
  by_cases inside : s ≤ limit
  · obtain ⟨l, text, short, rfl⟩ := skipString_text same (by omega) skipped
    rw [strlen_eq text (by omega)]
    exact congrArg _ (by omega)
  · rw [Nat.sub_eq_zero_of_le (by omega)] at skipped
    exact absurd skipped (by simp [skipString])

theorem printk_strlen_ab : strlen { twoTexts with mem := fun a => if a.toNat = 8 then 97 else if a.toNat = 9 then 98 else 0 } 8 = 2 := by
  have found : RheeKernel.strlen 100 (fun k => if k = 8 then 97 else if k = 9 then 98 else 0) 8 = some 2 := rfl
  exact printk_strlen (fun _ => rfl) (by decide) found

/-! ### `strcmp` in `empty_dir` -/

theorem strcmpTurn_unequal (differ : c.mem c.esi ≠ c.mem c.edi) : (strcmpTurn c).1 = false ∧
    (if (strcmpTurn c).2.zf then 0 else carrySign (strcmpTurn c).2) ≠ 0 := by
  obtain ⟨turn, zf, sign, -⟩ := strcmpTurn_differ differ
  refine ⟨turn, ?_⟩
  rw [zf, sign, if_neg Bool.false_ne_true]
  split_ifs <;> decide

/-- The comparison ends within the bytes that the text and its zero take up. -/
theorem strcmp_run_same (forward : c.df = false) (text : Text c.mem c.esi l) (bytes : Bytes c.mem c.edi l') (length : l'.length = l.length + 1)
    (enough : l.length < fuel) : ∃ d, WhileLoop.run (fun c => some (strcmpTurn c)) some fuel c = some d ∧
      ((if d.zf then 0 else carrySign d) = 0 ↔ l' = l ++ [0]) := by
  induction l generalizing c l' fuel with
  | nil =>
    obtain ⟨fuel, rfl⟩ : ∃ k, fuel = k + 1 := ⟨fuel - 1, by omega⟩
    obtain ⟨y, rfl⟩ := List.length_eq_one_iff.mp length
    have zero : c.mem c.esi = 0 := text
    by_cases same : y = 0
    · obtain ⟨turn, zf, -⟩ := strcmpTurn_same forward (zero.trans (same.symm.trans bytes.1.symm))
      rw [zero] at turn zf
      exact ⟨_, turn_stop turn, iff_of_true (if_pos zf) (congrArg (fun y => [y]) same)⟩
    · obtain ⟨turn, differ⟩ := strcmpTurn_unequal (c := c) (by rw [zero, bytes.1]; exact fun h => same h.symm)
      exact ⟨_, turn_stop turn, iff_of_false differ fun h => same (List.cons.inj h).1⟩
  | cons x l ih =>
    obtain ⟨fuel, rfl⟩ : ∃ k, fuel = k + 1 := ⟨fuel - 1, by omega⟩
    obtain ⟨here, nonzero, rest⟩ := text
    cases l' with
    | nil => exact absurd length (by simp)
    | cons y l' =>
      obtain ⟨there, rest'⟩ := bytes
      by_cases same : x = y
      · obtain ⟨turn, -, esi, edi, mem, df, -⟩ := strcmpTurn_same forward (here.trans (same.trans there.symm))
        rw [here, decide_eq_false nonzero] at turn
        rw [← esi, ← mem] at rest
        rw [← edi, ← mem] at rest'
        obtain ⟨d, run, result⟩ := ih df rest rest' (Nat.succ.inj length) (Nat.lt_of_succ_lt_succ enough)
        refine ⟨d, (turn_go turn).trans run, result.trans ?_⟩
        rw [same, List.cons_append, List.cons.injEq, and_iff_right rfl]
      · obtain ⟨turn, differ⟩ := strcmpTurn_unequal (c := c) (by rw [here, there]; exact same)
        exact ⟨_, turn_stop turn, iff_of_false differ fun h => same (List.cons.inj h).1.symm⟩

theorem nameIs_iff (short : name.length < 14) : DirScan.nameIs name de = true ↔ (List.ofFn de.name).take (name.length + 1) = name ++ [0] := by
  have length : ((List.ofFn de.name).take (name.length + 1)).length = (name ++ [0]).length := by
    rw [List.length_take, List.length_ofFn, List.length_append, List.length_singleton]
    omega
  have value (k : Nat) (inside : k < (name ++ [0]).length) : (name ++ [0])[k] = name.getD k 0 := by
    rw [List.getD_eq_getElem?_getD, List.getElem_append]
    split
    next within => rw [List.getElem?_eq_getElem within, Option.getD_some]
    next beyond => rw [List.getElem?_eq_none (Nat.not_lt.mp beyond), Option.getD_none, List.getElem_singleton]
  unfold DirScan.nameIs
  rw [decide_eq_true_iff]
  constructor
  · intro same
    refine List.ext_getElem length fun k _ inside => ?_
    rw [value k inside, List.getElem_take, List.getElem_ofFn]
    rw [List.length_append, List.length_singleton] at inside
    exact same ⟨k, by omega⟩ (Nat.le_of_lt_succ inside)
  · intro same k inside
    have bound : k.val < (name ++ [0]).length := by
      rw [List.length_append, List.length_singleton]
      exact Nat.lt_succ_of_le inside
    rw [← value k bound, ← List.getElem_of_eq same (length ▸ bound), List.getElem_take, List.getElem_ofFn]

/-- The tests for `.` and `..` in `empty_dir` are what the instructions of `strcmp` find, also where a name takes up the whole field. -/
theorem nameIs_strcmp (short : name.length < 14) (text : Text c.mem cs name) (bytes : Bytes c.mem ct (List.ofFn de.name))
    (enough : name.length < fuel) : ∃ r, strcmp c cs ct fuel = some r ∧ (r = 0 ↔ DirScan.nameIs name de = true) := by
  have length : ((List.ofFn de.name).take (name.length + 1)).length = name.length + 1 := by
    rw [List.length_take, List.length_ofFn]
    omega
  rw [← List.take_append_drop (name.length + 1) (List.ofFn de.name)] at bytes
  obtain ⟨d, run, result⟩ := strcmp_run_same (c := { c with esi := cs, edi := ct, df := false }) rfl text (Bytes.append_iff.mp bytes).1 length enough
  exact ⟨_, congrArg (Option.map _) run, result.trans (nameIs_iff short).symm⟩

/-- The name `.` at 8 and the entry of a directory with that name at 32. -/
def dotAndEntry : Processor := { twoTexts with mem := fun a => if a = 8 then 46 else if a = 32 then 46 else 0 }

theorem nameIs_strcmp_dot : ∃ r, strcmp dotAndEntry 8 32 2 = some r ∧
    (r = 0 ↔ DirScan.nameIs [46] { inode := 1, name := fun k => if k = 0 then 46 else 0 } = true) := by
  have text : Text dotAndEntry.mem 8 [46] := ⟨rfl, by decide, rfl⟩
  refine nameIs_strcmp (by decide) text ?_ (by decide)
  exact ⟨rfl, rfl, rfl, rfl, rfl, rfl, rfl, rfl, rfl, rfl, rfl, rfl, rfl, rfl, trivial⟩

end RheeKernel.Strings
