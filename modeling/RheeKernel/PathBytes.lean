import Mathlib.Data.List.GetD
import RheeKernel.NameCalls

namespace RheeKernel.Vfs.PathBytes

/-- The byte at place `i` of a path, which is given without the zero byte at its end. -/
def getFsByte (path : List UInt8) (i : Nat) : UInt8 := path.getD i 0

theorem getFsByte_lt {path : List UInt8} {i : Nat} (h : getFsByte path i ≠ 0) : i < path.length := by
  by_contra hge
  exact h (List.getD_eq_default _ _ (Nat.not_lt.mp hge))

/-- The loop `for` of `get_dir`: `namelen`, `pathname` and `c` at its end. -/
def scanName (path : List UInt8) (pathname namelen : Nat) : Nat × Nat × UInt8 :=
  if h : getFsByte path pathname ≠ 0 ∧ getFsByte path pathname ≠ 47 then scanName path (pathname + 1) (namelen + 1)
  else (namelen, pathname + 1, getFsByte path pathname)
termination_by path.length - pathname
decreasing_by
  have hlt := getFsByte_lt h.1
  omega

/-- The loop of `dir_namei`: `pathname` and `basename` at its end. -/
def scanBase (path : List UInt8) (pathname basename : Nat) : Nat × Nat :=
  if h : getFsByte path pathname ≠ 0 then
    scanBase path (pathname + 1) (if getFsByte path pathname = 47 then pathname + 1 else basename)
  else (pathname + 1, basename)
termination_by path.length - pathname
decreasing_by
  have hlt := getFsByte_lt h
  omega

/-- `len` bytes of the path from place `i` on. -/
def part (path : List UInt8) (i len : Nat) : List UInt8 := (path.drop i).take len

section Scan

variable {path piece rest : List UInt8} {pathname basename namelen i : Nat}

theorem scanName_next (h : (scanName path pathname namelen).2.2 ≠ 0) :
    pathname < (scanName path pathname namelen).2.1 ∧ (scanName path pathname namelen).2.1 ≤ path.length := by
  fun_induction scanName path pathname namelen with
  | case1 pathname namelen hc ih =>
    obtain ⟨hlt, hle⟩ := ih h
    exact ⟨by omega, hle⟩
  | case2 pathname namelen hc =>
    have hlt := getFsByte_lt h
    exact ⟨Nat.lt_succ_self _, hlt⟩

theorem components_ne_nil : components path ≠ [] := by
  cases path with
  | nil => exact List.cons_ne_nil _ _
  | cons c path =>
    unfold components
    split
    next => exact List.cons_ne_nil _ _
    next =>
      split
      next => exact List.cons_ne_nil _ _
      next => split <;> exact List.cons_ne_nil _ _

/-- Bytes that are no slash and no end belong to the first component. -/
theorem components_piece (h : ∀ c ∈ piece, c ≠ 0 ∧ c ≠ 47) :
    components (piece ++ rest) = (piece ++ (components rest).headD []) :: (components rest).tail := by
  induction piece with
  | nil =>
    rw [List.nil_append, List.nil_append]
    cases hrest : components rest with
    | nil => exact absurd hrest components_ne_nil
    | cons name names => rfl
  | cons c piece ih =>
    obtain ⟨hzero, hslash⟩ := h c List.mem_cons_self
    rw [List.cons_append, components, if_neg hzero, if_neg hslash, ih fun b hb => h b (List.mem_cons_of_mem c hb)]
    rfl

theorem components_end (h : getFsByte path i = 0) : components (path.drop i) = [[]] := by
  cases hdrop : path.drop i with
  | nil => rfl
  | cons c cs =>
    have hc : getFsByte path i = c := by
      unfold getFsByte
      rw [List.getD_eq_getElem?_getD, ← List.head?_drop, hdrop]
      rfl
    rw [components, if_pos (hc.symm.trans h)]

theorem components_slash (h : getFsByte path i = 47) : components (path.drop i) = [] :: components (path.drop (i + 1)) := by
  have hlt : i < path.length := getFsByte_lt (by rw [h]; decide)
  have hc : path[i] = 47 := by
    rw [← h, getFsByte, List.getD_eq_getElem _ _ hlt]
  rw [List.drop_eq_getElem_cons hlt, hc, components, if_neg (by decide), if_pos rfl]

/-- The bytes from place `i` to place `j` belong to one component. -/
def Plain (path : List UInt8) (i j : Nat) : Prop := i ≤ j ∧ j ≤ path.length ∧ ∀ c ∈ part path i (j - i), c ≠ 0 ∧ c ≠ 47

theorem Plain.start (h : i ≤ path.length) : Plain path i i := by
  refine ⟨Nat.le_refl i, h, fun c hc => ?_⟩
  rw [Nat.sub_self] at hc
  cases hc

theorem Plain.split {j : Nat} (h : Plain path i j) :
    components (path.drop i) = (part path i (j - i) ++ (components (path.drop j)).headD []) :: (components (path.drop j)).tail := by
  obtain ⟨hle, _, hplain⟩ := h
  rw [← components_piece hplain]
  congr 1
  have hdrop : path.drop j = (path.drop i).drop (j - i) := by
    rw [List.drop_drop]
    congr 1
    omega
  rw [hdrop]
  exact (List.take_append_drop _ _).symm

theorem Plain.next {j : Nat} (h : Plain path i j) (hzero : getFsByte path j ≠ 0) (hslash : getFsByte path j ≠ 47) : Plain path i (j + 1) := by
  obtain ⟨hle, _, hplain⟩ := h
  have hlt := getFsByte_lt hzero
  have hpart : part path i (j + 1 - i) = part path i (j - i) ++ [getFsByte path j] := by
    unfold part getFsByte
    have hlen : j - i < (path.drop i).length := by
      rw [List.length_drop]
      omega
    have hget : (path.drop i)[j - i] = path[j] := by
      rw [List.getElem_drop]
      congr 1
      omega
    have hsucc : j + 1 - i = (j - i) + 1 := by omega
    rw [hsucc, List.take_succ_eq_append_getElem hlen, hget, List.getD_eq_getElem _ _ hlt]
  refine ⟨by omega, hlt, fun c hc => ?_⟩
  rw [hpart] at hc
  rcases List.mem_append.mp hc with hc | hc
  · exact hplain c hc
  · cases List.mem_singleton.mp hc
    exact ⟨hzero, hslash⟩

/-- The loop of `get_dir` stops behind the first component: at the end of the path, or before the other components. -/
theorem scanName_components (h : Plain path i pathname) (hlen : pathname - i = namelen) :
    ((scanName path pathname namelen).2.2 = 0 ∧ components (path.drop i) = [part path i (scanName path pathname namelen).1]) ∨
    ((scanName path pathname namelen).2.2 ≠ 0 ∧ components (path.drop i) =
      part path i (scanName path pathname namelen).1 :: components (path.drop (scanName path pathname namelen).2.1)) := by
  fun_induction scanName path pathname namelen with
  | case1 pathname namelen hc ih =>
    have hle := h.1
    exact ih (h.next hc.1 hc.2) (by omega)
  | case2 pathname namelen hc =>
    have hsplit := h.split
    rw [hlen] at hsplit
    by_cases hzero : getFsByte path pathname = 0
    · rw [components_end hzero] at hsplit
      refine .inl ⟨hzero, ?_⟩
      rw [hsplit]
      exact congrArg (fun x => [x]) (List.append_nil _)
    · have hslash : getFsByte path pathname = 47 := by
        by_contra hne
        exact hc ⟨hzero, hne⟩
      rw [components_slash hslash] at hsplit
      refine .inr ⟨hzero, ?_⟩
      rw [hsplit]
      exact congrArg (fun x => x :: components (path.drop (pathname + 1))) (List.append_nil _)

/-- The loop of `dir_namei` ends at the last component, with the place behind the zero byte. -/
theorem scanBase_components (h : Plain path basename pathname) :
    (scanBase path pathname basename).2 ≤ path.length ∧ (scanBase path pathname basename).1 ≤ path.length + 1 ∧
    (scanBase path pathname basename).2 < (scanBase path pathname basename).1 ∧
    (components (path.drop basename)).getLast components_ne_nil = part path (scanBase path pathname basename).2
      ((scanBase path pathname basename).1 - (scanBase path pathname basename).2 - 1) := by
  fun_induction scanBase path pathname basename with
  | case1 pathname basename hc ih =>
    by_cases hslash : getFsByte path pathname = 47
    · have hlt := getFsByte_lt hc
      have hsplit := h.split
      rw [components_slash hslash] at hsplit
      rw [dif_pos hslash] at ih
      rw [if_pos hslash]
      have hlast : (components (path.drop basename)).getLast components_ne_nil =
          (components (path.drop (pathname + 1))).getLast components_ne_nil := by
        simp only [hsplit, List.tail_cons]
        exact List.getLast_cons _
      rw [hlast]
      exact ih (.start hlt)
    · rw [dif_neg hslash] at ih
      rw [if_neg hslash]
      exact ih (h.next hc hslash)
  | case2 pathname basename hc =>
    have hzero : getFsByte path pathname = 0 := not_not.mp hc
    have hsplit := h.split
    obtain ⟨hle, hlen, _⟩ := h
    rw [components_end hzero] at hsplit
    refine ⟨by omega, by omega, by omega, ?_⟩
    have hcount : pathname + 1 - basename - 1 = pathname - basename := by omega
    simp only [hsplit, hcount]
    exact List.append_nil _

end Scan

/-- The loop `while (1)` of `get_dir`, with `pathname` at a place of the path. -/
def getDirFrom (t : Nat) (path : List UInt8) (k pathname : Nat) : Call (Option Nat) := do
  let i ← inode k
  let exec ← permission t k mayExec
  if i.isDir = false ∨ exec = 0 then
    iput k
    return none
  else if _hend : (scanName path pathname 0).2.2 = 0 then return some k
  else
    let de ← findEntry k (part path pathname (scanName path pathname 0).1)
    match de with
    | none =>
      iput k
      return none
    | some e =>
      let inr ← entryInode k e
      iput k
      let j ← iget i.dev inr
      getDirFrom t path j (scanName path pathname 0).2.1
termination_by path.length - pathname
decreasing_by
  have hnext := scanName_next _hend
  omega

def getDir (t : Nat) (path : List UInt8) : Call (Option Nat) := do
  let s ← get
  match (s.task t).root, (s.task t).pwd with
  | some root, some pwd =>
    if (s.slot root).count = 0 ∨ (s.slot pwd).count = 0 then failure
    else if getFsByte path 0 = 47 then
      edit root fun i => { i with count := i.count + 1 }
      getDirFrom t path root 1
    else if getFsByte path 0 ≠ 0 then
      edit pwd fun i => { i with count := i.count + 1 }
      getDirFrom t path pwd 0
    else return none
  | _, _ => failure

/-- `dir_namei`: the slot of the directory, `namelen`, and the place where `name` points to. -/
def dirNamei (t : Nat) (path : List UInt8) : Call (Option (Nat × Nat × Nat)) := do
  let dir ← getDir t path
  match dir with
  | none => return none
  | some dir => return some (dir, (scanBase path 0 0).1 - (scanBase path 0 0).2 - 1, (scanBase path 0 0).2)

def namei (t : Nat) (path : List UInt8) : Call (Option Nat) := do
  let found ← dirNamei t path
  match found with
  | none => return none
  | some (dir, namelen, basename) =>
    if namelen = 0 then return some dir
    else
      let de ← findEntry dir (part path basename namelen)
      match de with
      | none =>
        iput dir
        return none
      | some e =>
        let k ← enter dir e
        edit k fun i => { i with dirt := true }
        return some k

/-- The last component of a path. -/
def lastName (path : List UInt8) : List UInt8 := (components path).getLast components_ne_nil

section Programs

variable {t k i : Nat} {path : List UInt8}

/-- The loop over the bytes is the loop over the components. -/
theorem getDirFrom_components (h : i ≤ path.length) : Vfs.getDirFrom t k (components (path.drop i)) =
    (Option.map fun d => (d, lastName (path.drop i))) <$> getDirFrom t path k i := by
  induction hn : path.length - i using Nat.strong_induction_on generalizing i k with
  | _ n ih =>
    rw [getDirFrom]
    unfold lastName
    rcases scanName_components (.start h) (Nat.sub_self i) with ⟨hzero, hcomp⟩ | ⟨hslash, hcomp⟩
    · simp only [hcomp, hzero, dite_true]
      rw [Vfs.getDirFrom, map_bind]
      refine bind_congr fun ip => ?_
      rw [map_bind]
      refine bind_congr fun exec => ?_
      split
      next =>
        rw [map_bind]
        rfl
      next => rfl
    · obtain ⟨hlt, hle⟩ := scanName_next hslash
      have hrec := @ih (path.length - (scanName path i 0).2.1) (by omega)
      unfold lastName at hrec
      have hne : components (path.drop (scanName path i 0).2.1) ≠ [] := components_ne_nil
      simp only [hcomp, hslash, dite_false]
      rw [Vfs.getDirFrom, map_bind]
      refine bind_congr fun ip => ?_
      rw [map_bind]
      refine bind_congr fun exec => ?_
      split
      next =>
        rw [map_bind]
        rfl
      next =>
        rw [map_bind]
        refine bind_congr fun de => ?_
        cases de with
        | none =>
          dsimp only
          rw [map_bind]
          rfl
        | some e =>
          dsimp only
          rw [map_bind]
          refine bind_congr fun inr => ?_
          rw [map_bind]
          refine bind_congr fun _ => ?_
          rw [map_bind]
          refine bind_congr fun j => ?_
          rw [List.getLast_cons hne]
          exact hrec hle rfl

theorem getDir_components : Vfs.dirNamei t path = (Option.map fun d => (d, lastName path)) <$> getDir t path := by
  unfold Vfs.dirNamei getDir
  rw [map_bind]
  refine bind_congr fun s => ?_
  cases (s.task t).root with
  | none => rfl
  | some root =>
    cases (s.task t).pwd with
    | none => rfl
    | some pwd =>
      dsimp only
      split
      next => rfl
      next =>
        cases path with
        | nil => rfl
        | cons c cs =>
          have hbyte : getFsByte (c :: cs) 0 = c := rfl
          rw [hbyte]
          dsimp only
          by_cases hzero : c = 0
          · subst hzero
            rfl
          · rw [if_neg hzero]
            by_cases hslash : c = 47
            · subst hslash
              rw [if_pos rfl, if_pos rfl, map_bind]
              refine bind_congr fun _ => ?_
              have hcomp := @getDirFrom_components t root 1 (47 :: cs) (Nat.succ_le_succ (Nat.zero_le _))
              have hlast : lastName (47 :: cs) = lastName cs := List.getLast_cons components_ne_nil
              rw [hlast]
              exact hcomp
            · rw [if_neg hslash, if_neg hslash, if_pos hzero, map_bind]
              refine bind_congr fun _ => ?_
              exact @getDirFrom_components t pwd 0 (c :: cs) (Nat.zero_le _)

/-- The second scan of the path finds where the first one stopped. -/
theorem scanBase_last : part path (scanBase path 0 0).2 ((scanBase path 0 0).1 - (scanBase path 0 0).2 - 1) = lastName path ∧
    (scanBase path 0 0).1 - (scanBase path 0 0).2 - 1 = (lastName path).length := by
  obtain ⟨hbase, hend, hlt, hlast⟩ := @scanBase_components path 0 0 (.start (Nat.zero_le _))
  have hname : lastName path = part path (scanBase path 0 0).2 ((scanBase path 0 0).1 - (scanBase path 0 0).2 - 1) := hlast
  refine ⟨hname.symm, ?_⟩
  rw [hname, part, List.length_take, List.length_drop]
  omega

theorem dirNamei_components : Vfs.dirNamei t path = (Option.map fun d => (d.1, part path d.2.2 d.2.1)) <$> dirNamei t path := by
  rw [getDir_components, dirNamei, map_bind, map_eq_pure_bind]
  refine bind_congr fun dir => ?_
  cases dir with
  | none => rfl
  | some dir =>
    rw [← scanBase_last.1]
    rfl

theorem namei_components : Vfs.namei t path = namei t path := by
  rw [Vfs.namei, getDir_components, namei, dirNamei, map_eq_pure_bind, bind_assoc, bind_assoc]
  refine bind_congr fun dir => ?_
  cases dir with
  | none => rfl
  | some dir =>
    rw [pure_bind]
    dsimp only [Option.map_some]
    rw [pure_bind]
    dsimp only
    obtain ⟨hname, hlen⟩ := @scanBase_last path
    rw [hname, hlen]
    by_cases hnil : lastName path = []
    · rw [if_pos hnil, if_pos (List.length_eq_zero_iff.mpr hnil)]
    · rw [if_neg hnil]
      exact (if_neg fun hzero => hnil (List.length_eq_zero_iff.mp hzero)).symm

end Programs

end RheeKernel.Vfs.PathBytes
