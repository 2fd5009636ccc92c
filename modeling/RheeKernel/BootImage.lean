import Mathlib.Data.List.Infix
import Mathlib.Tactic.Common
import RheeKernel.ByteMemory

namespace RheeKernel

open ByteMemory

/-- What `build` has written to its output when it ends, and the text that it dies with. -/
structure BuildEnd where
  out : List UInt8
  error : Option String
deriving DecidableEq

namespace Build

def minixHeader : Nat := 32
def bufSize : Nat := 1024
def sectorSize : Nat := 512

/-- `read` on a regular file: up to `n` bytes from `pos` on get to the front of the buffer. -/
def readFile (file : List UInt8) (pos n : Nat) (buf : Nat → UInt8) : (Nat → UInt8) × Nat :=
  let c := min n (file.length - pos)
  (patch (block (fun k => file.getD (pos + k) 0) 0 c) buf, c)

/-- `write` to an output that takes `room` bytes in all. -/
def writeOut (room : Nat) (out : List UInt8) (buf : Nat → UInt8) (n : Nat) : List UInt8 × Nat :=
  let c := min n (room - out.length)
  (out ++ (List.range c).map buf, c)

/-- The words of the header that are looked at, in this order, with what they have to be. -/
def headerChecks : List (Nat × Nat × String) :=
  [(0, 0x04100301, "Non-Minix header of 'boot'"),
    (1, minixHeader, "Non-Minix header of 'boot'"),
    (3, 0, "Illegal data segment in 'boot'"),
    (4, 0, "Illegal bss in 'boot'"),
    (5, 0, "Non-Minix header of 'boot'"),
    (7, 0, "Illegal symbol table in 'boot'")]

def headerError (buf : Nat → UInt8) : Option String :=
  (headerChecks.find? fun check => getLong buf (4 * check.1) != check.2.1).map fun check => check.2.2

/-- The loop over the file `system`, with `fuel` turns at most. -/
def copySystem (room : Nat) (system : List UInt8) : Nat → Nat → (Nat → UInt8) → List UInt8 → BuildEnd
  | 0, _, _, out => ⟨out, none⟩
  | fuel + 1, pos, buf, out =>
    let (buf, c) := readFile system pos bufSize buf
    if c = 0 then ⟨out, none⟩
    else
      let (out, written) := writeOut room out buf c
      if written ≠ c then ⟨out, some "Write call failed"⟩ else copySystem room system fuel (pos + c) buf out

/-- `main` of `build`; a file that cannot be opened is not there. -/
def main (room argc : Nat) (boot system : Option (List UInt8)) : BuildEnd :=
  if argc ≠ 3 then ⟨[], some "Usage: build boot system [> image]"⟩
  else
    let buf : Nat → UInt8 := fun _ => 0
    match boot with
    | none => ⟨[], some "Unable to open 'boot'"⟩
    | some boot =>
      let (buf, c) := readFile boot 0 minixHeader buf
      if c ≠ minixHeader then ⟨[], some "Unable to read header of 'boot'"⟩
      else
        match headerError buf with
        | some text => ⟨[], some text⟩
        | none =>
          let (buf, i) := readFile boot minixHeader bufSize buf
          if 510 < i then ⟨[], some "Boot block may not exceed 510 bytes"⟩
          else
            let buf := Function.update (Function.update buf 510 0x55) 511 0xAA
            let (out, i) := writeOut room [] buf sectorSize
            if i ≠ sectorSize then ⟨out, some "Write call failed"⟩
            else
              match system with
              | none => ⟨out, some "Unable to open 'system'"⟩
              | some system => copySystem room system (system.length + 1) 0 buf out

/-- The byte number `j` of the boot sector: the code behind the header, then what the header has left in the buffer, then zeros, and the
mark at the end. -/
def sectorByte (boot : List UInt8) (j : Nat) : UInt8 :=
  if j = 510 then 0x55 else if j = 511 then 0xAA
  else if j + minixHeader < boot.length then boot.getD (j + minixHeader) 0
  else if j < minixHeader then boot.getD j 0
  else 0

def bootSector (boot : List UInt8) : List UInt8 := (List.range sectorSize).map (sectorByte boot)

/-- The file `boot` has a header that is read whole and is in order, and code that leaves room for the mark. -/
structure GoodBoot (boot : List UInt8) : Prop where
  header : minixHeader ≤ boot.length
  words : ∀ check ∈ headerChecks, getLong (fun k => boot.getD k 0) (4 * check.1) = check.2.1
  size : boot.length ≤ minixHeader + 510

variable {room pos n fuel : Nat} {file boot system out : List UInt8} {buf : Nat → UInt8}

theorem bootSector_length : (bootSector boot).length = sectorSize := by
  rw [bootSector, List.length_map, List.length_range]

theorem readFile_count : (readFile file pos n buf).2 = min n (file.length - pos) := rfl

theorem readFile_byte (k : Nat) : (readFile file pos n buf).1 k = if k < min n (file.length - pos) then file.getD (pos + k) 0 else buf k := by
  unfold readFile
  dsimp only
  split
  next inside =>
    apply patch_some
    have place : block (fun k => file.getD (pos + k) 0) 0 (min n (file.length - pos)) (0 + k) = some (file.getD (pos + k) 0) := block_inside inside
    rwa [Nat.zero_add] at place
  next outside =>
    apply patch_none
    unfold block
    rw [if_neg (by omega)]

/-- Up to the end of the room the bytes of the buffer are written. -/
theorem writeOut_all (h : out.length + n ≤ room) : writeOut room out buf n = (out ++ (List.range n).map buf, n) := by
  have all : min n (room - out.length) = n := by omega
  unfold writeOut
  rw [all]

theorem writeOut_short (h : out.length ≤ room) (h' : room < out.length + n) :
    (writeOut room out buf n).2 = room - out.length ∧
      (writeOut room out buf n).1 = out ++ (List.range (room - out.length)).map buf := by
  have all : min n (room - out.length) = room - out.length := by omega
  unfold writeOut
  rw [all]
  exact ⟨rfl, rfl⟩

theorem range_map_take (buf : Nat → UInt8) {m n : Nat} (h : m ≤ n) : (List.range m).map buf = ((List.range n).map buf).take m := by
  rw [← List.map_take, List.take_range, Nat.min_eq_left h]

/-- What the buffer holds of a part of the file is that part. -/
theorem map_part (h : ∀ k < n, buf k = file.getD (pos + k) 0) (inside : pos + n ≤ file.length) :
    (List.range n).map buf = (file.drop pos).take n := by
  apply List.ext_getElem
  · simp only [List.length_map, List.length_range, List.length_take, List.length_drop]
    omega
  · intro k hk hk'
    rw [List.length_map, List.length_range] at hk
    rw [List.getElem_map, List.getElem_range, h k hk, List.getElem_take, List.getElem_drop]
    exact (List.getElem_eq_getD 0).symm

/-- The loop writes the rest of the file, as far as there is room. -/
theorem copySystem_spec (inside : pos ≤ system.length) (enough : system.length - pos < fuel) (room_le : out.length ≤ room) :
    (copySystem room system fuel pos buf out).out = out ++ (system.drop pos).take (room - out.length) ∧
      ((copySystem room system fuel pos buf out).error = none ↔ out.length + (system.length - pos) ≤ room) := by
  induction fuel generalizing pos buf out with
  | zero => omega
  | succ fuel ih =>
    have part : (List.range (readFile system pos bufSize buf).2).map (readFile system pos bufSize buf).1 =
        (system.drop pos).take (readFile system pos bufSize buf).2 := by
      apply map_part
      · intro k hk
        exact (readFile_byte k).trans (if_pos hk)
      · rw [readFile_count]
        omega
    have count := @readFile_count pos bufSize system buf
    unfold copySystem
    dsimp only
    generalize (readFile system pos bufSize buf).1 = buf' at part ⊢
    generalize (readFile system pos bufSize buf).2 = c at part count ⊢
    unfold bufSize at count
    by_cases rest : c = 0
    · have last : pos = system.length := by omega
      rw [if_pos rest, last, List.drop_length, List.take_nil, List.append_nil]
      refine ⟨rfl, iff_of_true rfl ?_⟩
      omega
    rw [if_neg rest]
    by_cases fits : out.length + c ≤ room
    · have written := @writeOut_all _ _ _ buf' fits
      have grown : (out ++ (system.drop pos).take c).length = out.length + c := by
        rw [List.length_append, List.length_take, List.length_drop]
        omega
      obtain ⟨whole, ends⟩ := @ih (pos + c) (out ++ (system.drop pos).take c) buf' (by omega) (by omega) (by omega)
      rw [written, part]
      dsimp only
      rw [if_neg (not_not_intro rfl), whole, ends, grown]
      constructor
      · have split : room - out.length = c + (room - (out.length + c)) := by omega
        rw [split, List.take_add, List.append_assoc, List.drop_drop]
      · omega
    · obtain ⟨count, bytes⟩ := @writeOut_short _ _ _ buf' room_le (Nat.lt_of_not_le fits)
      have short : (writeOut room out buf' c).2 ≠ c := by omega
      rw [if_pos short, bytes]
      constructor
      · have less : room - out.length ≤ c := by omega
        rw [range_map_take buf' less, part, List.take_take, Nat.min_eq_left less]
      · refine iff_of_false (fun h => nomatch h) ?_
        omega

/-- The header is in order just when none of the checks finds fault. -/
theorem headerError_none : headerError buf = none ↔ ∀ check ∈ headerChecks, getLong buf (4 * check.1) = check.2.1 := by
  unfold headerError
  rw [Option.map_eq_none_iff, List.find?_eq_none]
  simp only [bne_iff_ne, ne_eq, not_not]

/-- The header in the buffer has the words that it has in the file. -/
theorem header_words (whole : minixHeader ≤ boot.length) :
    headerError (readFile boot 0 minixHeader fun _ => 0).1 = none ↔
      ∀ check ∈ headerChecks, getLong (fun k => boot.getD k 0) (4 * check.1) = check.2.1 := by
  have same : ∀ check ∈ headerChecks, getLong (readFile boot 0 minixHeader fun _ => 0).1 (4 * check.1) =
      getLong (fun k => boot.getD k 0) (4 * check.1) := by
    intro check member
    have low : check.1 < 8 := by
      revert check
      decide
    apply getLong_congr
    intro x _ hx
    unfold minixHeader at whole
    rw [readFile_byte, if_pos (by unfold minixHeader; omega), Nat.zero_add]
  rw [headerError_none]
  constructor
  · intro h check member
    rw [← same check member]
    exact h check member
  · intro h check member
    rw [same check member]
    exact h check member

/-- Once the code has been read behind the header and the mark has been set the buffer begins with the boot sector. -/
theorem sector_read (size : boot.length ≤ minixHeader + 510) {k : Nat} (hk : k < sectorSize) :
    Function.update (Function.update
      (readFile boot minixHeader bufSize (readFile boot 0 minixHeader fun _ => 0).1).1 510 0x55) 511 0xAA k = sectorByte boot k := by
  unfold sectorSize at hk
  unfold minixHeader at size
  unfold sectorByte
  by_cases mark : k = 511
  · rw [mark, Function.update_self]
    rfl
  by_cases mark' : k = 510
  · rw [mark', Function.update_of_ne (by omega), Function.update_self, if_pos rfl]
  rw [Function.update_of_ne mark, Function.update_of_ne mark', if_neg mark', if_neg mark, readFile_byte, readFile_byte]
  unfold minixHeader bufSize
  by_cases code : k + 32 < boot.length
  · rw [if_pos (by omega), if_pos code, Nat.add_comm]
  · rw [if_neg (by omega), if_neg code, Nat.zero_add]
    by_cases header : k < 32
    · rw [if_pos header]
      by_cases have_it : k < boot.length
      · rw [if_pos (by omega)]
      · rw [if_neg (by omega), List.getD_eq_getElem?_getD, List.getElem?_eq_none (by omega), Option.getD_none]
    · rw [if_neg header, if_neg (by omega)]

/-- Behind a boot sector that is in order. -/
theorem main_good (good : GoodBoot boot) (system : Option (List UInt8)) :
    main room 3 (some boot) system =
      if room < sectorSize then ⟨(bootSector boot).take room, some "Write call failed"⟩
      else system.elim ⟨bootSector boot, some "Unable to open 'system'"⟩ fun system =>
        copySystem room system (system.length + 1) 0 (Function.update (Function.update
          (readFile boot minixHeader bufSize (readFile boot 0 minixHeader fun _ => 0).1).1 510 0x55) 511 0xAA) (bootSector boot) := by
  have whole := good.header
  have size := good.size
  have words := (header_words whole).mpr good.words
  have code := @readFile_count minixHeader bufSize boot ((readFile boot 0 minixHeader fun _ => 0).1)
  have sector : (List.range sectorSize).map (Function.update (Function.update
      (readFile boot minixHeader bufSize (readFile boot 0 minixHeader fun _ => 0).1).1 510 0x55) 511 0xAA) = bootSector boot :=
    List.map_congr_left fun k hk => sector_read size (List.mem_range.mp hk)
  unfold main
  rw [if_neg (not_not_intro rfl)]
  dsimp only
  rw [words]
  dsimp only
  rw [if_neg (by rw [readFile_count]; omega), if_neg (by rw [code]; omega)]
  generalize Function.update (Function.update
    (readFile boot minixHeader bufSize (readFile boot 0 minixHeader fun _ => 0).1).1 510 0x55) 511 0xAA = buf at sector ⊢
  by_cases small : room < sectorSize
  · obtain ⟨count, bytes⟩ := @writeOut_short room sectorSize ([]) buf (Nat.zero_le _)
      (by rw [List.length_nil, Nat.zero_add]; exact small)
    rw [List.length_nil, Nat.sub_zero] at count bytes
    rw [if_pos small, if_pos (by omega), bytes, range_map_take buf (Nat.le_of_lt small), sector, List.nil_append]
  · have written := @writeOut_all room sectorSize ([]) buf
      (by rw [List.length_nil, Nat.zero_add]; exact Nat.le_of_not_lt small)
    rw [if_neg small, written, sector, List.nil_append]
    dsimp only
    rw [if_neg (not_not_intro rfl)]
    cases system with
    | none => rfl
    | some system => rfl

/-- With a file `boot` that is not in order nothing is written. -/
theorem main_bad (bad : ¬ GoodBoot boot) (system : Option (List UInt8)) :
    (main room 3 (some boot) system).out = [] ∧ (main room 3 (some boot) system).error ≠ none := by
  unfold main
  rw [if_neg (not_not_intro rfl)]
  dsimp only
  by_cases whole : minixHeader ≤ boot.length
  · rw [if_neg (by rw [readFile_count]; omega)]
    cases header : headerError (readFile boot 0 minixHeader fun _ => 0).1 with
    | some text => exact ⟨rfl, fun h => nomatch h⟩
    | none =>
      have words := (header_words whole).mp header
      have big : 510 < (readFile boot minixHeader bufSize (readFile boot 0 minixHeader fun _ => 0).1).2 := by
        by_contra small
        rw [readFile_count] at small
        unfold bufSize at small
        exact bad ⟨whole, words, by omega⟩
      dsimp only
      rw [if_pos big]
      exact ⟨rfl, fun h => nomatch h⟩
  · rw [if_pos (by rw [readFile_count]; omega)]
    exact ⟨rfl, fun h => nomatch h⟩

/-- What `build` writes when the boot sector is in order and there is a file `system`: the image, up to the end of the room. -/
theorem main_image (good : GoodBoot boot) :
    (main room 3 (some boot) (some system)).out = (bootSector boot ++ system).take room ∧
      ((main room 3 (some boot) (some system)).error = none ↔ sectorSize + system.length ≤ room) := by
  have length := @bootSector_length boot
  rw [main_good good]
  by_cases small : room < sectorSize
  · rw [if_pos small, List.take_append_of_le_length (by omega)]
    refine ⟨rfl, iff_of_false (fun h => nomatch h) ?_⟩
    omega
  · rw [if_neg small, Option.elim_some]
    obtain ⟨bytes, ends⟩ := @copySystem_spec room 0 (system.length + 1) system (bootSector boot) (Function.update (Function.update
      (readFile boot minixHeader bufSize (readFile boot 0 minixHeader fun _ => 0).1).1 510 0x55) 511 0xAA) (Nat.zero_le _) (by omega)
      (by omega)
    rw [bytes, ends, List.drop_zero, List.take_append, List.take_of_length_le (by omega : (bootSector boot).length ≤ room), length]
    exact ⟨rfl, Iff.rfl⟩

/-- When `build` does not die it has written the whole image. -/
theorem main_whole {argc : Nat} (success : (main room argc (some boot) (some system)).error = none) :
    (main room argc (some boot) (some system)).out = bootSector boot ++ system := by
  have three : argc = 3 := by
    by_contra other
    have usage : main room argc (some boot) (some system) = ⟨[], some "Usage: build boot system [> image]"⟩ := if_pos other
    rw [usage] at success
    exact nomatch success
  subst three
  have good : GoodBoot boot := by
    by_contra bad
    exact (@main_bad room _ bad (some system)).2 success
  obtain ⟨bytes, ends⟩ := @main_image room _ system good
  have fits := ends.mp success
  have length := @bootSector_length boot
  rw [bytes, List.take_of_length_le]
  rw [List.length_append]
  omega

end Build

/-- `build` succeeds just when it is given two files that can be opened, the first has a header in order and at most 510 bytes of code behind
it, and there is room for everything; then it has written the boot sector with its mark and the whole file `system` behind that. What it
has written when it dies is the beginning of that, and nothing if the boot sector is not in order. -/
theorem build_image (room argc : Nat) (boot system : Option (List UInt8)) :
    ((Build.main room argc boot system).error = none ↔
      argc = 3 ∧ ∃ b s, boot = some b ∧ system = some s ∧ Build.GoodBoot b ∧ Build.sectorSize + s.length ≤ room) ∧
      ((Build.main room argc boot system).error = none → ∀ b s, boot = some b → system = some s →
        (Build.main room argc boot system).out = Build.bootSector b ++ s) ∧
      ((Build.main room argc boot system).out ≠ [] → ∃ b, boot = some b ∧ Build.GoodBoot b ∧
        (Build.main room argc boot system).out <+: Build.bootSector b ++ system.getD []) := by
  by_cases three : argc = 3
  swap
  · have usage : Build.main room argc boot system = ⟨[], some "Usage: build boot system [> image]"⟩ := if_pos three
    rw [usage]
    exact ⟨iff_of_false (fun h => nomatch h) fun h => three h.1, (fun h => nomatch h), fun h => absurd rfl h⟩
  subst three
  cases boot with
  | none => exact ⟨iff_of_false (fun h => nomatch h) (fun ⟨_, _, _, h, _⟩ => nomatch h), (fun h => nomatch h), fun h => absurd rfl h⟩
  | some boot =>
    by_cases good : Build.GoodBoot boot
    swap
    · obtain ⟨nothing, error⟩ := @Build.main_bad room _ good system
      refine ⟨iff_of_false error ?_, fun h => absurd h error, fun h => absurd nothing h⟩
      rintro ⟨-, b, s, hb, -, good', -⟩
      cases hb
      exact good good'
    cases system with
    | none =>
      have front : Build.bootSector boot <+: Build.bootSector boot ++ Option.getD none [] := List.prefix_append _ _
      rw [Build.main_good good]
      by_cases small : room < Build.sectorSize
      · rw [if_pos small]
        refine ⟨iff_of_false (fun h => nomatch h) (fun ⟨_, _, _, _, h, _⟩ => nomatch h), (fun h => nomatch h), fun _ => ?_⟩
        exact ⟨boot, rfl, good, (List.take_prefix _ _).trans front⟩
      · rw [if_neg small, Option.elim_none]
        refine ⟨iff_of_false (fun h => nomatch h) (fun ⟨_, _, _, _, h, _⟩ => nomatch h), (fun h => nomatch h), fun _ => ?_⟩
        refine ⟨boot, rfl, good, ?_⟩
        dsimp only
        exact front
    | some system =>
      obtain ⟨bytes, ends⟩ := @Build.main_image room _ system good
      refine ⟨?_, ?_, fun _ => ⟨boot, rfl, good, ?_⟩⟩
      · rw [ends]
        constructor
        · intro fits
          exact ⟨rfl, boot, system, rfl, rfl, good, fits⟩
        · rintro ⟨-, b, s, hb, hs, -, fits⟩
          cases hb
          cases hs
          exact fits
      · intro success b s hb hs
        cases hb
        cases hs
        exact Build.main_whole success
      · rw [bytes]
        exact List.take_prefix _ _

end RheeKernel
