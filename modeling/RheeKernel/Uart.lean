import Mathlib.Data.BitVec
import Mathlib.Data.List.Basic

/-- The part of an 8250 that sends and receives one character after the other. `thr` is the character that waits to be sent, `thre` says
that the transmitter has become free and that this has not been noticed, `rbr` is the character that has come in. `sent` lists what has been
sent, `lost` what was in `thr` when another character was written to it. -/
structure Uart where
  ier : BitVec 8
  thr : Option (BitVec 8)
  thre : Bool
  rbr : Option (BitVec 8)
  line : Bool
  modem : Bool
  sent : List (BitVec 8)
  lost : List (BitVec 8)

namespace Uart

/-- The interrupt identification register: the interrupt of the highest priority that is pending and enabled. -/
def ident (u : Uart) : BitVec 8 :=
  if u.ier.getLsbD 2 ∧ u.line then 6
  else if u.ier.getLsbD 0 ∧ u.rbr.isSome then 4
  else if u.ier.getLsbD 1 ∧ u.thre then 2
  else if u.ier.getLsbD 3 ∧ u.modem then 0
  else 1

/-- A read of that register takes notice of a free transmitter. -/
def readIdent (u : Uart) : BitVec 8 × Uart := (u.ident, if u.ident = 2 then { u with thre := false } else u)

def readModem (u : Uart) : Uart := { u with modem := false }

def readLine (u : Uart) : Uart := { u with line := false }

def readData (u : Uart) : BitVec 8 × Uart := (u.rbr.getD 0, { u with rbr := none })

/-- A character is written to the transmitter. -/
def out (u : Uart) (c : BitVec 8) : Uart := { u with thr := some c, thre := false, lost := u.lost ++ u.thr.toList }

/-- The enable register is written; an interrupt for a free transmitter that is enabled now is pending at once. -/
def setIer (u : Uart) (v : BitVec 8) : Uart :=
  { u with ier := v, thre := u.thre || v.getLsbD 1 && !u.ier.getLsbD 1 && u.thr.isNone }

/-- The character that waits is sent. -/
def shift (u : Uart) : Option Uart := u.thr.map fun c => { u with thr := none, thre := true, sent := u.sent ++ [c] }

/-- A character comes in; the one before it is gone when nobody has read it. -/
def arrive (u : Uart) (c : BitVec 8) : Uart := { u with rbr := some c, line := u.line || u.rbr.isSome }

/-- What has been written to the transmitter. -/
def written (u : Uart) : List (BitVec 8) := u.sent ++ u.thr.toList

/-- A transmitter whose interrupt is enabled is sending or asks for a character, and it asks for one only when it is free. No character has
been written to it while another one was waiting. -/
structure Sound (u : Uart) : Prop where
  asks : u.ier.getLsbD 1 = true → u.thr.isSome = true ∨ u.thre = true
  free : u.thre = true → u.thr = none
  kept : u.lost = []

variable {u u' : Uart} {c v : BitVec 8}

theorem ident_two : u.ident = 2 ↔ ¬ (u.ier.getLsbD 2 = true ∧ u.line = true) ∧ ¬ (u.ier.getLsbD 0 = true ∧ u.rbr.isSome = true) ∧
    u.ier.getLsbD 1 = true ∧ u.thre = true := by
  unfold ident
  by_cases line : u.ier.getLsbD 2 = true ∧ u.line = true
  · rw [if_pos line]
    exact iff_of_false (by decide) fun h => h.1 line
  rw [if_neg line]
  by_cases data : u.ier.getLsbD 0 = true ∧ u.rbr.isSome = true
  · rw [if_pos data]
    exact iff_of_false (by decide) fun h => h.2.1 data
  rw [if_neg data]
  by_cases free : u.ier.getLsbD 1 = true ∧ u.thre = true
  · rw [if_pos free]
    exact iff_of_true rfl ⟨line, data, free⟩
  rw [if_neg free]
  refine iff_of_false ?_ fun h => free h.2.2
  split
  next => decide
  next => decide

/-- A character is there when the register says so. -/
theorem ident_four (h : u.ident = 4) : u.rbr.isSome = true := by
  unfold ident at h
  split at h
  next => exact absurd h (by decide)
  next =>
    split at h
    next data => exact data.2
    next =>
      split at h
      next => exact absurd h (by decide)
      next =>
        split at h
        next => exact absurd h (by decide)
        next => exact absurd h (by decide)

theorem ident_cases : u.ident = 6 ∨ u.ident = 4 ∨ u.ident = 2 ∨ u.ident = 0 ∨ u.ident = 1 := by
  unfold ident
  split
  next => exact .inl rfl
  next =>
    split
    next => exact .inr (.inl rfl)
    next =>
      split
      next => exact .inr (.inr (.inl rfl))
      next =>
        split
        next => exact .inr (.inr (.inr (.inl rfl)))
        next => exact .inr (.inr (.inr (.inr rfl)))

theorem Sound.readModem (h : u.Sound) : u.readModem.Sound := ⟨h.asks, h.free, h.kept⟩

theorem Sound.readLine (h : u.Sound) : u.readLine.Sound := ⟨h.asks, h.free, h.kept⟩

theorem Sound.readData (h : u.Sound) : u.readData.2.Sound := ⟨h.asks, h.free, h.kept⟩

theorem Sound.arrive (h : u.Sound) : (u.arrive c).Sound := ⟨h.asks, h.free, h.kept⟩

theorem Sound.setIer (h : u.Sound) : (u.setIer v).Sound := by
  refine ⟨fun on => ?_, fun asks => ?_, h.kept⟩
  · change v.getLsbD 1 = true at on
    change u.thr.isSome = true ∨ (u.thre || v.getLsbD 1 && !u.ier.getLsbD 1 && u.thr.isNone) = true
    cases before : u.ier.getLsbD 1 with
    | true => exact (h.asks before).imp id fun asks => by rw [asks, Bool.true_or]
    | false =>
      cases thr : u.thr with
      | none => exact .inr (by rw [on]; exact Bool.or_true _)
      | some c => exact .inl rfl
  · change (u.thre || v.getLsbD 1 && !u.ier.getLsbD 1 && u.thr.isNone) = true at asks
    obtain asks | asks := Bool.or_eq_true_iff.mp asks
    · exact h.free asks
    · exact Option.isNone_iff_eq_none.mp (Bool.and_eq_true_iff.mp asks).2

theorem Sound.shift (h : u.Sound) (sent : u.shift = some u') : u'.Sound ∧ u'.written = u.written ∧ u'.ier = u.ier := by
  obtain ⟨c, thr, rfl⟩ := Option.map_eq_some_iff.mp sent
  refine ⟨⟨fun _ => .inr rfl, fun _ => rfl, h.kept⟩, ?_, rfl⟩
  unfold written
  rw [thr]
  exact List.append_nil _

theorem out_sound (free : u.thr = none) (kept : u.lost = []) : (u.out c).Sound := by
  refine ⟨fun _ => .inl rfl, (fun asks => nomatch asks), ?_⟩
  change u.lost ++ u.thr.toList = []
  rw [kept, free]
  rfl

theorem written_out (free : u.thr = none) : (u.out c).written = u.written ++ [c] := by
  unfold written
  rw [free]
  change u.sent ++ [c] = u.sent ++ [] ++ [c]
  rw [List.append_nil]

/-- A free transmitter that may not interrupt. -/
theorem setIer_sound (free : u.thr = none) (kept : u.lost = []) (off : v.getLsbD 1 = false) : (u.setIer v).Sound := by
  refine ⟨fun on => ?_, fun _ => free, kept⟩
  change v.getLsbD 1 = true at on
  rw [off] at on
  exact nomatch on

end Uart
