import RheeKernel.MakeTime

namespace RheeKernel

open Calendar (Date)

/-- The clock chip: what the `n`-th read of the byte at an address yields. -/
abbrev Cmos : Type := Nat → UInt8 → UInt8

/-- CMOS_READ, as the `n`-th read. -/
def cmosRead (cmos : Cmos) (n : Nat) (addr : UInt8) : Int := (cmos n (0x80 ||| addr)).toNat

/-- BCD_TO_BIN -/
def bcdToBin (val : Int) : Int := val % 16 + val / 16 * 10

/-- One turn of the loop, from the `n`-th read on. -/
def turnTime (cmos : Cmos) (n : Nat) : Tm where
  tmSec := cmosRead cmos n 0
  tmMin := cmosRead cmos (n + 1) 2
  tmHour := cmosRead cmos (n + 2) 4
  tmMday := cmosRead cmos (n + 3) 7
  tmMon := cmosRead cmos (n + 4) 8 - 1
  tmYear := cmosRead cmos (n + 5) 9

/-- The loop, which reads until the second has not changed meanwhile. -/
def readClock (cmos : Cmos) : Nat → Nat → Option Tm
  | 0, _ => none
  | fuel + 1, n =>
    let time := turnTime cmos n
    if time.tmSec ≠ cmosRead cmos (n + 6) 0 then readClock cmos fuel (n + 7) else some time

def decoded (time : Tm) : Tm where
  tmSec := bcdToBin time.tmSec
  tmMin := bcdToBin time.tmMin
  tmHour := bcdToBin time.tmHour
  tmMday := bcdToBin time.tmMday
  tmMon := bcdToBin time.tmMon
  tmYear := bcdToBin time.tmYear

/-- `time_init`, up to the store of the result in `startup_time`. -/
def timeInit (cmos : Cmos) (fuel : Nat) : Option Int :=
  (readClock cmos fuel 0).bind fun time => kernelMktime (decoded time)

/-- A moment in the years that the two digits of the clock mean. -/
structure Moment where
  date : Date
  hour : Nat
  min : Nat
  sec : Nat
  yearLow : 1970 ≤ date.year
  yearHigh : date.year ≤ 1999
  hourBound : hour < 24
  minBound : min < 60
  secBound : sec < 60

/-- The seconds since the first of January 1970. -/
def Moment.seconds (t : Moment) : Int :=
  86400 * Calendar.dayNumber 1970 t.date + (3600 * t.hour + 60 * t.min + t.sec)

/-- The two digits of a number in the halves of a byte. -/
def bcd (n : Nat) : Nat := 16 * (n / 10) + n % 10

/-- The reads from the `n`-th on, those of one turn, yield the moment. The chip counts the months from one. -/
structure Presents (cmos : Cmos) (n : Nat) (t : Moment) : Prop where
  sec : cmosRead cmos n 0 = bcd t.sec
  min : cmosRead cmos (n + 1) 2 = bcd t.min
  hour : cmosRead cmos (n + 2) 4 = bcd t.hour
  day : cmosRead cmos (n + 3) 7 = bcd t.date.day
  month : cmosRead cmos (n + 4) 8 = bcd (t.date.month + 1)
  year : cmosRead cmos (n + 5) 9 = bcd (t.date.year - 1900)
  again : cmosRead cmos (n + 6) 0 = bcd t.sec

/-- From the `n`-th read on the clock yields the moment, after some turns in which the second has changed. -/
def Settles (cmos : Cmos) (n turn : Nat) (t : Moment) : Prop :=
  (∀ i < turn, cmosRead cmos (n + 7 * i) 0 ≠ cmosRead cmos (n + 7 * i + 6) 0) ∧ Presents cmos (n + 7 * turn) t

/-- The start time is that of the moment, and the month that was looked up is in the table. -/
def StartsAt (cmos : Cmos) (fuel : Nat) (t : Moment) : Prop :=
  timeInit cmos fuel = some t.seconds ∧
    ∃ time, readClock cmos fuel 0 = some time ∧ 0 ≤ (decoded time).tmMon ∧ (decoded time).tmMon < month.length

section Turns

variable {cmos : Cmos} {t : Moment} {n turn fuel : Nat}

/-- The loop ends with the turn that presents the moment. -/
theorem readClock_settles (settles : Settles cmos n turn t) (h : turn < fuel) :
    readClock cmos fuel n = some (turnTime cmos (n + 7 * turn)) := by
  obtain ⟨apart, shown⟩ := settles
  induction turn generalizing n fuel with
  | zero =>
    cases fuel with
    | zero => omega
    | succ fuel =>
      have same : (turnTime cmos n).tmSec = cmosRead cmos (n + 6) 0 := shown.sec.trans shown.again.symm
      rw [readClock, if_neg (not_not.mpr same)]
      rfl
  | succ turn ih =>
    cases fuel with
    | zero => omega
    | succ fuel =>
      have changed : (turnTime cmos n).tmSec ≠ cmosRead cmos (n + 6) 0 := apart 0 (Nat.succ_pos turn)
      have place : n + 7 * (turn + 1) = n + 7 + 7 * turn := by omega
      rw [place] at shown
      rw [readClock, if_pos changed, place]
      apply ih (Nat.lt_of_succ_lt_succ h)
      · intro i hi
        have step := apart (i + 1) (Nat.succ_lt_succ hi)
        have later : n + 7 * (i + 1) = n + 7 + 7 * i := by omega
        rwa [later] at step
      · exact shown

theorem bcdToBin_bcd {k : Nat} : bcdToBin (bcd k) = k := by
  unfold bcdToBin bcd
  omega

/-- Of the months, 10 is the one whose two digits do not survive that one is taken before the conversion. -/
theorem bcdToBin_month {m : Nat} (h : m < 12) : bcdToBin (bcd (m + 1) - 1) = if m = 9 then 15 else (m : Int) := by
  unfold bcdToBin bcd
  split <;> omega

/-- The fields that `kernel_mktime` is to see. -/
def Moment.tm (t : Moment) : Tm := ⟨t.sec, t.min, t.hour, t.date.day, t.date.month, t.date.year - 1900⟩

/-- The fields that it sees. -/
theorem decoded_presents (shown : Presents cmos n t) :
    decoded (turnTime cmos n) = { t.tm with tmMon := if t.date.month = 9 then 15 else (t.date.month : Int) } := by
  have year : ((t.date.year - 1900 : Nat) : Int) = t.date.year - 1900 := by
    have := t.yearLow
    omega
  unfold decoded turnTime Moment.tm
  simp only [shown.sec, shown.min, shown.hour, shown.day, shown.month, shown.year, bcdToBin_bcd,
    bcdToBin_month t.date.monthBound, year]

theorem Moment.tm_valid (t : Moment) : t.tm.Valid := by
  have years : ((t.date.year : Int) - 1900 + 1900).toNat = t.date.year := by omega
  have := t.date.monthBound
  have := t.date.dayPositive
  have := t.date.dayBound
  have := t.yearLow
  have := t.yearHigh
  have := t.hourBound
  have := t.minBound
  have := t.secBound
  constructor
  case mdayHigh =>
    simp only [Moment.tm, years, Int.toNat_natCast]
    omega
  all_goals
    simp only [Moment.tm]
    omega

theorem Moment.tm_date (t : Moment) : t.tm_valid.date = t.date := by
  apply Calendar.Date.ext
  · simp only [Tm.Valid.date, Moment.tm]
    omega
  · exact Int.toNat_natCast _
  · exact Int.toNat_natCast _

theorem kernelMktime_tm (t : Moment) : kernelMktime t.tm = some t.seconds := by
  rw [(kernelMktime_eq t.tm_valid).1, t.tm_date, Seconds.day_eq]
  rfl

/-- There is no result for a month outside of the table. -/
theorem kernelMktime_outside {tm : Tm} (h : monthAt tm.tmMon = none) : kernelMktime tm = none := by
  unfold kernelMktime
  rw [h]
  cases fits (tm.tmYear - 70) with
  | none => rfl
  | some year =>
    simp only [Option.bind_eq_bind, Option.bind_some, Option.bind_none]
    cases yearStart year with
    | none => rfl
    | some res => rfl

/-- `time_init` finds the right time in all months but October: one is taken from the byte 0x10 before its digits are converted, and 0x0F
becomes the month 15. -/
theorem timeInit_iff (settles : Settles cmos 0 turn t) (h : turn < fuel) : StartsAt cmos fuel t ↔ t.date.month ≠ 9 := by
  have read := readClock_settles settles h
  have fields := decoded_presents settles.2
  constructor
  · intro starts october
    have outside : kernelMktime (decoded (turnTime cmos (0 + 7 * turn))) = none := by
      rw [fields, if_pos october]
      exact kernelMktime_outside rfl
    have result := starts.1
    rw [timeInit, read, Option.bind_some, outside] at result
    cases result
  · intro other
    rw [if_neg other] at fields
    have right : decoded (turnTime cmos (0 + 7 * turn)) = t.tm := fields
    constructor
    · rw [timeInit, read, Option.bind_some, right, kernelMktime_tm]
    · refine ⟨_, read, ?_⟩
      rw [right]
      exact ⟨Int.natCast_nonneg _, Int.ofNat_lt.mpr t.date.monthBound⟩

end Turns

/-- A clock that stands still at the moment. -/
def standing (t : Moment) : Cmos := fun _ addr =>
  if addr = 0x80 then .ofNat (bcd t.sec)
  else if addr = 0x82 then .ofNat (bcd t.min)
  else if addr = 0x84 then .ofNat (bcd t.hour)
  else if addr = 0x87 then .ofNat (bcd t.date.day)
  else if addr = 0x88 then .ofNat (bcd (t.date.month + 1))
  else .ofNat (bcd (t.date.year - 1900))

theorem bcd_byte {k : Nat} (h : k < 100) : ((UInt8.ofNat (bcd k)).toNat : Int) = bcd k := by
  rw [UInt8.toNat_ofNat']
  unfold bcd
  omega

/-- Each moment can be presented. -/
theorem standing_settles (t : Moment) : Settles (standing t) 0 0 t := by
  have := t.yearLow
  have := t.yearHigh
  have := t.hourBound
  have := t.minBound
  have := t.secBound
  have := t.date.monthBound
  have := t.date.dayBound
  have := Calendar.monthDays_le t.date.year t.date.month
  constructor
  · intro i hi
    cases hi
  · constructor
    all_goals
      apply bcd_byte
      omega

/-- The first of a month of 1991, at midnight. -/
def firstOf1991 (month : Nat) (h : month < 12) : Moment where
  date := Calendar.firstOf 1991 month h
  hour := 0
  min := 0
  sec := 0
  yearLow := Nat.le_of_ble_eq_true rfl
  yearHigh := Nat.le_of_ble_eq_true rfl
  hourBound := Nat.succ_pos 23
  minBound := Nat.succ_pos 59
  secBound := Nat.succ_pos 59

def october : Moment := firstOf1991 9 (Nat.le_of_ble_eq_true rfl)

def november : Moment := firstOf1991 10 (Nat.le_of_ble_eq_true rfl)

theorem timeInit_iff_november : StartsAt (standing november) 1 november ↔ november.date.month ≠ 9 :=
  timeInit_iff (standing_settles november) (Nat.succ_pos 0)

/-- In October the month is not in the table. -/
theorem timeInit_october :
    Settles (standing october) 0 0 october ∧ timeInit (standing october) 1 = none ∧
      ¬ StartsAt (standing october) 1 october := by
  have outside : timeInit (standing october) 1 = none := by decide
  refine ⟨standing_settles october, outside, ?_⟩
  intro starts
  rw [StartsAt, outside] at starts
  cases starts.1

end RheeKernel
