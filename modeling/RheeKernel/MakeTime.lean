import Mathlib.Algebra.Group.Int.Defs
import Mathlib.Tactic.IntervalCases
import RheeKernel.Calendar

namespace RheeKernel

open Calendar (Date)

/-- The fields of `struct tm` that the kernel reads. -/
structure Tm where
  tmSec : Int
  tmMin : Int
  tmHour : Int
  tmMday : Int
  tmMon : Int
  tmYear : Int
deriving DecidableEq

namespace Seconds

abbrev minute : Int := 60

abbrev hour : Int := 60 * minute

abbrev day : Int := 24 * hour

abbrev year : Int := 365 * day

theorem minute_eq : minute = 60 := rfl

theorem hour_eq : hour = 3600 := rfl

theorem day_eq : day = 86400 := rfl

theorem year_eq : year = 31536000 := rfl

end Seconds

/-- The value of an operation on 32-bit integers; there is none where it overflows. -/
def fits (x : Int) : Option Int := if -2147483648 ≤ x ∧ x ≤ 2147483647 then some x else none

/-- The table of the seconds before each month of a leap year. -/
def month : List Int :=
  [0,
    Seconds.day * 31,
    Seconds.day * (31 + 29),
    Seconds.day * (31 + 29 + 31),
    Seconds.day * (31 + 29 + 31 + 30),
    Seconds.day * (31 + 29 + 31 + 30 + 31),
    Seconds.day * (31 + 29 + 31 + 30 + 31 + 30),
    Seconds.day * (31 + 29 + 31 + 30 + 31 + 30 + 31),
    Seconds.day * (31 + 29 + 31 + 30 + 31 + 30 + 31 + 31),
    Seconds.day * (31 + 29 + 31 + 30 + 31 + 30 + 31 + 31 + 30),
    Seconds.day * (31 + 29 + 31 + 30 + 31 + 30 + 31 + 31 + 30 + 31),
    Seconds.day * (31 + 29 + 31 + 30 + 31 + 30 + 31 + 31 + 30 + 31 + 30)]

/-- An access to the table; there is no value outside of it. -/
def monthAt (i : Int) : Option Int := if 0 ≤ i then month[i.toNat]? else none

/-- The seconds before the year, with the leap days of the years before it. -/
def yearStart (year : Int) : Option Int := do
  let years ← fits (Seconds.year * year)
  let ahead ← fits (year + 1)
  let leaps ← fits (Seconds.day * ahead.tdiv 4)
  fits (years + leaps)

/-- The day that the table has too much behind February, where the year is no leap year. -/
def leapAdjust (year mon res : Int) : Option Int :=
  if mon > 1 then do
    let ahead ← fits (year + 2)
    if ahead.tmod 4 ≠ 0 then fits (res - Seconds.day) else some res
  else some res

/-- The days of the month and the time of the day. -/
def addClock (tm : Tm) (res : Int) : Option Int := do
  let before ← fits (tm.tmMday - 1)
  let days ← fits (Seconds.day * before)
  let res ← fits (res + days)
  let hours ← fits (Seconds.hour * tm.tmHour)
  let res ← fits (res + hours)
  let minutes ← fits (Seconds.minute * tm.tmMin)
  let res ← fits (res + minutes)
  fits (res + tm.tmSec)

/-- There is no result where an operation overflows or the month is not in the table. -/
def kernelMktime (tm : Tm) : Option Int := do
  let year ← fits (tm.tmYear - 70)
  let res ← yearStart year
  let before ← monthAt tm.tmMon
  let res ← fits (res + before)
  let res ← leapAdjust year tm.tmMon res
  addClock tm res

/-- The seconds of the day. -/
def Tm.clock (tm : Tm) : Int := 3600 * tm.tmHour + 60 * tm.tmMin + tm.tmSec

/-- A date and a time of the day in the years that the kernel's clock can tell. -/
structure Tm.Valid (tm : Tm) : Prop where
  yearLow : 70 ≤ tm.tmYear
  yearHigh : tm.tmYear ≤ 137
  monLow : 0 ≤ tm.tmMon
  monHigh : tm.tmMon ≤ 11
  mdayLow : 1 ≤ tm.tmMday
  mdayHigh : tm.tmMday ≤ Calendar.monthDays (tm.tmYear + 1900).toNat tm.tmMon.toNat
  hourLow : 0 ≤ tm.tmHour
  hourHigh : tm.tmHour ≤ 23
  minLow : 0 ≤ tm.tmMin
  minHigh : tm.tmMin ≤ 59
  secLow : 0 ≤ tm.tmSec
  secHigh : tm.tmSec ≤ 59

namespace Tm.Valid

variable {tm : Tm}

theorem mon_lt (valid : tm.Valid) : tm.tmMon.toNat < 12 := by
  have := valid.monHigh
  omega

theorem mday_pos (valid : tm.Valid) : 0 < tm.tmMday.toNat := by
  have := valid.mdayLow
  omega

theorem mday_le (valid : tm.Valid) :
    tm.tmMday.toNat ≤ Calendar.monthDays (tm.tmYear + 1900).toNat tm.tmMon.toNat := by
  have := valid.mdayHigh
  omega

/-- The day of the calendar. -/
def date (valid : tm.Valid) : Date where
  year := (tm.tmYear + 1900).toNat
  month := tm.tmMon.toNat
  day := tm.tmMday.toNat
  monthBound := valid.mon_lt
  dayPositive := valid.mday_pos
  dayBound := valid.mday_le

theorem date_year (valid : tm.Valid) : 1970 ≤ valid.date.year := by
  have := valid.yearLow
  simp only [date]
  omega

end Tm.Valid

theorem Tm.Valid.clock_lt {tm : Tm} (valid : tm.Valid) : 0 ≤ tm.clock ∧ tm.clock < Seconds.day := by
  obtain ⟨-, -, -, -, -, -, hourLow, hourHigh, minLow, minHigh, secLow, secHigh⟩ := valid
  unfold Tm.clock
  rw [Seconds.day_eq]
  omega

theorem fits_eq {x : Int} (low : -2147483648 ≤ x) (high : x ≤ 2147483647) : fits x = some x :=
  if_pos ⟨low, high⟩

/-- Between 1970 and 2100 the leap years are those whose number from 1970 is two more than a multiple of four. -/
theorem leap_from_1970 {k : Nat} (h : k < 130) : Calendar.leap (1970 + k) = ((k + 2) % 4 == 0) := by
  unfold Calendar.leap
  rw [Bool.eq_iff_iff]
  simp only [Bool.and_eq_true, Bool.or_eq_true, bne_iff_ne, beq_iff_eq, ne_eq]
  omega

/-- The first magic offset: the leap days of the first `n` years. -/
theorem daysToYear_1970 {n : Nat} (h : n ≤ 130) : Calendar.daysToYear 1970 n = 365 * n + (n + 1) / 4 := by
  induction n with
  | zero => rfl
  | succ n ih =>
    rw [Calendar.daysToYear, ih (by omega), Calendar.yearDays, leap_from_1970 (by omega)]
    split
    next leap =>
      have := beq_iff_eq.mp leap
      omega
    next plain =>
      have : (n + 2) % 4 ≠ 0 := fun rest => plain (beq_iff_eq.mpr rest)
      omega

theorem yearStart_eq {k : Nat} (h : k ≤ 67) :
    yearStart k = some (Seconds.day * Calendar.daysToYear 1970 k) := by
  have count := daysToYear_1970 (n := k) (by omega)
  have quarter : ((k : Int) + 1).tdiv 4 = ((k + 1) / 4 : Nat) := (Int.ofNat_tdiv (k + 1) 4).symm
  unfold yearStart
  simp only [Seconds.year_eq, Seconds.day_eq, Option.bind_eq_bind]
  rw [fits_eq (by omega) (by omega), Option.bind_some, fits_eq (by omega) (by omega), Option.bind_some, quarter,
    fits_eq (by omega) (by omega), Option.bind_some, fits_eq (by omega) (by omega), count]
  congr 1
  omega

/-- The second magic offset: the table, less a day behind February of a plain year, counts the days of the months. -/
theorem month_days {k m : Nat} (hk : k < 130) (hm : m < 12) :
    ∃ t, monthAt m = some t ∧ 0 ≤ t ∧ t ≤ Seconds.day * 335 ∧
      (if 1 < m ∧ (k + 2) % 4 ≠ 0 then t - Seconds.day else t) =
        Seconds.day * Calendar.daysToMonth (1970 + k) m := by
  have leap := leap_from_1970 hk
  by_cases rest : (k + 2) % 4 = 0
  · have leap : Calendar.leap (1970 + k) = true := leap.trans (beq_iff_eq.mpr rest)
    interval_cases m
    all_goals
      refine ⟨_, rfl, ?_⟩
      simp [Calendar.daysToMonth, Calendar.monthDays, leap, rest, Seconds.day_eq]
  · have leap : Calendar.leap (1970 + k) = false := leap.trans (beq_eq_false_iff_ne.mpr rest)
    interval_cases m
    all_goals
      refine ⟨_, rfl, ?_⟩
      simp [Calendar.daysToMonth, Calendar.monthDays, leap, rest, Seconds.day_eq]

theorem leapAdjust_eq {k m : Nat} {res : Int} (hk : k ≤ 67) (low : 0 ≤ res) (high : res ≤ 2147483647) :
    leapAdjust k m res = some (if 1 < m ∧ (k + 2) % 4 ≠ 0 then res - Seconds.day else res) := by
  have rest : ((k : Int) + 2).tmod 4 = ((k + 2) % 4 : Nat) := (Int.ofNat_tmod (k + 2) 4).symm
  unfold leapAdjust
  simp only [gt_iff_lt, Nat.one_lt_cast, Option.bind_eq_bind]
  by_cases late : 1 < m
  · rw [if_pos late, fits_eq (by omega) (by omega), Option.bind_some, rest]
    by_cases plain : (k + 2) % 4 = 0
    · rw [if_neg (by omega), if_neg fun both => both.2 plain]
    · rw [if_pos (by omega), if_pos ⟨late, plain⟩, Seconds.day_eq]
      exact fits_eq (by omega) (by omega)
  · rw [if_neg (by omega), if_neg fun both => late both.1]

/-- What is added for the day of the month and the time of the day, where the sum is in the range. -/
theorem addClock_eq {tm : Tm} {res : Int} (valid : tm.Valid) (low : 0 ≤ res)
    (high : res + 31 * Seconds.day ≤ 2147483647) :
    addClock tm res = some (res + Seconds.day * (tm.tmMday - 1) + tm.clock) := by
  obtain ⟨-, -, -, -, mdayLow, mdayHigh, hourLow, hourHigh, minLow, minHigh, secLow, secHigh⟩ := valid
  have length : Calendar.monthDays (tm.tmYear + 1900).toNat tm.tmMon.toNat ≤ 31 := Calendar.monthDays_le _ _
  rw [Seconds.day_eq] at high
  unfold addClock Tm.clock
  simp only [Seconds.minute_eq, Seconds.hour_eq, Seconds.day_eq, Option.bind_eq_bind]
  rw [fits_eq (by omega) (by omega), Option.bind_some, fits_eq (by omega) (by omega), Option.bind_some,
    fits_eq (by omega) (by omega), Option.bind_some, fits_eq (by omega) (by omega), Option.bind_some,
    fits_eq (by omega) (by omega), Option.bind_some, fits_eq (by omega) (by omega), Option.bind_some,
    fits_eq (by omega) (by omega), Option.bind_some, fits_eq (by omega) (by omega)]
  congr 1
  omega

/-- The days since 1970 and the seconds of the day, which are below the bound of a `long`. -/
theorem kernelMktime_eq {tm : Tm} (valid : tm.Valid) :
    kernelMktime tm = some (Seconds.day * Calendar.dayNumber 1970 valid.date + tm.clock) ∧
      Seconds.day * Calendar.dayNumber 1970 valid.date + tm.clock ≤ 2147483647 := by
  obtain ⟨k, hk⟩ : ∃ k : Nat, tm.tmYear = k + 70 := ⟨(tm.tmYear - 70).toNat, by have := valid.yearLow; omega⟩
  obtain ⟨m, hm⟩ := Int.eq_ofNat_of_zero_le valid.monLow
  have years : k ≤ 67 := by
    have := valid.yearHigh
    omega
  have months : m < 12 := by
    have := valid.monHigh
    omega
  have count := daysToYear_1970 (n := k) (by omega)
  obtain ⟨t, table, tLow, tHigh, adjusted⟩ := month_days (k := k) (by omega) months
  have number : (Calendar.dayNumber 1970 valid.date : Int) =
      Calendar.daysToYear 1970 k + Calendar.daysToMonth (1970 + k) m + (tm.tmMday - 1) := by
    have first := valid.mdayLow
    have sameYear : (tm.tmYear + 1900).toNat = 1970 + k := by omega
    have sameMonth : tm.tmMon.toNat = m := by omega
    have behind : 1970 + k - 1970 = k := by omega
    simp only [Calendar.dayNumber, Tm.Valid.date, sameYear, sameMonth, behind]
    omega
  have start : tm.tmYear - 70 = k := by omega
  have days := valid.mdayHigh
  have length := Calendar.monthDays_le (tm.tmYear + 1900).toNat tm.tmMon.toNat
  have clock := valid.clock_lt
  have sum : (if 1 < m ∧ (k + 2) % 4 ≠ 0 then Seconds.day * (Calendar.daysToYear 1970 k : Int) + t - Seconds.day
      else Seconds.day * (Calendar.daysToYear 1970 k : Int) + t) =
        Seconds.day * Calendar.daysToYear 1970 k + Seconds.day * Calendar.daysToMonth (1970 + k) m := by
    rw [← adjusted]
    split
    next => exact Int.add_sub_assoc _ _ _
    next => rfl
  have monthLow : (0 : Int) ≤ Calendar.daysToMonth (1970 + k) m := Int.natCast_nonneg _
  have monthHigh : Seconds.day * (Calendar.daysToMonth (1970 + k) m : Int) ≤ Seconds.day * 335 := by
    rw [← adjusted]
    split
    next => exact Int.le_trans (Int.sub_le_self _ (by decide)) tHigh
    next => exact tHigh
  rw [Seconds.day_eq] at *
  constructor
  · unfold kernelMktime
    simp only [Option.bind_eq_bind]
    rw [start, hm, fits_eq (by omega) (by omega), Option.bind_some, yearStart_eq years, Option.bind_some, table,
      Option.bind_some, Seconds.day_eq, fits_eq (by omega) (by omega), Option.bind_some,
      leapAdjust_eq years (by omega) (by omega), Option.bind_some, Seconds.day_eq, sum,
      addClock_eq valid (by omega) (by rw [Seconds.day_eq]; omega), Seconds.day_eq, number]
    congr 1
    omega
  · omega

/-- `kernel_mktime` counts the days of the Gregorian calendar: the date is met `n` days after the first of January 1970, and only then. From
one day to the next it advances by the seconds of a day. -/
theorem kernelMktime_gregorian {tm : Tm} (valid : tm.Valid) :
    (∃ n : Nat, (∀ k, Calendar.next^[k] (Calendar.newYear 1970) = valid.date ↔ k = n) ∧
      kernelMktime tm = some (86400 * n + tm.clock) ∧ 86400 * n + tm.clock ≤ 2147483647) ∧
    ∀ (later : Tm) (valid' : later.Valid), valid'.date = Calendar.next valid.date → later.clock = tm.clock →
      ∃ res, kernelMktime tm = some res ∧ kernelMktime later = some (res + 86400) := by
  have since : 1970 ≤ valid.date.year := valid.date_year
  obtain ⟨result, bound⟩ := kernelMktime_eq valid
  constructor
  · exact ⟨_, fun k => Calendar.iterate_eq_iff since, result, bound⟩
  · intro later valid' follows sameClock
    refine ⟨_, result, ?_⟩
    rw [(kernelMktime_eq valid').1, follows, Calendar.dayNumber_next since, sameClock, Seconds.day_eq]
    congr 1
    omega

/-- The last second of the leap day of 1972, and of the day after. -/
def leapDay : Tm := ⟨59, 59, 23, 29, 1, 72⟩

def leapDayAfter : Tm := ⟨59, 59, 23, 1, 2, 72⟩

theorem leapDay_valid : leapDay.Valid := by
  constructor <;> decide

theorem leapDayAfter_valid : leapDayAfter.Valid := by
  constructor <;> decide

theorem kernelMktime_gregorian_leapDay :
    (∃ n : Nat, (∀ k, Calendar.next^[k] (Calendar.newYear 1970) = leapDay_valid.date ↔ k = n) ∧
      kernelMktime leapDay = some (86400 * n + 86399) ∧ 86400 * (n : Int) + 86399 ≤ 2147483647) ∧
    ∃ res, kernelMktime leapDay = some res ∧ kernelMktime leapDayAfter = some (res + 86400) := by
  obtain ⟨count, next⟩ := kernelMktime_gregorian leapDay_valid
  exact ⟨count, next leapDayAfter leapDayAfter_valid rfl rfl⟩

end RheeKernel
