import Mathlib.Logic.Function.Iterate
import Mathlib.Order.Nat

namespace Calendar

/-- The Gregorian rule: every fourth year, but of the hundreds only every fourth. -/
def leap (year : Nat) : Bool := year % 4 == 0 && (year % 100 != 0 || year % 400 == 0)

def yearDays (year : Nat) : Nat := if leap year then 366 else 365

/-- Months are numbered from zero, days of the month from one. -/
def monthDays (year : Nat) : Nat → Nat
  | 1 => if leap year then 29 else 28
  | 3 => 30
  | 5 => 30
  | 8 => 30
  | 10 => 30
  | _ => 31

/-- The days of the first `m` months of the year. -/
def daysToMonth (year : Nat) : Nat → Nat
  | 0 => 0
  | m + 1 => daysToMonth year m + monthDays year m

/-- The days of the first `n` years from `first` on. -/
def daysToYear (first : Nat) : Nat → Nat
  | 0 => 0
  | n + 1 => daysToYear first n + yearDays (first + n)

theorem monthDays_pos (year month : Nat) : 0 < monthDays year month := by
  unfold monthDays
  split
  next => split <;> omega
  all_goals omega

theorem monthDays_le (year month : Nat) : monthDays year month ≤ 31 := by
  unfold monthDays
  split
  next => split <;> omega
  all_goals omega

theorem daysToMonth_year (year : Nat) : daysToMonth year 12 = yearDays year := by
  simp only [daysToMonth, monthDays, yearDays]
  split <;> rfl

@[ext]
structure Date where
  year : Nat
  month : Nat
  day : Nat
  monthBound : month < 12
  dayPositive : 0 < day
  dayBound : day ≤ monthDays year month

def firstOf (year month : Nat) (h : month < 12) : Date where
  year := year
  month := month
  day := 1
  monthBound := h
  dayPositive := Nat.one_pos
  dayBound := monthDays_pos year month

def newYear (year : Nat) : Date := firstOf year 0 (Nat.succ_pos 11)

/-- The day after. -/
def next (d : Date) : Date :=
  if h : d.day < monthDays d.year d.month then
    { d with day := d.day + 1, dayPositive := Nat.succ_pos _, dayBound := h }
  else if h : d.month < 11 then firstOf d.year (d.month + 1) (Nat.succ_lt_succ h)
  else newYear (d.year + 1)

/-- The days from the first of January of the year `first` to `d`. -/
def dayNumber (first : Nat) (d : Date) : Nat :=
  daysToYear first (d.year - first) + daysToMonth d.year d.month + (d.day - 1)

theorem next_day {d : Date} (h : d.day < monthDays d.year d.month) :
    (next d).year = d.year ∧ (next d).month = d.month ∧ (next d).day = d.day + 1 := by
  simp [next, h]

theorem next_month {d : Date} (h : d.day = monthDays d.year d.month) (hm : d.month < 11) :
    next d = firstOf d.year (d.month + 1) (Nat.succ_lt_succ hm) := by
  simp [next, h, hm]

theorem next_year {d : Date} (h : d.day = monthDays d.year d.month) (hm : d.month = 11) :
    next d = newYear (d.year + 1) := by
  simp [next, h, hm]

theorem year_le_next (d : Date) : d.year ≤ (next d).year := by
  unfold next
  split
  next => exact le_rfl
  next =>
    split
    next => exact le_rfl
    next => exact Nat.le_succ d.year

/-- Each day counts one more than the day before it. -/
theorem dayNumber_next {first : Nat} {d : Date} (h : first ≤ d.year) :
    dayNumber first (next d) = dayNumber first d + 1 := by
  have positive := d.dayPositive
  rcases Nat.lt_or_ge d.day (monthDays d.year d.month) with more | last
  · obtain ⟨year, month, day⟩ := next_day more
    simp only [dayNumber, year, month, day]
    omega
  · have last : d.day = monthDays d.year d.month := le_antisymm d.dayBound last
    rcases Nat.lt_or_ge d.month 11 with inside | december
    · simp only [next_month last inside, dayNumber, firstOf, daysToMonth]
      omega
    · have december : d.month = 11 := by
        have := d.monthBound
        omega
      have whole := daysToMonth_year d.year
      rw [daysToMonth] at whole
      have turn : d.year + 1 - first = d.year - first + 1 := by omega
      have start : first + (d.year - first) = d.year := by omega
      simp only [next_year last december, dayNumber, newYear, firstOf, daysToMonth, turn, daysToYear,
        start]
      rw [december] at last ⊢
      omega

theorem dayNumber_newYear (first : Nat) : dayNumber first (newYear first) = 0 := by
  simp [dayNumber, newYear, firstOf, daysToYear, daysToMonth]

theorem year_le_iterate (d : Date) (n : Nat) : d.year ≤ (next^[n] d).year := by
  induction n with
  | zero => exact le_rfl
  | succ n ih =>
    rw [Function.iterate_succ_apply']
    exact ih.trans (year_le_next _)

/-- After `n` days the count stands at `n`. -/
theorem dayNumber_iterate (first n : Nat) : dayNumber first (next^[n] (newYear first)) = n := by
  induction n with
  | zero => exact dayNumber_newYear first
  | succ n ih =>
    have later : first ≤ (next^[n] (newYear first)).year := year_le_iterate (newYear first) n
    rw [Function.iterate_succ_apply', dayNumber_next later, ih]

theorem iterate_days {year month k : Nat} (h : month < 12) (hk : k < monthDays year month) :
    next^[k] (firstOf year month h) =
      { year := year, month := month, day := k + 1, monthBound := h, dayPositive := Nat.succ_pos k,
        dayBound := hk } := by
  induction k with
  | zero => rfl
  | succ k ih =>
    rw [Function.iterate_succ_apply', ih (by omega)]
    obtain ⟨sameYear, sameMonth, day⟩ := next_day (d := Date.mk year month (k + 1) h (Nat.succ_pos k)
      (Nat.le_of_lt hk)) hk
    exact Date.ext sameYear sameMonth day

/-- The last day of a month, one day less than its length after its first. -/
theorem iterate_month {year month : Nat} (h : month < 12) :
    next^[monthDays year month] (firstOf year month h) =
      if hm : month < 11 then firstOf year (month + 1) (Nat.succ_lt_succ hm) else newYear (year + 1) := by
  obtain ⟨k, length⟩ : ∃ k, monthDays year month = k + 1 :=
    ⟨monthDays year month - 1, by have := monthDays_pos year month; omega⟩
  rw [length, Function.iterate_succ_apply', iterate_days h (by omega)]
  split
  next hm => exact next_month length.symm hm
  next hm =>
    have december : month = 11 := by omega
    exact next_year length.symm december

theorem iterate_daysToMonth {year month : Nat} (h : month < 12) :
    next^[daysToMonth year month] (newYear year) = firstOf year month h := by
  induction month with
  | zero => rfl
  | succ m ih =>
    rw [daysToMonth, Nat.add_comm, Function.iterate_add_apply, ih (by omega), iterate_month,
      dif_pos (Nat.lt_of_succ_lt_succ h)]

theorem iterate_yearDays (year : Nat) : next^[yearDays year] (newYear year) = newYear (year + 1) := by
  have december : 11 < 12 := by omega
  rw [← daysToMonth_year, daysToMonth, Nat.add_comm, Function.iterate_add_apply,
    iterate_daysToMonth december, iterate_month, dif_neg (by omega)]

theorem iterate_daysToYear (first n : Nat) :
    next^[daysToYear first n] (newYear first) = newYear (first + n) := by
  induction n with
  | zero => rfl
  | succ n ih =>
    rw [daysToYear, Nat.add_comm, Function.iterate_add_apply, ih, iterate_yearDays, Nat.add_assoc]

/-- Stepping day by day for `dayNumber` days ends at the date. -/
theorem iterate_dayNumber {first : Nat} {d : Date} (h : first ≤ d.year) :
    next^[dayNumber first d] (newYear first) = d := by
  have positive := d.dayPositive
  have bound := d.dayBound
  have year : first + (d.year - first) = d.year := by omega
  rw [dayNumber, Nat.add_comm, Nat.add_comm (daysToYear _ _), Function.iterate_add_apply,
    Function.iterate_add_apply, iterate_daysToYear, year, iterate_daysToMonth d.monthBound,
    iterate_days d.monthBound (by omega)]
  apply Date.ext
  · rfl
  · rfl
  · exact Nat.sub_add_cancel positive

/-- So the date is met after that many days, and after no other number of them. -/
theorem iterate_eq_iff {first n : Nat} {d : Date} (h : first ≤ d.year) :
    next^[n] (newYear first) = d ↔ n = dayNumber first d := by
  constructor
  · intro reached
    rw [← reached, dayNumber_iterate]
  · intro count
    rw [count, iterate_dayNumber h]

end Calendar
