import Mathlib.Algebra.Group.Int.Defs
import Mathlib.Algebra.Group.Nat.Defs
import Xv6Monitor.Lib.Calendar
import Mathlib.Data.Nat.Basic

/-! The time of day, `kernel/sysutil.c`. Every `uint64` and `int` that is computed is checked, so that a
conversion that overflows anywhere has no result. -/

namespace Xv6Monitor.Util.Dates
open Lib.Calendar

/-- `BOOT_EPOCH`, which the Makefile takes from `date +%s`: a decimal constant of type `int` or `long`. -/
structure Epoch where
  seconds : Nat
  fits : seconds < 2 ^ 63

def asUint64 (n : Nat) : Option Nat := if n < 2 ^ 64 then some n else none

def asInt (n : Nat) : Option Nat := if n < 2 ^ 31 then some n else none

def CAIRO_OFFSET : Nat := 2 * 3600

structure Datetime where
  year : Nat
  month : Nat
  day : Nat
  hour : Nat
  minute : Nat
  second : Nat
  weekday : Nat
  deriving DecidableEq, Repr

def monthDays : List Nat := [31, 28, 31, 30, 31, 30, 31, 31, 30, 31, 30, 31]

def isLeapYear (year : Nat) : Bool := (year % 4 == 0 && year % 100 != 0) || year % 400 == 0

def daysInYear (year : Nat) : Nat := if isLeapYear year then 366 else 365

theorem daysInYear_pos (year : Nat) : 0 < daysInYear year := by
  unfold daysInYear
  split <;> decide

def daysInMonth (year month : Nat) : Nat := if month = 1 ∧ isLeapYear year then 29 else monthDays.getD month 0

def yearFrom (days year : Nat) : Option (Nat × Nat) :=
  if days < daysInYear year then some (days, year)
  else (asInt (year + 1)).bind fun next => yearFrom (days - daysInYear year) next
  termination_by days
  decreasing_by
    have positive := daysInYear_pos year
    omega

def monthFrom (year : Nat) : (left month days : Nat) → Nat × Nat
  | 0, month, days => (days, month)
  | left + 1, month, days =>
    if days < daysInMonth year month then (days, month)
    else monthFrom year left (month + 1) (days - daysInMonth year month)

def unixToDatetime (timestamp : Nat) : Option Datetime := do
  let timestamp ← asUint64 (timestamp + CAIRO_OFFSET)
  let sinceSunday ← asUint64 (timestamp / 86400 + 4)
  let weekday ← asInt (sinceSunday % 7)
  let (days, year) ← yearFrom (timestamp / 86400) 1970
  let (days, month) := monthFrom year 12 0 days
  let month ← asInt (month + 1)
  let day ← asInt (days + 1)
  let secsInDay := timestamp % 86400
  let hour ← asInt (secsInDay / 3600)
  let minute ← asInt (secsInDay % 3600 / 60)
  let second ← asInt (secsInDay % 60)
  pure ⟨year, month, day, hour, minute, second, weekday⟩

/-- The clock of the machine counts ten million ticks in a second. -/
def getCurrentTime (epoch : Epoch) (time : UInt64) : Option Nat := asUint64 (epoch.seconds + time.toNat / 10000000)

/-! ### The loops -/

theorem isLeapYear_iff (year : Nat) : isLeapYear year = true ↔ Leap year := by
  simp [isLeapYear, Leap]

theorem daysInYear_eq (year : Nat) : daysInYear year = yearLength year := by
  simp only [daysInYear, yearLength, isLeapYear_iff]

theorem daysInMonth_eq (year : Nat) : ∀ month < 12, daysInMonth year month = monthLength year (month + 1)
  | 1, _ => by
    simp only [daysInMonth, monthLength, isLeapYear_iff, true_and]
    rfl
  | 0, _ | 2, _ | 3, _ | 4, _ | 5, _ | 6, _ | 7, _ | 8, _ | 9, _ | 10, _ | 11, _ => by
    simp [daysInMonth, monthLength, monthDays]

theorem yearLength_ge (year : Nat) : 365 ≤ yearLength year := by
  unfold yearLength
  split <;> decide

theorem yearFrom_spec (days year : Nat) (room : days + 365 * year < 365 * 2 ^ 31) :
    ∃ d y, yearFrom days year = some (d, y) ∧ d < yearLength y ∧ Date.next^[d] ⟨y, 1, 1⟩ = Date.next^[days] ⟨year, 1, 1⟩ := by
  induction days using Nat.strong_induction_on generalizing year with
  | _ days ih =>
    rw [yearFrom, daysInYear_eq]
    by_cases within : days < yearLength year
    · exact ⟨days, year, if_pos within, within, rfl⟩
    have long := yearLength_ge year
    have fits : year + 1 < 2 ^ 31 := by omega
    obtain ⟨d, y, found, inside, same⟩ := ih (days - yearLength year) (by omega) (year + 1) (by omega)
    refine ⟨d, y, ?_, inside, ?_⟩
    · rw [if_neg within, asInt, if_pos fits]
      exact found
    · calc Date.next^[d] ⟨y, 1, 1⟩ = Date.next^[days - yearLength year] ⟨year + 1, 1, 1⟩ := same
        _ = Date.next^[days - yearLength year + yearLength year] ⟨year, 1, 1⟩ := by
          rw [Function.iterate_add_apply, Date.next_year]
        _ = Date.next^[days] ⟨year, 1, 1⟩ := by rw [Nat.sub_add_cancel (Nat.le_of_not_lt within)]

theorem monthFrom_spec (year : Nat) (left month days : Nat) (all : month + left = 12)
    (within : days < Date.daysFrom year left (month + 1)) :
    ∃ d m, monthFrom year left month days = (d, m) ∧ m < 12 ∧ d < monthLength year (m + 1) ∧
      Date.next^[days] ⟨year, month + 1, 1⟩ = ⟨year, m + 1, 1 + d⟩ := by
  induction left generalizing month days with
  | zero => exact absurd within (Nat.not_lt_zero days)
  | succ left ih =>
    rw [monthFrom, daysInMonth_eq year month (by omega)]
    rw [Date.daysFrom] at within
    by_cases inside : days < monthLength year (month + 1)
    · exact ⟨days, month, if_pos inside, by omega, inside, Date.within_month (by omega)⟩
    obtain ⟨d, m, found, low, short, same⟩ := ih (month + 1) (days - monthLength year (month + 1)) (by omega) (by omega)
    refine ⟨d, m, (if_neg inside).trans found, low, short, ?_⟩
    -- With no month left there would be no day left.
    have earlier : month + 1 < 12 := by
      rcases left with _ | left
      · rw [Date.daysFrom] at within
        omega
      · omega
    calc Date.next^[days] ⟨year, month + 1, 1⟩
        = Date.next^[days - monthLength year (month + 1) + monthLength year (month + 1)] ⟨year, month + 1, 1⟩ := by
          rw [Nat.sub_add_cancel (Nat.le_of_not_lt inside)]
      _ = ⟨year, m + 1, 1 + d⟩ := by rw [Function.iterate_add_apply, Date.next_month earlier, same]

/-! ### The conversion -/

def Datetime.date (dt : Datetime) : Date := ⟨dt.year, dt.month, dt.day⟩

def Datetime.fields (dt : Datetime) : List Nat := [dt.year, dt.month, dt.day, dt.hour, dt.minute, dt.second]

def origin : Date := ⟨1970, 1, 1⟩

/-- The date is `days` days after the first of January 1970, and `seconds` is the time from then on. -/
structure Shows (dt : Datetime) (seconds days : Nat) : Prop where
  date : dt.date.Valid
  hour : dt.hour < 24
  minute : dt.minute < 60
  second : dt.second < 60
  count : Date.next^[days] origin = dt.date
  total : 86400 * days + 3600 * dt.hour + 60 * dt.minute + dt.second = seconds
  weekday : dt.weekday = (days + 4) % 7

theorem unixToDatetime_spec {t : Nat} (early : t < 2 ^ 55) :
    ∃ dt, unixToDatetime t = some dt ∧ Shows dt (t + 7200) ((t + 7200) / 86400) := by
  obtain ⟨rest, year, found, inYear, years⟩ := yearFrom_spec ((t + 7200) / 86400) 1970 (by omega)
  rw [← Date.daysFrom_year] at inYear
  obtain ⟨days, month, broke, low, inMonth, months⟩ := monthFrom_spec year 12 0 rest rfl inYear
  have short : monthLength year (month + 1) ≤ 31 := by
    unfold monthLength
    split
    · split <;> decide
    all_goals decide
  refine ⟨⟨year, month + 1, days + 1, (t + 7200) % 86400 / 3600, (t + 7200) % 86400 % 3600 / 60, (t + 7200) % 86400 % 60,
    ((t + 7200) / 86400 + 4) % 7⟩, ?_, ?_⟩
  · have int : ∀ n < 2 ^ 31, asInt n = some n := fun n small => if_pos small
    have uint : ∀ n < 2 ^ 64, asUint64 n = some n := fun n small => if_pos small
    simp only [unixToDatetime, show CAIRO_OFFSET = 7200 from rfl, Option.bind_eq_bind]
    rw [uint (t + 7200) (by omega), Option.bind_some, uint ((t + 7200) / 86400 + 4) (by omega), Option.bind_some,
      int (((t + 7200) / 86400 + 4) % 7) (by omega), Option.bind_some, found, Option.bind_some, broke,
      int (month + 1) (by omega), Option.bind_some, int (days + 1) (by omega), Option.bind_some,
      int ((t + 7200) % 86400 / 3600) (by omega), Option.bind_some, int ((t + 7200) % 86400 % 3600 / 60) (by omega),
      Option.bind_some, int ((t + 7200) % 86400 % 60) (by omega), Option.bind_some]
    rfl
  · refine ⟨⟨by show 1 ≤ month + 1; omega, low, by show 1 ≤ days + 1; omega, inMonth⟩, ?_, ?_, ?_, ?_, ?_, rfl⟩
    · show (t + 7200) % 86400 / 3600 < 24
      omega
    · show (t + 7200) % 86400 % 3600 / 60 < 60
      omega
    · show (t + 7200) % 86400 % 60 < 60
      omega
    · rw [Datetime.date, Nat.add_comm days 1, ← months, years]
      rfl
    · show 86400 * ((t + 7200) / 86400) + 3600 * ((t + 7200) % 86400 / 3600) + 60 * ((t + 7200) % 86400 % 3600 / 60) +
        (t + 7200) % 86400 % 60 = t + 7200
      omega

theorem fields_lt {dt dt' : Datetime} {seconds seconds' days days' : Nat} (shows : Shows dt seconds days)
    (shows' : Shows dt' seconds' days') (later : seconds < seconds') : dt.fields < dt'.fields := by
  have count := shows.count
  have count' := shows'.count
  have total := shows.total
  have total' := shows'.total
  have bounds' := shows'.hour
  have minutes' := shows'.minute
  have seconds' := shows'.second
  simp only [Datetime.fields, List.cons_lt_cons_iff]
  rcases Nat.lt_trichotomy days days' with earlier | same | wrong
  · have smaller := Date.iterate_lt origin earlier
    rw [count, count'] at smaller
    simp only [Date.fields, Datetime.date, List.cons_lt_cons_iff, List.not_lt_nil, and_false, or_false] at smaller
    omega
  · rw [same, count', Datetime.date, Datetime.date, Date.mk.injEq] at count
    omega
  · omega

/-- From every time of the clock that is below `2^55` seconds, the conversion comes to an end without an overflow, with
a valid date that is as many days after 1 January 1970 as the seconds say; and it is strictly increasing. -/
theorem datetime_correct (epoch : Epoch) (time : UInt64) : ∃ t, getCurrentTime epoch time = some t ∧
    (t < 2 ^ 55 → ∃ dt, unixToDatetime t = some dt ∧ (∃ days, Shows dt (t + 7200) days) ∧
      ∀ t' < t, ∃ dt', unixToDatetime t' = some dt' ∧ dt'.fields < dt.fields) := by
  have fits := epoch.fits
  have ticks := time.toNat_lt
  refine ⟨epoch.seconds + time.toNat / 10000000, if_pos (by omega), fun early => ?_⟩
  obtain ⟨dt, found, shows⟩ := unixToDatetime_spec early
  refine ⟨dt, found, ⟨_, shows⟩, fun t' sooner => ?_⟩
  obtain ⟨dt', found', shows'⟩ := unixToDatetime_spec (Nat.lt_trans sooner early)
  exact ⟨dt', found', fields_lt shows' shows (by omega)⟩

end Xv6Monitor.Util.Dates
