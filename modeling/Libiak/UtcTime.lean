/-
`base/TimeZone.cpp`: `toUtcTime` and `fromUtcTime`.

The division of C++ rounds towards zero, so the seconds before 1970 need the
fix-up `toUtcTime` makes; after it the seconds of the day and the day are those
of the division that rounds down (`splitDay_eq`), and the rest is the calendar
of `Date.lean`.
-/
import Libiak.Date

set_option autoImplicit false

namespace Libiak.Base

open CInt Gregorian

/-- Where `tm_zone` points: nowhere, to a literal, or into an abbreviation. -/
inductive Zone where
  | null
  | literal (text : String)
  | abbreviation (index : ℤ)
  deriving DecidableEq

/-- `struct tm`. -/
structure Tm where
  tm_sec : ℤ
  tm_min : ℤ
  tm_hour : ℤ
  tm_mday : ℤ
  tm_mon : ℤ
  tm_year : ℤ
  tm_wday : ℤ
  tm_yday : ℤ
  tm_isdst : ℤ
  tm_gmtoff : ℤ
  tm_zone : Zone
  deriving DecidableEq

/-- `bzero` of a `struct tm`. -/
def Tm.zero : Tm := ⟨0, 0, 0, 0, 0, 0, 0, 0, 0, 0, .null⟩

def kSecondsPerDay : ℤ := 24 * 60 * 60

/-- `Date::kJulianDayOf1970_01_01`. -/
def kJulianDayOf1970_01_01 : ℤ := (getJulianDayNumber 1970 1 1).getD 0

/-- `fillHMS`, on unsigned seconds. -/
def fillHMS (seconds : ℤ) (utc : Tm) : Tm :=
  let minutes := seconds / 60
  { utc with tm_sec := seconds % 60, tm_min := minutes % 60, tm_hour := minutes / 60 }

/-- The seconds of the day and the day, the first four statements of
`toUtcTime`. -/
def splitDay (time : ℤ) : Option (ℤ × ℤ) :=
  let seconds := cast (time.tmod kSecondsPerDay)
  let days := cast (time.tdiv kSecondsPerDay)
  if seconds < 0 then do
    let seconds ← add seconds kSecondsPerDay
    let days ← sub days 1
    some (seconds, days)
  else some (seconds, days)

/-- `Date::weekDay`. -/
def Date.weekDay (julianDayNumber : ℤ) : Option ℤ := do
  mod (← add julianDayNumber 1) 7

/-- `TimeZone::toUtcTime`. -/
def toUtcTime (time : ℤ) (yday : Bool) : Option Tm := do
  let utc := { Tm.zero with tm_zone := .literal "GMT" }
  let (seconds, days) ← splitDay time
  let utc := fillHMS seconds utc
  let date ← add days kJulianDayOf1970_01_01
  let ymd ← getYearMonthDay date
  let year ← sub ymd.year 1900
  let mon ← sub ymd.month 1
  let wday ← Date.weekDay date
  let utc := { utc with tm_year := year, tm_mon := mon, tm_mday := ymd.day, tm_wday := wday }
  if yday then
    let startOfYear ← getJulianDayNumber ymd.year 1 1
    let yday ← sub date startOfYear
    some { utc with tm_yday := yday }
  else some utc

/-- `TimeZone::fromUtcTime(int, int, int, int, int, int)`; the result is a
`time_t`, which the product of an `int` and a day fits. -/
def fromUtcTime (year month day hour minute seconds : ℤ) : Option ℤ := do
  let date ← getJulianDayNumber year month day
  let secondsInDay ← add (← add (← mul hour 3600) (← mul minute 60)) seconds
  let days ← sub date kJulianDayOf1970_01_01
  some (days * kSecondsPerDay + secondsInDay)

/-- `TimeZone::fromUtcTime(const struct tm&)`. -/
def fromUtcTimeTm (utc : Tm) : Option ℤ := do
  let year ← add utc.tm_year 1900
  let month ← add utc.tm_mon 1
  fromUtcTime year month utc.tm_mday utc.tm_hour utc.tm_min utc.tm_sec

/-! ## What the fields say -/

/-- The date of a `struct tm`. -/
def Tm.date (x : Tm) : YearMonthDay := ⟨x.tm_year + 1900, x.tm_mon + 1, x.tm_mday⟩

/-- The fields are in their ranges, and the date is one of the calendar. -/
structure Tm.Canonical (x : Tm) : Prop where
  sec : 0 ≤ x.tm_sec ∧ x.tm_sec ≤ 59
  min : 0 ≤ x.tm_min ∧ x.tm_min ≤ 59
  hour : 0 ≤ x.tm_hour ∧ x.tm_hour ≤ 23
  real : x.date.Real

/-- The day numbers the conversions are made for. -/
def InDays (n : ℤ) : Prop := 1 ≤ n ∧ n ≤ 536838867

/-- The day number of a time. -/
def dayOf (time : ℤ) : ℤ := time / 86400 + 2440588

theorem InDays.inRange {n : ℤ} (h : InDays n) : InRange n := by
  obtain ⟨hlow, hhigh⟩ := h
  exact ⟨by omega, by omega⟩

theorem kJulianDayOf1970_01_01_eq : kJulianDayOf1970_01_01 = 2440588 := by decide

/-- The fix-up makes the division one that rounds down. -/
theorem splitDay_eq {time : ℤ} (h : InDays (dayOf time)) :
    splitDay time = some (time % 86400, time / 86400) := by
  obtain ⟨hlow, hhigh⟩ := h
  unfold dayOf at hlow hhigh
  unfold splitDay kSecondsPerDay
  by_cases hneg : time < 0
  · -- before 1970 both results of the division are those of the negated time
    obtain ⟨u, rfl⟩ : ∃ u, time = -u := ⟨-time, (Int.neg_neg time).symm⟩
    have hu : 0 ≤ u := by omega
    rw [show (24 * 60 * 60 : ℤ) = 86400 from rfl, Int.neg_tmod, Int.neg_tdiv,
      Int.tmod_eq_emod_of_nonneg hu, Int.tdiv_eq_ediv_of_nonneg hu,
      cast_eq ⟨by omega, by omega⟩, cast_eq ⟨by omega, by omega⟩]
    by_cases hday : u % 86400 = 0
    · rw [if_neg (by omega)]
      simp only [Option.some.injEq, Prod.mk.injEq]
      omega
    · have h1 : add (-(u % 86400)) 86400 = some (-u % 86400) := by
        rw [add_eq ⟨by omega, by omega⟩, Option.some.injEq]
        omega
      have h2 : sub (-(u / 86400)) 1 = some (-u / 86400) := by
        rw [sub_eq ⟨by omega, by omega⟩, Option.some.injEq]
        omega
      rw [if_pos (by omega), bind_eq h1, bind_eq h2]
  · have hpos : 0 ≤ time := by omega
    rw [show (24 * 60 * 60 : ℤ) = 86400 from rfl, Int.tmod_eq_emod_of_nonneg hpos,
      Int.tdiv_eq_ediv_of_nonneg hpos, cast_eq ⟨by omega, by omega⟩,
      cast_eq ⟨by omega, by omega⟩, if_neg (by omega)]

/-- The seconds of a day, as hours, minutes and seconds. -/
theorem fillHMS_ranges {seconds : ℤ} (h : 0 ≤ seconds ∧ seconds < 86400) :
    (0 ≤ seconds / 60 / 60 ∧ seconds / 60 / 60 ≤ 23)
      ∧ seconds / 60 / 60 * 3600 + seconds / 60 % 60 * 60 + seconds % 60 = seconds := by
  omega

/-- `toUtcTime` on a time of the range: the date of its day number and the time
of its seconds. -/
theorem toUtcTime_eq {time : ℤ} (h : InDays (dayOf time)) (yday : Bool) :
    toUtcTime time yday = some { Tm.zero with
      tm_sec := time % 86400 % 60
      tm_min := time % 86400 / 60 % 60
      tm_hour := time % 86400 / 60 / 60
      tm_mday := (ofDayNumber (dayOf time)).day
      tm_mon := (ofDayNumber (dayOf time)).month - 1
      tm_year := (ofDayNumber (dayOf time)).year - 1900
      tm_wday := weekDay (dayOf time)
      tm_yday := if yday then dayOf time - dayNumber ⟨(ofDayNumber (dayOf time)).year, 1, 1⟩ else 0
      tm_zone := .literal "GMT" } := by
  obtain ⟨hreal, hnumber⟩ := dayNumber_ofDayNumber (dayOf time)
  obtain ⟨d, hd⟩ : ∃ d, d = ofDayNumber (dayOf time) := ⟨_, rfl⟩
  rw [← hd] at hreal hnumber
  obtain ⟨hylow, hyhigh⟩ := year_bounds hreal (by rw [hnumber]; exact h.inRange)
  have hmonth := hreal.1
  have hsplit := splitDay_eq h
  obtain ⟨hlow, hhigh⟩ := id h
  have h1 : add (time / 86400) kJulianDayOf1970_01_01 = some (dayOf time) := by
    unfold dayOf at *
    rw [kJulianDayOf1970_01_01_eq, add_eq ⟨by omega, by omega⟩]
  have h2 : getYearMonthDay (dayOf time) = some d := by rw [getYearMonthDay_eq h.inRange, hd]
  have h3 : sub d.year 1900 = some (d.year - 1900) := sub_eq ⟨by omega, by omega⟩
  have h4 : sub d.month 1 = some (d.month - 1) := sub_eq ⟨by omega, by omega⟩
  have h5 : Date.weekDay (dayOf time) = some (weekDay (dayOf time)) := by
    unfold Date.weekDay
    rw [bind_eq (add_eq ⟨by omega, by omega⟩), mod_eq (by omega) (by decide) ⟨by omega, by omega⟩,
      weekDay, Option.some.injEq]
    omega
  unfold toUtcTime
  rw [hsplit, ← hd]
  cases yday with
  | false =>
      simp only [Option.bind_eq_bind, Option.bind_some, h1, h2, h3, h4, h5, fillHMS, Tm.zero]
      rfl
  | true =>
      -- the first of January, which may be before the range
      have hjan : Date.Real ⟨d.year, 1, 1⟩ := by
        refine ⟨⟨by simp, by simp⟩, by simp, ?_⟩
        simp [daysOfMonth]
      have hyear := dayNumber_in_year hreal
      have hjanyear := dayNumber_in_year hjan
      rw [hnumber] at hyear
      have h6 : getJulianDayNumber d.year 1 1 = some (dayNumber ⟨d.year, 1, 1⟩) := by
        apply getJulianDayNumber_eq hjan _ hyhigh
        show 0 ≤ d.year + 4800 - (14 - 1) / 12
        unfold daysBeforeYear at hyear
        omega
      have h7 : sub (dayOf time) (dayNumber ⟨d.year, 1, 1⟩)
          = some (dayOf time - dayNumber ⟨d.year, 1, 1⟩) := by
        apply sub_eq
        dsimp only at hjanyear
        rw [daysBeforeYear_succ] at hyear hjanyear
        constructor
        · split at hyear <;> omega
        · split at hyear <;> omega
      simp only [Option.bind_eq_bind, Option.bind_some, h1, h2, h3, h4, h5, h6, h7, fillHMS,
        Tm.zero]
      rfl

/-- The same, field by field, with the date put together. -/
theorem toUtcTime_fields {time : ℤ} (h : InDays (dayOf time)) (yday : Bool) :
    ∃ x, toUtcTime time yday = some x ∧ x.date = ofDayNumber (dayOf time)
      ∧ x.tm_sec = time % 86400 % 60 ∧ x.tm_min = time % 86400 / 60 % 60
      ∧ x.tm_hour = time % 86400 / 60 / 60 ∧ x.tm_wday = weekDay (dayOf time)
      ∧ x.tm_yday = if yday then dayOf time
          - dayNumber ⟨(ofDayNumber (dayOf time)).year, 1, 1⟩ else 0 := by
  refine ⟨_, toUtcTime_eq h yday, ?_, rfl, rfl, rfl, rfl, rfl⟩
  apply Date.ext
  · exact Int.sub_add_cancel _ 1900
  · exact Int.sub_add_cancel _ 1
  · rfl

/-- `fromUtcTime` of canonical fields in the range. -/
theorem fromUtcTimeTm_eq {x : Tm} (hx : x.Canonical) (h : InDays (dayNumber x.date)) :
    fromUtcTimeTm x = some ((dayNumber x.date - 2440588) * 86400
      + (x.tm_hour * 3600 + x.tm_min * 60 + x.tm_sec)) := by
  obtain ⟨hsec, hmin, hhour, hreal⟩ := hx
  obtain ⟨hylow, hyhigh⟩ := year_bounds hreal h.inRange
  have hmonth := hreal.1
  obtain ⟨hlow, hhigh⟩ := h
  dsimp only [Tm.date] at hylow hyhigh hmonth
  have h1 : add x.tm_year 1900 = some (x.tm_year + 1900) := add_eq ⟨by omega, by omega⟩
  have h2 : add x.tm_mon 1 = some (x.tm_mon + 1) := add_eq ⟨by omega, by omega⟩
  have h3 : getJulianDayNumber (x.tm_year + 1900) (x.tm_mon + 1) x.tm_mday
      = some (dayNumber x.date) := getJulianDayNumber_eq (d := x.date) hreal hylow hyhigh
  have h4 : mul x.tm_hour 3600 = some (x.tm_hour * 3600) := mul_eq ⟨by omega, by omega⟩
  have h5 : mul x.tm_min 60 = some (x.tm_min * 60) := mul_eq ⟨by omega, by omega⟩
  have h6 : add (x.tm_hour * 3600) (x.tm_min * 60) = some (x.tm_hour * 3600 + x.tm_min * 60) :=
    add_eq ⟨by omega, by omega⟩
  have h7 : add (x.tm_hour * 3600 + x.tm_min * 60) x.tm_sec
      = some (x.tm_hour * 3600 + x.tm_min * 60 + x.tm_sec) := add_eq ⟨by omega, by omega⟩
  have h8 : sub (dayNumber x.date) kJulianDayOf1970_01_01 = some (dayNumber x.date - 2440588) := by
    rw [kJulianDayOf1970_01_01_eq, sub_eq ⟨by omega, by omega⟩]
  unfold fromUtcTimeTm fromUtcTime
  rw [bind_eq h1, bind_eq h2, bind_eq h3, bind_eq h4, bind_eq h5, bind_eq h6, bind_eq h7,
    bind_eq h8]
  rfl

/-- **The UTC conversions are inverse.** For every time whose day number is in
the range, `toUtcTime` yields canonical fields with the day of the week and the
day of the year of their date, and `fromUtcTime` takes them back to the time. For
canonical fields whose day number is in the range, `fromUtcTime` yields a time
that `toUtcTime` takes back to the same date and time fields. -/
theorem utc_round_trip :
    (∀ time, InDays (dayOf time) → ∃ x, toUtcTime time true = some x ∧ x.Canonical
        ∧ x.tm_wday = weekDay (dayNumber x.date)
        ∧ x.tm_yday = daysBeforeMonth x.date.year x.date.month + (x.date.day - 1)
        ∧ fromUtcTimeTm x = some time)
      ∧ ∀ x : Tm, x.Canonical → InDays (dayNumber x.date) → ∀ yday,
        ∃ time y, fromUtcTimeTm x = some time ∧ toUtcTime time yday = some y
          ∧ y.date = x.date ∧ y.tm_hour = x.tm_hour ∧ y.tm_min = x.tm_min
          ∧ y.tm_sec = x.tm_sec := by
  constructor
  · intro time h
    obtain ⟨hreal, hnumber⟩ := dayNumber_ofDayNumber (dayOf time)
    obtain ⟨x, hx, hdate, hsec, hmin, hhour, hwday, hyday⟩ := toUtcTime_fields h true
    have hseconds : 0 ≤ time % 86400 ∧ time % 86400 < 86400 := ⟨by omega, by omega⟩
    obtain ⟨hours, hsum⟩ := fillHMS_ranges hseconds
    rw [← hdate] at hreal hnumber
    have hcanonical : x.Canonical := ⟨by omega, by omega, by omega, hreal⟩
    refine ⟨x, hx, hcanonical, ?_, ?_, ?_⟩
    · rw [hwday, hnumber]
    · rw [if_pos rfl, ← hdate, ← hnumber] at hyday
      rw [hyday]
      have hjan : daysBeforeMonth x.date.year 1 = 0 := rfl
      unfold dayNumber
      dsimp only
      rw [hjan]
      omega
    · rw [fromUtcTimeTm_eq hcanonical (by rw [hnumber]; exact h), hnumber, hsec, hmin, hhour, hsum,
        Option.some.injEq]
      unfold dayOf
      omega
  · intro x hx h yday
    obtain ⟨hsec, hmin, hhour, hreal⟩ := id hx
    obtain ⟨time, htime⟩ : ∃ time, time = (dayNumber x.date - 2440588) * 86400
        + (x.tm_hour * 3600 + x.tm_min * 60 + x.tm_sec) := ⟨_, rfl⟩
    have hday : dayOf time = dayNumber x.date := by
      unfold dayOf
      omega
    have hdays : InDays (dayOf time) := by
      rw [hday]
      exact h
    obtain ⟨y, hy, hdate, hysec, hymin, hyhour, -⟩ := toUtcTime_fields hdays yday
    refine ⟨time, y, ?_, hy, ?_, ?_, ?_, ?_⟩
    · rw [fromUtcTimeTm_eq hx h, htime]
    · rw [hdate, hday, ofDayNumber_dayNumber hreal]
    · omega
    · omega
    · omega

/-- The last second before 1970, and back. -/
theorem utc_round_trip_before :
    (∃ x, toUtcTime (-1) true = some x ∧ x.Canonical
        ∧ x.tm_wday = weekDay (dayNumber x.date)
        ∧ x.tm_yday = daysBeforeMonth x.date.year x.date.month + (x.date.day - 1)
        ∧ fromUtcTimeTm x = some (-1))
      ∧ ∃ time y, fromUtcTimeTm ⟨59, 59, 23, 31, 11, 69, 0, 0, 0, 0, .null⟩ = some time
          ∧ toUtcTime time false = some y ∧ y.date = ⟨1969, 12, 31⟩ ∧ y.tm_hour = 23
          ∧ y.tm_min = 59 ∧ y.tm_sec = 59 :=
  ⟨utc_round_trip.1 (-1) ⟨by decide, by decide⟩,
    utc_round_trip.2 ⟨59, 59, 23, 31, 11, 69, 0, 0, 0, 0, .null⟩
      ⟨by decide, by decide, by decide, by decide⟩ ⟨by decide, by decide⟩ false⟩

end Libiak.Base
