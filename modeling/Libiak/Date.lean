/-
`base/Date.cpp`: the conversions between a Julian day number and a date.

Both are chains of `int` operations. In the range the header is written for,
and far beyond it, none of them overflows and the two are the count of days and
its inverse (`civil_bijection`): from the first day whose sum with 32044 is not
negative on, to the last one for which four times that sum fits an `int`.
-/
import Libiak.CInt
import Libiak.Gregorian

set_option autoImplicit false

namespace Libiak.Base

open CInt Gregorian

/-- `Date::YearMonthDay`. -/
abbrev YearMonthDay := Gregorian.Date

/-- `getJulianDayNumber`. -/
def getJulianDayNumber (year month day : ℤ) : Option ℤ := do
  let a ← div (← sub 14 month) 12
  let y ← sub (← add year 4800) a
  let m ← sub (← add month (← mul 12 a)) 3
  -- the sum, from left to right
  let sum ← add day (← div (← add (← mul 153 m) 2) 5)
  let sum ← add sum (← mul y 365)
  let sum ← add sum (← div y 4)
  let sum ← sub sum (← div y 100)
  let sum ← add sum (← div y 400)
  sub sum 32045

/-- `getYearMonthDay`. -/
def getYearMonthDay (julianDayNumber : ℤ) : Option YearMonthDay := do
  let a ← add julianDayNumber 32044
  let b ← div (← add (← mul 4 a) 3) 146097
  let c ← sub a (← div (← mul b 146097) 4)
  let d ← div (← add (← mul 4 c) 3) 1461
  let e ← sub c (← div (← mul 1461 d) 4)
  let m ← div (← add (← mul 5 e) 2) 153
  let day ← add (← sub e (← div (← add (← mul 153 m) 2) 5)) 1
  let month ← sub (← add m 3) (← mul 12 (← div m 10))
  let year ← add (← sub (← add (← mul b 100) d) 4800) (← div m 10)
  some { year := year, month := month, day := day }

/-- A day number both conversions are made for. -/
def InRange (n : ℤ) : Prop := 0 ≤ n + 32044 ∧ 4 * (n + 32044) + 3 < 2147483648

instance (n : ℤ) : Decidable (InRange n) := inferInstanceAs (Decidable (_ ∧ _))

/-- In the range no step of `getYearMonthDay` overflows, and its divisions are
those of the calendar's conversion. -/
theorem getYearMonthDay_eq {n : ℤ} (h : InRange n) :
    getYearMonthDay n = some (ofDayNumber n) := by
  obtain ⟨hlow, hhigh⟩ := h
  obtain ⟨a, ha⟩ : ∃ a, a = n + 32044 := ⟨_, rfl⟩
  obtain ⟨b, hb⟩ : ∃ b, b = (4 * a + 3) / 146097 := ⟨_, rfl⟩
  obtain ⟨c, hc⟩ : ∃ c, c = a - b * 146097 / 4 := ⟨_, rfl⟩
  obtain ⟨d, hd⟩ : ∃ d, d = (4 * c + 3) / 1461 := ⟨_, rfl⟩
  obtain ⟨e, he⟩ : ∃ e, e = c - 1461 * d / 4 := ⟨_, rfl⟩
  obtain ⟨m, hm⟩ : ∃ m, m = (5 * e + 2) / 153 := ⟨_, rfl⟩
  obtain ⟨hcr, hdr, her, -⟩ := ofDayNumber_ranges n ha hb hc hd he
  have hbr : 0 ≤ b ∧ b ≤ 14699 := by omega
  have hmr : 0 ≤ m ∧ m ≤ 11 := by omega
  have hb' : b * 146097 ≤ 4 * a + 3 := by omega
  have heq : ofDayNumber n = { year := b * 100 + d - 4800 + m / 10
                               month := m + 3 - 12 * (m / 10)
                               day := e - (153 * m + 2) / 5 + 1 } := by
    rw [hm, he, hd, hc, hb, ha]
    rfl
  -- the steps, each in its range
  have h1 : add n 32044 = some a := by rw [ha, add_eq ⟨by omega, by omega⟩]
  have h2 : mul 4 a = some (4 * a) := mul_eq ⟨by omega, by omega⟩
  have h3 : add (4 * a) 3 = some (4 * a + 3) := add_eq ⟨by omega, by omega⟩
  have h4 : div (4 * a + 3) 146097 = some b := by
    rw [hb, div_eq (by omega) (by decide) ⟨by omega, by omega⟩]
  have h5 : mul b 146097 = some (b * 146097) := mul_eq ⟨by omega, by omega⟩
  have h6 : div (b * 146097) 4 = some (b * 146097 / 4) :=
    div_eq (by omega) (by decide) ⟨by omega, by omega⟩
  have h7 : sub a (b * 146097 / 4) = some c := by rw [hc, sub_eq ⟨by omega, by omega⟩]
  clear hb hb' ha hc hlow hhigh
  have h8 : mul 4 c = some (4 * c) := mul_eq ⟨by omega, by omega⟩
  have h9 : add (4 * c) 3 = some (4 * c + 3) := add_eq ⟨by omega, by omega⟩
  have h10 : div (4 * c + 3) 1461 = some d := by
    rw [hd, div_eq (by omega) (by decide) ⟨by omega, by omega⟩]
  have h11 : mul 1461 d = some (1461 * d) := mul_eq ⟨by omega, by omega⟩
  have h12 : div (1461 * d) 4 = some (1461 * d / 4) :=
    div_eq (by omega) (by decide) ⟨by omega, by omega⟩
  have h13 : sub c (1461 * d / 4) = some e := by rw [he, sub_eq ⟨by omega, by omega⟩]
  have h14 : mul 5 e = some (5 * e) := mul_eq ⟨by omega, by omega⟩
  have h15 : add (5 * e) 2 = some (5 * e + 2) := add_eq ⟨by omega, by omega⟩
  have h16 : div (5 * e + 2) 153 = some m := by
    rw [hm, div_eq (by omega) (by decide) ⟨by omega, by omega⟩]
  clear hd he hm hcr
  have h17 : mul 153 m = some (153 * m) := mul_eq ⟨by omega, by omega⟩
  have h18 : add (153 * m) 2 = some (153 * m + 2) := add_eq ⟨by omega, by omega⟩
  have h19 : div (153 * m + 2) 5 = some ((153 * m + 2) / 5) :=
    div_eq (by omega) (by decide) ⟨by omega, by omega⟩
  have h20 : sub e ((153 * m + 2) / 5) = some (e - (153 * m + 2) / 5) :=
    sub_eq ⟨by omega, by omega⟩
  have h21 : add (e - (153 * m + 2) / 5) 1 = some (e - (153 * m + 2) / 5 + 1) :=
    add_eq ⟨by omega, by omega⟩
  have h22 : add m 3 = some (m + 3) := add_eq ⟨by omega, by omega⟩
  have h23 : div m 10 = some (m / 10) := div_eq (by omega) (by decide) ⟨by omega, by omega⟩
  have h24 : mul 12 (m / 10) = some (12 * (m / 10)) := mul_eq ⟨by omega, by omega⟩
  have h25 : sub (m + 3) (12 * (m / 10)) = some (m + 3 - 12 * (m / 10)) :=
    sub_eq ⟨by omega, by omega⟩
  have h26 : mul b 100 = some (b * 100) := mul_eq ⟨by omega, by omega⟩
  have h27 : add (b * 100) d = some (b * 100 + d) := add_eq ⟨by omega, by omega⟩
  have h28 : sub (b * 100 + d) 4800 = some (b * 100 + d - 4800) := sub_eq ⟨by omega, by omega⟩
  have h29 : add (b * 100 + d - 4800) (m / 10) = some (b * 100 + d - 4800 + m / 10) :=
    add_eq ⟨by omega, by omega⟩
  rw [heq]
  unfold getYearMonthDay
  rw [bind_eq h1, bind_eq h2, bind_eq h3, bind_eq h4, bind_eq h5, bind_eq h6, bind_eq h7,
    bind_eq h8, bind_eq h9, bind_eq h10, bind_eq h11, bind_eq h12, bind_eq h13, bind_eq h14,
    bind_eq h15, bind_eq h16, bind_eq h17, bind_eq h18, bind_eq h19, bind_eq h20, bind_eq h21,
    bind_eq h22, bind_eq h23, bind_eq h24, bind_eq h25, bind_eq h26, bind_eq h27, bind_eq h28,
    bind_eq h23, bind_eq h29]

/-- The days of a real date, for bounds. -/
theorem day_le {d : YearMonthDay} (hreal : d.Real) :
    d.day ≤ 31 ∧ (d.month = 2 → d.day ≤ 29) := by
  obtain ⟨-, -, hlast⟩ := hreal
  unfold daysOfMonth at hlast
  by_cases hfeb : d.month = 2
  · rw [if_pos hfeb] at hlast
    split at hlast
    · omega
    · omega
  · rw [if_neg hfeb] at hlast
    split at hlast
    · omega
    · omega

/-- The years of the range. -/
theorem year_bounds {d : YearMonthDay} (hreal : d.Real) (h : InRange (dayNumber d)) :
    0 ≤ d.year + 4800 - (14 - d.month) / 12 ∧ d.year ≤ 1500000 := by
  obtain ⟨hlow, hhigh⟩ := h
  have hmonth := hreal.1
  constructor
  · have hday := day_le hreal
    rw [dayNumber_eq hmonth] at hlow
    unfold marchDayNumber at hlow
    obtain ⟨y, hy⟩ : ∃ y, y = d.year + 4800 - (14 - d.month) / 12 := ⟨_, rfl⟩
    obtain ⟨m, hm⟩ : ∃ m, m = d.month + 12 * ((14 - d.month) / 12) - 3 := ⟨_, rfl⟩
    have hdays : d.day + (153 * m + 2) / 5 ≤ 366 := by
      obtain ⟨h31, h29⟩ := hday
      clear hlow hy
      by_cases hfeb : d.month = 2
      · have := h29 hfeb
        have hm11 : m = 11 := by omega
        omega
      · have hm10 : m ≤ 10 := by omega
        omega
    rw [← hy, ← hm] at hlow
    rw [← hy]
    clear hy hm hday hmonth hhigh
    omega
  · have hyear := (dayNumber_in_year hreal).1
    unfold daysBeforeYear at hyear
    omega

/-- The largest of the partial sums of `getJulianDayNumber`, that before the
centuries are taken off. -/
def partialSum (d : YearMonthDay) : ℤ :=
  let y := d.year + 4800 - (14 - d.month) / 12
  let m := d.month + 12 * ((14 - d.month) / 12) - 3
  d.day + (153 * m + 2) / 5 + y * 365 + y / 4

/-- The day number is below it, by the centuries and the days before the epoch. -/
theorem dayNumber_partialSum {d : YearMonthDay} (hmonth : 1 ≤ d.month ∧ d.month ≤ 12) :
    dayNumber d = partialSum d - (d.year + 4800 - (14 - d.month) / 12) / 100
      + (d.year + 4800 - (14 - d.month) / 12) / 400 - 32045 := by
  rw [dayNumber_eq hmonth]
  unfold marchDayNumber partialSum
  dsimp only
  omega

/-- No step of `getJulianDayNumber` overflows on a real date of a year that is not
negative, if the largest partial sum does not, and the sum is the day number. -/
theorem getJulianDayNumber_of_partialSum {d : YearMonthDay} (hreal : d.Real)
    (hlow : 0 ≤ d.year + 4800 - (14 - d.month) / 12) (hhigh : partialSum d ≤ 2147483647) :
    getJulianDayNumber d.year d.month d.day = some (dayNumber d) := by
  have hmonth := hreal.1
  have hday : 1 ≤ d.day ∧ d.day ≤ 31 := ⟨hreal.2.1, (day_le hreal).1⟩
  obtain ⟨a, ha⟩ : ∃ a, a = (14 - d.month) / 12 := ⟨_, rfl⟩
  obtain ⟨y, hy⟩ : ∃ y, y = d.year + 4800 - a := ⟨_, rfl⟩
  obtain ⟨m, hm⟩ : ∃ m, m = d.month + 12 * a - 3 := ⟨_, rfl⟩
  obtain ⟨k, hk⟩ : ∃ k, k = (153 * m + 2) / 5 := ⟨_, rfl⟩
  have har : 0 ≤ a ∧ a ≤ 1 := by omega
  have hyr : 0 ≤ y := by omega
  have hmr : 0 ≤ m ∧ m ≤ 11 := by omega
  have hkr : 0 ≤ k ∧ k ≤ 337 := by omega
  have hsum : d.day + k + y * 365 + y / 4 ≤ 2147483647 := by
    unfold partialSum at hhigh
    rw [← ha, ← hy, ← hm] at hhigh
    dsimp only at hhigh
    omega
  have heq : dayNumber d = d.day + k + y * 365 + y / 4 - y / 100 + y / 400 - 32045 := by
    rw [dayNumber_eq hmonth, ← ha, ← hy, ← hm, marchDayNumber, ← hk, Int.mul_comm 365 y]
  have h1 : sub 14 d.month = some (14 - d.month) := sub_eq ⟨by omega, by omega⟩
  have h2 : div (14 - d.month) 12 = some a := by
    rw [ha, div_eq (by omega) (by decide) ⟨by omega, by omega⟩]
  have h3 : add d.year 4800 = some (d.year + 4800) := add_eq ⟨by omega, by omega⟩
  have h4 : sub (d.year + 4800) a = some y := by rw [hy, sub_eq ⟨by omega, by omega⟩]
  have h5 : mul 12 a = some (12 * a) := mul_eq ⟨by omega, by omega⟩
  have h6 : add d.month (12 * a) = some (d.month + 12 * a) := add_eq ⟨by omega, by omega⟩
  have h7 : sub (d.month + 12 * a) 3 = some m := by rw [hm, sub_eq ⟨by omega, by omega⟩]
  have h8 : mul 153 m = some (153 * m) := mul_eq ⟨by omega, by omega⟩
  have h9 : add (153 * m) 2 = some (153 * m + 2) := add_eq ⟨by omega, by omega⟩
  have h10 : div (153 * m + 2) 5 = some k := by
    rw [hk, div_eq (by omega) (by decide) ⟨by omega, by omega⟩]
  clear ha hy hm hk hhigh
  -- the sum
  have h11 : add d.day k = some (d.day + k) := add_eq ⟨by omega, by omega⟩
  have h12 : mul y 365 = some (y * 365) := mul_eq ⟨by omega, by omega⟩
  have h13 : add (d.day + k) (y * 365) = some (d.day + k + y * 365) := add_eq ⟨by omega, by omega⟩
  have h14 : div y 4 = some (y / 4) := div_eq (by omega) (by decide) ⟨by omega, by omega⟩
  have h15 : add (d.day + k + y * 365) (y / 4) = some (d.day + k + y * 365 + y / 4) :=
    add_eq ⟨by omega, by omega⟩
  have h16 : div y 100 = some (y / 100) := div_eq (by omega) (by decide) ⟨by omega, by omega⟩
  have h17 : sub (d.day + k + y * 365 + y / 4) (y / 100)
      = some (d.day + k + y * 365 + y / 4 - y / 100) := sub_eq ⟨by omega, by omega⟩
  have h18 : div y 400 = some (y / 400) := div_eq (by omega) (by decide) ⟨by omega, by omega⟩
  have h19 : add (d.day + k + y * 365 + y / 4 - y / 100) (y / 400)
      = some (d.day + k + y * 365 + y / 4 - y / 100 + y / 400) := add_eq ⟨by omega, by omega⟩
  have h20 : sub (d.day + k + y * 365 + y / 4 - y / 100 + y / 400) 32045
      = some (d.day + k + y * 365 + y / 4 - y / 100 + y / 400 - 32045) :=
    sub_eq ⟨by omega, by omega⟩
  unfold getJulianDayNumber
  rw [bind_eq h1, bind_eq h2, bind_eq h3, bind_eq h4, bind_eq h5, bind_eq h6, bind_eq h7,
    bind_eq h8, bind_eq h9, bind_eq h10, bind_eq h11, bind_eq h12, bind_eq h13, bind_eq h14,
    bind_eq h15, bind_eq h16, bind_eq h17, bind_eq h18, bind_eq h19, h20, heq]

/-- The same, for the years up to a round one. -/
theorem getJulianDayNumber_eq {d : YearMonthDay} (hreal : d.Real)
    (hlow : 0 ≤ d.year + 4800 - (14 - d.month) / 12) (hhigh : d.year ≤ 1500000) :
    getJulianDayNumber d.year d.month d.day = some (dayNumber d) := by
  have hmonth := hreal.1
  have hday := (day_le hreal).1
  apply getJulianDayNumber_of_partialSum hreal hlow
  unfold partialSum
  dsimp only
  omega

/-- **The conversions are inverse bijections.** For every day number in the range
no step of `getYearMonthDay` overflows, it yields a date of the calendar, and
`getJulianDayNumber` takes that date back. For every date of the calendar whose
day number is in the range no step of `getJulianDayNumber` overflows, it yields
that number, and `getYearMonthDay` takes the number back to the date. -/
theorem civil_bijection :
    (∀ n, InRange n → ∃ d : YearMonthDay, getYearMonthDay n = some d ∧ d.Real
        ∧ getJulianDayNumber d.year d.month d.day = some n)
      ∧ ∀ d : YearMonthDay, d.Real → InRange (dayNumber d) →
        getJulianDayNumber d.year d.month d.day = some (dayNumber d)
          ∧ getYearMonthDay (dayNumber d) = some d := by
  have hback : ∀ d : YearMonthDay, d.Real → InRange (dayNumber d) →
      getJulianDayNumber d.year d.month d.day = some (dayNumber d) := by
    intro d hreal hrange
    obtain ⟨hlow, hhigh⟩ := year_bounds hreal hrange
    exact getJulianDayNumber_eq hreal hlow hhigh
  constructor
  · intro n hrange
    obtain ⟨hreal, hnumber⟩ := dayNumber_ofDayNumber n
    refine ⟨ofDayNumber n, getYearMonthDay_eq hrange, hreal, ?_⟩
    have h := hback (ofDayNumber n) hreal
    rw [hnumber] at h
    exact h hrange
  · intro d hreal hrange
    refine ⟨hback d hreal hrange, ?_⟩
    rw [getYearMonthDay_eq hrange, ofDayNumber_dayNumber hreal]

/-- The first of January 1970, both ways. -/
theorem civil_bijection_epoch :
    (∃ d : YearMonthDay, getYearMonthDay 2440588 = some d ∧ d.Real
        ∧ getJulianDayNumber d.year d.month d.day = some 2440588)
      ∧ getJulianDayNumber 1970 1 1 = some (dayNumber ⟨1970, 1, 1⟩)
        ∧ getYearMonthDay (dayNumber ⟨1970, 1, 1⟩) = some ⟨1970, 1, 1⟩ :=
  ⟨civil_bijection.1 2440588 (by decide), civil_bijection.2 ⟨1970, 1, 1⟩ (by decide) (by decide)⟩

end Libiak.Base
