/-
`base/Date.h`: what the comparisons of `Date` and its day of the week say about
the dates.

A `Date` is its day number. `getJulianDayNumber` has a value for the real dates
from the first of March -4800 up to the last one whose largest partial sum fits
an `int` (`getJulianDayNumber_eq_some_iff`), and that sum grows with the date, so
it is an interval of the calendar without a gap. On it the number counts the days
(`Gregorian.dayNumber_next`), and the rest follows from the count.
-/
import Libiak.UtcTime

set_option autoImplicit false

namespace Libiak.Base

open CInt Gregorian

/-- `Date::valid`. -/
def Date.valid (julianDayNumber : ℤ) : Bool := decide (julianDayNumber > 0)

/-- `Date::operator<`. -/
def Date.lt (lhs rhs : ℤ) : Bool := decide (lhs < rhs)

/-- `Date::operator==`. -/
def Date.eq (lhs rhs : ℤ) : Bool := decide (lhs = rhs)

/-- The dates from the first of March -4800 on. -/
def FromEpoch (d : YearMonthDay) : Prop := ¬ d.Before ⟨-4800, 3, 1⟩

/-! ## The dates that have a number -/

/-- The year from March on, counted from -4800. -/
def marchYear (d : YearMonthDay) : ℤ := d.year + 4800 - (14 - d.month) / 12

theorem FromEpoch.year_nonneg {d : YearMonthDay} (h : FromEpoch d)
    (hmonth : 1 ≤ d.month ∧ d.month ≤ 12) : 0 ≤ marchYear d := by
  unfold FromEpoch Date.Before at h
  unfold marchYear
  dsimp only at h
  omega

/-- The year from March on does not go back. -/
theorem marchYear_le {d e : YearMonthDay} (hd : d.Real) (he : e.Real) (h : ¬ e.Before d) :
    marchYear d ≤ marchYear e := by
  obtain ⟨hdm, -⟩ := hd
  obtain ⟨hem, -⟩ := he
  unfold Date.Before at h
  unfold marchYear
  omega

/-- The largest partial sum grows with the date. -/
theorem partialSum_le {d e : YearMonthDay} (hd : d.Real) (he : e.Real) (h : ¬ e.Before d) :
    partialSum d ≤ partialSum e := by
  have hyear := marchYear_le hd he h
  have hnumber : dayNumber d ≤ dayNumber e := by
    have := mt (dayNumber_lt_iff he hd).mp h
    omega
  rw [dayNumber_partialSum hd.1, dayNumber_partialSum he.1] at hnumber
  unfold marchYear at hyear
  omega

/-- A value of `getJulianDayNumber` has its partial sums behind it. -/
theorem partialSum_of_some {d : YearMonthDay} {n : ℤ} (hmonth : 1 ≤ d.month ∧ d.month ≤ 12)
    (hlow : 0 ≤ marchYear d) (h : getJulianDayNumber d.year d.month d.day = some n) :
    partialSum d ≤ 2147483647 := by
  unfold getJulianDayNumber at h
  -- the first steps compute the year and the month from March on
  obtain ⟨x, h1, h⟩ := bind_eq_some h
  obtain ⟨hx, -⟩ := int_eq_some h1
  obtain ⟨a, h2, h⟩ := bind_eq_some h
  rw [hx, div, if_neg (by decide), Int.tdiv_eq_ediv_of_nonneg (by omega)] at h2
  obtain ⟨ha, -⟩ := int_eq_some h2
  obtain ⟨x, h3, h⟩ := bind_eq_some h
  obtain ⟨hx, -⟩ := int_eq_some h3
  obtain ⟨y, h4, h⟩ := bind_eq_some h
  obtain ⟨hy, -⟩ := int_eq_some h4
  rw [hx] at hy
  obtain ⟨x, h5, h⟩ := bind_eq_some h
  obtain ⟨hx, -⟩ := int_eq_some h5
  obtain ⟨z, h6, h⟩ := bind_eq_some h
  obtain ⟨hz, -⟩ := int_eq_some h6
  obtain ⟨m, h7, h⟩ := bind_eq_some h
  obtain ⟨hm, -⟩ := int_eq_some h7
  rw [hz, hx] at hm
  have hyr : 0 ≤ y := by
    unfold marchYear at hlow
    omega
  have hmr : 0 ≤ m := by omega
  -- the days before the month
  obtain ⟨x, h8, h⟩ := bind_eq_some h
  obtain ⟨hx, -⟩ := int_eq_some h8
  obtain ⟨z, h9, h⟩ := bind_eq_some h
  obtain ⟨hz, -⟩ := int_eq_some h9
  obtain ⟨k, h10, h⟩ := bind_eq_some h
  rw [hz, hx, div, if_neg (by decide), Int.tdiv_eq_ediv_of_nonneg (by omega)] at h10
  obtain ⟨hk, -⟩ := int_eq_some h10
  -- the sum, up to the leap days of the years
  obtain ⟨s1, h11, h⟩ := bind_eq_some h
  obtain ⟨hs1, -⟩ := int_eq_some h11
  obtain ⟨x, h12, h⟩ := bind_eq_some h
  obtain ⟨hx, -⟩ := int_eq_some h12
  obtain ⟨s2, h13, h⟩ := bind_eq_some h
  obtain ⟨hs2, -⟩ := int_eq_some h13
  obtain ⟨z, h14, h⟩ := bind_eq_some h
  rw [div, if_neg (by decide), Int.tdiv_eq_ediv_of_nonneg hyr] at h14
  obtain ⟨hz, -⟩ := int_eq_some h14
  obtain ⟨s3, h15, -⟩ := bind_eq_some h
  obtain ⟨-, -, hfits⟩ := int_eq_some h15
  rw [hs2, hs1, hx, hz, hk, hm, hy, ha] at hfits
  unfold partialSum
  dsimp only
  omega

/-- **The dates that have a number**, from the first of March -4800 on. -/
theorem getJulianDayNumber_eq_some_iff {d : YearMonthDay} {n : ℤ} (hreal : d.Real)
    (hfrom : FromEpoch d) :
    getJulianDayNumber d.year d.month d.day = some n
      ↔ partialSum d ≤ 2147483647 ∧ dayNumber d = n := by
  have hlow := hfrom.year_nonneg hreal.1
  constructor
  · intro h
    have hsum := partialSum_of_some hreal.1 hlow h
    rw [getJulianDayNumber_of_partialSum hreal hlow hsum, Option.some.injEq] at h
    exact ⟨hsum, h⟩
  · rintro ⟨hsum, rfl⟩
    exact getJulianDayNumber_of_partialSum hreal hlow hsum

/-! ## The order and the day of the week -/

section Numbers

variable {d e : YearMonthDay} {n m : ℤ}

theorem FromEpoch.next (hreal : d.Real) (hfrom : FromEpoch d) : FromEpoch d.next := by
  intro hbefore
  have hepoch : Date.Real ⟨-4800, 3, 1⟩ := by decide
  have hlt := (dayNumber_lt_iff hreal.next hepoch).mpr hbefore
  have hle := mt (dayNumber_lt_iff hreal hepoch).mp hfrom
  rw [dayNumber_next hreal] at hlt
  omega

/-- The number of the next date is one larger. -/
theorem getJulianDayNumber_next {s : ℤ} (hreal : d.Real) (hfrom : FromEpoch d)
    (hn : getJulianDayNumber d.year d.month d.day = some n)
    (hs : getJulianDayNumber d.next.year d.next.month d.next.day = some s) : s = n + 1 := by
  obtain ⟨-, hn⟩ := (getJulianDayNumber_eq_some_iff hreal hfrom).mp hn
  obtain ⟨-, hs⟩ := (getJulianDayNumber_eq_some_iff hreal.next (hfrom.next hreal)).mp hs
  rw [← hs, dayNumber_next hreal, hn]

/-- The next date has a number, if any later one has. -/
theorem getJulianDayNumber_next_fits (hd : d.Real) (he : e.Real) (hfrom : FromEpoch d)
    (hfrom' : FromEpoch e) (hm : getJulianDayNumber e.year e.month e.day = some m)
    (hlt : d.Before e) :
    getJulianDayNumber d.next.year d.next.month d.next.day = some (dayNumber d.next) := by
  obtain ⟨hsum, -⟩ := (getJulianDayNumber_eq_some_iff he hfrom').mp hm
  refine (getJulianDayNumber_eq_some_iff hd.next (hfrom.next hd)).mpr ⟨?_, rfl⟩
  have hnot : ¬ e.Before d.next := fun hback => by
    have h1 := hback.dayNumber_lt he hd.next
    have h2 := hlt.dayNumber_lt hd he
    rw [dayNumber_next hd] at h1
    omega
  have := partialSum_le hd.next he hnot
  omega

/-- Day numbers stay away from the largest `int`. -/
theorem number_lt (hreal : d.Real) (hfrom : FromEpoch d)
    (hn : getJulianDayNumber d.year d.month d.day = some n) : n < 2147483647 := by
  obtain ⟨hsum, hn⟩ := (getJulianDayNumber_eq_some_iff hreal hfrom).mp hn
  have hyear := hfrom.year_nonneg hreal.1
  rw [dayNumber_partialSum hreal.1] at hn
  unfold marchYear at hyear
  omega

/-- The day of the week of a valid number. -/
theorem Date.weekDay_eq (hvalid : Date.valid n = true) (hn : n < 2147483647) :
    Date.weekDay n = some ((n + 1) % 7) := by
  have hpos : n > 0 := of_decide_eq_true hvalid
  unfold Date.weekDay
  rw [bind_eq (add_eq ⟨by omega, by omega⟩), mod_eq (by omega) (by decide) ⟨by omega, by omega⟩]

end Numbers

/-- **Day numbers follow the calendar.** For any two dates of the calendar from
the first of March -4800 on that have a number: the number of the next date is
one larger, it exists if the other date is a later one, and the day of the week is
the next one if the date is `valid()`; the order of the dates is `operator<` of
their numbers and their equality is `operator==`; and the numbers differ by the
days from the one to the other. -/
theorem dayNumbers_calendar (d e : YearMonthDay) (hd : d.Real) (he : e.Real)
    (hfrom : FromEpoch d) (hfrom' : FromEpoch e) {n m : ℤ}
    (hn : getJulianDayNumber d.year d.month d.day = some n)
    (hm : getJulianDayNumber e.year e.month e.day = some m) :
    (∀ s, getJulianDayNumber d.next.year d.next.month d.next.day = some s →
        s = n + 1 ∧ (Date.valid n = true → ∃ w, Date.weekDay n = some w
          ∧ 0 ≤ w ∧ w < 7 ∧ Date.weekDay s = some ((w + 1) % 7)))
      ∧ (d.Before e → ∃ s, getJulianDayNumber d.next.year d.next.month d.next.day = some s)
      ∧ (d.Before e ↔ Date.lt n m = true)
      ∧ (d = e ↔ Date.eq n m = true)
      ∧ ∀ k : ℕ, Date.next^[k] d = e ↔ m - n = k := by
  obtain ⟨-, hdn⟩ := (getJulianDayNumber_eq_some_iff hd hfrom).mp hn
  obtain ⟨-, hem⟩ := (getJulianDayNumber_eq_some_iff he hfrom').mp hm
  refine ⟨fun s hs => ?_, fun hlt => ⟨_, getJulianDayNumber_next_fits hd he hfrom hfrom' hm hlt⟩,
    ?_, ?_, fun k => ?_⟩
  · have hnext := getJulianDayNumber_next hd hfrom hn hs
    refine ⟨hnext, fun hvalid => ?_⟩
    have hpos : n > 0 := of_decide_eq_true hvalid
    have hvalid' : Date.valid s = true := decide_eq_true (by omega)
    have hlast := number_lt hd.next (hfrom.next hd) hs
    refine ⟨_, Date.weekDay_eq hvalid (number_lt hd hfrom hn), by omega, by omega, ?_⟩
    rw [Date.weekDay_eq hvalid' hlast, hnext, Option.some.injEq]
    omega
  · rw [← dayNumber_lt_iff hd he, hdn, hem]
    exact decide_eq_true_iff.symm
  · unfold Date.eq
    rw [decide_eq_true_iff, ← hdn, ← hem]
    exact ⟨fun h => by rw [h], dayNumber_inj hd he⟩
  · rw [iterate_next_eq_iff hd he, hdn, hem]

/-- The end of February 1900, which was no leap year. -/
theorem dayNumbers_calendar_february :
    Date.next^[1] (⟨1900, 2, 28⟩ : YearMonthDay) = ⟨1900, 3, 1⟩
      ↔ (2415080 : ℤ) - 2415079 = (1 : ℕ) :=
  (dayNumbers_calendar ⟨1900, 2, 28⟩ ⟨1900, 3, 1⟩ (by decide) (by decide)
    (by unfold FromEpoch; decide) (by unfold FromEpoch; decide) (by decide) (by decide)).2.2.2.2 1

end Libiak.Base
