/-
`base/Date.cpp`: `Date::toIsoString`.

The year is printed four characters wide, padded with spaces, the month and the day two
characters wide, padded with zeros. So the texts of the dates from the year 0 to the
year 9999 are of one length, and they compare like the dates (`iso_strings_ordered`);
before and after, a year is printed with a sign or with five digits, and `-1` is before
`-2`.
-/
import Libiak.DateOrder
import Libiak.FixedWidth

set_option autoImplicit false

namespace Libiak.Base

open Gregorian

/-! ## The text of a date -/

/-- `"%4d-%02d-%02d"`. -/
def isoFormat (d : YearMonthDay) : List Char :=
  printInt false 4 d.year ++ '-' :: (printInt true 2 d.month ++ '-' :: printInt true 2 d.day)

/-- `Date::toIsoString`. -/
def Date.toIsoString (julianDayNumber : ℤ) : Option (List Char) := do
  let ymd ← getYearMonthDay julianDayNumber
  some (snprintf 32 (isoFormat ymd))

/-- The years that four digits show. -/
def FourDigits (d : YearMonthDay) : Prop := 0 ≤ d.year ∧ d.year ≤ 9999

variable {d e : YearMonthDay}

theorem shown_year (h : FourDigits d) : Shown 4 d.year := ⟨h.1, by have := h.2; omega⟩

theorem shown_month (h : d.Real) : Shown 2 d.month := by
  obtain ⟨hmonth, -⟩ := h
  exact ⟨by omega, by omega⟩

theorem shown_day (h : d.Real) : Shown 2 d.day := by
  obtain ⟨-, hday, hlast⟩ := h
  have := daysOfMonth_bounds d.year d.month
  exact ⟨by omega, by omega⟩

theorem length_isoFormat (h : FourDigits d) (hreal : d.Real) : (isoFormat d).length = 10 := by
  simp only [isoFormat, List.length_append, List.length_cons,
    length_printInt _ (shown_year h) (by decide), length_printInt _ (shown_month hreal) (by decide),
    length_printInt _ (shown_day hreal) (by decide)]

/-- The texts of two dates differ first where the dates do. -/
theorem isoFormat_lt_iff (hd : FourDigits d) (he : FourDigits e) (hdreal : d.Real)
    (hereal : e.Real) : isoFormat d < isoFormat e ↔ d.Before e := by
  have hday : printInt true 2 d.day < printInt true 2 e.day ↔ d.day < e.day := by
    have h : printInt true 2 d.day ++ [] < printInt true 2 e.day ++ [] ↔ _ :=
      printInt_append_lt_iff true (shown_day hdreal) (shown_day hereal) (by decide)
    simpa using h
  unfold isoFormat Date.Before
  rw [printInt_append_lt_iff false (shown_year hd) (shown_year he) (by decide),
    List.cons_lt_cons_iff,
    printInt_append_lt_iff true (shown_month hdreal) (shown_month hereal) (by decide),
    List.cons_lt_cons_iff, hday]
  simp

/-! ## Day numbers -/

/-- The day numbers of the years 0 to 9999. -/
def InFourDigits (n : ℤ) : Prop := 1721060 ≤ n ∧ n ≤ 5373484

theorem InFourDigits.inRange {n : ℤ} (h : InFourDigits n) : InRange n := by
  obtain ⟨hlow, hhigh⟩ := h
  exact ⟨by omega, by omega⟩

theorem fourDigits_ofDayNumber {n : ℤ} (h : InFourDigits n) : FourDigits (ofDayNumber n) := by
  obtain ⟨hlow, hhigh⟩ := h
  obtain ⟨hreal, hnumber⟩ := dayNumber_ofDayNumber n
  have hfirst : dayNumber ⟨0, 1, 1⟩ = 1721060 := by decide
  have hlast : dayNumber ⟨9999, 12, 31⟩ = 5373484 := by decide
  constructor
  · by_contra hneg
    have hbefore : (ofDayNumber n).Before ⟨0, 1, 1⟩ := Or.inl (Int.not_le.mp hneg)
    have := hbefore.dayNumber_lt hreal ⟨by decide, by decide, by decide⟩
    omega
  · by_contra hbig
    have hbefore : Date.Before ⟨9999, 12, 31⟩ (ofDayNumber n) := Or.inl (Int.not_le.mp hbig)
    have := hbefore.dayNumber_lt ⟨by decide, by decide, by decide⟩ hreal
    omega

theorem toIsoString_eq {n : ℤ} (h : InFourDigits n) :
    Date.toIsoString n = some (isoFormat (ofDayNumber n)) := by
  have hlength := length_isoFormat (fourDigits_ofDayNumber h) (dayNumber_ofDayNumber n).1
  unfold Date.toIsoString
  rw [getYearMonthDay_eq h.inRange]
  show some (snprintf 32 (isoFormat (ofDayNumber n))) = _
  rw [snprintf_eq (by omega)]

/-- **`toIsoString` is an order isomorphism.** Of the dates of the years 0 to 9999, the
texts are ten characters long, they compare like the dates, and equal texts are of equal
dates. -/
theorem iso_strings_ordered {n m : ℤ} (hn : InFourDigits n) (hm : InFourDigits m) :
    ∃ s t, Date.toIsoString n = some s ∧ Date.toIsoString m = some t ∧ s.length = 10
      ∧ t.length = 10 ∧ (s < t ↔ Date.lt n m = true) ∧ (s = t ↔ Date.eq n m = true) := by
  obtain ⟨hnreal, hnnumber⟩ := dayNumber_ofDayNumber n
  obtain ⟨hmreal, hmnumber⟩ := dayNumber_ofDayNumber m
  have hnfour := fourDigits_ofDayNumber hn
  have hmfour := fourDigits_ofDayNumber hm
  have hlt : ∀ {x y : ℤ}, InFourDigits x → InFourDigits y →
      (isoFormat (ofDayNumber x) < isoFormat (ofDayNumber y) ↔ x < y) := by
    intro x y hx hy
    obtain ⟨hxreal, hxnumber⟩ := dayNumber_ofDayNumber x
    obtain ⟨hyreal, hynumber⟩ := dayNumber_ofDayNumber y
    rw [isoFormat_lt_iff (fourDigits_ofDayNumber hx) (fourDigits_ofDayNumber hy) hxreal hyreal,
      ← dayNumber_lt_iff hxreal hyreal, hxnumber, hynumber]
  refine ⟨_, _, toIsoString_eq hn, toIsoString_eq hm, length_isoFormat hnfour hnreal,
    length_isoFormat hmfour hmreal, ?_, ?_⟩
  · rw [hlt hn hm, Date.lt, decide_eq_true_iff]
  · rw [Date.eq, decide_eq_true_iff]
    constructor
    · intro htext
      rcases Int.lt_trichotomy n m with h | h | h
      · exact absurd htext (ne_of_lt ((hlt hn hm).mpr h))
      · exact h
      · exact absurd htext.symm (ne_of_lt ((hlt hm hn).mpr h))
    · rintro rfl
      rfl

/-- The last day of a year and the first of the next. -/
theorem iso_strings_ordered_newYear :
    ∃ s t, Date.toIsoString 2451544 = some s ∧ Date.toIsoString 2451545 = some t
      ∧ s.length = 10 ∧ t.length = 10
      ∧ (s < t ↔ Date.lt 2451544 2451545 = true) ∧ (s = t ↔ Date.eq 2451544 2451545 = true) :=
  iso_strings_ordered ⟨by decide, by decide⟩ ⟨by decide, by decide⟩

example : (Date.toIsoString 2451544).map String.ofList = some "1999-12-31" := by decide +kernel

/-- The year 10000 is printed in five digits, and comes before. -/
example : ((Date.toIsoString 5373485).bind fun s => (Date.toIsoString 5373484).map fun t =>
    decide (s < t)) = some true := by decide +kernel

end Libiak.Base
