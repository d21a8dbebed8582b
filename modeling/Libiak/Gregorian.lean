/-
The proleptic Gregorian calendar on all integers, and the day number of a date.

The year `0` comes before the year `1`, leap years repeat after 400 years in
both directions, and the day number counts days without a gap
(`dayNumber_next`), with 2440588 for the first of January 1970. It is what a
program that converts between dates and days has to agree with; nothing here is
about how such a program does it.

`ofDayNumber` is the inverse. The year is counted from the first of March, so
that the leap day is its last one; then every step of the conversion is a
division, and with divisions that round down it needs no case for the days
before any epoch.
-/
import Mathlib.Data.Int.Notation
import Mathlib.Data.Nat.Notation
import Mathlib.Logic.Function.Iterate
import Mathlib.Tactic.TypeStar

set_option autoImplicit false

namespace Libiak.Gregorian

/-! ## Dates -/

/-- A year with a 29th of February. -/
def IsLeapYear (year : ℤ) : Prop := year % 4 = 0 ∧ (year % 100 = 0 → year % 400 = 0)

instance (year : ℤ) : Decidable (IsLeapYear year) :=
  inferInstanceAs (Decidable (_ ∧ _))

/-- The length of a month. -/
def daysOfMonth (year month : ℤ) : ℤ :=
  if month = 2 then (if IsLeapYear year then 29 else 28)
  else if month = 4 ∨ month = 6 ∨ month = 9 ∨ month = 11 then 30 else 31

/-- A year, a month and a day. -/
@[ext]
structure Date where
  year : ℤ
  month : ℤ
  day : ℤ
  deriving DecidableEq

namespace Date

/-- The date is one of the calendar. -/
def Real (d : Date) : Prop :=
  (1 ≤ d.month ∧ d.month ≤ 12) ∧ 1 ≤ d.day ∧ d.day ≤ daysOfMonth d.year d.month

instance (d : Date) : Decidable d.Real := inferInstanceAs (Decidable (_ ∧ _))

/-- The date after a date. -/
def next (d : Date) : Date :=
  if d.day < daysOfMonth d.year d.month then { d with day := d.day + 1 }
  else if d.month < 12 then { d with month := d.month + 1, day := 1 }
  else { year := d.year + 1, month := 1, day := 1 }

end Date

/-! ## Day numbers -/

/-- The days of the years from the year `0` up to a year, that year not
included; negative for the years before. -/
def daysBeforeYear (year : ℤ) : ℤ :=
  365 * year + (year + 3) / 4 - (year + 99) / 100 + (year + 399) / 400

/-- The days of the first `n` months of a year. -/
def daysOfMonths (year : ℤ) : ℕ → ℤ
  | 0 => 0
  | n + 1 => daysOfMonths year n + daysOfMonth year (n + 1)

/-- The days of a year before one of its months. -/
def daysBeforeMonth (year month : ℤ) : ℤ := daysOfMonths year (month - 1).toNat

/-- The Julian day number. -/
def dayNumber (d : Date) : ℤ :=
  daysBeforeYear d.year + daysBeforeMonth d.year d.month + (d.day - 1) + 1721060

/-- A year has 365 days, and one more if it is a leap year. -/
theorem daysBeforeYear_succ (year : ℤ) :
    daysBeforeYear (year + 1) = daysBeforeYear year + (if IsLeapYear year then 366 else 365) := by
  unfold daysBeforeYear
  split
  · rename_i hleap
    unfold IsLeapYear at hleap
    omega
  · rename_i hleap
    unfold IsLeapYear at hleap
    omega

/-- The months of a year, by cases. -/
theorem month_cases {month : ℤ} (h : 1 ≤ month ∧ month ≤ 12) :
    month = 1 ∨ month = 2 ∨ month = 3 ∨ month = 4 ∨ month = 5 ∨ month = 6 ∨ month = 7
      ∨ month = 8 ∨ month = 9 ∨ month = 10 ∨ month = 11 ∨ month = 12 := by
  omega

/-- The days before a month, as a table: from March on they depend on the leap
day. -/
theorem daysBeforeMonth_eq (year : ℤ) {month : ℤ} (h : 1 ≤ month ∧ month ≤ 12) :
    daysBeforeMonth year month
      = if month ≤ 2 then 31 * (month - 1)
        else (153 * (month - 3) + 2) / 5 + (if IsLeapYear year then 60 else 59) := by
  unfold daysBeforeMonth
  rcases month_cases h with
    rfl | rfl | rfl | rfl | rfl | rfl | rfl | rfl | rfl | rfl | rfl | rfl <;>
    by_cases hleap : IsLeapYear year <;>
    simp [daysOfMonths, daysOfMonth, hleap, Int.toNat]

/-- The next month begins where a month ends. -/
theorem daysBeforeMonth_succ (year : ℤ) {month : ℤ} (h : 1 ≤ month) :
    daysBeforeMonth year (month + 1) = daysBeforeMonth year month + daysOfMonth year month := by
  have hsucc : (month + 1 - 1).toNat = (month - 1).toNat + 1 := by omega
  have hcast : ((month - 1).toNat : ℤ) + 1 = month := by omega
  unfold daysBeforeMonth
  rw [hsucc, daysOfMonths, hcast]

/-- The next year begins where December ends. -/
theorem daysOfYear (year : ℤ) :
    daysBeforeMonth year 12 + daysOfMonth year 12 = if IsLeapYear year then 366 else 365 := by
  rw [daysBeforeMonth_eq _ (by decide)]
  by_cases hleap : IsLeapYear year
  · simp [daysOfMonth, hleap]
  · simp [daysOfMonth, hleap]

/-- **The day number counts the days.** -/
theorem dayNumber_next {d : Date} (h : d.Real) : dayNumber d.next = dayNumber d + 1 := by
  obtain ⟨hmonth, hday, hlast⟩ := h
  unfold Date.next
  by_cases hin : d.day < daysOfMonth d.year d.month
  · rw [if_pos hin]
    unfold dayNumber
    dsimp only
    omega
  · rw [if_neg hin]
    have hday : d.day = daysOfMonth d.year d.month := by omega
    by_cases hdec : d.month < 12
    · rw [if_pos hdec]
      unfold dayNumber
      dsimp only
      rw [daysBeforeMonth_succ _ hmonth.1, hday]
      omega
    · rw [if_neg hdec]
      have hdec : d.month = 12 := by omega
      have hyear := daysOfYear d.year
      have hjan : daysBeforeMonth (d.year + 1) 1 = 0 := rfl
      unfold dayNumber
      dsimp only
      rw [daysBeforeYear_succ, ← hyear, hday, hdec, hjan]
      omega

/-- The first of January 1970. -/
example : dayNumber ⟨1970, 1, 1⟩ = 2440588 := by decide

/-- The day of the week, counted from Sunday; the first of January 1970 was a
Thursday. -/
def weekDay (dayNumber : ℤ) : ℤ := (dayNumber - 2440588 + 4) % 7

/-! ## The year from March to February -/

/-- The day number of a date, by the year that begins on the first of March, the
month of that year counted from `0`, and the day of the month. -/
def marchDayNumber (year month day : ℤ) : ℤ :=
  day + (153 * month + 2) / 5 + 365 * year + year / 4 - year / 100 + year / 400 - 32045

/-- In January and February the year from March on is the one before. -/
theorem dayNumber_eq {d : Date} (hmonth : 1 ≤ d.month ∧ d.month ≤ 12) :
    dayNumber d = marchDayNumber (d.year + 4800 - (14 - d.month) / 12)
      (d.month + 12 * ((14 - d.month) / 12) - 3) d.day := by
  unfold dayNumber marchDayNumber
  rw [daysBeforeMonth_eq _ hmonth]
  unfold daysBeforeYear
  by_cases hfeb : d.month ≤ 2
  · have ha : (14 - d.month) / 12 = 1 := by omega
    rw [if_pos hfeb, ha]
    rcases (by omega : d.month = 1 ∨ d.month = 2) with hm | hm
    · rw [hm]
      omega
    · rw [hm]
      omega
  · have ha : (14 - d.month) / 12 = 0 := by omega
    rw [if_neg hfeb, ha]
    have hmonths : (153 * (d.month + 12 * 0 - 3) + 2) / 5 = (153 * (d.month - 3) + 2) / 5 := by
      omega
    rw [hmonths]
    by_cases hleap : IsLeapYear d.year
    · rw [if_pos hleap]
      unfold IsLeapYear at hleap
      omega
    · rw [if_neg hleap]
      unfold IsLeapYear at hleap
      omega

/-- The date of a day number: centuries, years, then months of the year from
March on. -/
def ofDayNumber (n : ℤ) : Date :=
  let a := n + 32044
  let b := (4 * a + 3) / 146097
  let c := a - b * 146097 / 4
  let d := (4 * c + 3) / 1461
  let e := c - 1461 * d / 4
  let m := (5 * e + 2) / 153
  { year := b * 100 + d - 4800 + m / 10
    month := m + 3 - 12 * (m / 10)
    day := e - (153 * m + 2) / 5 + 1 }

/-- The ranges of the quotients, and the leap days among the remainders. -/
theorem ofDayNumber_ranges (n : ℤ) {a b c d e : ℤ} (ha : a = n + 32044)
    (hb : b = (4 * a + 3) / 146097) (hc : c = a - b * 146097 / 4)
    (hd : d = (4 * c + 3) / 1461) (he : e = c - 1461 * d / 4) :
    (0 ≤ c ∧ c ≤ 36524) ∧ (0 ≤ d ∧ d ≤ 99) ∧ (0 ≤ e ∧ e ≤ 365)
      ∧ (c = 36524 → b % 4 = 3) ∧ (e = 365 → d % 4 = 3 ∧ (d = 99 → c = 36524)) := by
  -- the fourth century is a day longer than the three before it
  have hc' : 0 ≤ c ∧ c ≤ 36524 ∧ (c = 36524 → b % 4 = 3) := by
    rcases (by omega : b % 4 = 0 ∨ b % 4 = 1 ∨ b % 4 = 2 ∨ b % 4 = 3) with hr | hr | hr | hr
    · omega
    · omega
    · omega
    · omega
  have hd' : 0 ≤ d ∧ d ≤ 99 := by omega
  have he' : 0 ≤ e ∧ e ≤ 365 ∧ (e = 365 → d % 4 = 3) := by omega
  refine ⟨⟨hc'.1, hc'.2.1⟩, hd', ⟨he'.1, he'.2.1⟩, hc'.2.2, fun h365 => ⟨he'.2.2 h365, ?_⟩⟩
  omega

/-- The months of the year from March on, and the year they fall into. -/
theorem march_month {m : ℤ} (h : 0 ≤ m ∧ m ≤ 11) :
    (1 ≤ m + 3 - 12 * (m / 10) ∧ m + 3 - 12 * (m / 10) ≤ 12)
      ∧ (14 - (m + 3 - 12 * (m / 10))) / 12 = m / 10 := by
  omega

/-- A remainder of days is a day of its month; the 29th of February only comes
with a leap day. -/
theorem real_of_march {y m e : ℤ} (hm : m = (5 * e + 2) / 153) (her : 0 ≤ e ∧ e ≤ 365)
    (hleap : e = 365 → IsLeapYear (y + 1)) :
    1 ≤ e - (153 * m + 2) / 5 + 1
      ∧ e - (153 * m + 2) / 5 + 1 ≤ daysOfMonth (y + m / 10) (m + 3 - 12 * (m / 10)) := by
  have hmr : 0 ≤ m ∧ m ≤ 11 := by omega
  refine ⟨by omega, ?_⟩
  rcases (by omega : m = 0 ∨ m = 1 ∨ m = 2 ∨ m = 3 ∨ m = 4 ∨ m = 5 ∨ m = 6 ∨ m = 7 ∨ m = 8 ∨ m = 9
    ∨ m = 10 ∨ m = 11) with h | h | h | h | h | h | h | h | h | h | h | h
  case inr.inr.inr.inr.inr.inr.inr.inr.inr.inr.inr =>
    -- February
    subst h
    by_cases h365 : e = 365
    · have := hleap h365
      simp [daysOfMonth, this]
      omega
    · have hge : 28 ≤ daysOfMonth (y + 11 / 10) (11 + 3 - 12 * (11 / 10)) := by
        unfold daysOfMonth
        rw [if_pos (by decide)]
        split
        · decide
        · decide
      omega
  all_goals
    subst h
    simp [daysOfMonth]
    omega

/-- **Every day number is that of the date it is converted to.** -/
theorem dayNumber_ofDayNumber (n : ℤ) :
    (ofDayNumber n).Real ∧ dayNumber (ofDayNumber n) = n := by
  obtain ⟨a, ha⟩ : ∃ a, a = n + 32044 := ⟨_, rfl⟩
  obtain ⟨b, hb⟩ : ∃ b, b = (4 * a + 3) / 146097 := ⟨_, rfl⟩
  obtain ⟨c, hc⟩ : ∃ c, c = a - b * 146097 / 4 := ⟨_, rfl⟩
  obtain ⟨d, hd⟩ : ∃ d, d = (4 * c + 3) / 1461 := ⟨_, rfl⟩
  obtain ⟨e, he⟩ : ∃ e, e = c - 1461 * d / 4 := ⟨_, rfl⟩
  obtain ⟨m, hm⟩ : ∃ m, m = (5 * e + 2) / 153 := ⟨_, rfl⟩
  obtain ⟨hcr, hdr, her, hcentury, hleapday⟩ := ofDayNumber_ranges n ha hb hc hd he
  have heq : ofDayNumber n = { year := b * 100 + d - 4800 + m / 10
                               month := m + 3 - 12 * (m / 10)
                               day := e - (153 * m + 2) / 5 + 1 } := by
    rw [hm, he, hd, hc, hb, ha]
    rfl
  have hmr : 0 ≤ m ∧ m ≤ 11 := by omega
  obtain ⟨hmonth, ha14⟩ := march_month hmr
  rw [heq]
  refine ⟨⟨hmonth, real_of_march hm her fun h365 => ?_⟩, ?_⟩
  · have h3 := hleapday h365
    have h36524 : d = 99 → b % 4 = 3 := fun h99 => hcentury (h3.2 h99)
    clear hm he hd hc hb ha ha14 hmonth
    unfold IsLeapYear
    omega
  · rw [dayNumber_eq hmonth]
    dsimp only
    rw [ha14]
    have hyear : b * 100 + d - 4800 + m / 10 + 4800 - m / 10 = 100 * b + d := by omega
    have hmon : m + 3 - 12 * (m / 10) + 12 * (m / 10) - 3 = m := by omega
    rw [hyear, hmon]
    unfold marchDayNumber
    -- the quotients of the year, and the days of its centuries and years
    have h4 : (100 * b + d) / 4 = 25 * b + d / 4 := by omega
    have h100 : (100 * b + d) / 100 = b := by clear hc he hd; omega
    have h400 : (100 * b + d) / 400 = b / 4 := by clear hc he hd; omega
    have hcs : b * 146097 / 4 = 36524 * b + b / 4 := by clear hc he hd; omega
    have hds : 1461 * d / 4 = 365 * d + d / 4 := by clear hc he hd; omega
    rw [h4, h100, h400]
    rw [hcs] at hc
    rw [hds] at he
    clear hb hd hm hcr hdr her hcentury hleapday hmonth ha14 h4 h100 h400 hcs hds hyear hmon heq
    omega

/-! ## The conversion undoes the count -/

/-- Years do not overlap. -/
theorem daysBeforeYear_le {y z : ℤ} (h : y + 1 ≤ z) :
    daysBeforeYear (y + 1) ≤ daysBeforeYear z := by
  unfold daysBeforeYear
  omega

/-- Neither do the months of a year. -/
theorem daysBeforeMonth_le (year : ℤ) {m k : ℤ} (hm : 1 ≤ m) (hk : k ≤ 12) (h : m + 1 ≤ k) :
    daysBeforeMonth year (m + 1) ≤ daysBeforeMonth year k := by
  rw [daysBeforeMonth_eq _ ⟨by omega, by omega⟩, daysBeforeMonth_eq _ ⟨by omega, hk⟩]
  split
  · split
    · omega
    · split
      · omega
      · omega
  · have hmarch : ¬ k ≤ 2 := by omega
    rw [if_neg hmarch]
    omega

/-- A real date lies in its year. -/
theorem dayNumber_in_year {d : Date} (h : d.Real) :
    daysBeforeYear d.year + 1721060 ≤ dayNumber d
      ∧ dayNumber d < daysBeforeYear (d.year + 1) + 1721060 := by
  obtain ⟨hmonth, hday⟩ := h
  have hlast : daysBeforeMonth d.year d.month + daysOfMonth d.year d.month
      ≤ if IsLeapYear d.year then 366 else 365 := by
    rw [← daysOfYear]
    rcases (by omega : d.month = 12 ∨ d.month + 1 ≤ 12) with hdec | hdec
    · simp [hdec]
    · have hle := daysBeforeMonth_le d.year hmonth.1 (Int.le_refl 12) hdec
      rw [daysBeforeMonth_succ _ hmonth.1] at hle
      have hpos : 0 ≤ daysOfMonth d.year 12 := by simp [daysOfMonth]
      omega
  have hfirst : 0 ≤ daysBeforeMonth d.year d.month := by
    rw [daysBeforeMonth_eq _ hmonth]
    split
    · omega
    · split
      · omega
      · omega
  rw [daysBeforeYear_succ]
  unfold dayNumber
  omega

/-- The order of years, months and days. -/
def Date.Before (d e : Date) : Prop :=
  d.year < e.year
    ∨ (d.year = e.year ∧ (d.month < e.month ∨ (d.month = e.month ∧ d.day < e.day)))

instance (d e : Date) : Decidable (d.Before e) := inferInstanceAs (Decidable (_ ∨ _))

theorem Date.before_trichotomy (d e : Date) : d.Before e ∨ d = e ∨ e.Before d := by
  rw [Date.ext_iff]
  unfold Date.Before
  omega

/-- A date before another one has the smaller number. -/
theorem Date.Before.dayNumber_lt {d e : Date} (h : d.Before e) (hd : d.Real) (he : e.Real) :
    dayNumber d < dayNumber e := by
  obtain hyear | ⟨hyear, hmonth | ⟨hmonth, hday⟩⟩ := h
  · have h1 := dayNumber_in_year hd
    have h2 := dayNumber_in_year he
    have := daysBeforeYear_le (y := d.year) (z := e.year) hyear
    omega
  · obtain ⟨hdm, hdd⟩ := hd
    obtain ⟨hem, hed⟩ := he
    have hle := daysBeforeMonth_le e.year hdm.1 hem.2 hmonth
    rw [daysBeforeMonth_succ _ hdm.1] at hle
    unfold dayNumber
    rw [hyear] at hdd ⊢
    omega
  · unfold dayNumber
    rw [hyear, hmonth]
    omega

/-- Different real dates have different numbers. -/
theorem dayNumber_inj {d e : Date} (hd : d.Real) (he : e.Real) (h : dayNumber d = dayNumber e) :
    d = e := by
  obtain hlt | heq | hgt := Date.before_trichotomy d e
  · have := hlt.dayNumber_lt hd he
    omega
  · exact heq
  · have := hgt.dayNumber_lt he hd
    omega

/-- **The order of dates is that of their numbers.** -/
theorem dayNumber_lt_iff {d e : Date} (hd : d.Real) (he : e.Real) :
    dayNumber d < dayNumber e ↔ d.Before e := by
  refine ⟨fun hlt => ?_, fun h => h.dayNumber_lt hd he⟩
  obtain h | rfl | hgt := Date.before_trichotomy d e
  · exact h
  · omega
  · have := hgt.dayNumber_lt he hd
    omega

/-- The length of a month, for bounds. -/
theorem daysOfMonth_bounds (year month : ℤ) :
    28 ≤ daysOfMonth year month ∧ daysOfMonth year month ≤ 31 := by
  unfold daysOfMonth
  split
  · split
    · decide
    · decide
  · split
    · decide
    · decide

/-- The date after a date of the calendar is one. -/
theorem Date.Real.next {d : Date} (h : d.Real) : d.next.Real := by
  obtain ⟨hmonth, hday, hlast⟩ := h
  unfold Date.next
  by_cases hin : d.day < daysOfMonth d.year d.month
  · rw [if_pos hin]
    exact ⟨hmonth, by dsimp only; omega, hin⟩
  · rw [if_neg hin]
    by_cases hdec : d.month < 12
    · rw [if_pos hdec]
      have := daysOfMonth_bounds d.year (d.month + 1)
      refine ⟨?_, Int.le_refl 1, ?_⟩
      · dsimp only
        omega
      · dsimp only
        omega
    · rw [if_neg hdec]
      have := daysOfMonth_bounds (d.year + 1) 1
      refine ⟨⟨Int.le_refl 1, ?_⟩, Int.le_refl 1, ?_⟩
      · dsimp only
        omega
      · dsimp only
        omega

/-- **The difference of two numbers is the number of days between the dates.** -/
theorem dayNumber_iterate {d : Date} (h : d.Real) (k : ℕ) :
    (Date.next^[k] d).Real ∧ dayNumber (Date.next^[k] d) = dayNumber d + k := by
  induction k with
  | zero => exact ⟨h, (Int.add_zero _).symm⟩
  | succ k ih =>
      obtain ⟨hreal, hnumber⟩ := ih
      rw [Function.iterate_succ_apply']
      refine ⟨hreal.next, ?_⟩
      rw [dayNumber_next hreal, hnumber]
      omega

/-- The days between two dates are counted by the difference of their numbers. -/
theorem iterate_next_eq_iff {d e : Date} (hd : d.Real) (he : e.Real) (k : ℕ) :
    Date.next^[k] d = e ↔ dayNumber e - dayNumber d = k := by
  obtain ⟨hreal, hnumber⟩ := dayNumber_iterate hd k
  constructor
  · rintro rfl
    omega
  · intro hdiff
    exact dayNumber_inj hreal he (by omega)

/-- **The conversion undoes the count.** -/
theorem ofDayNumber_dayNumber {d : Date} (h : d.Real) : ofDayNumber (dayNumber d) = d := by
  obtain ⟨hreal, hnumber⟩ := dayNumber_ofDayNumber (dayNumber d)
  exact dayNumber_inj hreal h hnumber

end Libiak.Gregorian
