/-
`base/TimeZone.cpp`: the local times a backward change repeats.

A change from a daylight saving type to one with a smaller offset repeats the
local times between its own local time and the one the clock had reached. For
each of them `fromLocalTime` finds the type after the change, by its local time,
and so does its trial conversion, by UTC (`Data.Spaced.passed_fold`); the trial
reads the same on the clock, and the time of the first pass is taken to be 3600
seconds before that of the second. It is, where the change is one of 3600 seconds
(`fold_resolved_iff`).
-/
import Libiak.TimeZone

set_option autoImplicit false

namespace Libiak.Base

/-- The `k`-th transition is a change back: from a daylight saving type to one
that is not and has a smaller offset. -/
structure Data.ChangesBack (data : Data) (k : ℕ) (transition : Transition) (a b : Localtime) :
    Prop where
  get : data.transitions[k]? = some transition
  before : data.regime k = some a
  after : data.regime (k + 1) = some b
  dst : a.isDst = true
  standard : b.isDst = false
  back : b.gmtOffset < a.gmtOffset

/-- A local time a change back repeats. -/
def InFold (transition : Transition) (a b : Localtime) (x : ℤ) : Prop :=
  transition.gmttime + b.gmtOffset ≤ x ∧ x < transition.gmttime + a.gmtOffset

/-- The flag selects the pass: set, the first one, before the change; clear, the
second one. -/
def FoldResolved (libc : Libc) (data : Data) (localTm : Tm) (x : ℤ) (a b : Localtime) : Prop :=
  ∀ (isdst gmtoff : ℤ) (zone : Zone),
    fromLocalTime libc data { localTm with
      tm_isdst := isdst, tm_gmtoff := gmtoff, tm_zone := zone }
      = some (if isdst ≠ 0 then x - a.gmtOffset else x - b.gmtOffset)

section Fold

variable {data : Data} {k : ℕ} {transition : Transition} {a b : Localtime} {x : ℤ}

/-- A repeated local time has passed the change and no later one, and neither has
the UTC time it is by the type after the change. -/
theorem Data.Spaced.passed_fold (h : data.Spaced) (hback : data.ChangesBack k transition a b)
    (hx : InFold transition a b x) :
    Passed data ⟨0, x, 0⟩ ⟨false⟩ (k + 1)
      ∧ Passed data ⟨x - b.gmtOffset, 0, 0⟩ ⟨true⟩ (k + 1) := by
  obtain ⟨hget, hbefore, hafter, -, -, -⟩ := hback
  obtain ⟨hlow, hhigh⟩ := hx
  obtain ⟨hlt, -⟩ := List.getElem?_eq_some_iff.mp hget
  have ha := h.offset_regime hbefore
  have hb := h.offset_regime hafter
  have hlocal := h.localtime_regime hget hafter
  -- the transition after it is two days away, and no offset is more than one
  have hfar : ∀ {next : Transition}, data.transitions[k + 1]? = some next →
      x < next.localtime ∧ x - b.gmtOffset < next.gmttime := by
    intro next hnext
    have hspace := pairwise_getElem? h.apart hget hnext (Nat.lt_succ_self k)
    obtain ⟨c, -, hc, hcr⟩ := h.localtime_eq (List.mem_of_getElem? hnext)
    omega
  constructor
  · refine Partitioned.of_ends (h.sorted ⟨false⟩) (fun hxy hy => by omega) hlt ?_ ?_
    · intro j last hj hlast
      obtain rfl : k = j := by omega
      rw [hget, Option.some.injEq] at hlast
      rw [← hlast]
      show transition.localtime ≤ x
      omega
    · intro next hnext
      exact Int.not_le.mpr (hfar hnext).1
  · refine Partitioned.of_ends (h.sorted ⟨true⟩) (fun hxy hy => by omega) hlt ?_ ?_
    · intro j last hj hlast
      obtain rfl : k = j := by omega
      rw [hget, Option.some.injEq] at hlast
      rw [← hlast]
      show transition.gmttime ≤ x - b.gmtOffset
      omega
    · intro next hnext
      exact Int.not_le.mpr (hfar hnext).2

/-- What `fromLocalTime` makes of a repeated local time. -/
theorem fromLocalTime_fold {libc : Libc} {localTm : Tm} (h : data.Spaced)
    (hback : data.ChangesBack k transition a b) (hx : InFold transition a b x)
    (hlocal : libc.gmtime_r x = some localTm) (isdst gmtoff : ℤ) (zone : Zone) :
    fromLocalTime libc data { localTm with
      tm_isdst := isdst, tm_gmtoff := gmtoff, tm_zone := zone }
      = some (if isdst ≠ 0 then x - 3600 - b.gmtOffset else x - b.gmtOffset) := by
  obtain ⟨hpassed, htrial⟩ := h.passed_fold hback hx
  have hfind := findLocaltime_eq (h.sorted ⟨false⟩) hpassed
  have hfind' := findLocaltime_eq (h.sorted ⟨true⟩) htrial
  rw [hback.after] at hfind hfind'
  unfold fromLocalTime
  dsimp only
  rw [libc.timegm_local, libc.timegm_gmtime_r hlocal, hfind]
  dsimp only [Option.bind_eq_bind, Option.bind_some]
  by_cases hset : isdst ≠ 0
  · -- the trial is in the second pass, and its clock is that of the local time
    have hclock : libc.gmtime_r (x - b.gmtOffset + b.gmtOffset) = some localTm := by
      rw [Int.sub_add_cancel, hlocal]
    rw [if_pos hset, if_pos hset, toLocalTime_eq hfind' hclock]
    dsimp only [Option.bind_some]
    rw [if_pos ⟨by rw [hback.standard]; rfl, rfl, rfl⟩]
  · rw [if_neg hset, if_neg hset]

end Fold

/-- **The flag selects the pass where the change is one of 3600 seconds.** On a
table whose transitions are more than 48 hours apart, for every change back and
every local time it repeats: `fromLocalTime` takes the local time with `tm_isdst`
set to the first pass and with `tm_isdst` clear to the second, if and only if the
two offsets differ by 3600. -/
theorem fold_resolved_iff (libc : Libc) (data : Data) (h : data.Spaced) (k : ℕ)
    (transition : Transition) (a b : Localtime) (hback : data.ChangesBack k transition a b) (x : ℤ)
    (hx : InFold transition a b x) (localTm : Tm) (hlocal : libc.gmtime_r x = some localTm) :
    FoldResolved libc data localTm x a b ↔ a.gmtOffset - b.gmtOffset = 3600 := by
  constructor
  · intro hresolved
    have hset := hresolved 1 0 .null
    rw [fromLocalTime_fold h hback hx hlocal, if_pos (by decide), if_pos (by decide),
      Option.some.injEq] at hset
    omega
  · intro hhour isdst gmtoff zone
    rw [fromLocalTime_fold h hback hx hlocal, Option.some.injEq]
    split
    · omega
    · rfl

theorem autumn_changesBack :
    autumn.ChangesBack 0 ⟨1000000, 1003600, 1⟩ ⟨7200, true, 0⟩ ⟨3600, false, 5⟩ where
  get := by decide
  before := by decide
  after := by decide
  dst := by decide
  standard := by decide
  back := by decide

/-- A change of one hour, half an hour after it. -/
theorem fold_resolved_autumn :
    FoldResolved calendarLibc autumn
      ⟨40, 16, 15, 12, 0, 70, 1, 11, 0, 0, .literal "GMT"⟩ 1005400
      ⟨7200, true, 0⟩ ⟨3600, false, 5⟩ :=
  (fold_resolved_iff calendarLibc autumn autumn_regular.spaced 0 ⟨1000000, 1003600, 1⟩
    ⟨7200, true, 0⟩ ⟨3600, false, 5⟩ autumn_changesBack 1005400 (by unfold InFold; decide)
    ⟨40, 16, 15, 12, 0, 70, 1, 11, 0, 0, .literal "GMT"⟩ (by decide)).mpr (by decide)

/-- Eleven hours and ten and a half hours ahead of UTC, with one change back of
half an hour. -/
def halfHour : Data where
  transitions := [⟨1000000, 1037800, 1⟩]
  localtimes := [⟨39600, true, 0⟩, ⟨37800, false, 6⟩]
  abbreviation := [43, 49, 49, 0, 0, 0, 43, 49, 48, 51, 48, 0]

/-- A change of half an hour: the flag of the first pass makes it a time an hour
before the second, half an hour too early. -/
theorem fold_not_resolved :
    halfHour.Spaced ∧ halfHour.ChangesBack 0 ⟨1000000, 1037800, 1⟩ ⟨39600, true, 0⟩
        ⟨37800, false, 6⟩
      ∧ InFold ⟨1000000, 1037800, 1⟩ ⟨39600, true, 0⟩ ⟨37800, false, 6⟩ 1038000
      ∧ (∃ localTm, calendarLibc.gmtime_r 1038000 = some localTm
        ∧ fromLocalTime calendarLibc halfHour { localTm with tm_isdst := 1 } = some 996600
        ∧ ¬ FoldResolved calendarLibc halfHour localTm 1038000 ⟨39600, true, 0⟩
          ⟨37800, false, 6⟩) := by
  have hspaced : halfHour.Spaced := by
    refine ⟨by decide, by decide, by decide, ?_, by decide⟩
    intro transition hmem x hx
    obtain rfl : transition = ⟨1000000, 1037800, 1⟩ := List.mem_singleton.mp hmem
    obtain rfl : ⟨37800, false, 6⟩ = x := Option.some.inj hx
    decide
  have hback : halfHour.ChangesBack 0 ⟨1000000, 1037800, 1⟩ ⟨39600, true, 0⟩ ⟨37800, false, 6⟩ :=
    ⟨by decide, by decide, by decide, by decide, by decide, by decide⟩
  have hfold : InFold ⟨1000000, 1037800, 1⟩ ⟨39600, true, 0⟩ ⟨37800, false, 6⟩ 1038000 := by
    unfold InFold
    decide
  obtain ⟨localTm, hlocal⟩ : ∃ localTm, calendarLibc.gmtime_r 1038000 = some localTm :=
    ⟨_, rfl⟩
  have hearly : fromLocalTime calendarLibc halfHour { localTm with tm_isdst := 1 }
      = some 996600 :=
    fromLocalTime_fold hspaced hback hfold hlocal 1 localTm.tm_gmtoff localTm.tm_zone
  refine ⟨hspaced, hback, hfold, localTm, hlocal, hearly, ?_⟩
  intro hresolved
  have hfirst := hresolved 1 localTm.tm_gmtoff localTm.tm_zone
  rw [hearly] at hfirst
  exact absurd hfirst (by decide)

end Libiak.Base
