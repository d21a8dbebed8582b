/-
`base/TimeZone.cpp`: `findLocaltime`, `toLocalTime` and `fromLocalTime`.

Both directions look the time up in one table: the way out by its UTC time, the
way back by its local time. On a table whose transitions are far enough apart
both lookups are the same function of how many transitions the time has passed
(`findLocaltime_eq`), and the two counts differ only in the hour that a backward
change repeats (`passed_cases`). There the way back finds the type after the
change, and its trial conversion tells it so.

`gmtime_r` and `timegm` are the C library's; what the round trip asks of them is
in the fields of `Libc`.
-/
import Libiak.LowerBound
import Libiak.UtcTime

set_option autoImplicit false

namespace Libiak.Base

open CInt Gregorian

/-- `Transition`. -/
structure Transition where
  gmttime : ℤ
  localtime : ℤ
  localtimeIdx : ℤ
  deriving DecidableEq

/-- `Comp`: transitions by their UTC time or by their local time. -/
structure Comp where
  compareGmt : Bool
  deriving DecidableEq

/-- `Comp::operator()`. -/
def Comp.lt (comp : Comp) (lhs rhs : Transition) : Bool :=
  if comp.compareGmt then lhs.gmttime < rhs.gmttime else lhs.localtime < rhs.localtime

/-- `Comp::equal`. -/
def Comp.equal (comp : Comp) (lhs rhs : Transition) : Bool :=
  if comp.compareGmt then lhs.gmttime = rhs.gmttime else lhs.localtime = rhs.localtime

/-- `Localtime`. -/
structure Localtime where
  gmtOffset : ℤ
  isDst : Bool
  arrbIdx : ℤ
  deriving DecidableEq

/-- `TimeZone::Data`; nothing reads or writes its `names`. -/
structure Data where
  transitions : List Transition
  localtimes : List Localtime
  abbreviation : List UInt8
  deriving DecidableEq

/-- `data.localtimes[idx]`, without a value where the index is out of range. -/
def Data.localtime? (data : Data) (idx : ℤ) : Option Localtime :=
  if 0 ≤ idx then data.localtimes[idx.toNat]? else none

/-- `findLocaltime`; without a value where it reads past the end of a vector or
its assertion fails. -/
def findLocaltime (data : Data) (sentry : Transition) (comp : Comp) : Option Localtime :=
  match data.transitions.head? with
  | none => data.localtimes.head?
  | some front =>
      if comp.lt sentry front then data.localtimes.head?
      else
        let transI := lowerBound (fun transition => comp.lt transition sentry) data.transitions
        match data.transitions[transI]? with
        | some transition =>
            if comp.equal sentry transition then data.localtime? transition.localtimeIdx
            else if transI = 0 then none
            else do
              let transition ← data.transitions[transI - 1]?
              data.localtime? transition.localtimeIdx
        | none => do
            let back ← data.transitions.getLast?
            data.localtime? back.localtimeIdx

/-- The C library's conversions. `gmtime_r` has no value where the year does not
fit a `struct tm`; `timegm` undoes it, and ignores the fields that only a local
time has. -/
structure Libc where
  gmtime_r : ℤ → Option Tm
  timegm : Tm → ℤ
  timegm_gmtime_r : ∀ {seconds : ℤ} {x : Tm}, gmtime_r seconds = some x → timegm x = seconds
  timegm_local : ∀ (x : Tm) (isdst gmtoff : ℤ) (zone : Zone),
    timegm { x with tm_isdst := isdst, tm_gmtoff := gmtoff, tm_zone := zone } = timegm x

/-- `TimeZone::toLocalTime`. The zone's name is an address in `abbreviation`,
taken here and read by the caller. -/
def toLocalTime (libc : Libc) (data : Data) (seconds : ℤ) : Option Tm := do
  let sentry : Transition := ⟨seconds, 0, 0⟩
  let localType ← findLocaltime data sentry ⟨true⟩
  let localSeconds := seconds + localType.gmtOffset
  let localTime := (libc.gmtime_r localSeconds).getD Tm.zero
  some { localTime with
    tm_isdst := if localType.isDst then 1 else 0
    tm_gmtoff := localType.gmtOffset
    tm_zone := .abbreviation localType.arrbIdx }

/-- `TimeZone::fromLocalTime`. -/
def fromLocalTime (libc : Libc) (data : Data) (localTm : Tm) : Option ℤ := do
  let seconds := libc.timegm localTm
  let sentry : Transition := ⟨0, seconds, 0⟩
  let localType ← findLocaltime data sentry ⟨false⟩
  if localTm.tm_isdst ≠ 0 then
    let tryTm ← toLocalTime libc data (seconds - localType.gmtOffset)
    if tryTm.tm_isdst = 0 ∧ tryTm.tm_hour = localTm.tm_hour ∧ tryTm.tm_min = localTm.tm_min then
      some (seconds - 3600 - localType.gmtOffset)
    else some (seconds - localType.gmtOffset)
  else some (seconds - localType.gmtOffset)

/-! ## The lookup -/

/-- What a transition is compared by. -/
def Comp.key (comp : Comp) (transition : Transition) : ℤ :=
  if comp.compareGmt then transition.gmttime else transition.localtime

theorem Comp.lt_iff {comp : Comp} {lhs rhs : Transition} :
    comp.lt lhs rhs = true ↔ comp.key lhs < comp.key rhs := by
  unfold Comp.lt Comp.key
  split
  · exact decide_eq_true_iff
  · exact decide_eq_true_iff

theorem Comp.equal_iff {comp : Comp} {lhs rhs : Transition} :
    comp.equal lhs rhs = true ↔ comp.key lhs = comp.key rhs := by
  unfold Comp.equal Comp.key
  split
  · exact decide_eq_true_iff
  · exact decide_eq_true_iff

/-- The type in force after the first `k` transitions. -/
def Data.regime (data : Data) : ℕ → Option Localtime
  | 0 => data.localtimes.head?
  | k + 1 => do
      let transition ← data.transitions[k]?
      data.localtime? transition.localtimeIdx

@[simp] theorem Data.regime_zero (data : Data) : data.regime 0 = data.localtimes.head? := rfl

@[simp] theorem Data.regime_succ (data : Data) (k : ℕ) : data.regime (k + 1) =
    (data.transitions[k]?).bind fun transition => data.localtime? transition.localtimeIdx := rfl

/-- The time that is looked up has passed the first `k` transitions. -/
abbrev Passed (data : Data) (sentry : Transition) (comp : Comp) (k : ℕ) : Prop :=
  Partitioned (fun transition => comp.key transition ≤ comp.key sentry) data.transitions k

/-- The transitions stand in the order they are compared by. -/
abbrev Sorted (data : Data) (comp : Comp) : Prop :=
  data.transitions.Pairwise fun a b => comp.key a < comp.key b

/-- The search stops at the last transition that has passed if it has the key
that is looked up, and behind it otherwise. -/
theorem Passed.lowerBound_eq {data : Data} {sentry last : Transition} {comp : Comp} {j : ℕ}
    (hk : Passed data sentry comp (j + 1)) (hsorted : Sorted data comp)
    (hlast : data.transitions[j]? = some last) :
    lowerBound (fun transition => comp.lt transition sentry) data.transitions
      = if comp.key last = comp.key sentry then j else j + 1 := by
  have hle := hk.le_length
  have hpassed : comp.key last ≤ comp.key sentry := (hk.iff hlast).mpr (by omega)
  apply Libiak.lowerBound_eq
  by_cases heq : comp.key last = comp.key sentry
  · rw [if_pos heq]
    refine Partitioned.of_ends hsorted (fun hxy hy => ?_) (by omega) ?_ ?_
    · rw [Comp.lt_iff] at hy ⊢
      omega
    · intro i transition hi hprev
      have hkey := pairwise_getElem? hsorted hprev hlast (by omega)
      rw [Comp.lt_iff, ← heq]
      exact hkey
    · intro transition hj
      rw [hlast, Option.some.injEq] at hj
      rw [Comp.lt_iff, ← hj]
      omega
  · rw [if_neg heq]
    refine Partitioned.of_ends hsorted (fun hxy hy => ?_) hle ?_ ?_
    · rw [Comp.lt_iff] at hy ⊢
      omega
    · intro i transition hi hprev
      obtain rfl : j = i := by omega
      rw [hlast, Option.some.injEq] at hprev
      rw [Comp.lt_iff, ← hprev]
      omega
    · intro transition hnext hkey
      have := (hk.iff hnext).mp (by
        have := Comp.lt_iff.mp hkey
        omega)
      omega

/-- **The lookup finds the type in force**: it is a function of the number of
transitions that have passed, whatever they are compared by. -/
theorem findLocaltime_eq {data : Data} {sentry : Transition} {comp : Comp} {k : ℕ}
    (hsorted : Sorted data comp) (hk : Passed data sentry comp k) :
    findLocaltime data sentry comp = data.regime k := by
  have hle := hk.le_length
  unfold findLocaltime
  cases hfront : data.transitions.head? with
  | none =>
      have hnil : data.transitions = [] := List.head?_eq_none_iff.mp hfront
      rw [hnil, List.length_nil] at hle
      obtain rfl : k = 0 := by omega
      rfl
  | some front =>
      rw [List.head?_eq_getElem?] at hfront
      have hfirst := hk.iff hfront
      dsimp only
      by_cases hlt : comp.lt sentry front = true
      · -- before the first transition
        rw [if_pos hlt]
        have := Comp.lt_iff.mp hlt
        obtain rfl : k = 0 := by
          by_contra hne
          have := hfirst.mpr (by omega)
          omega
        rfl
      · rw [if_neg hlt]
        have hpos : 0 < k := hfirst.mp (by
          have := mt Comp.lt_iff.mpr hlt
          omega)
        obtain ⟨j, rfl⟩ : ∃ j, k = j + 1 := ⟨k - 1, by omega⟩
        obtain ⟨last, hlast⟩ : ∃ last, data.transitions[j]? = some last :=
          ⟨_, List.getElem?_eq_getElem (by omega)⟩
        have hregime : data.regime (j + 1) = data.localtime? last.localtimeIdx := by
          rw [Data.regime_succ, hlast]
          rfl
        have hbound := Passed.lowerBound_eq hk hsorted hlast
        by_cases heq : comp.key last = comp.key sentry
        · -- at the last transition that has passed, which the search finds
          rw [if_pos heq] at hbound
          rw [hbound, hlast]
          dsimp only
          rw [if_pos (Comp.equal_iff.mpr heq.symm), hregime]
        · -- past it, so the search finds the one after it
          rw [if_neg heq] at hbound
          rw [hbound]
          cases hnext : data.transitions[j + 1]? with
          | some transition =>
              have hnot : ¬ comp.equal sentry transition = true := by
                intro hequal
                have hkey := Comp.equal_iff.mp hequal
                have := (hk.iff hnext).mp (by omega)
                omega
              dsimp only
              rw [if_neg hnot, if_neg (by omega), Nat.add_sub_cancel, hlast, hregime]
              rfl
          | none =>
              have hlength : data.transitions.length = j + 1 := by
                have := List.getElem?_eq_none_iff.mp hnext
                omega
              dsimp only
              rw [List.getLast?_eq_getElem?, hlength, Nat.add_sub_cancel, hlast, hregime]
              rfl

theorem Data.localtime?_mem {data : Data} {idx : ℤ} {x : Localtime}
    (h : data.localtime? idx = some x) : x ∈ data.localtimes := by
  unfold Data.localtime? at h
  split at h
  · exact List.mem_of_getElem? h
  · cases h

theorem Data.localtime?_some {data : Data} {idx : ℤ} (hlow : 0 ≤ idx)
    (hhigh : idx < data.localtimes.length) : ∃ x, data.localtime? idx = some x := by
  unfold Data.localtime?
  rw [if_pos hlow]
  exact ⟨_, List.getElem?_eq_getElem (by omega)⟩

/-- On a table with a type and with indices in range every regime has a type. -/
theorem Data.regime_exists {data : Data} (hne : 0 < data.localtimes.length)
    (hindex : ∀ transition ∈ data.transitions,
      0 ≤ transition.localtimeIdx ∧ transition.localtimeIdx < data.localtimes.length)
    {k : ℕ} (hk : k ≤ data.transitions.length) : ∃ x, data.regime k = some x := by
  cases k with
  | zero =>
      rw [Data.regime_zero, List.head?_eq_getElem?]
      exact ⟨_, List.getElem?_eq_getElem hne⟩
  | succ k =>
      have hget := List.getElem?_eq_getElem (l := data.transitions) (i := k) hk
      obtain ⟨hlow, hhigh⟩ := hindex _ (List.getElem_mem hk)
      obtain ⟨x, hx⟩ := Data.localtime?_some hlow hhigh
      refine ⟨x, ?_⟩
      rw [Data.regime_succ, hget]
      exact hx

/-- The time that is looked up has passed some number of transitions. -/
theorem Sorted.passed {data : Data} {comp : Comp} (h : Sorted data comp) (sentry : Transition) :
    ∃ k, Passed data sentry comp k :=
  Partitioned.exists h fun hxy hy => by omega

/-- The decrement of `transI` is executed: the sentry is not before the first
transition, and the search ends at one with another key. -/
def Decrements (data : Data) (sentry : Transition) (comp : Comp) : Prop :=
  (∃ front, data.transitions.head? = some front ∧ comp.lt sentry front = false)
    ∧ ∃ transition, data.transitions[lowerBound (fun x => comp.lt x sentry) data.transitions]?
        = some transition ∧ comp.equal sentry transition = false

/-- The sentry has passed the first transition or has its key, so the search
leaves it or ends at it with an equal key. -/
theorem Decrements.pos {data : Data} {sentry : Transition} {comp : Comp}
    (h : Decrements data sentry comp) :
    0 < lowerBound (fun x => comp.lt x sentry) data.transitions := by
  obtain ⟨⟨front, hfront, hnot⟩, transition, htransition, hequal⟩ := h
  rw [List.head?_eq_getElem?] at hfront
  by_cases hlt : comp.lt front sentry = true
  · exact lowerBound_pos hfront hlt
  · by_contra hzero
    have hfirst : lowerBound (fun x => comp.lt x sentry) data.transitions = 0 := by omega
    rw [hfirst, hfront, Option.some.injEq] at htransition
    subst htransition
    have hge : ¬ comp.key sentry < comp.key front := fun hkey => by
      rw [Comp.lt_iff.mpr hkey] at hnot
      cases hnot
    have hle : ¬ comp.key front < comp.key sentry := fun hkey => hlt (Comp.lt_iff.mpr hkey)
    have hkey : comp.key sentry = comp.key front := by omega
    rw [Comp.equal_iff.mpr hkey] at hequal
    cases hequal

/-- The type whose regime the sentry falls into: that of the last transition
whose key is not above the sentry's, or the first type where there is none. -/
def InForce (data : Data) (sentry : Transition) (comp : Comp) (x : Localtime) : Prop :=
  (∃ (i : ℕ) (transition : Transition), data.transitions[i]? = some transition
      ∧ comp.key transition ≤ comp.key sentry
      ∧ (∀ (j : ℕ) (next : Transition), i < j → data.transitions[j]? = some next →
        comp.key sentry < comp.key next)
      ∧ data.localtime? transition.localtimeIdx = some x)
    ∨ ((∀ transition ∈ data.transitions, comp.key sentry < comp.key transition)
      ∧ data.localtimes.head? = some x)

/-- The type after the transitions that have passed is the one in force. -/
theorem Passed.inForce {data : Data} {sentry : Transition} {comp : Comp} {k : ℕ} {x : Localtime}
    (hk : Passed data sentry comp k) (hx : data.regime k = some x) :
    InForce data sentry comp x := by
  have hle := hk.le_length
  cases k with
  | zero =>
      refine Or.inr ⟨fun transition hmem => ?_, hx⟩
      obtain ⟨i, hi⟩ := List.mem_iff_getElem?.mp hmem
      have := mt (hk.iff hi).mp (Nat.not_lt_zero i)
      omega
  | succ k =>
      obtain ⟨last, hlast⟩ : ∃ last, data.transitions[k]? = some last :=
        ⟨_, List.getElem?_eq_getElem (by omega)⟩
      rw [Data.regime_succ, hlast] at hx
      refine Or.inl ⟨k, last, hlast, (hk.iff hlast).mpr (Nat.lt_succ_self k), ?_, hx⟩
      intro j next hj hnext
      have := mt (hk.iff hnext).mp (by omega)
      omega

/-- **The lookup is the regime lookup.** On a table with a type and with indices
in range, in order by either key, `findLocaltime` finds for every sentry the type
of the last transition whose key is not above the sentry's, or the first type
where there is none; its assertion holds whenever it is reached. -/
theorem findLocaltime_lookup (data : Data) (comp : Comp) (hne : 0 < data.localtimes.length)
    (hindex : ∀ transition ∈ data.transitions,
      0 ≤ transition.localtimeIdx ∧ transition.localtimeIdx < data.localtimes.length)
    (hsorted : Sorted data comp) (sentry : Transition) :
    (∃ x, findLocaltime data sentry comp = some x ∧ InForce data sentry comp x)
      ∧ (Decrements data sentry comp →
        0 < lowerBound (fun x => comp.lt x sentry) data.transitions) := by
  refine ⟨?_, Decrements.pos⟩
  obtain ⟨k, hk⟩ := hsorted.passed sentry
  obtain ⟨x, hx⟩ := Data.regime_exists hne hindex hk.le_length
  refine ⟨x, ?_, hk.inForce hx⟩
  rw [findLocaltime_eq hsorted hk, hx]

/-- A table with one change, looked up by local time in the hour it repeats. -/
theorem findLocaltime_lookup_local :
    (∃ x, findLocaltime ⟨[⟨1000000, 1003600, 1⟩], [⟨7200, true, 0⟩, ⟨3600, false, 5⟩], []⟩
          ⟨0, 1005000, 0⟩ ⟨false⟩ = some x
        ∧ InForce ⟨[⟨1000000, 1003600, 1⟩], [⟨7200, true, 0⟩, ⟨3600, false, 5⟩], []⟩
          ⟨0, 1005000, 0⟩ ⟨false⟩ x) :=
  (findLocaltime_lookup ⟨[⟨1000000, 1003600, 1⟩], [⟨7200, true, 0⟩, ⟨3600, false, 5⟩], []⟩
    ⟨false⟩ (by decide) (by decide) (List.pairwise_singleton _ _) ⟨0, 1005000, 0⟩).1

/-! ## Tables of a zone -/

/-- A table whose transitions are more than two days apart, between types less
than a day off UTC, and whose local times are those of their types. -/
structure Data.Spaced (data : Data) : Prop where
  nonempty : 0 < data.localtimes.length
  index : ∀ transition ∈ data.transitions,
    0 ≤ transition.localtimeIdx ∧ transition.localtimeIdx < data.localtimes.length
  apart : data.transitions.Pairwise fun a b => a.gmttime + 48 * 3600 < b.gmttime
  localtime : ∀ transition ∈ data.transitions, ∀ x,
    data.localtime? transition.localtimeIdx = some x →
    transition.localtime = transition.gmttime + x.gmtOffset
  offset : ∀ x ∈ data.localtimes, -86400 < x.gmtOffset ∧ x.gmtOffset < 86400

/-- A table whose transitions are more than two days apart, and change the
offset only in ways the way back is made for: not backwards, or by one hour
backwards from a daylight saving type to one that is not. -/
structure Data.Regular (data : Data) : Prop where
  nonempty : 0 < data.localtimes.length
  index : ∀ transition ∈ data.transitions,
    0 ≤ transition.localtimeIdx ∧ transition.localtimeIdx < data.localtimes.length
  apart : data.transitions.Pairwise fun a b => a.gmttime + 48 * 3600 < b.gmttime
  localtime : ∀ transition ∈ data.transitions, ∀ x,
    data.localtime? transition.localtimeIdx = some x →
    transition.localtime = transition.gmttime + x.gmtOffset
  offset : ∀ x ∈ data.localtimes, -86400 < x.gmtOffset ∧ x.gmtOffset < 86400
  change : ∀ (k : ℕ) (a b : Localtime), data.regime k = some a → data.regime (k + 1) = some b →
    a.gmtOffset ≤ b.gmtOffset
      ∨ (b.gmtOffset = a.gmtOffset - 3600 ∧ a.isDst = true ∧ b.isDst = false)

theorem Data.Regular.spaced {data : Data} (h : data.Regular) : data.Spaced :=
  ⟨h.nonempty, h.index, h.apart, h.localtime, h.offset⟩

section Spaced

variable {data : Data}

/-- A transition's local time is its time by the offset of its type. -/
theorem Data.Spaced.localtime_eq (h : data.Spaced) {transition : Transition}
    (hmem : transition ∈ data.transitions) : ∃ x, data.localtime? transition.localtimeIdx = some x
      ∧ transition.localtime = transition.gmttime + x.gmtOffset
      ∧ -86400 < x.gmtOffset ∧ x.gmtOffset < 86400 := by
  obtain ⟨hlow, hhigh⟩ := h.index transition hmem
  obtain ⟨x, hx⟩ := Data.localtime?_some hlow hhigh
  exact ⟨x, hx, h.localtime transition hmem x hx, h.offset x (Data.localtime?_mem hx)⟩

theorem Data.Spaced.sorted (h : data.Spaced) (comp : Comp) : Sorted data comp := by
  refine h.apart.imp_of_mem fun {a b} ha hb hab => ?_
  unfold Comp.key
  split
  · omega
  · obtain ⟨x, -, hax, hx⟩ := h.localtime_eq ha
    obtain ⟨y, -, hby, hy⟩ := h.localtime_eq hb
    omega

/-- The types of the regimes are types of the table. -/
theorem Data.Spaced.offset_regime (h : data.Spaced) {k : ℕ} {x : Localtime}
    (hx : data.regime k = some x) : -86400 < x.gmtOffset ∧ x.gmtOffset < 86400 := by
  cases k with
  | zero => exact h.offset x (List.mem_of_head? hx)
  | succ k =>
      rw [Data.regime_succ, Option.bind_eq_some_iff] at hx
      obtain ⟨transition, -, hx⟩ := hx
      exact h.offset x (Data.localtime?_mem hx)

/-- The transition that starts a regime. -/
theorem Data.Spaced.localtime_regime (h : data.Spaced) {k : ℕ} {transition : Transition}
    {x : Localtime} (htransition : data.transitions[k]? = some transition)
    (hx : data.regime (k + 1) = some x) :
    transition.localtime = transition.gmttime + x.gmtOffset := by
  rw [Data.regime_succ, htransition] at hx
  exact h.localtime transition (List.mem_of_getElem? htransition) x hx

end Spaced

section Regular

variable {data : Data}

/-- **The two counts.** By its local time a time has passed as many transitions
as by its UTC time, but for the hour before a backward change: there it has
passed the change too, and is as far from it as the time one hour later. -/
theorem Data.Regular.passed_cases (h : data.Regular) {t : ℤ} {k : ℕ} {a : Localtime}
    (hk : Passed data ⟨t, 0, 0⟩ ⟨true⟩ k) (ha : data.regime k = some a) :
    Passed data ⟨0, t + a.gmtOffset, 0⟩ ⟨false⟩ k
      ∨ ∃ b, data.regime (k + 1) = some b
        ∧ (b.gmtOffset = a.gmtOffset - 3600 ∧ a.isDst = true ∧ b.isDst = false)
        ∧ Passed data ⟨0, t + a.gmtOffset, 0⟩ ⟨false⟩ (k + 1)
        ∧ Passed data ⟨t + 3600, 0, 0⟩ ⟨true⟩ (k + 1) := by
  by_cases hnext : ∃ next, data.transitions[k]? = some next ∧ next.localtime ≤ t + a.gmtOffset
  · -- the local time has passed one more transition
    right
    obtain ⟨next, hnext, hpassed⟩ := hnext
    obtain ⟨hlt, -⟩ := List.getElem?_eq_some_iff.mp hnext
    have hfuture : ¬ next.gmttime ≤ t := fun hle => by
      have := (hk.iff hnext).mp hle
      omega
    obtain ⟨b, hb⟩ := Data.regime_exists h.nonempty h.index (k := k + 1) hlt
    have hlocal := h.spaced.localtime_regime hnext hb
    have hchange : b.gmtOffset = a.gmtOffset - 3600 ∧ a.isDst = true ∧ b.isDst = false := by
      obtain hle | hback := h.change k a b ha hb
      · omega
      · exact hback
    obtain ⟨hback, hdst⟩ := hchange
    -- the transition after it is far away, by either key
    have hafter : ∀ {x : Transition}, data.transitions[k + 1]? = some x →
        t + 3600 < x.gmttime ∧ t + a.gmtOffset < x.localtime := by
      intro x hx
      have hfar := pairwise_getElem? h.apart hnext hx (Nat.lt_succ_self k)
      obtain ⟨c, -, hc, hcr⟩ := h.spaced.localtime_eq (List.mem_of_getElem? hx)
      have har := h.spaced.offset_regime ha
      omega
    refine ⟨b, hb, ⟨hback, hdst⟩, ?_, ?_⟩
    · refine Partitioned.of_ends (h.spaced.sorted ⟨false⟩) (fun hxy hy => by omega) hlt ?_ ?_
      · intro j x hj hx
        obtain rfl : k = j := by omega
        rw [hnext, Option.some.injEq] at hx
        exact hx ▸ hpassed
      · intro x hx
        exact Int.not_le.mpr (hafter hx).2
    · refine Partitioned.of_ends (h.spaced.sorted ⟨true⟩) (fun hxy hy => by omega) hlt ?_ ?_
      · intro j x hj hx
        obtain rfl : k = j := by omega
        rw [hnext, Option.some.injEq] at hx
        rw [← hx]
        show next.gmttime ≤ t + 3600
        omega
      · intro x hx
        exact Int.not_le.mpr (hafter hx).1
  · left
    refine Partitioned.of_ends (h.spaced.sorted ⟨false⟩) (fun hxy hy => by omega) hk.le_length ?_ ?_
    · intro j x hj hx
      subst hj
      have hpast : x.gmttime ≤ t := (hk.iff hx).mpr (Nat.lt_succ_self j)
      have hlocal := h.spaced.localtime_regime hx ha
      show x.localtime ≤ t + a.gmtOffset
      omega
    · intro x hx hle
      exact hnext ⟨x, hx, hle⟩

end Regular

/-! ## The round trip -/

/-- The local time of a time fits a `struct tm`. -/
def Representable (libc : Libc) (data : Data) (t : ℤ) : Prop :=
  ∀ x, findLocaltime data ⟨t, 0, 0⟩ ⟨true⟩ = some x → libc.gmtime_r (t + x.gmtOffset) ≠ none

/-- `toLocalTime`, where the type in force is known. -/
theorem toLocalTime_eq {libc : Libc} {data : Data} {t : ℤ} {a : Localtime} {x : Tm}
    (ha : findLocaltime data ⟨t, 0, 0⟩ ⟨true⟩ = some a)
    (hx : libc.gmtime_r (t + a.gmtOffset) = some x) :
    toLocalTime libc data t = some { x with
      tm_isdst := if a.isDst then 1 else 0
      tm_gmtoff := a.gmtOffset
      tm_zone := .abbreviation a.arrbIdx } := by
  unfold toLocalTime
  dsimp only
  rw [ha]
  dsimp only [Option.bind_eq_bind, Option.bind_some]
  rw [hx]
  rfl

/-- **Local time round trip.** On a regular table `fromLocalTime` takes back the
local time of every time whose local time fits a `struct tm`, in the first and in
the second pass of an hour that is repeated. -/
theorem localTime_round_trip (libc : Libc) (data : Data) (h : data.Regular) (t : ℤ)
    (hrep : Representable libc data t) :
    ∃ x, toLocalTime libc data t = some x ∧ fromLocalTime libc data x = some t := by
  obtain ⟨k, hk⟩ := (h.spaced.sorted ⟨true⟩).passed ⟨t, 0, 0⟩
  obtain ⟨a, ha⟩ := Data.regime_exists h.nonempty h.index hk.le_length
  have hfind := findLocaltime_eq (h.spaced.sorted ⟨true⟩) hk
  rw [ha] at hfind
  obtain ⟨x, hx⟩ := Option.ne_none_iff_exists'.mp (hrep a hfind)
  refine ⟨_, toLocalTime_eq hfind hx, ?_⟩
  have htimegm := libc.timegm_gmtime_r hx
  unfold fromLocalTime
  dsimp only
  rw [libc.timegm_local, htimegm]
  obtain hsame | ⟨b, hb, ⟨hback, hadst, hbdst⟩, hlocal, hlater⟩ := h.passed_cases hk ha
  · -- the same type both ways: the trial conversion is the one just made
    have hfind' := findLocaltime_eq (h.spaced.sorted ⟨false⟩) hsame
    rw [ha] at hfind'
    rw [hfind']
    dsimp only [Option.bind_eq_bind, Option.bind_some]
    rw [show t + a.gmtOffset - a.gmtOffset = t by omega]
    by_cases hdst : a.isDst = true
    · rw [if_pos (by rw [if_pos hdst]; decide), toLocalTime_eq hfind hx]
      dsimp only [Option.bind_some]
      rw [if_pos hdst, if_neg (by omega)]
    · rw [if_neg (by rw [if_neg hdst]; decide)]
  · -- the first pass of a repeated hour: the trial is one hour late, out of
    -- daylight saving time, and reads the same on the clock
    have hfind' := findLocaltime_eq (h.spaced.sorted ⟨false⟩) hlocal
    rw [hb] at hfind'
    rw [hfind']
    have hfind'' := findLocaltime_eq (h.spaced.sorted ⟨true⟩) hlater
    rw [hb] at hfind''
    have hclock : t + 3600 + b.gmtOffset = t + a.gmtOffset := by omega
    rw [← hclock] at hx
    dsimp only [Option.bind_eq_bind, Option.bind_some]
    rw [show t + a.gmtOffset - b.gmtOffset = t + 3600 by omega,
      if_pos (by rw [if_pos hadst]; decide), toLocalTime_eq hfind'' hx]
    dsimp only [Option.bind_some]
    rw [if_pos ⟨by rw [hbdst]; rfl, rfl, rfl⟩, Option.some.injEq]
    omega

/-- A C library that counts by the calendar; `timegm` takes a month out of its
range as one of another year. -/
def calendarLibc : Libc where
  gmtime_r seconds :=
    let date := ofDayNumber (dayOf seconds)
    if Fits (date.year - 1900) then
      some {
        tm_sec := seconds % 86400 % 60
        tm_min := seconds % 86400 / 60 % 60
        tm_hour := seconds % 86400 / 60 / 60
        tm_mday := date.day
        tm_mon := date.month - 1
        tm_year := date.year - 1900
        tm_wday := weekDay (dayOf seconds)
        tm_yday := dayOf seconds - dayNumber ⟨date.year, 1, 1⟩
        tm_isdst := 0
        tm_gmtoff := 0
        tm_zone := .literal "GMT" }
    else none
  timegm x :=
    (dayNumber ⟨x.tm_year + 1900 + x.tm_mon / 12, x.tm_mon % 12 + 1, x.tm_mday⟩ - 2440588) * 86400
      + x.tm_hour * 3600 + x.tm_min * 60 + x.tm_sec
  timegm_gmtime_r := by
    intro seconds x hx
    obtain ⟨hreal, hnumber⟩ := dayNumber_ofDayNumber (dayOf seconds)
    obtain ⟨hmonth, -⟩ := hreal
    obtain ⟨date, hdate⟩ : ∃ date, date = ofDayNumber (dayOf seconds) := ⟨_, rfl⟩
    rw [← hdate] at hx hmonth hnumber
    dsimp only at hx
    split at hx
    · cases hx
      have hsame : (⟨date.year - 1900 + 1900 + (date.month - 1) / 12, (date.month - 1) % 12 + 1,
          date.day⟩ : YearMonthDay) = date := by
        rw [show date.year - 1900 + 1900 + (date.month - 1) / 12 = date.year by omega,
          show (date.month - 1) % 12 + 1 = date.month by omega]
      dsimp only
      rw [hsame, hnumber, dayOf]
      omega
    · cases hx
  timegm_local := fun _ _ _ _ => rfl

/-- Two hours and one hour ahead of UTC, with one change back. -/
def autumn : Data where
  transitions := [⟨1000000, 1003600, 1⟩]
  localtimes := [⟨7200, true, 0⟩, ⟨3600, false, 5⟩]
  abbreviation := [67, 69, 83, 84, 0, 67, 69, 84, 0]

theorem autumn_regular : autumn.Regular where
  nonempty := by decide
  index := by decide
  apart := by decide
  localtime := by
    intro transition hmem x hx
    obtain rfl : transition = ⟨1000000, 1003600, 1⟩ := List.mem_singleton.mp hmem
    obtain rfl : ⟨3600, false, 5⟩ = x := Option.some.inj hx
    decide
  offset := by decide
  change := by
    intro k a b ha hb
    cases k with
    | zero =>
        obtain rfl : ⟨7200, true, 0⟩ = a := Option.some.inj ha
        obtain rfl : ⟨3600, false, 5⟩ = b := Option.some.inj hb
        exact Or.inr (by decide)
    | succ k => cases hb

/-- Half an hour before the change back, in the first pass of the hour. -/
theorem localTime_round_trip_autumn :
    ∃ x, toLocalTime calendarLibc autumn 998200 = some x
      ∧ fromLocalTime calendarLibc autumn x = some 998200 :=
  localTime_round_trip calendarLibc autumn autumn_regular 998200 (by
    intro x hx
    obtain rfl : ⟨7200, true, 0⟩ = x := Option.some.inj hx
    decide)

end Libiak.Base
