/-
`base/TimeZone.cpp`: what `fromLocalTime` makes of any local time.

A clock that shows local time shows some readings twice, where it is put back, and leaves
some out, where it is put forward. With transitions more than two days apart it shows no
reading more often than twice (`Data.Spaced.shows_cases`), and `fromLocalTime` takes the
last time it does; a reading that is left out is taken for the time at which the clock
would have shown it with the old offset, which is after the change
(`fromLocalTime_latest`). The flag of daylight saving time is no part of the lookup: it
moves the result by an hour where the type found is not one.
-/
import Libiak.TimeZone

set_option autoImplicit false

namespace Libiak.Base

/-- The clock shows `x` at `t`: this is what `toLocalTime` converts. -/
def Data.Shows (data : Data) (t x : ℤ) : Prop :=
  ∃ a, findLocaltime data ⟨t, 0, 0⟩ ⟨true⟩ = some a ∧ t + a.gmtOffset = x

/-- The transition `next` puts the clock forward, from `a` to `b`, past `x`. -/
structure Data.LeavesOut (data : Data) (next : Transition) (a b : Localtime) (x : ℤ) : Prop where
  change : ∃ k, data.transitions[k]? = some next ∧ data.regime k = some a
    ∧ data.regime (k + 1) = some b
  reached : next.gmttime + a.gmtOffset ≤ x
  skipped : x < next.gmttime + b.gmtOffset

section Clock

variable {data : Data} {t x : ℤ} {j k : ℕ} {a b : Localtime}

theorem Data.Spaced.shows_iff (h : data.Spaced) (hj : Passed data ⟨t, 0, 0⟩ ⟨true⟩ j)
    (ha : data.regime j = some a) : data.Shows t x ↔ t + a.gmtOffset = x := by
  have hfind := findLocaltime_eq (h.sorted ⟨true⟩) hj
  rw [ha] at hfind
  unfold Data.Shows
  rw [hfind]
  constructor
  · rintro ⟨c, hc, hx⟩
    obtain rfl := Option.some.inj hc
    exact hx
  · intro hx
    exact ⟨a, rfl, hx⟩

/-- By the offset of its own regime a reading is behind the transition that begins it. -/
theorem Data.Spaced.began (h : data.Spaced) (hk : Passed data ⟨0, x, 0⟩ ⟨false⟩ k)
    (ha : data.regime k = some a) {i : ℕ} {last : Transition} (hi : i < k)
    (hlast : data.transitions[i]? = some last) : last.gmttime ≤ x - a.gmtOffset := by
  obtain ⟨m, rfl⟩ : ∃ m, k = m + 1 := ⟨k - 1, by omega⟩
  obtain ⟨first, hfirst⟩ : ∃ first, data.transitions[m]? = some first :=
    ⟨_, List.getElem?_eq_getElem (by have := hk.le_length; omega)⟩
  have hlocal := h.localtime_regime hfirst ha
  have hpassed : first.localtime ≤ x := (hk.iff hfirst).mpr (Nat.lt_succ_self m)
  by_cases heq : i = m
  · subst heq
    rw [hfirst, Option.some.injEq] at hlast
    rw [← hlast]
    omega
  · have hfar := pairwise_getElem? h.apart hlast hfirst (by omega)
    omega

/-- **The times a reading is shown.** The last of them is by the regime that the lookup by
local time finds, and if there is another, it is by the one before. -/
theorem Data.Spaced.shows_cases (h : data.Spaced) (hk : Passed data ⟨0, x, 0⟩ ⟨false⟩ k)
    (ha : data.regime k = some a) (ht : data.Shows t x) :
    t = x - a.gmtOffset ∨ ∃ m c, k = m + 1 ∧ data.regime m = some c
      ∧ Passed data ⟨t, 0, 0⟩ ⟨true⟩ m ∧ t = x - c.gmtOffset ∧ t < x - a.gmtOffset := by
  obtain ⟨j, hj⟩ := (h.sorted ⟨true⟩).passed ⟨t, 0, 0⟩
  obtain ⟨c, hc⟩ := Data.regime_exists h.nonempty h.index hj.le_length
  have htx := (h.shows_iff hj hc).mp ht
  have hcr := h.offset_regime hc
  have har := h.offset_regime ha
  rcases Nat.lt_trichotomy j k with hlt | heq | hgt
  · -- `t` is before the transition that the reading has passed
    right
    obtain ⟨m, rfl⟩ : ∃ m, k = m + 1 := ⟨k - 1, by omega⟩
    obtain ⟨first, hfirst⟩ : ∃ first, data.transitions[m]? = some first :=
      ⟨_, List.getElem?_eq_getElem (by have := hk.le_length; omega)⟩
    have hbegan := h.began hk ha (Nat.lt_succ_self m) hfirst
    have hnot : ¬ first.gmttime ≤ t := fun hle => by
      have := (hj.iff hfirst).mp hle
      omega
    have hm : j = m := by
      by_contra hne
      -- two transitions earlier the clock was more than a day behind
      obtain ⟨next, hnext⟩ : ∃ next, data.transitions[j]? = some next :=
        ⟨_, List.getElem?_eq_getElem (by have := hk.le_length; omega)⟩
      have hnot' : ¬ next.gmttime ≤ t := fun hle => by
        have := (hj.iff hnext).mp hle
        omega
      have := pairwise_getElem? h.apart hnext hfirst (by omega)
      omega
    subst hm
    exact ⟨j, c, rfl, hc, hj, by omega, by omega⟩
  · subst heq
    rw [ha, Option.some.injEq] at hc
    subst hc
    exact Or.inl (by omega)
  · -- the reading would have passed the transition too
    obtain ⟨m, rfl⟩ : ∃ m, j = m + 1 := ⟨j - 1, by omega⟩
    obtain ⟨last, hlast⟩ : ∃ last, data.transitions[m]? = some last :=
      ⟨_, List.getElem?_eq_getElem (by have := hj.le_length; omega)⟩
    have hlocal := h.localtime_regime hlast hc
    have hpast : last.gmttime ≤ t := (hj.iff hlast).mpr (Nat.lt_succ_self m)
    have hle : last.localtime ≤ x := by omega
    have := (hk.iff hlast).mp hle
    omega

/-- **Shown or left out.** By the regime that the lookup finds, the clock shows the reading;
or a change forward leaves it out, and by that regime the time is after the change. -/
theorem Data.Spaced.shows_or (h : data.Spaced) (hk : Passed data ⟨0, x, 0⟩ ⟨false⟩ k)
    (ha : data.regime k = some a) :
    data.Shows (x - a.gmtOffset) x
      ∨ (∀ t, ¬ data.Shows t x) ∧ ∃ next b, data.LeavesOut next a b x
        ∧ findLocaltime data ⟨x - a.gmtOffset, 0, 0⟩ ⟨true⟩ = some b := by
  have har := h.offset_regime ha
  by_cases hahead : ∃ next, data.transitions[k]? = some next ∧ next.gmttime ≤ x - a.gmtOffset
  · right
    obtain ⟨next, hnext, hpast⟩ := hahead
    obtain ⟨hlt, -⟩ := List.getElem?_eq_some_iff.mp hnext
    obtain ⟨b, hb⟩ := Data.regime_exists h.nonempty h.index (k := k + 1) hlt
    have hbr := h.offset_regime hb
    have hlocal := h.localtime_regime hnext hb
    have hfuture : ¬ next.localtime ≤ x := fun hle => by
      have := (hk.iff hnext).mp hle
      omega
    have hpassed : Passed data ⟨x - a.gmtOffset, 0, 0⟩ ⟨true⟩ (k + 1) := by
      refine Partitioned.of_ends (h.sorted ⟨true⟩) (fun hxy hy => by omega) hlt ?_ ?_
      · intro i last hi hlast
        obtain rfl : k = i := by omega
        rw [hnext, Option.some.injEq] at hlast
        exact hlast ▸ hpast
      · intro after hafter hle
        have hle' : after.gmttime ≤ x - a.gmtOffset := hle
        have := pairwise_getElem? h.apart hnext hafter (Nat.lt_succ_self k)
        omega
    refine ⟨fun t ht => ?_, next, b, ⟨⟨k, hnext, ha, hb⟩, by omega, by omega⟩,
      (findLocaltime_eq (h.sorted ⟨true⟩) hpassed).trans hb⟩
    rcases h.shows_cases hk ha ht with rfl | ⟨m, c, rfl, hc, hm, htc, -⟩
    · have := (h.shows_iff hpassed hb).mp ht
      omega
    · -- the regime before ended more than two days before this change
      obtain ⟨first, hfirst⟩ : ∃ first, data.transitions[m]? = some first :=
        ⟨_, List.getElem?_eq_getElem (by have := hk.le_length; omega)⟩
      have hnot : ¬ first.gmttime ≤ t := fun hle => by
        have := (hm.iff hfirst).mp hle
        omega
      have hfar := pairwise_getElem? h.apart hfirst hnext (Nat.lt_succ_self m)
      have hcr := h.offset_regime hc
      omega
  · left
    refine (h.shows_iff ?_ ha).mpr (by omega)
    refine Partitioned.of_ends (h.sorted ⟨true⟩) (fun hxy hy => by omega) hk.le_length ?_ ?_
    · intro i last hi hlast
      exact h.began hk ha (by omega) hlast
    · intro next hnext hle
      exact hahead ⟨next, hnext, hle⟩

end Clock

/-! ## The way back -/

section Back

variable {libc : Libc} {data : Data} {localTm : Tm} {x : ℤ} {a b : Localtime}

/-- With the flag clear the result is by the type that the lookup finds. -/
theorem fromLocalTime_clear (hlocal : libc.timegm localTm = x)
    (ha : findLocaltime data ⟨0, x, 0⟩ ⟨false⟩ = some a) (gmtoff : ℤ) (zone : Zone) :
    fromLocalTime libc data { localTm with tm_isdst := 0, tm_gmtoff := gmtoff, tm_zone := zone }
      = some (x - a.gmtOffset) := by
  unfold fromLocalTime
  dsimp only
  rw [libc.timegm_local, hlocal, ha]
  rfl

/-- With the flag set, too, if the time it gives is one of daylight saving time. -/
theorem fromLocalTime_set_dst (hlocal : libc.timegm localTm = x)
    (ha : findLocaltime data ⟨0, x, 0⟩ ⟨false⟩ = some a)
    (hb : findLocaltime data ⟨x - a.gmtOffset, 0, 0⟩ ⟨true⟩ = some b) (hdst : b.isDst = true)
    {isdst : ℤ} (hset : isdst ≠ 0) (gmtoff : ℤ) (zone : Zone) :
    fromLocalTime libc data { localTm with
      tm_isdst := isdst, tm_gmtoff := gmtoff, tm_zone := zone } = some (x - a.gmtOffset) := by
  unfold fromLocalTime toLocalTime
  dsimp only
  rw [libc.timegm_local, hlocal, ha]
  dsimp only [Option.bind_eq_bind, Option.bind_some]
  rw [if_pos hset, hb]
  dsimp only [Option.bind_some]
  rw [if_pos hdst, if_neg]
  rintro ⟨hzero, -⟩
  cases hzero

/-- And an hour earlier if it is not, and the clock shows the reading. -/
theorem fromLocalTime_set_standard (hlocal : libc.gmtime_r x = some localTm)
    (ha : findLocaltime data ⟨0, x, 0⟩ ⟨false⟩ = some a)
    (hb : findLocaltime data ⟨x - a.gmtOffset, 0, 0⟩ ⟨true⟩ = some b) (hdst : b.isDst = false)
    (hshown : x - a.gmtOffset + b.gmtOffset = x) {isdst : ℤ} (hset : isdst ≠ 0) (gmtoff : ℤ)
    (zone : Zone) : fromLocalTime libc data { localTm with
      tm_isdst := isdst, tm_gmtoff := gmtoff, tm_zone := zone }
      = some (x - a.gmtOffset - 3600) := by
  have hclock : libc.gmtime_r (x - a.gmtOffset + b.gmtOffset) = some localTm := by
    rw [hshown, hlocal]
  unfold fromLocalTime
  dsimp only
  rw [libc.timegm_local, libc.timegm_gmtime_r hlocal, ha]
  dsimp only [Option.bind_eq_bind, Option.bind_some]
  rw [if_pos hset, toLocalTime_eq hb hclock]
  dsimp only [Option.bind_some]
  rw [if_pos ⟨by rw [hdst]; rfl, rfl, rfl⟩, Option.some.injEq]
  omega

end Back

/-- What `r`, in the regime of `a`, is to the local time `x`: the last time at which the
clock shows it, or if it never does, as long after the change that leaves it out as `x` is
behind what the clock had reached. There is one other such time at most. The flag, if it
is set, makes it an hour earlier where the clock shows `x` and `a` is not daylight saving
time. -/
structure Taken (libc : Libc) (data : Data) (localTm : Tm) (x r : ℤ) (a : Localtime) : Prop where
  inForce : findLocaltime data ⟨r, 0, 0⟩ ⟨true⟩ = some a
  clear : ∀ gmtoff zone, fromLocalTime libc data { localTm with
    tm_isdst := 0, tm_gmtoff := gmtoff, tm_zone := zone } = some r
  last : data.Shows r x ∧ (∀ t, data.Shows t x → t ≤ r)
    ∨ (∀ t, ¬ data.Shows t x) ∧ ∃ next c, data.LeavesOut next c a x
      ∧ r - next.gmttime = x - (next.gmttime + c.gmtOffset)
  twice : ∃ s, ∀ t, data.Shows t x → t = r ∨ t = s
  set : ∀ isdst gmtoff zone, isdst ≠ 0 → a.isDst = true → fromLocalTime libc data { localTm with
    tm_isdst := isdst, tm_gmtoff := gmtoff, tm_zone := zone } = some r
  standard : ∀ isdst gmtoff zone, isdst ≠ 0 → a.isDst = false → data.Shows r x →
    fromLocalTime libc data { localTm with
      tm_isdst := isdst, tm_gmtoff := gmtoff, tm_zone := zone } = some (r - 3600)

/-- **What `fromLocalTime` makes of a local time**, of every one on every table whose
transitions are more than 48 hours apart. -/
theorem fromLocalTime_latest (libc : Libc) (data : Data) (h : data.Spaced) (x : ℤ) (localTm : Tm)
    (hlocal : libc.gmtime_r x = some localTm) : ∃ r a, Taken libc data localTm x r a := by
  obtain ⟨k, hk⟩ := (h.sorted ⟨false⟩).passed ⟨0, x, 0⟩
  obtain ⟨a, ha⟩ := Data.regime_exists h.nonempty h.index hk.le_length
  have hfind := findLocaltime_eq (h.sorted ⟨false⟩) hk
  rw [ha] at hfind
  have htimegm := libc.timegm_gmtime_r hlocal
  have hother : ∃ s, ∀ t, data.Shows t x → t = x - a.gmtOffset ∨ t = s := by
    -- by the regime before, if there is one
    refine ⟨x - ((data.regime (k - 1)).map Localtime.gmtOffset).getD 0, fun t ht => ?_⟩
    rcases h.shows_cases hk ha ht with rfl | ⟨m, c, rfl, hc, -, rfl, -⟩
    · exact Or.inl rfl
    · right
      rw [Nat.add_sub_cancel, hc]
      rfl
  rcases h.shows_or hk ha with hshown | ⟨hnever, next, b, hout, hb⟩
  · obtain ⟨b, hb, hclock⟩ := id hshown
    refine ⟨x - a.gmtOffset, b, hb, fromLocalTime_clear htimegm hfind, Or.inl ⟨hshown, ?_⟩, hother,
      fun isdst gmtoff zone hset hdst => ?_, fun isdst gmtoff zone hset hdst _ => ?_⟩
    · intro t ht
      rcases h.shows_cases hk ha ht with rfl | ⟨m, c, -, -, -, -, hless⟩
      · exact Int.le_refl _
      · exact Int.le_of_lt hless
    · exact fromLocalTime_set_dst htimegm hfind hb hdst hset gmtoff zone
    · exact fromLocalTime_set_standard hlocal hfind hb hdst hclock hset gmtoff zone
  · refine ⟨x - a.gmtOffset, b, hb, fromLocalTime_clear htimegm hfind,
      Or.inr ⟨hnever, next, a, hout, by omega⟩, hother,
      fun isdst gmtoff zone hset hdst => ?_, fun _ _ _ _ _ hshown => absurd hshown (hnever _)⟩
    exact fromLocalTime_set_dst htimegm hfind hb hdst hset gmtoff zone

/-- One hour and two hours ahead of UTC, with one change forward. -/
def forward : Data where
  transitions := [⟨1000000, 1007200, 1⟩]
  localtimes := [⟨3600, false, 5⟩, ⟨7200, true, 0⟩]
  abbreviation := [67, 69, 83, 84, 0, 67, 69, 84, 0]

theorem forward_spaced : forward.Spaced := by
  refine ⟨by decide, by decide, by decide, ?_, by decide⟩
  intro transition hmem x hx
  obtain rfl : transition = ⟨1000000, 1007200, 1⟩ := List.mem_singleton.mp hmem
  obtain rfl : ⟨7200, true, 0⟩ = x := Option.some.inj hx
  decide

/-- The reading after 1400 of the 3600 seconds that are left out: 1400 seconds after the
change. -/
theorem fromLocalTime_latest_forward : ∃ localTm r a, calendarLibc.gmtime_r 1005000 = some localTm
    ∧ Taken calendarLibc forward localTm 1005000 r a ∧ r = 1001400 := by
  obtain ⟨localTm, hlocal⟩ : ∃ localTm, calendarLibc.gmtime_r 1005000 = some localTm := ⟨_, rfl⟩
  obtain ⟨r, a, htaken⟩ := fromLocalTime_latest calendarLibc forward forward_spaced 1005000 localTm
    hlocal
  refine ⟨localTm, r, a, hlocal, htaken, ?_⟩
  have hfind : findLocaltime forward ⟨0, 1005000, 0⟩ ⟨false⟩ = some ⟨3600, false, 5⟩ := by decide
  have hclear := htaken.clear 0 .null
  rw [fromLocalTime_clear (calendarLibc.timegm_gmtime_r hlocal) hfind] at hclear
  exact (Option.some.inj hclear).symm

end Libiak.Base
