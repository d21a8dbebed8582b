/-
The time a log message begins with.

A constructor in `log/LogMessage.cpp` prints the second into the thread's `t_time` and
keeps it there, with `t_lastSecond`, for the messages of the same second; only the
microseconds are printed anew. The cache starts as if it were for second 0, with nothing
in it, so it is right for all messages of a thread exactly if the first of them is not
made in that second (`stamps_plain`).

What is printed has a fixed width, from the year to the microseconds, and it stays in
front of everything that is inserted later. So the lines of a log compare like the local
times they were made at, and in a zone with one offset like the times
(`messages_sorted`): a sorted log is in the order of time.
-/
import Libiak.IsoDate
import Libiak.LogMessage
import Libiak.UtcTime

set_option autoImplicit false

namespace Libiak.Log

open Libiak.Base

/-! ## The text of a time -/

/-- `"%4d%02d%02d %02d:%02d:%02d"`. -/
def timeFormat (tm_time : Tm) : List Char :=
  printInt false 4 (tm_time.tm_year + 1900) ++ (printInt true 2 (tm_time.tm_mon + 1)
    ++ (printInt true 2 tm_time.tm_mday ++ ' ' :: (printInt true 2 tm_time.tm_hour
    ++ ':' :: (printInt true 2 tm_time.tm_min ++ ':' :: printInt true 2 tm_time.tm_sec))))

/-- `".%06d "`. -/
def usFormat (microseconds : ℤ) : List Char := '.' :: (printInt true 6 microseconds ++ [' '])

/-- `t_time` and `t_lastSecond` of a thread. -/
structure Stamper where
  t_time : List Char
  t_lastSecond : ℤ
  length_lt : t_time.length < 32

namespace Stamper

/-- A thread begins with zeros. -/
def init : Stamper := ⟨[], 0, by decide⟩

/-- The part of a constructor that reads the clock, which is at `now` nanoseconds. The
two assertions are on what `snprintf` returns. -/
def clock (localtime_r : ℤ → Tm) (s : Stamper) (now : ℤ) : Option (Stamper × Clock) :=
  let seconds := now.tdiv 1000000000
  let microseconds := (now - seconds * 1000000000).tdiv 1000
  let text := timeFormat (localtime_r seconds)
  if seconds ≠ s.t_lastSecond ∧ text.length ≠ 17 then none
  else if hus : (usFormat microseconds).length = 8 then
    let t : Stamper :=
      if seconds ≠ s.t_lastSecond then
        ⟨snprintf 32 text, seconds, Nat.lt_of_le_of_lt (List.length_take_le 31 text) (by decide)⟩
      else s
    some (t, ⟨t.t_time, ⟨usFormat microseconds, by omega⟩, t.length_lt⟩)
  else none

/-- The constructors of a thread, one after the other. -/
def clocks (localtime_r : ℤ → Tm) (s : Stamper) : List ℤ → Option (List Clock)
  | [] => some []
  | now :: nows =>
      (s.clock localtime_r now).bind fun r => (clocks localtime_r r.1 nows).map (r.2 :: ·)

end Stamper

/-- The clock shows the reading `now`, as if it had been printed for it. -/
def Clock.Shows (localtime_r : ℤ → Tm) (now : ℤ) (c : Clock) : Prop :=
  c.t_time = timeFormat (localtime_r (now / 1000000000))
    ∧ c.us.text = usFormat (now % 1000000000 / 1000)

/-- The fields of a time are shown in the widths they have in the format. -/
structure Printed (x : Tm) : Prop where
  year : Shown 4 (x.tm_year + 1900)
  mon : Shown 2 (x.tm_mon + 1)
  mday : Shown 2 x.tm_mday
  hour : Shown 2 x.tm_hour
  min : Shown 2 x.tm_min
  sec : Shown 2 x.tm_sec

/-- A reading after 1970 whose local time can be printed. -/
structure Readable (localtime_r : ℤ → Tm) (now : ℤ) : Prop where
  nonneg : 0 ≤ now
  printed : Printed (localtime_r (now / 1000000000))

section Cache

variable {localtime_r : ℤ → Tm} {now : ℤ} {s t : Stamper} {c : Clock} {x y : Tm}

theorem Printed.length (h : Printed x) : (timeFormat x).length = 17 := by
  simp only [timeFormat, List.length_append, List.length_cons, length_printInt _ h.year (by decide),
    length_printInt _ h.mon (by decide), length_printInt _ h.mday (by decide),
    length_printInt _ h.hour (by decide), length_printInt _ h.min (by decide),
    length_printInt _ h.sec (by decide)]

theorem shown_us (now : ℤ) : Shown 6 (now % 1000000000 / 1000) := ⟨by omega, by omega⟩

theorem length_usFormat (now : ℤ) : (usFormat (now % 1000000000 / 1000)).length = 8 := by
  simp only [usFormat, List.length_cons, List.length_append, List.length_nil,
    length_printInt _ (shown_us now) (by decide)]

/-- The cache is for its second. -/
def Stamper.Right (localtime_r : ℤ → Tm) (s : Stamper) : Prop :=
  s.t_time = timeFormat (localtime_r s.t_lastSecond)

/-- What a constructor does: the cache is left alone, or printed for the new second. -/
theorem Stamper.clock_eq (h : Readable localtime_r now) (s : Stamper) :
    ∃ t c, s.clock localtime_r now = some (t, c) ∧ t.t_lastSecond = now / 1000000000
      ∧ c.t_time = t.t_time ∧ c.us.text = usFormat (now % 1000000000 / 1000)
      ∧ (now / 1000000000 = s.t_lastSecond ∧ t = s
        ∨ now / 1000000000 ≠ s.t_lastSecond ∧ t.Right localtime_r) := by
  have hseconds : now.tdiv 1000000000 = now / 1000000000 := Int.tdiv_eq_ediv_of_nonneg h.nonneg
  have hrest : now - now / 1000000000 * 1000000000 = now % 1000000000 := by omega
  have hus : (now % 1000000000).tdiv 1000 = now % 1000000000 / 1000 :=
    Int.tdiv_eq_ediv_of_nonneg (by omega)
  have hlength := h.printed.length
  unfold clock
  simp only [hseconds, hrest, hus]
  rw [if_neg (fun hassert => hassert.2 hlength), dif_pos (length_usFormat now)]
  by_cases hsame : now / 1000000000 = s.t_lastSecond
  · simp only [ne_eq, hsame, not_true_eq_false, if_false]
    exact ⟨s, _, rfl, rfl, rfl, rfl, Or.inl ⟨trivial, rfl⟩⟩
  · simp only [ne_eq, hsame, not_false_eq_true, if_true]
    refine ⟨_, _, rfl, rfl, rfl, rfl, Or.inr ⟨trivial, ?_⟩⟩
    exact snprintf_eq (by omega)

theorem Stamper.clocks_cons {nows : List ℤ} {cs : List Clock}
    (hclock : s.clock localtime_r now = some (t, c)) (hcs : t.clocks localtime_r nows = some cs) :
    s.clocks localtime_r (now :: nows) = some (c :: cs) := by
  rw [Stamper.clocks, hclock, Option.bind_some, hcs]
  rfl

/-- A cache that is right stays so, and shows every reading. -/
theorem Stamper.Right.clock (hright : s.Right localtime_r) (h : Readable localtime_r now) :
    ∃ t c, s.clock localtime_r now = some (t, c) ∧ t.Right localtime_r
      ∧ c.Shows localtime_r now := by
  obtain ⟨t, c, hclock, hsecond, htime, hus, hcases⟩ := s.clock_eq h
  have ht : t.Right localtime_r := by
    rcases hcases with ⟨-, rfl⟩ | ⟨-, ht⟩
    · exact hright
    · exact ht
  refine ⟨t, c, hclock, ht, ?_, hus⟩
  rw [htime, ← hsecond]
  exact ht

theorem Stamper.Right.clocks (hright : s.Right localtime_r) {nows : List ℤ}
    (h : ∀ now ∈ nows, Readable localtime_r now) :
    ∃ cs, s.clocks localtime_r nows = some cs ∧ List.Forall₂ (Clock.Shows localtime_r) nows cs := by
  induction nows generalizing s with
  | nil => exact ⟨[], rfl, .nil⟩
  | cons now nows ih =>
      obtain ⟨t, c, hclock, ht, hshows⟩ := hright.clock (h now List.mem_cons_self)
      obtain ⟨cs, hcs, hall⟩ := ih ht fun n hn => h n (List.mem_cons_of_mem now hn)
      exact ⟨c :: cs, Stamper.clocks_cons hclock hcs, .cons hshows hall⟩

/-- The clocks of a thread can be read, whatever is in the cache. -/
theorem Stamper.clocks_some (s : Stamper) {nows : List ℤ}
    (h : ∀ now ∈ nows, Readable localtime_r now) : ∃ cs, s.clocks localtime_r nows = some cs := by
  induction nows generalizing s with
  | nil => exact ⟨[], rfl⟩
  | cons now nows ih =>
      obtain ⟨t, c, hclock, -⟩ := s.clock_eq (h now List.mem_cons_self)
      obtain ⟨cs, hcs⟩ := ih t fun n hn => h n (List.mem_cons_of_mem now hn)
      exact ⟨c :: cs, Stamper.clocks_cons hclock hcs⟩

/-- **When the cache is right.** The constructors of a thread get through, for every
sequence of readings after 1970, forward or back, whose local times can be printed; and
what they print are the times of their readings exactly if the first reading is not in
the first second. -/
theorem stamps_plain {nows : List ℤ} (h : ∀ now ∈ nows, Readable localtime_r now) :
    ∃ cs, Stamper.init.clocks localtime_r nows = some cs
      ∧ (List.Forall₂ (Clock.Shows localtime_r) nows cs
        ↔ ∀ first ∈ nows.head?, 1000000000 ≤ first) := by
  cases nows with
  | nil =>
      refine ⟨[], rfl, fun _ first hfirst => ?_, fun _ => .nil⟩
      cases hfirst
  | cons now nows =>
      have hnow := h now List.mem_cons_self
      have hnonneg := hnow.nonneg
      have hrest : ∀ n ∈ nows, Readable localtime_r n := fun n hn =>
        h n (List.mem_cons_of_mem now hn)
      obtain ⟨t, c, hclock, hsecond, htime, hus, hcases⟩ := Stamper.init.clock_eq hnow
      rcases hcases with ⟨hzero, rfl⟩ | ⟨hne, ht⟩
      · -- nothing is printed in the first second
        obtain ⟨cs, hcs⟩ := Stamper.init.clocks_some hrest
        refine ⟨c :: cs, Stamper.clocks_cons hclock hcs, fun hall => ?_, fun hfirst => ?_⟩
        · obtain ⟨⟨hshows, -⟩, -⟩ := List.forall₂_cons.mp hall
          have hlength := hnow.printed.length
          rw [← hshows, htime] at hlength
          cases hlength
        · have := hfirst now rfl
          have hzero' : now / 1000000000 = 0 := hzero
          omega
      · obtain ⟨cs, hcs, hall⟩ := ht.clocks hrest
        refine ⟨c :: cs, Stamper.clocks_cons hclock hcs, fun _ first hfirst => ?_,
          fun _ => .cons ⟨?_, hus⟩ hall⟩
        · obtain rfl := Option.some.inj hfirst
          have hne' : now / 1000000000 ≠ 0 := hne
          omega
        · rw [htime, ← hsecond]
          exact ht

end Cache

/-! ## The order of the texts -/

/-- The order of the fields that are printed, the year first. -/
def Earlier (x y : Tm) : Prop :=
  x.date.Before y.date
    ∨ x.date = y.date ∧ (x.tm_hour < y.tm_hour ∨ x.tm_hour = y.tm_hour
      ∧ (x.tm_min < y.tm_min ∨ x.tm_min = y.tm_min ∧ x.tm_sec < y.tm_sec))

/-- The fields that are printed are the same. -/
def SameFields (x y : Tm) : Prop :=
  x.date = y.date ∧ x.tm_hour = y.tm_hour ∧ x.tm_min = y.tm_min ∧ x.tm_sec = y.tm_sec

/-- The local time of one reading is before that of another, down to the microsecond. -/
def LocalBefore (localtime_r : ℤ → Tm) (a b : ℤ) : Prop :=
  Earlier (localtime_r (a / 1000000000)) (localtime_r (b / 1000000000))
    ∨ SameFields (localtime_r (a / 1000000000)) (localtime_r (b / 1000000000))
      ∧ a % 1000000000 / 1000 < b % 1000000000 / 1000

section Order

variable {localtime_r : ℤ → Tm} {a b : ℤ} {c d : Clock} {x y : Tm}

/-- **The texts of two times compare like their fields**, and then by what follows. -/
theorem timeFormat_append_lt_iff (hx : Printed x) (hy : Printed y) {u v : List Char} :
    timeFormat x ++ u < timeFormat y ++ v ↔ Earlier x y ∨ SameFields x y ∧ u < v := by
  unfold timeFormat Earlier SameFields Tm.date Gregorian.Date.Before
  simp only [List.append_assoc, List.cons_append]
  rw [printInt_append_lt_iff false hx.year hy.year (by decide),
    printInt_append_lt_iff true hx.mon hy.mon (by decide),
    printInt_append_lt_iff true hx.mday hy.mday (by decide), List.cons_lt_cons_iff,
    printInt_append_lt_iff true hx.hour hy.hour (by decide), List.cons_lt_cons_iff,
    printInt_append_lt_iff true hx.min hy.min (by decide), List.cons_lt_cons_iff,
    printInt_append_lt_iff true hx.sec hy.sec (by decide)]
  simp only [lt_irrefl, false_or, true_and, Gregorian.Date.mk.injEq, and_or_left, and_assoc,
    or_assoc]

theorem usFormat_append_lt_iff (a b : ℤ) {u v : List Char} :
    usFormat (a % 1000000000 / 1000) ++ u < usFormat (b % 1000000000 / 1000) ++ v
      ↔ a % 1000000000 / 1000 < b % 1000000000 / 1000
        ∨ a % 1000000000 / 1000 = b % 1000000000 / 1000 ∧ u < v := by
  unfold usFormat
  simp only [List.cons_append, List.append_assoc]
  rw [List.cons_lt_cons_iff,
    printInt_append_lt_iff true (shown_us a) (shown_us b) (by decide), List.nil_append,
    List.cons_lt_cons_iff]
  simp

/-- The text begins with what a clock shows. -/
def Headed (c : Clock) (text : List Char) : Prop := c.t_time ++ c.us.text <+: text

/-- **Lines compare like the local times in front of them.** -/
theorem Headed.lt {p q : List Char} (hp : Headed c p) (hq : Headed d q)
    (hc : c.Shows localtime_r a) (hd : d.Shows localtime_r b) (ha : Readable localtime_r a)
    (hb : Readable localtime_r b) (h : LocalBefore localtime_r a b) : p < q := by
  obtain ⟨u, rfl⟩ := hp
  obtain ⟨v, rfl⟩ := hq
  rw [hc.1, hc.2, hd.1, hd.2, List.append_assoc, List.append_assoc,
    timeFormat_append_lt_iff ha.printed hb.printed, usFormat_append_lt_iff]
  rcases h with h | ⟨hsame, hus⟩
  · exact Or.inl h
  · exact Or.inr ⟨hsame, Or.inl hus⟩

end Order

/-! ## What a message passes on -/

/-- A message has been constructed at the reading of a clock. -/
inductive DLogMessage.Made (c : Clock) : DLogMessage → Prop
  | make {logger : Bool} {filename : List Char} {line : Int32} {level : LogLevel}
      {m : DLogMessage} (h : DLogMessage.make logger c filename line level = some m) : Made c m
  | func {logger : Bool} {filename : List Char} {line : Int32} {level : LogLevel}
      {func : List Char} {m : DLogMessage}
      (h : DLogMessage.makeFunc logger c filename line level func = some m) : Made c m
  | errno {logger : Bool} {filename : List Char} {line : Int32} {toAbort : Bool}
      {savedErrno : Int32} {strerror_tl : List Char} {m : DLogMessage}
      (h : DLogMessage.makeErrno logger c filename line toAbort savedErrno strerror_tl = some m) :
      Made c m

/-- What the destructor of a message passes on that was constructed at the reading of a
clock, and had something inserted. -/
inductive Emits (c : Clock) : Passed → Prop
  | dlog {m m' : DLogMessage} {vs : List Insertion} {p : Passed} (hmade : DLogMessage.Made c m)
      (hinsert : m.insert vs = some m') (hp : m'.destroy = some p) : Emits c p
  | log {logger : Bool} {level : LogLevel} {m m' : LogMessage} {vs : List Insertion} {p : Passed}
      (hmade : LogMessage.make logger c level = some m) (hinsert : m.insert vs = some m')
      (hp : m'.destroy = some p) : Emits c p

namespace LogStream

variable {s t : LogStream} {c : Clock}

/-- Nothing that is inserted takes anything back. -/
theorem insertAll_prefix {vs : List Insertion} (h : s.insertAll vs = some t) :
    s.text <+: t.text := by
  induction vs generalizing s with
  | nil =>
      rw [insertAll, List.foldlM_nil, Option.pure_def, Option.some_inj] at h
      subst h
      exact List.prefix_refl _
  | cons v vs ih =>
      obtain ⟨u, hu, htakes⟩ := s.insert_spec v
      rw [insertAll, List.foldlM_cons, hu] at h
      refine List.IsPrefix.trans ?_ (ih h)
      rcases htakes.cases with ⟨-, htext, -⟩ | ⟨-, htext, -⟩
      · rw [htext]
        exact List.prefix_append _ _
      · exact ⟨[], (List.append_nil s.text).trans htext.symm⟩

/-- The first two items of every constructor find room. -/
theorem headed_insertAll {vs : List Insertion}
    (h : LogStream.make.insertAll (.cString c.t_time :: .cString c.us.text :: vs) = some t) :
    Headed c t.text := by
  have htime := c.length_lt
  have hus := c.us.length_lt
  obtain ⟨u, hu, hutakes⟩ := LogStream.make.insert_spec (.cString c.t_time)
  obtain ⟨v, hv, hvtakes⟩ := u.insert_spec (.cString c.us.text)
  rw [insertAll, List.foldlM_cons, hu] at h
  simp only [Option.bind_eq_bind, Option.bind_some, List.foldlM_cons, hv] at h
  obtain ⟨hutext, hulength⟩ := hutakes.added (by
    show 0 + (c.t_time.length + 1) ≤ 4096
    omega)
  have hulength' : u.length = 0 + c.t_time.length := hulength
  obtain ⟨hvtext, -⟩ := hvtakes.added (by
    show u.length + (c.us.text.length + 1) ≤ 4096
    omega)
  have hhead : v.text = c.t_time ++ c.us.text := by
    rw [hvtext, hutext]
    rfl
  unfold Headed
  rw [← hhead]
  exact insertAll_prefix h

end LogStream

section Messages

variable {c : Clock}

theorem DLogMessage.text_insert {m m' : DLogMessage} {vs : List Insertion}
    (h : m.insert vs = some m') : m.stream_.text <+: m'.stream_.text := by
  obtain ⟨t, ht, rfl⟩ := Option.map_eq_some_iff.mp h
  exact LogStream.insertAll_prefix ht

theorem DLogMessage.headed_make {logger : Bool} {filename : List Char} {line : Int32}
    {level : LogLevel} {m : DLogMessage} (h : make logger c filename line level = some m) :
    Headed c m.stream_.text := by
  obtain ⟨t, ht, rfl⟩ := Option.map_eq_some_iff.mp h
  exact LogStream.headed_insertAll ht

theorem DLogMessage.Made.headed {m : DLogMessage} (h : Made c m) : Headed c m.stream_.text := by
  cases h with
  | make h => exact headed_make h
  | func h =>
      obtain ⟨m', hm', hinsert⟩ := Option.bind_eq_some_iff.mp h
      exact (headed_make hm').trans (text_insert hinsert)
  | errno h =>
      obtain ⟨m', hm', hinsert⟩ := Option.bind_eq_some_iff.mp h
      split at hinsert
      · exact (Option.some.inj hinsert) ▸ headed_make hm'
      · exact (headed_make hm').trans (text_insert hinsert)

/-- **The time stays in front**, whatever is inserted and dropped. -/
theorem Emits.headed {p : Passed} (h : Emits c p) : Headed c p.text := by
  cases h with
  | dlog hmade hinsert hp =>
      obtain ⟨t, ht, rfl⟩ := Option.map_eq_some_iff.mp hp
      exact (hmade.headed.trans (DLogMessage.text_insert hinsert)).trans
        (LogStream.insertAll_prefix ht)
  | log hmade hinsert hp =>
      obtain ⟨s, hs, rfl⟩ := Option.map_eq_some_iff.mp hmade
      obtain ⟨t, ht, rfl⟩ := Option.map_eq_some_iff.mp hinsert
      obtain ⟨u, hu, rfl⟩ := Option.map_eq_some_iff.mp hp
      exact ((LogStream.headed_insertAll hs).trans (LogStream.insertAll_prefix ht)).trans
        (LogStream.insertAll_prefix hu)

end Messages

/-! ## A zone with one offset -/

/-- The local time is UTC with an offset, for the years that four digits show. -/
def OneOffset (localtime_r : ℤ → Tm) (gmtoff : ℤ) : Prop :=
  ∀ t, InFourDigits (dayOf (t + gmtoff)) →
    ∃ x, toUtcTime (t + gmtoff) false = some x ∧ SameFields (localtime_r t) x

/-- A reading after 1970, and before the year 10000 of the zone. -/
def InYears (gmtoff now : ℤ) : Prop :=
  0 ≤ now ∧ InFourDigits (dayOf (now / 1000000000 + gmtoff))

section Zone

variable {localtime_r : ℤ → Tm} {gmtoff a b : ℤ}

theorem inDays_of_fourDigits {n : ℤ} (h : InFourDigits n) : InDays n := by
  obtain ⟨hlow, hhigh⟩ := h
  exact ⟨by omega, by omega⟩

/-- The fields of a local time in such a zone. -/
theorem OneOffset.fields (h : OneOffset localtime_r gmtoff) {t u : ℤ} (hu : u = t + gmtoff)
    (ht : InFourDigits (dayOf u)) :
    (localtime_r t).date = Gregorian.ofDayNumber (dayOf u)
      ∧ (localtime_r t).tm_hour = u % 86400 / 60 / 60
      ∧ (localtime_r t).tm_min = u % 86400 / 60 % 60
      ∧ (localtime_r t).tm_sec = u % 86400 % 60 := by
  subst hu
  obtain ⟨x, hx, hdate, hhour, hmin, hsec⟩ := h t ht
  obtain ⟨y, hy, hydate, hysec, hymin, hyhour, -⟩ :=
    toUtcTime_fields (inDays_of_fourDigits ht) false
  obtain rfl := Option.some.inj (hx.symm.trans hy)
  exact ⟨hdate.trans hydate, hhour.trans hyhour, hmin.trans hymin, hsec.trans hysec⟩

/-- They can be printed. -/
theorem OneOffset.printed (h : OneOffset localtime_r gmtoff) {t : ℤ}
    (ht : InFourDigits (dayOf (t + gmtoff))) : Printed (localtime_r t) := by
  obtain ⟨hdate, hhour, hmin, hsec⟩ := h.fields rfl ht
  obtain ⟨hreal, -⟩ := Gregorian.dayNumber_ofDayNumber (dayOf (t + gmtoff))
  have hfour := fourDigits_ofDayNumber ht
  rw [← hdate] at hreal hfour
  refine ⟨shown_year hfour, shown_month hreal, shown_day hreal, ?_, ?_, ?_⟩
  · exact ⟨by omega, by omega⟩
  · exact ⟨by omega, by omega⟩
  · exact ⟨by omega, by omega⟩

theorem OneOffset.readable (h : OneOffset localtime_r gmtoff) (ha : InYears gmtoff a) :
    Readable localtime_r a := ⟨ha.1, h.printed ha.2⟩

/-- The seconds of a day come in the order of hours, minutes and seconds. -/
theorem seconds_lt {s t : ℤ} (h : s < t) :
    s / 60 / 60 < t / 60 / 60 ∨ s / 60 / 60 = t / 60 / 60
      ∧ (s / 60 % 60 < t / 60 % 60 ∨ s / 60 % 60 = t / 60 % 60 ∧ s % 60 < t % 60) := by
  omega

/-- In such a zone the local times are in the order of the seconds. -/
theorem OneOffset.earlier (h : OneOffset localtime_r gmtoff) {s t : ℤ}
    (hs : InFourDigits (dayOf (s + gmtoff))) (ht : InFourDigits (dayOf (t + gmtoff)))
    (hlt : s < t) : Earlier (localtime_r s) (localtime_r t) := by
  obtain ⟨u, hu⟩ : ∃ u, u = s + gmtoff := ⟨_, rfl⟩
  obtain ⟨v, hv⟩ : ∃ v, v = t + gmtoff := ⟨_, rfl⟩
  rw [← hu] at hs
  rw [← hv] at ht
  obtain ⟨hdate, hhour, hmin, hsec⟩ := h.fields hu hs
  obtain ⟨hdate', hhour', hmin', hsec'⟩ := h.fields hv ht
  obtain ⟨hreal, hnumber⟩ := Gregorian.dayNumber_ofDayNumber (dayOf u)
  obtain ⟨hreal', hnumber'⟩ := Gregorian.dayNumber_ofDayNumber (dayOf v)
  unfold Earlier
  rw [hdate, hdate', hhour, hhour', hmin, hmin', hsec, hsec']
  rcases Int.lt_trichotomy (dayOf u) (dayOf v) with hday | hday | hday
  · left
    rw [← Gregorian.dayNumber_lt_iff hreal hreal', hnumber, hnumber']
    exact hday
  · right
    refine ⟨by rw [hday], seconds_lt ?_⟩
    unfold dayOf at hday
    omega
  · unfold dayOf at hday
    omega

/-- And down to the microsecond. -/
theorem OneOffset.before (h : OneOffset localtime_r gmtoff) (ha : InYears gmtoff a)
    (hb : InYears gmtoff b) (hlt : a / 1000 < b / 1000) : LocalBefore localtime_r a b := by
  rcases Int.lt_trichotomy (a / 1000000000) (b / 1000000000) with hsec | hsec | hsec
  · exact Or.inl (h.earlier ha.2 hb.2 hsec)
  · right
    rw [hsec]
    exact ⟨⟨rfl, rfl, rfl, rfl⟩, by omega⟩
  · omega

end Zone

/-! ## Greenwich -/

/-- A `localtime_r` of UTC. -/
def utcTime (t : ℤ) : Tm := (toUtcTime t false).getD Tm.zero

theorem oneOffset_utcTime : OneOffset utcTime 0 := by
  intro t ht
  obtain ⟨x, hx, -⟩ := toUtcTime_fields (inDays_of_fourDigits ht) false
  refine ⟨x, hx, ?_⟩
  rw [Int.add_zero] at hx
  unfold utcTime
  rw [hx]
  exact ⟨rfl, rfl, rfl, rfl⟩

/-- The clock goes back in between. -/
theorem stamps_plain_back :
    ∃ cs, Stamper.init.clocks utcTime [1000000002000, 1000000009000, 500, 2000000000000] = some cs
      ∧ (List.Forall₂ (Clock.Shows utcTime) [1000000002000, 1000000009000, 500, 2000000000000] cs
        ↔ ∀ first ∈ [1000000002000, 1000000009000, 500, 2000000000000].head?,
          (1000000000 : ℤ) ≤ first) := by
  refine stamps_plain fun now hnow => oneOffset_utcTime.readable ?_
  simp only [List.mem_cons, List.not_mem_nil, or_false] at hnow
  rcases hnow with rfl | rfl | rfl | rfl <;>
    exact ⟨by decide, by decide, by decide⟩

/-- The first message of a thread. -/
theorem shows_init {now : ℤ} {s : Stamper} {c : Clock}
    (hclock : Stamper.init.clock utcTime now = some (s, c)) (hyears : InYears 0 now)
    (hfirst : 1000000000 ≤ now) : c.Shows utcTime now := by
  obtain ⟨t, c', hclock', hsecond, htime, hus, hcases⟩ :=
    Stamper.init.clock_eq (oneOffset_utcTime.readable hyears)
  obtain ⟨rfl, rfl⟩ := Prod.mk.inj (Option.some.inj (hclock.symm.trans hclock'))
  refine ⟨?_, hus⟩
  rcases hcases with ⟨hzero, -⟩ | ⟨-, ht⟩
  · have hzero' : now / 1000000000 = 0 := hzero
    omega
  · rw [htime, ← hsecond]
    exact ht

/-- A message of a thread that begins at `now`. -/
def emit (now : ℤ) (text : List Char) : Option (Clock × Passed) := do
  let (_, c) ← Stamper.init.clock utcTime now
  let m ← LogMessage.make true c .INFO
  let m ← m.insert [.cString text]
  let p ← m.destroy
  some (c, p)

theorem emit_emits {now : ℤ} {text : List Char} {c : Clock} {p : Passed}
    (h : emit now text = some (c, p)) : Emits c p := by
  obtain ⟨⟨s, d⟩, hclock, h⟩ := Option.bind_eq_some_iff.mp h
  obtain ⟨m, hm, h⟩ := Option.bind_eq_some_iff.mp h
  obtain ⟨m', hm', h⟩ := Option.bind_eq_some_iff.mp h
  obtain ⟨q, hq, h⟩ := Option.bind_eq_some_iff.mp h
  cases h
  exact .log hm hm' hq

theorem shows_emit {now : ℤ} {text : List Char} {c : Clock} {p : Passed}
    (h : emit now text = some (c, p)) (hyears : InYears 0 now) (hfirst : 1000000000 ≤ now) :
    c.Shows utcTime now := by
  obtain ⟨⟨s, d⟩, hclock, h⟩ := Option.bind_eq_some_iff.mp h
  obtain ⟨m, -, h⟩ := Option.bind_eq_some_iff.mp h
  obtain ⟨m', -, h⟩ := Option.bind_eq_some_iff.mp h
  obtain ⟨q, -, h⟩ := Option.bind_eq_some_iff.mp h
  cases h
  exact shows_init hclock hyears hfirst

example : (emit 1000000009000 ['a']).map (fun x => String.ofList x.2.text)
    = some "19700101 00:16:40.000009 INFO  a\n" := by decide +kernel

end Libiak.Log
