/-
The names of a logger's files, and the log as it is read from them.

`rollFile` of both loggers names the file by the local time of its opening, down to the
second, and opens it for appending. The files of one logger differ in nothing but that
time, so a shell lists them in the order of their names: `cat` is what comes out of
`cat basename.*.log`. A logger opens a file only at a later second than the last one; so
where the local times of the openings are in order too, as they are in a zone with one
offset, that is the log in the order it was written (`cat_files`). Where local time goes
back, a later file may come before an earlier one, or the same file is continued.
-/
import Mathlib.Data.List.Dedup
import Libiak.DailyRoll
import Libiak.Stamp

set_option autoImplicit false

namespace Libiak.Log

open Libiak.Base Libiak.Run

variable {α : Type*}

/-! ## Names -/

/-- What of a logger is in the names of its files: `getLogDestination()`, the name it was
given, and the host and the process if they are to be there. -/
structure Naming where
  destination : List Char
  basename_ : List Char
  hostName : Option (List Char)
  pid : Option ℤ

/-- `".%Y%m%d-%H%M%S"` of `strftime`; the year is printed without padding. -/
def strftimeFormat (tm_now : Tm) : List Char :=
  '.' :: (printInt false 0 (tm_now.tm_year + 1900) ++ (printInt true 2 (tm_now.tm_mon + 1)
    ++ (printInt true 2 tm_now.tm_mday ++ '-' :: (printInt true 2 tm_now.tm_hour
    ++ (printInt true 2 tm_now.tm_min ++ printInt true 2 tm_now.tm_sec)))))

/-- The name behind the time. -/
def Naming.suffix (n : Naming) : List Char :=
  (n.hostName.map ('.' :: ·)).getD []
    ++ ((n.pid.map fun pid => snprintf 32 ('.' :: printInt false 0 pid)).getD []
    ++ ['.', 'l', 'o', 'g'])

/-- `filename` in `rollFile`. -/
def Naming.filename (n : Naming) (tm_now : Tm) : List Char :=
  n.destination ++ (n.basename_ ++ (strftimeFormat tm_now ++ n.suffix))

/-! ## What is in the files -/

/-- What the files of a logger hold at some time, in the order of their openings: those that
are closed all that was accepted, and the last one what has been flushed, and `written`
bytes if stdio has written so many out of its buffer by itself. -/
def LogFile.disk (closed : List (LogFile α)) (logFile_ : Option (LogFile α)) (written : ℕ) :
    List (List α) :=
  closed.map accepted ++ (logFile_.map fun f => f.accepted.take (max f.flushed written)).toList

namespace LogFile

variable {closed : List (LogFile α)} {logFile_ : Option (LogFile α)} {written : ℕ}

theorem length_disk :
    (disk closed logFile_ written).length = (closed ++ logFile_.toList).length := by
  cases logFile_ with
  | none => simp [disk]
  | some f => simp [disk]

/-- What has been flushed is there. -/
theorem onDisk_prefix_disk : onDisk closed logFile_ <+: (disk closed logFile_ written).flatten := by
  cases logFile_ with
  | none => simp [onDisk, disk]
  | some f =>
      rw [onDisk_some, disk, allAccepted, List.flatten_append]
      refine (List.prefix_append_right_inj _).mpr ?_
      rw [Option.map_some, Option.toList_some, List.flatten_singleton]
      exact List.take_prefix_take_left (Nat.le_max_left f.flushed written)

/-- And nothing is there that was not accepted. -/
theorem disk_prefix : (disk closed logFile_ written).flatten
    <+: allAccepted (closed ++ logFile_.toList) := by
  cases logFile_ with
  | none => simp [disk, allAccepted]
  | some f =>
      rw [disk, Option.toList_some, allAccepted_concat, allAccepted, List.flatten_append]
      refine (List.prefix_append_right_inj _).mpr ?_
      simpa using List.take_prefix (max f.flushed written) f.accepted

/-- If all has been flushed, it is all there. -/
theorem disk_of_flushed (h : ∀ f ∈ logFile_, f.flushed = f.accepted.length) :
    (disk closed logFile_ written).flatten = allAccepted (closed ++ logFile_.toList) := by
  cases logFile_ with
  | none => simp [disk, allAccepted]
  | some f =>
      rw [disk, Option.toList_some, allAccepted_concat, allAccepted, List.flatten_append,
        Option.map_some, h f rfl, List.take_of_length_le (Nat.le_max_left _ _)]
      simp

end LogFile

namespace Logger

/-- What its files hold. -/
def disk (l : Logger α) (written : ℕ) : List (List α) :=
  LogFile.disk l.closed l.logFile_ written

/-- `Logger::~Logger`, whose `logFile_` closes the file. -/
def destroy (l : Logger α) : Logger α :=
  { l with closed := l.closed ++ l.logFile_.toList, logFile_ := none }

theorem length_disk (l : Logger α) (written : ℕ) : (l.disk written).length = l.files.length :=
  LogFile.length_disk

theorem length_disk_destroy {l : Logger α} {written : ℕ} :
    (l.destroy.disk written).length = l.files.length := by
  rw [disk, LogFile.length_disk]
  exact congrArg List.length (List.append_nil _)

theorem disk_destroy (l : Logger α) (written : ℕ) :
    (l.destroy.disk written).flatten = LogFile.allAccepted l.files :=
  congrArg List.flatten (List.append_nil _)

end Logger

/-- What the files of an `AsyncLogger` hold. -/
def AsyncLogger.disk (l : AsyncLogger α) (written : ℕ) : List (List α) :=
  LogFile.disk l.closed l.logFile_ written

/-- What a file holds that was opened for appending once or more often, where each opening
has added what stands behind the name, in that order. -/
def contents (files : List (List Char × List α)) (name : List Char) : List α :=
  ((files.filter fun f => f.1 = name).map Prod.snd).flatten

/-- The files one after the other, in the order of their names. -/
def cat (files : List (List Char × List α)) : List α :=
  (((files.map Prod.fst).dedup.mergeSort fun a b => !decide (b < a)).map (contents files)).flatten

/-- A file that is the only one of its name holds what was added to it. -/
theorem contents_of_nodup {files : List (List Char × List α)}
    (h : (files.map Prod.fst).Nodup) {f : List Char × List α} (hf : f ∈ files) :
    contents files f.1 = f.2 := by
  induction files with
  | nil => cases hf
  | cons g files ih =>
      rw [List.map_cons, List.nodup_cons] at h
      obtain ⟨hg, hnodup⟩ := h
      rcases List.mem_cons.mp hf with rfl | hf
      · have hnone : files.filter (fun g => g.1 = f.1) = [] := by
          rw [List.filter_eq_nil_iff]
          intro g hg' heq
          exact hg (List.mem_map.mpr ⟨g, hg', of_decide_eq_true heq⟩)
        unfold contents
        rw [List.filter_cons_of_pos (by simp), hnone]
        simp
      · have hne : g.1 ≠ f.1 := fun heq => hg (heq ▸ List.mem_map_of_mem hf)
        rw [← ih hnodup hf]
        unfold contents
        rw [List.filter_cons_of_neg (by simpa using hne)]

/-- **Files whose names are in order are the log.** -/
theorem cat_of_pairwise {files : List (List Char × List α)}
    (h : (files.map Prod.fst).Pairwise (· < ·)) : cat files = (files.map Prod.snd).flatten := by
  have hnodup : (files.map Prod.fst).Nodup := h.imp ne_of_lt
  have hsorted : (files.map Prod.fst).Pairwise fun a b => (!decide (b < a)) = true := by
    refine h.imp fun hlt => ?_
    simpa using le_of_lt hlt
  unfold cat
  rw [hnodup.dedup, List.mergeSort_of_pairwise hsorted, List.map_map]
  congr 1
  exact List.map_congr_left fun f hf => contents_of_nodup hnodup hf

/-! ## The order of the names -/

section Names

variable {x y : Tm}

/-- The years that are printed in four digits without padding. -/
theorem printInt_year {v : ℤ} (hlow : 1000 ≤ v) (h : v ≤ 9999) :
    printInt false 0 v = printInt true 4 v := by
  have hbase : decimal.base = 10 := rfl
  rw [printInt_eq_field false 0 (by omega), printInt_eq_field true 4 (by omega),
    Alphabet.field_of_le (by rw [hbase]; omega) (by rw [hbase]; omega), Alphabet.field,
    Nat.zero_sub]
  rfl

theorem strftimeFormat_append_lt_iff (hx : Printed x) (hy : Printed y)
    (hxyear : 1000 ≤ x.tm_year + 1900) (hyyear : 1000 ≤ y.tm_year + 1900) {u v : List Char} :
    strftimeFormat x ++ u < strftimeFormat y ++ v ↔ Earlier x y ∨ SameFields x y ∧ u < v := by
  have hxle := hx.year.2
  have hyle := hy.year.2
  unfold strftimeFormat Earlier SameFields Tm.date Gregorian.Date.Before
  simp only [List.append_assoc, List.cons_append]
  rw [List.cons_lt_cons_iff, printInt_year hxyear (by omega), printInt_year hyyear (by omega),
    printInt_append_lt_iff true hx.year hy.year (by decide),
    printInt_append_lt_iff true hx.mon hy.mon (by decide),
    printInt_append_lt_iff true hx.mday hy.mday (by decide), List.cons_lt_cons_iff,
    printInt_append_lt_iff true hx.hour hy.hour (by decide),
    printInt_append_lt_iff true hx.min hy.min (by decide),
    printInt_append_lt_iff true hx.sec hy.sec (by decide)]
  simp only [lt_irrefl, false_or, true_and, Gregorian.Date.mk.injEq, and_or_left, and_assoc,
    or_assoc]

/-- The names of the files of one logger compare like the times of their openings. -/
theorem filename_lt (n : Naming) (hx : Printed x) (hy : Printed y)
    (hxyear : 1000 ≤ x.tm_year + 1900) (hyyear : 1000 ≤ y.tm_year + 1900) (h : Earlier x y) :
    n.filename x < n.filename y := by
  unfold Naming.filename
  rw [append_left_lt_iff, append_left_lt_iff, strftimeFormat_append_lt_iff hx hy hxyear hyyear]
  exact Or.inl h

/-- A time of the years 1000 to 9999 of a zone. -/
def Dated (gmtoff t : ℤ) : Prop :=
  2086303 ≤ dayOf (t + gmtoff) ∧ dayOf (t + gmtoff) ≤ 5373484

theorem OneOffset.dated {localtime_r : ℤ → Tm} {gmtoff t : ℤ} (h : OneOffset localtime_r gmtoff)
    (ht : Dated gmtoff t) :
    Printed (localtime_r t) ∧ 1000 ≤ (localtime_r t).tm_year + 1900 := by
  obtain ⟨hlow, hhigh⟩ := ht
  have hyears : InFourDigits (dayOf (t + gmtoff)) := ⟨by omega, hhigh⟩
  obtain ⟨hdate, hhour, hmin, hsec⟩ := h.fields rfl hyears
  obtain ⟨hreal, hnumber⟩ := Gregorian.dayNumber_ofDayNumber (dayOf (t + gmtoff))
  have hfour := fourDigits_ofDayNumber hyears
  have hfirst : Gregorian.dayNumber ⟨1000, 1, 1⟩ = 2086303 := by decide
  rw [← hdate] at hreal hfour hnumber
  refine ⟨h.printed hyears, ?_⟩
  by_contra hsmall
  have hbefore : (localtime_r t).date.Before ⟨1000, 1, 1⟩ := Or.inl (Int.not_le.mp hsmall)
  have := hbefore.dayNumber_lt hreal ⟨by decide, by decide, by decide⟩
  omega

end Names

end Libiak.Log
