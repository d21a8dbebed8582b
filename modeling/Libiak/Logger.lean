/-
`log/Logger.cpp`: the synchronous logger, and what an abort leaves in the files
of a logger.

Both loggers write through `LogFile`, and what they do to their files is one of
three things: append to the open one, flush it, or roll, which closes it and
opens another. None of them takes back what is in the files already
(`LogFile.onDisk_append`, `onDisk_flush`, `onDisk_roll`), and after a flush
everything that was accepted is in them. The synchronous logger appends before
its `append` returns, so its `flush` flushes the line.
-/
import Libiak.AsyncLogger
import Libiak.Run

set_option autoImplicit false

namespace Libiak.Log

variable {α : Type*}

/-! ## What an abort leaves -/

namespace LogFile

/-- What is in the files if the process ends without closing them: everything
that a closed file has accepted, and of the open one what it had accepted at its
last flush. -/
def onDisk (closed : List (LogFile α)) (logFile_ : Option (LogFile α)) : List α :=
  (closed.map accepted).flatten ++ (logFile_.toList.map fun f => f.accepted.take f.flushed).flatten

/-- What the files have accepted. -/
def allAccepted (files : List (LogFile α)) : List α := (files.map accepted).flatten

/-- The last flush of the open file was of bytes it had accepted. -/
def Flushable (logFile_ : Option (LogFile α)) : Prop :=
  ∀ f ∈ logFile_, f.flushed ≤ f.accepted.length

theorem flushable_make : Flushable (some (make : LogFile α)) := by
  rintro f ⟨⟩
  exact Nat.le_refl 0

variable {closed : List (LogFile α)} {f f' : LogFile α}

theorem onDisk_some : onDisk closed (some f) = allAccepted closed ++ f.accepted.take f.flushed := by
  simp [onDisk, allAccepted]

theorem allAccepted_concat : allAccepted (closed ++ [f]) = allAccepted closed ++ f.accepted := by
  simp [allAccepted]

/-- An append only adds to what the file has accepted. -/
theorem append_grows {logline : List α} {n : ℕ} {results : List ℕ}
    (h : f.append logline n results = some f') :
    f.accepted <+: f'.accepted ∧ f'.flushed = f.flushed := by
  unfold append at h
  split at h
  · obtain ⟨more, -, rfl⟩ := Option.map_eq_some_iff.mp h
    exact ⟨List.prefix_append _ _, rfl⟩
  · cases h

/-- Nothing of an append is on disk before the next flush. -/
theorem onDisk_append (closed : List (LogFile α)) {logline : List α} {n : ℕ} {results : List ℕ}
    (h : f.append logline n results = some f') (hle : Flushable (some f)) :
    onDisk closed (some f') = onDisk closed (some f) ∧ Flushable (some f') := by
  obtain ⟨⟨more, hmore⟩, hflushed⟩ := append_grows h
  have hf := hle f rfl
  constructor
  · rw [onDisk_some, onDisk_some, hflushed, ← hmore, List.take_append_of_le_length hf]
  · rintro g ⟨⟩
    rw [hflushed, ← hmore, List.length_append]
    omega

/-- After a flush everything is. -/
theorem onDisk_flush_eq : onDisk closed (some f.flush) = allAccepted (closed ++ [f]) := by
  rw [onDisk_some, allAccepted_concat]
  unfold flush
  rw [List.take_length]

theorem onDisk_le : onDisk closed (some f) <+: allAccepted (closed ++ [f]) := by
  rw [onDisk_some, allAccepted_concat]
  exact List.prefix_append_right_inj _ |>.mpr (List.take_prefix _ _)

theorem onDisk_flush : onDisk closed (some f) <+: onDisk closed (some f.flush) := by
  rw [onDisk_flush_eq]
  exact onDisk_le

theorem flushable_flush : Flushable (some f.flush) := by
  rintro g ⟨⟩
  exact Nat.le_refl _

/-- A roll closes the file, with everything in it. -/
theorem onDisk_roll : onDisk closed (some f) <+: onDisk (closed ++ [f]) (some make) := by
  have hroll : onDisk (closed ++ [f]) (some make) = allAccepted (closed ++ [f]) := by
    rw [onDisk_some]
    exact List.append_nil _
  rw [hroll]
  exact onDisk_le

end LogFile

/-! ## `class Logger` -/

/-- `class Logger`; `closed` are the files before `logFile_`, in order of opening.
`mutexPtr_` makes one step of every call; without it the calls are those of one
thread. -/
structure Logger (α : Type*) where
  rollSize_ : ℕ
  flushInterval_ : ℤ
  count_ : ℕ
  startOfPeriod_ : ℤ
  lastRoll_ : ℤ
  lastFlush_ : ℤ
  logFile_ : Option (LogFile α)
  closed : List (LogFile α)

namespace Logger

def kCheckTimeRoll_ : ℕ := 1024

def kRollPerSeconds_ : ℤ := 60 * 60 * 24

/-- `now / kRollPerSeconds_ * kRollPerSeconds_`, with the division of C++. -/
def period (now : ℤ) : ℤ := now.tdiv kRollPerSeconds_ * kRollPerSeconds_

/-- `rollFile`, with what the clock reads. -/
def rollFile (l : Logger α) (now : ℤ) : Logger α :=
  if l.lastRoll_ < now then
    { l with
      lastRoll_ := now, lastFlush_ := now, startOfPeriod_ := period now
      closed := l.closed ++ l.logFile_.toList, logFile_ := some LogFile.make }
  else l

/-- `Logger::Logger`, with what the clock reads in its `rollFile()`. -/
def make (rollSize : ℕ) (flushInterval now : ℤ) : Logger α :=
  rollFile
    { rollSize_ := rollSize, flushInterval_ := flushInterval, count_ := 0, startOfPeriod_ := 0
      lastRoll_ := 0, lastFlush_ := 0, logFile_ := none, closed := [] } now

/-- `append_unlocked`: `n` and `results` are what `fwrite` returns, `now` is the
first reading of the clock and `later` the second. Without a file there is
nothing to append to. -/
def append_unlocked (l : Logger α) (logLine : List α) (n : ℕ) (results : List ℕ)
    (now later : ℤ) : Option (Logger α) :=
  match l.logFile_ with
  | none => none
  | some logFile =>
      (logFile.append logLine n results).map fun logFile =>
        let l := { l with logFile_ := some logFile }
        if 0 < l.rollSize_ ∧ l.rollSize_ < logFile.writtenBytes_ then rollFile l now
        else if kCheckTimeRoll_ < l.count_ then
          let l := { l with count_ := 0 }
          if period now ≠ l.startOfPeriod_ then rollFile l later
          else if l.flushInterval_ < now - l.lastFlush_ then
            { l with lastFlush_ := now, logFile_ := some logFile.flush }
          else l
        else { l with count_ := l.count_ + 1 }

/-- `append`: `append_unlocked` under the lock. -/
def append (l : Logger α) (logLine : List α) (n : ℕ) (results : List ℕ) (now later : ℤ) :
    Option (Logger α) :=
  l.append_unlocked logLine n results now later

/-- `flush`, under the lock. -/
def flush (l : Logger α) : Option (Logger α) :=
  l.logFile_.map fun logFile => { l with logFile_ := some logFile.flush }

/-- The files of a logger, in order of opening. -/
def files (l : Logger α) : List (LogFile α) := l.closed ++ l.logFile_.toList

/-- What an abort leaves in its files. -/
def onDisk (l : Logger α) : List α := LogFile.onDisk l.closed l.logFile_

section Calls

variable {l l' : Logger α}

/-- A roll keeps what the files have accepted, and what is on disk. -/
theorem rollFile_keeps (now : ℤ) {f : LogFile α} (hfile : l.logFile_ = some f)
    (h : LogFile.Flushable (some f)) :
    LogFile.allAccepted (l.rollFile now).files = LogFile.allAccepted l.files
      ∧ l.onDisk <+: (l.rollFile now).onDisk
      ∧ LogFile.Flushable (l.rollFile now).logFile_ := by
  unfold rollFile
  split
  · refine ⟨?_, ?_, LogFile.flushable_make⟩
    · unfold files
      dsimp only
      rw [Option.toList_some, LogFile.allAccepted_concat]
      exact List.append_nil _
    · unfold onDisk
      rw [hfile]
      exact LogFile.onDisk_roll
  · rw [hfile]
    exact ⟨rfl, List.prefix_refl _, h⟩

/-- **An append is accepted before it returns**, and takes nothing back. -/
theorem append_keeps {logLine : List α} {n : ℕ} {results : List ℕ} {now later : ℤ}
    (h : l.append logLine n results now later = some l') (hzero : 0 ∉ results)
    (hflushable : LogFile.Flushable l.logFile_) :
    LogFile.allAccepted l'.files = LogFile.allAccepted l.files ++ logLine
      ∧ l.onDisk <+: l'.onDisk ∧ LogFile.Flushable l'.logFile_ := by
  unfold append append_unlocked at h
  cases hfile : l.logFile_ with
  | none => rw [hfile] at h; cases h
  | some f =>
      rw [hfile] at h hflushable
      obtain ⟨f', hf', rfl⟩ := Option.map_eq_some_iff.mp h
      obtain ⟨hdisk, hflushable'⟩ := LogFile.onDisk_append l.closed hf' hflushable
      have hall : LogFile.allAccepted (l.closed ++ [f'])
          = LogFile.allAccepted l.files ++ logLine := by
        unfold files
        rw [hfile, Option.toList_some, LogFile.allAccepted_concat, LogFile.allAccepted_concat,
          LogFile.append_accepted hzero hf', List.append_assoc]
      have hdisk' : l.onDisk = LogFile.onDisk l.closed (some f') := by
        unfold onDisk
        rw [hfile, hdisk]
      dsimp only
      -- the outcomes are a roll or not, and a flush or not, of the same logger
      have hroll : ∀ count clock,
          LogFile.allAccepted (rollFile { l with count_ := count, logFile_ := some f' } clock).files
              = LogFile.allAccepted l.files ++ logLine
            ∧ l.onDisk <+: (rollFile { l with count_ := count, logFile_ := some f' } clock).onDisk
            ∧ LogFile.Flushable
              (rollFile { l with count_ := count, logFile_ := some f' } clock).logFile_ := by
        intro count clock
        obtain ⟨h1, h2, h3⟩ := rollFile_keeps (l := { l with count_ := count, logFile_ := some f' })
          clock rfl hflushable'
        exact ⟨h1.trans hall, hdisk' ▸ h2, h3⟩
      split
      · exact hroll l.count_ now
      · split
        · split
          · exact hroll 0 later
          · split
            · refine ⟨?_, ?_, LogFile.flushable_flush⟩
              · rw [← hall]
                unfold files
                simp [LogFile.allAccepted, LogFile.flush]
              · rw [hdisk']
                exact LogFile.onDisk_flush
            · exact ⟨hall, by rw [hdisk']; exact List.prefix_refl _, hflushable'⟩
        · exact ⟨hall, by rw [hdisk']; exact List.prefix_refl _, hflushable'⟩

/-- **A flush puts everything on disk that was accepted.** -/
theorem flush_keeps (h : l.flush = some l') :
    LogFile.allAccepted l'.files = LogFile.allAccepted l.files
      ∧ l'.onDisk = LogFile.allAccepted l.files ∧ l.onDisk <+: l'.onDisk
      ∧ LogFile.Flushable l'.logFile_ := by
  obtain ⟨f, hfile, rfl⟩ := Option.map_eq_some_iff.mp h
  unfold files onDisk
  rw [hfile]
  refine ⟨?_, LogFile.onDisk_flush_eq, LogFile.onDisk_flush, LogFile.flushable_flush⟩
  simp [LogFile.allAccepted, LogFile.flush]

end Calls

end Logger

end Libiak.Log
