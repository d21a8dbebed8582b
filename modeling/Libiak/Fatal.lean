/-
`~DLogMessage` of a `FATAL` message: what is in the files when it aborts.

The destructor is one template over the logger: it appends the line, flushes and
aborts. `Logger::flush` flushes the file the line was written to. But
`AsyncLogger::append` only puts the line into a buffer, and `AsyncLogger::flush`
is empty, so nothing makes the destructor wait for the backend. `Progress` is how
far the backend has come with the line by itself; the line is in the file at the
abort if the backend has come to the end of `appendBuffers_unlocked` with it
(`fatal_on_disk`), and without that it need not be (`fatal_lost`).
-/
import Libiak.Logger
import Libiak.LogStop

set_option autoImplicit false

namespace Libiak.Log

open Libiak.Run

variable {α : Type*}

/-! ## The destructor -/

/-- How far the destructor is: not called, past `append`, past `flush`, past
`abort`. -/
inductive FatalPc where
  | inserting
  | appended
  | flushed
  | aborted
  deriving DecidableEq

/-- A `FATAL` message and its logger, with the number of lines the logger had
been given when it was given the line of the message, that line included. -/
structure FatalMessage (σ : Type*) where
  logger : σ
  pc : FatalPc
  mark : ℕ

/-- What happens to the logger besides, or the next step of the destructor. -/
inductive FatalEvent (ε χ : Type*) where
  | other (e : ε)
  | append (line : χ)
  | flush
  | abort

/-- What the template takes from `Logger_`: a line comes with what its `append`
reads from the clock and the file. `step` is what other threads do meanwhile,
and `lines` are the lines the logger has been given so far. -/
structure LoggerOps (σ ε χ α : Type*) where
  step : σ → ε → Option σ
  append : σ → χ → Option σ
  flush : σ → Option σ
  lines : σ → List (List α)

namespace FatalMessage

variable {σ ε χ : Type*}

/-- `~DLogMessage` from `logger_->append` on. Nothing happens after the abort. -/
def step (ops : LoggerOps σ ε χ α) (m : FatalMessage σ) :
    FatalEvent ε χ → Option (FatalMessage σ)
  | .other e =>
      if m.pc = .aborted then none
      else (ops.step m.logger e).map fun logger => { m with logger := logger }
  | .append line =>
      if m.pc = .inserting then
        (ops.append m.logger line).map fun logger =>
          { logger := logger, pc := .appended, mark := (ops.lines logger).length }
      else none
  | .flush =>
      if m.pc = .appended then
        (ops.flush m.logger).map fun logger => { m with logger := logger, pc := .flushed }
      else none
  | .abort => if m.pc = .flushed then some { m with pc := .aborted } else none

/-- The line of the message, and the lines before it. -/
def lines (ops : LoggerOps σ ε χ α) (m : FatalMessage σ) : List α :=
  ((ops.lines m.logger).take m.mark).flatten

/-- The moves of the destructor. -/
theorem step_cases {ops : LoggerOps σ ε χ α} {m m' : FatalMessage σ} {e : FatalEvent ε χ}
    (h : step ops m e = some m') :
    (∃ x logger, e = .other x ∧ m.pc ≠ .aborted ∧ ops.step m.logger x = some logger
        ∧ m' = { m with logger := logger })
      ∨ (∃ line logger, e = .append line ∧ m.pc = .inserting
        ∧ ops.append m.logger line = some logger
        ∧ m' = { logger := logger, pc := .appended, mark := (ops.lines logger).length })
      ∨ (∃ logger, e = .flush ∧ m.pc = .appended ∧ ops.flush m.logger = some logger
        ∧ m' = { m with logger := logger, pc := .flushed })
      ∨ (e = .abort ∧ m.pc = .flushed ∧ m' = { m with pc := .aborted }) := by
  cases e with
  | other x =>
      rw [step] at h
      split at h
      · cases h
      · rename_i hpc
        obtain ⟨logger, hl, rfl⟩ := Option.map_eq_some_iff.mp h
        exact Or.inl ⟨x, logger, rfl, hpc, hl, rfl⟩
  | append line =>
      rw [step] at h
      split at h
      · rename_i hpc
        obtain ⟨logger, hl, rfl⟩ := Option.map_eq_some_iff.mp h
        exact Or.inr (Or.inl ⟨line, logger, rfl, hpc, hl, rfl⟩)
      · cases h
  | flush =>
      rw [step] at h
      split at h
      · rename_i hpc
        obtain ⟨logger, hl, rfl⟩ := Option.map_eq_some_iff.mp h
        exact Or.inr (Or.inr (Or.inl ⟨logger, rfl, hpc, hl, rfl⟩))
      · cases h
  | abort =>
      rw [step] at h
      split at h
      · rename_i hpc
        exact Or.inr (Or.inr (Or.inr ⟨rfl, hpc, (Option.some.inj h).symm⟩))
      · cases h

end FatalMessage

/-- More lines do not change which ones came first. -/
theorem take_append_mark {lines more : List (List α)} {mark : ℕ} (h : mark ≤ lines.length) :
    (lines ++ more).take mark = lines.take mark :=
  List.take_append_of_le_length h

theorem flatten_take_le (lines : List (List α)) (mark : ℕ) :
    (lines.take mark).flatten <+: lines.flatten := by
  have happend := List.take_append_drop mark lines
  rw [← happend, List.flatten_append, happend]
  exact List.prefix_append _ _

/-! ## A message to a `Logger` -/

/-- A line for `Logger::append`, with what `fwrite` and the clock return. -/
structure LoggerCall (α : Type*) where
  logLine : List α
  n : ℕ
  results : List ℕ
  now : ℤ
  later : ℤ

/-- A call of `append` or `flush`. -/
inductive LoggerEvent (α : Type*) where
  | append (call : LoggerCall α)
  | flush

/-- A `Logger` and the lines it has been given. -/
structure Logged (α : Type*) where
  logger : Logger α
  admitted : List (List α)

namespace Logged

def append (s : Logged α) (call : LoggerCall α) : Option (Logged α) :=
  (s.logger.append call.logLine call.n call.results call.now call.later).map fun logger =>
    { logger := logger, admitted := s.admitted ++ [call.logLine] }

def flush (s : Logged α) : Option (Logged α) :=
  s.logger.flush.map fun logger => { s with logger := logger }

def step (s : Logged α) : LoggerEvent α → Option (Logged α)
  | .append call => s.append call
  | .flush => s.flush

/-- A `Logger` behind the template. -/
def ops : LoggerOps (Logged α) (LoggerEvent α) (LoggerCall α) α where
  step := step
  append := append
  flush := flush
  lines := admitted

/-- No call of `fwrite` in the loop of `LogFile::append` accepts nothing. -/
def Accepts (_ : FatalMessage (Logged α)) : FatalEvent (LoggerEvent α) (LoggerCall α) → Prop
  | .other (.append call) => 0 ∉ call.results
  | .append call => 0 ∉ call.results
  | _ => True

instance (m : FatalMessage (Logged α)) :
    (e : FatalEvent (LoggerEvent α) (LoggerCall α)) → Decidable (Accepts m e)
  | .other (.append call) => inferInstanceAs (Decidable (0 ∉ call.results))
  | .append call => inferInstanceAs (Decidable (0 ∉ call.results))
  | .other .flush | .flush | .abort => isTrue trivial

/-- The files have accepted the lines. -/
structure Written (s : Logged α) : Prop where
  accepted : LogFile.allAccepted s.logger.files = s.admitted.flatten
  flushable : LogFile.Flushable s.logger.logFile_

variable {s t : Logged α}

theorem written_make (rollSize : ℕ) (flushInterval now : ℤ) :
    Written { logger := Logger.make rollSize flushInterval now
              admitted := ([] : List (List α)) } := by
  unfold Logger.make Logger.rollFile
  split
  · exact ⟨rfl, LogFile.flushable_make⟩
  · exact ⟨rfl, by rintro f ⟨⟩⟩

theorem written_append {call : LoggerCall α} (h : Written s) (hzero : 0 ∉ call.results)
    (happend : s.append call = some t) : Written t ∧ s.logger.onDisk <+: t.logger.onDisk
      ∧ t.admitted = s.admitted ++ [call.logLine] := by
  obtain ⟨logger, hl, rfl⟩ := Option.map_eq_some_iff.mp happend
  obtain ⟨haccepted, hdisk, hflushable⟩ := Logger.append_keeps hl hzero h.flushable
  refine ⟨⟨?_, hflushable⟩, hdisk, rfl⟩
  rw [haccepted, h.accepted, List.flatten_append, List.flatten_singleton]

theorem written_flush (h : Written s) (hflush : s.flush = some t) :
    Written t ∧ s.logger.onDisk <+: t.logger.onDisk ∧ t.logger.onDisk = s.admitted.flatten
      ∧ t.admitted = s.admitted := by
  obtain ⟨logger, hl, rfl⟩ := Option.map_eq_some_iff.mp hflush
  obtain ⟨haccepted, hall, hdisk, hflushable⟩ := Logger.flush_keeps hl
  exact ⟨⟨haccepted.trans h.accepted, hflushable⟩, hdisk, hall.trans h.accepted, rfl⟩

/-- A call of another thread takes nothing back. -/
theorem written_step {e : LoggerEvent α} (h : Written s)
    (haccepts : ∀ call, e = .append call → 0 ∉ call.results) (hstep : s.step e = some t) :
    Written t ∧ s.logger.onDisk <+: t.logger.onDisk ∧ s.admitted <+: t.admitted := by
  cases e with
  | append call =>
      obtain ⟨h1, h2, h3⟩ := written_append h (haccepts call rfl) hstep
      exact ⟨h1, h2, h3 ▸ List.prefix_append _ _⟩
  | flush =>
      obtain ⟨h1, h2, -, h3⟩ := written_flush h hstep
      exact ⟨h1, h2, h3 ▸ List.prefix_refl _⟩

/-- The lines up to that of the message have been given to the logger, and are on
disk once it has flushed. -/
structure Safe (m : FatalMessage (Logged α)) : Prop where
  written : Written m.logger
  mark : m.mark ≤ m.logger.admitted.length
  onDisk : m.pc = .flushed ∨ m.pc = .aborted → m.lines ops <+: m.logger.logger.onDisk

theorem safe_step {m m' : FatalMessage (Logged α)} {e : FatalEvent (LoggerEvent α) (LoggerCall α)}
    (h : Safe m) (haccepts : Accepts m e) (hstep : FatalMessage.step ops m e = some m') :
    Safe m' := by
  obtain ⟨hwritten, hmark, hdisk⟩ := h
  obtain ⟨x, logger, rfl, hpc, hl, rfl⟩ | ⟨call, logger, rfl, hpc, hl, rfl⟩ |
    ⟨logger, rfl, hpc, hl, rfl⟩ | ⟨rfl, hpc, rfl⟩ := FatalMessage.step_cases hstep
  · have hzero : ∀ call, x = .append call → 0 ∉ call.results := by
      rintro call rfl
      exact haccepts
    obtain ⟨hw, hgrows, more, hmore⟩ := written_step hwritten hzero hl
    have hlines : FatalMessage.lines ops { m with logger := logger } = m.lines ops := by
      unfold FatalMessage.lines ops
      dsimp only
      rw [← hmore, take_append_mark hmark]
    refine ⟨hw, ?_, fun hp => ?_⟩
    · dsimp only
      rw [← hmore, List.length_append]
      omega
    · rw [hlines]
      exact (hdisk hp).trans hgrows
  · obtain ⟨hw, -, -⟩ := written_append hwritten haccepts hl
    exact ⟨hw, Nat.le_refl _, by simp⟩
  · obtain ⟨hw, -, hall, hadmitted⟩ := written_flush hwritten hl
    refine ⟨hw, by dsimp only; rw [hadmitted]; exact hmark, fun _ => ?_⟩
    unfold FatalMessage.lines ops
    dsimp only
    rw [hall, hadmitted]
    exact flatten_take_le _ _
  · exact ⟨hwritten, hmark, fun _ => hdisk (Or.inl hpc)⟩

end Logged

/-! ## A message to an `AsyncLogger` -/

/-- How far the backend has come with the line of the message: it is in
`currentBuffer_` or `buffers_`, it has been swapped out since, the buffers that
were swapped out with it have all been written and the file has been flushed. -/
inductive Progress where
  | queued
  | taken
  | finished
  deriving DecidableEq

/-- The loggers and the backend, and how far the line of the message is. -/
structure Watched (ι α : Type*) where
  logging : AsyncLogging ι α
  progress : Progress

namespace Watched

open AsyncLogging AsyncLogger

variable {ι : Type*} [DecidableEq ι]

/-- What an event is for a line of logger `i`: the swap takes it, and the end of
`appendBuffers_unlocked` of its logger finishes it. -/
def advance (i : ι) (s : AsyncLogging ι α) : LogEvent ι α → Progress → Progress
  | .next, .queued => if s.pc = .swap then .taken else .queued
  | .next, .taken =>
      match s.pc with
      | .writing j _ _ => if j = i then .finished else .taken
      | _ => .taken
  | _, p => p

def step (i : ι) (s : Watched ι α) (e : LogEvent ι α) : Option (Watched ι α) :=
  (AsyncLogging.step s.logging e).map fun logging =>
    { logging := logging, progress := advance i s.logging e s.progress }

/-- `AsyncLogger::append`. -/
def append (i : ι) (s : Watched ι α) (logline : List α) : Option (Watched ι α) :=
  (s.logging.append i logline).map fun logging => { logging := logging, progress := .queued }

/-- `AsyncLogger::flush`, which is empty. -/
def flush (s : Watched ι α) : Option (Watched ι α) := some s

/-- `AsyncLogger` `i` behind the template. -/
def ops (i : ι) : LoggerOps (Watched ι α) (LogEvent ι α) (List α) α where
  step := step i
  append := append i
  flush := flush
  lines s := s.logging.admitted i

/-- What is on disk of logger `i`. -/
def onDisk (s : Watched ι α) (i : ι) : List α :=
  LogFile.onDisk (s.logging.loggers i).closed (s.logging.loggers i).logFile_

/-- The lines fit a buffer and `fwrite` takes them, and the abort comes when the
backend has finished the line. -/
def Finishes (m : FatalMessage (Watched ι α)) : FatalEvent (LogEvent ι α) (List α) → Prop
  | .other e => Short m.logger.logging e ∧ Accepts m.logger.logging e
  | .append logline => logline.length < kBufferSize
  | .flush => True
  | .abort => m.logger.progress = .finished

instance (m : FatalMessage (Watched ι α)) :
    (e : FatalEvent (LogEvent ι α) (List α)) → Decidable (Finishes m e)
  | .other e => inferInstanceAs (Decidable (Short m.logger.logging e ∧ Accepts _ e))
  | .append logline => inferInstanceAs (Decidable (logline.length < kBufferSize))
  | .flush => isTrue trivial
  | .abort => inferInstanceAs (Decidable (m.logger.progress = .finished))

/-! ### What a step does to the files -/

section Files

variable {s t : AsyncLogging ι α} {e : LogEvent ι α} {l l' : AsyncLogger α}

omit [DecidableEq ι] in
/-- A step that leaves the files alone leaves the closed ones alone. -/
theorem closed_eq (hfiles : l'.files = l.files) (hfile : l'.logFile_ = l.logFile_) :
    l'.closed = l.closed := by
  unfold AsyncLogger.files at hfiles
  rw [hfile] at hfiles
  exact List.append_cancel_right hfiles

/-- A write puts nothing on disk but by closing the file. -/
theorem onDisk_write {logline : List α} {n : ℕ} {results : List ℕ} {now later : ℤ}
    (h : append_unlocked l logline n results now later = some l')
    (hflushable : LogFile.Flushable l.logFile_) :
    LogFile.onDisk l.closed l.logFile_ <+: LogFile.onDisk l'.closed l'.logFile_
      ∧ LogFile.Flushable l'.logFile_ := by
  obtain ⟨f, f', hfile, hf', hfiles, hne, -⟩ := append_unlocked_cases h
  rw [hfile] at hflushable ⊢
  obtain ⟨hdisk, hflushable'⟩ := LogFile.onDisk_append l.closed hf' hflushable
  obtain ⟨g, hg⟩ := Option.ne_none_iff_exists'.mp hne
  unfold AsyncLogger.files at hfiles
  rw [hg, Option.toList_some] at hfiles
  rw [hg, ← hdisk]
  obtain hfiles | hfiles := hfiles
  · obtain ⟨hclosed, hlast⟩ := List.append_inj' hfiles rfl
    obtain rfl := (List.cons.inj hlast).1
    rw [hclosed]
    exact ⟨List.prefix_refl _, hflushable'⟩
  · obtain ⟨hclosed, hlast⟩ := List.append_inj' hfiles rfl
    obtain rfl := (List.cons.inj hlast).1
    rw [hclosed]
    exact ⟨LogFile.onDisk_roll, LogFile.flushable_make⟩

/-- The end of `appendBuffers_unlocked` puts everything on disk. -/
theorem onDisk_recycle (h : Rotation l) (hr : appendBuffers_unlocked.recycle l = some l') :
    LogFile.onDisk l.closed l.logFile_ <+: LogFile.onDisk l'.closed l'.logFile_
      ∧ LogFile.Flushable l'.logFile_
      ∧ LogFile.onDisk l'.closed l'.logFile_ = LogFile.allAccepted l.files := by
  obtain ⟨spare1, spare2, memory, heq, -⟩ := recycle_eq h
  rw [heq] at hr
  obtain ⟨logFile, hfile, rfl⟩ := Option.map_eq_some_iff.mp hr
  unfold AsyncLogger.files
  rw [hfile]
  exact ⟨LogFile.onDisk_flush, LogFile.flushable_flush, LogFile.onDisk_flush_eq⟩

/-- **No step takes anything back from the disk.** -/
theorem onDisk_step (h : Sound s) (hstep : AsyncLogging.step s e = some t)
    (hflushable : ∀ i, LogFile.Flushable (s.loggers i).logFile_) (i : ι) :
    LogFile.onDisk (s.loggers i).closed (s.loggers i).logFile_
        <+: LogFile.onDisk (t.loggers i).closed (t.loggers i).logFile_
      ∧ LogFile.Flushable (t.loggers i).logFile_ := by
  have hsame : ∀ l : AsyncLogger α, l.files = (s.loggers i).files →
      l.logFile_ = (s.loggers i).logFile_ →
      LogFile.onDisk (s.loggers i).closed (s.loggers i).logFile_
          <+: LogFile.onDisk l.closed l.logFile_
        ∧ LogFile.Flushable l.logFile_ := by
    intro l hfiles hfile
    rw [closed_eq hfiles hfile, hfile]
    exact ⟨List.prefix_refl _, hflushable i⟩
  cases step_moves hstep with
  | append j logline l hfree hl =>
      dsimp only
      by_cases hij : i = j
      · subst hij
        obtain ⟨l', hl', ha⟩ := append_appended (h.placed i).rotation logline
        obtain rfl := Option.some.inj (hl.symm.trans hl')
        obtain ⟨-, -, hfile, hfiles⟩ := ha.frame
        rw [Function.update_self]
        exact hsame l hfiles hfile
      · rw [Function.update_of_ne hij]
        exact hsame _ rfl rfl
  | swap loggers hpc hl =>
      dsimp only
      by_cases hi : i ∈ s.asyncLoggers_
      · obtain ⟨-, hfile, hfiles⟩ :=
          swap_frame (h.placed i).rotation ((swapAll_eq h.distinct hl i).1 hi)
        exact hsame _ hfiles hfile
      · rw [(swapAll_eq h.distinct hl i).2 hi]
        exact hsame _ rfl rfl
  | write j k rest buffer l n results now later hpc hbuffer hl =>
      dsimp only
      by_cases hij : i = j
      · subst hij
        rw [Function.update_self]
        exact onDisk_write hl (hflushable i)
      · rw [Function.update_of_ne hij]
        exact hsame _ rfl rfl
  | recycle j rest l hpc hl =>
      dsimp only
      by_cases hij : i = j
      · subst hij
        rw [Function.update_self]
        obtain ⟨h1, h2, -⟩ := onDisk_recycle (h.placed i).rotation hl
        exact ⟨h1, h2⟩
      · rw [Function.update_of_ne hij]
        exact hsame _ rfl rfl
  | _ => exact hsame _ rfl rfl

end Files

/-! ### What every run keeps -/

/-- The progress of a line says where its bytes are: handed over once it has been
swapped out, and on disk once it is finished. -/
structure Tracked (i : ι) (m : FatalMessage (Watched ι α)) : Prop where
  piped : Piped m.logger.logging
  accepted : ∀ j, Accepted (m.logger.logging.loggers j)
  flushable : ∀ j, LogFile.Flushable (m.logger.logging.loggers j).logFile_
  mark : m.mark ≤ (m.logger.logging.admitted i).length
  handed : m.logger.progress ≠ .queued → m.lines (ops i) <+: handed m.logger.logging i
  onDisk : m.logger.progress = .finished → m.lines (ops i) <+: m.logger.onDisk i
  aborted : m.pc = .aborted → m.logger.progress = .finished

omit [DecidableEq ι] in
theorem flushable_init (rollSize : ι → ℕ) (opened : ι → ℤ) (i : ι) :
    LogFile.Flushable ((init rollSize opened : AsyncLogging ι α).loggers i).logFile_ := by
  show LogFile.Flushable (AsyncLogger.make (rollSize i) (opened i) : AsyncLogger α).logFile_
  unfold AsyncLogger.make
  rcases rollFile_cases _ (opened i) with heq | heq
  · rw [heq]
    rintro f ⟨⟩
  · rw [heq]
    exact LogFile.flushable_make

/-- A message before its destructor. -/
def start (rollSize : ι → ℕ) (opened : ι → ℤ) : FatalMessage (Watched ι α) where
  logger := { logging := init rollSize opened, progress := .queued }
  pc := .inserting
  mark := 0

theorem tracked_start (i : ι) (rollSize : ι → ℕ) (opened : ι → ℤ) :
    Tracked i (start rollSize opened : FatalMessage (Watched ι α)) := by
  refine ⟨piped_init rollSize opened, fun j => ?_, flushable_init rollSize opened, Nat.zero_le _,
    fun h => absurd rfl h, fun h => ?_, fun h => ?_⟩
  · obtain ⟨c, -, -, haccepted, -⟩ := conveys_make (α := α) (rollSize j) (opened j)
    exact haccepted
  · cases h
  · cases h

/-- The swap hands over everything that was admitted. -/
theorem handed_swap {s t : AsyncLogging ι α} (h : Piped s) (hpc : s.pc = .swap)
    (hstep : AsyncLogging.step s .next = some t) (i : ι) :
    handed t i = (t.admitted i).flatten := by
  have hshort : Short s (.next : LogEvent ι α) := trivial
  have hpiped := piped_step h hshort hstep
  apply hpiped.handed_all
  obtain hbefore | hpending := beforeSwap_step h.sound (by rw [hpc]; rfl) hstep
  · -- the swap is the last step before itself
    rw [AsyncLogging.step, next, hpc] at hstep
    obtain ⟨loggers, -, rfl⟩ := Option.map_eq_some_iff.mp hstep
    rcases BackendPc.each_cases s.asyncLoggers_ with heq | ⟨j, rest, heq⟩
    · rw [heq] at hbefore
      cases hbefore
    · rw [heq] at hbefore
      cases hbefore
  · exact hpending i

/-- The end of `appendBuffers_unlocked` puts on disk what was handed over. -/
theorem onDisk_finish {s t : AsyncLogging ι α} (h : Piped s)
    (haccepted : ∀ j, Accepted (s.loggers j)) {i : ι} {k : ℕ} {rest : List ι}
    (hpc : s.pc = .writing i k rest) (hstep : AsyncLogging.step s .next = some t) :
    handed s i = LogFile.onDisk (t.loggers i).closed (t.loggers i).logFile_ := by
  rw [AsyncLogging.step, next, hpc] at hstep
  dsimp only at hstep
  split at hstep
  · rename_i hwritten
    obtain ⟨l, hl, rfl⟩ := Option.map_eq_some_iff.mp hstep
    dsimp only
    rw [Function.update_self, (onDisk_recycle (h.sound.placed i).rotation hl).2.2]
    unfold handed unwritten passed bytes LogFile.allAccepted
    rw [hpc, BackendPc.written_self, hwritten, List.drop_length]
    have hfiles : (s.loggers i).files.map LogFile.accepted
        = (s.loggers i).files.map LogFile.offered :=
      List.map_congr_left fun f hf => haccepted i f hf
    rw [hfiles]
    exact List.append_nil _
  · cases hstep

theorem tracked_other {i : ι} {m : FatalMessage (Watched ι α)} {e : LogEvent ι α}
    {logger : Watched ι α} (h : Tracked i m) (hshort : Short m.logger.logging e)
    (haccepts : Accepts m.logger.logging e) (hpc : m.pc ≠ .aborted)
    (hstep : m.logger.step i e = some logger) :
    Tracked i { m with logger := logger } := by
  obtain ⟨t, ht, rfl⟩ := Option.map_eq_some_iff.mp hstep
  have hdisk := onDisk_step h.piped.sound ht h.flushable
  have hadmitted := admitted_step ht i
  have hlines : FatalMessage.lines (ops i)
      { m with logger :=
          { logging := t, progress := advance i m.logger.logging e m.logger.progress } }
      = m.lines (ops i) := by
    unfold FatalMessage.lines ops
    dsimp only
    rw [hadmitted, take_append_mark h.mark]
  have hkept : m.logger.progress ≠ .queued → m.lines (ops i) <+: AsyncLogging.handed t i :=
    fun hp => (h.handed hp).trans (handed_step h.piped hshort ht i)
  refine ⟨piped_step h.piped hshort ht, accepted_step h.piped.sound haccepts ht h.accepted,
    fun j => (hdisk j).2, ?_, ?_, ?_, fun hp => absurd hp hpc⟩
  · dsimp only
    rw [hadmitted, List.length_append]
    exact Nat.le_trans h.mark (Nat.le_add_right _ _)
  · rw [hlines]
    dsimp only
    intro hp
    by_cases hqueued : m.logger.progress = .queued
    · -- only the swap takes a line that is queued
      rw [hqueued] at hp
      unfold advance at hp
      split at hp
      · split at hp
        · rename_i hswap
          rw [handed_swap h.piped hswap ht, hadmitted, ← hlines]
          unfold FatalMessage.lines ops
          dsimp only
          rw [← hadmitted]
          exact flatten_take_le _ _
        · exact absurd rfl hp
      · rename_i heq
        cases heq
      · exact absurd rfl hp
    · exact hkept hqueued
  · rw [hlines]
    dsimp only
    intro hp
    by_cases hfinished : m.logger.progress = .finished
    · exact (h.onDisk hfinished).trans (hdisk i).1
    · -- only the end of the batch finishes a line
      unfold advance at hp
      split at hp
      · split at hp
        · cases hp
        · cases hp
      · rename_i htaken
        split at hp
        · rename_i j k rest hwriting
          split at hp
          · rename_i hij
            subst hij
            refine (h.handed (by rw [htaken]; decide)).trans ?_
            rw [onDisk_finish h.piped h.accepted hwriting ht]
            exact List.prefix_refl _
          · cases hp
        · cases hp
      · exact absurd hp hfinished

theorem tracked_step {i : ι} {m m' : FatalMessage (Watched ι α)}
    {e : FatalEvent (LogEvent ι α) (List α)} (h : Tracked i m) (hfinishes : Finishes m e)
    (hstep : FatalMessage.step (ops i) m e = some m') : Tracked i m' := by
  obtain ⟨x, logger, rfl, hpc, hl, rfl⟩ | ⟨logline, logger, rfl, hpc, hl, rfl⟩ |
    ⟨logger, rfl, hpc, hl, rfl⟩ | ⟨rfl, hpc, rfl⟩ := FatalMessage.step_cases hstep
  · exact tracked_other h hfinishes.1 hfinishes.2 hpc hl
  · -- the line of the message is one more line, and is queued
    obtain ⟨t, ht, rfl⟩ := Option.map_eq_some_iff.mp hl
    have happend : AsyncLogging.step m.logger.logging (.append i logline) = some t := ht
    have hdisk := onDisk_step h.piped.sound happend h.flushable
    have hshort : Short m.logger.logging (.append i logline) := hfinishes
    have haccepts : Accepts m.logger.logging (.append i logline) := trivial
    refine ⟨piped_step h.piped hshort happend,
      accepted_step h.piped.sound haccepts happend h.accepted, fun j => (hdisk j).2,
      Nat.le_refl _, fun hp => absurd rfl hp, fun hp => ?_, fun hp => ?_⟩
    · cases hp
    · cases hp
  · obtain rfl := Option.some.inj hl
    exact ⟨h.piped, h.accepted, h.flushable, h.mark, h.handed, h.onDisk, fun hp => by cases hp⟩
  · exact ⟨h.piped, h.accepted, h.flushable, h.mark, h.handed, h.onDisk, fun _ => hfinishes⟩

end Watched

/-! ## The two loggers -/

/-- **A `FATAL` line reaches the file, where the backend has finished it.** When
the destructor of a `FATAL` message to a `Logger` reaches `abort()`, its line and
every line before it are in the files and flushed. When that of a message to an
`AsyncLogger` does, they are if the abort comes only after the backend has
swapped the line out and come to the end of `appendBuffers_unlocked`; for any
number of loggers and every order of steps of producers and backend, with lines
that fit a buffer and an `fwrite` that takes them. -/
theorem fatal_on_disk {ι : Type*} [DecidableEq ι] :
    (∀ (rollSize : ℕ) (flushInterval now : ℤ) (es : List (FatalEvent _ _))
        (m : FatalMessage (Logged α)),
      let start : FatalMessage (Logged α) :=
        { logger := { logger := Logger.make rollSize flushInterval now, admitted := [] }
          pc := .inserting, mark := 0 }
      Along (FatalMessage.step Logged.ops) Logged.Accepts start es →
      run (FatalMessage.step Logged.ops) start es = some m → m.pc = .aborted →
      m.lines Logged.ops <+: m.logger.logger.onDisk)
    ∧ ∀ (i : ι) (rollSize : ι → ℕ) (opened : ι → ℤ) (es : List (FatalEvent _ _))
        (m : FatalMessage (Watched ι α)),
      Along (FatalMessage.step (Watched.ops i)) Watched.Finishes
        (Watched.start rollSize opened) es →
      run (FatalMessage.step (Watched.ops i)) (Watched.start rollSize opened) es = some m →
      m.pc = .aborted → m.lines (Watched.ops i) <+: m.logger.onDisk i := by
  constructor
  · intro rollSize flushInterval now es m start haccepts hrun haborted
    have hstart : Logged.Safe start :=
      ⟨Logged.written_make rollSize flushInterval now, Nat.zero_le _, by simp [start]⟩
    have hsafe := run_inv_along (fun _ _ _ h hC hs => Logged.safe_step h hC hs) hstart haccepts hrun
    exact hsafe.onDisk (Or.inr haborted)
  · intro i rollSize opened es m hfinishes hrun haborted
    have htracked := run_inv_along (fun _ _ _ h hC hs => Watched.tracked_step h hC hs)
      (Watched.tracked_start i rollSize opened) hfinishes hrun
    exact htracked.onDisk (htracked.aborted haborted)

/-- A message to a `Logger` that has a line already; and one to logger 0 of two, with a line
of each before it, which the backend has finished at the abort. -/
theorem fatal_on_disk_finished :
    (∃ m : FatalMessage (Logged ℕ),
      run (FatalMessage.step Logged.ops)
          { logger := { logger := Logger.make 9 3 1, admitted := [] }, pc := .inserting, mark := 0 }
          [.other (.append ⟨[1], 1, [], 1, 1⟩), .append ⟨[2, 3], 1, [1], 1, 1⟩, .flush, .abort]
        = some m
      ∧ m.lines Logged.ops = [1, 2, 3] ∧ m.lines Logged.ops <+: m.logger.logger.onDisk)
    ∧ ∃ m : FatalMessage (Watched ℕ ℕ),
      run (FatalMessage.step (Watched.ops 0)) (Watched.start (fun _ => 9) (fun _ => 1))
          [.other .start, .other .next, .other .next, .other (.append 1 [7]),
            .other (.append 0 [1]), .append [2], .other .next, .other .next, .other .next, .flush,
            .other (.write 1 [] 1 1), .other .next, .other (.write 2 [] 1 1), .other .next,
            .abort] = some m
      ∧ m.lines (Watched.ops 0) = [1, 2] ∧ m.lines (Watched.ops 0) <+: m.logger.onDisk 0 := by
  constructor
  · obtain ⟨m, hm⟩ := Option.isSome_iff_exists.mp (show ((run (FatalMessage.step Logged.ops)
      ({ logger := { logger := Logger.make 9 3 1, admitted := [] }
         pc := .inserting, mark := 0 } : FatalMessage (Logged ℕ))
      [.other (.append ⟨[1], 1, [], 1, 1⟩), .append ⟨[2, 3], 1, [1], 1, 1⟩, .flush, .abort]).bind
        fun m => if m.pc = .aborted ∧ m.lines Logged.ops = [1, 2, 3] then some m
          else none).isSome = true by decide +kernel)
    obtain ⟨m', hrun, hm'⟩ := Option.bind_eq_some_iff.mp hm
    split at hm'
    · rename_i hend
      exact ⟨m', hrun, hend.2, (fatal_on_disk (ι := ℕ)).1 9 3 1 _ m' (by decide +kernel) hrun
        hend.1⟩
    · cases hm'
  · obtain ⟨m, hm⟩ := Option.isSome_iff_exists.mp (show ((run (FatalMessage.step (Watched.ops 0))
      (Watched.start (fun _ => 9) (fun _ => 1) : FatalMessage (Watched ℕ ℕ))
      [.other .start, .other .next, .other .next, .other (.append 1 [7]),
        .other (.append 0 [1]), .append [2], .other .next, .other .next, .other .next, .flush,
        .other (.write 1 [] 1 1), .other .next, .other (.write 2 [] 1 1), .other .next,
        .abort]).bind fun m =>
          if m.pc = .aborted ∧ m.lines (Watched.ops 0) = [1, 2] then some m
          else none).isSome = true by decide +kernel)
    obtain ⟨m', hrun, hm'⟩ := Option.bind_eq_some_iff.mp hm
    split at hm'
    · rename_i hend
      exact ⟨m', hrun, hend.2, fatal_on_disk.2 0 (fun _ => 9) (fun _ => 1) _ m' (by decide +kernel)
        hrun hend.1⟩
    · cases hm'

/-- The backend is between its test of `running_` and the lock, and the message
aborts as soon as its line is queued: neither it nor the line before it is in a
file. -/
theorem fatal_lost :
    ∃ m : FatalMessage (Watched ℕ ℕ),
      run (FatalMessage.step (Watched.ops 0)) (Watched.start (fun _ => 9) (fun _ => 1))
          [.other .start, .other .next, .other .next, .other (.append 0 [1]), .append [2],
            .flush, .abort] = some m
      ∧ m.pc = .aborted ∧ m.lines (Watched.ops 0) = [1, 2] ∧ m.logger.onDisk 0 = []
      ∧ ¬ m.lines (Watched.ops 0) <+: m.logger.onDisk 0 := by
  have heval : (run (FatalMessage.step (Watched.ops 0))
      (Watched.start (fun _ => 9) (fun _ => 1) : FatalMessage (Watched ℕ ℕ))
      [.other .start, .other .next, .other .next, .other (.append 0 [1]), .append [2],
        .flush, .abort]).map
        (fun m => (m.pc, m.lines (Watched.ops 0), m.logger.onDisk 0))
      = some (.aborted, [1, 2], []) := by
    decide +kernel
  obtain ⟨m, hrun, hm⟩ := Option.map_eq_some_iff.mp heval
  simp only [Prod.mk.injEq] at hm
  obtain ⟨haborted, hlines, hdisk⟩ := hm
  refine ⟨m, hrun, haborted, hlines, hdisk, ?_⟩
  rw [hlines, hdisk]
  decide

end Libiak.Log
