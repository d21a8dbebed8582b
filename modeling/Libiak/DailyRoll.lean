/-
When the loggers open a new file.

`Logger` and `AsyncLogger` look at the clock in two places of `append_unlocked`:
in `rollFile` when the file is full, and in a check that a counter lets through
once in a while. `Roller` is what both have in common: the counter, the period and
the second of the last opening, and how many files there are. What differs between
the two, that only one of them resets the counter when the file is full, is in the
calls.

The readings at which the files were opened are recorded beside the logger
(`Opened`), from what `rollFile` has read, not from what it has stored.
-/
import Libiak.Fatal

set_option autoImplicit false

namespace Libiak.Log

open Libiak.Run

variable {α : Type*}

/-! ## Rolls by a counter and a clock -/

/-- The days are those of UTC. -/
def utcDay (t : ℤ) : ℤ := t / (60 * 60 * 24)

/-- What of a logger decides on its rolls, and the number of its files. -/
structure Roller where
  count : ℕ
  startOfPeriod : ℤ
  lastRoll : ℤ
  files : ℕ

/-- A call of `append_unlocked` after its write: whether the file is full, whether
the counter is reset then, and the two readings of the clock, as far as they are
made. The other calls are idle. -/
inductive RollerCall where
  | idle
  | append (full reset : Bool) (now later : ℤ)

namespace Roller

/-- `rollFile`. -/
def roll (r : Roller) (now : ℤ) : Roller :=
  if r.lastRoll < now then
    { r with lastRoll := now, startOfPeriod := Logger.period now, files := r.files + 1 }
  else r

/-- A call. -/
def step (r : Roller) : RollerCall → Roller
  | .idle => r
  | .append full reset now later =>
      if full then roll { r with count := if reset then 0 else r.count } now
      else if Logger.kCheckTimeRoll_ < r.count then
        if Logger.period now ≠ r.startOfPeriod then roll { r with count := 0 } later
        else { r with count := 0 }
      else { r with count := r.count + 1 }

/-- What a call reads from the clock. -/
def readings (r : Roller) : RollerCall → List ℤ
  | .idle => []
  | .append full _ now later =>
      if full then [now]
      else if Logger.kCheckTimeRoll_ < r.count then
        if Logger.period now ≠ r.startOfPeriod then [now, later] else [now]
      else []

/-- The counter is at most one past its limit, and the period is that of the last
roll. -/
structure Sound (r : Roller) : Prop where
  count : r.count ≤ Logger.kCheckTimeRoll_ + 1
  positive : 0 < r.lastRoll
  period : r.startOfPeriod = Logger.period r.lastRoll

variable {r : Roller} {c : RollerCall}

/-- What a call does to the files: nothing, or it opens one at the last reading of
the clock, which is past the one before. -/
theorem step_opens (r : Roller) (c : RollerCall) :
    ((r.step c).files = r.files ∧ (r.step c).lastRoll = r.lastRoll
        ∧ (r.step c).startOfPeriod = r.startOfPeriod)
      ∨ ((r.step c).files = r.files + 1 ∧ r.lastRoll < (r.step c).lastRoll
        ∧ (r.step c).startOfPeriod = Logger.period (r.step c).lastRoll
        ∧ (r.readings c).getLast? = some (r.step c).lastRoll) := by
  have hroll : ∀ (count : ℕ) (t : ℤ),
      roll { r with count := count } t = { r with count := count }
        ∨ r.lastRoll < t ∧ roll { r with count := count } t
          = ⟨count, Logger.period t, t, r.files + 1⟩ := by
    intro count t
    unfold roll
    dsimp only
    split
    · rename_i hlt
      exact Or.inr ⟨hlt, rfl⟩
    · exact Or.inl rfl
  cases c with
  | idle => exact Or.inl ⟨rfl, rfl, rfl⟩
  | append full reset now later =>
      unfold step readings
      dsimp only
      split
      · rcases hroll (if reset then 0 else r.count) now with heq | ⟨hlt, heq⟩
        · rw [heq]
          exact Or.inl ⟨rfl, rfl, rfl⟩
        · rw [heq]
          exact Or.inr ⟨rfl, hlt, rfl, rfl⟩
      · split
        · split
          · rcases hroll 0 later with heq | ⟨hlt, heq⟩
            · rw [heq]
              exact Or.inl ⟨rfl, rfl, rfl⟩
            · rw [heq]
              exact Or.inr ⟨rfl, hlt, rfl, rfl⟩
          · exact Or.inl ⟨rfl, rfl, rfl⟩
        · exact Or.inl ⟨rfl, rfl, rfl⟩

theorem count_roll (r : Roller) (t : ℤ) : (r.roll t).count = r.count := by
  unfold roll
  split <;> rfl

theorem count_step (h : r.count ≤ Logger.kCheckTimeRoll_ + 1) (c : RollerCall) :
    (r.step c).count ≤ Logger.kCheckTimeRoll_ + 1 := by
  cases c with
  | idle => exact h
  | append full reset now later =>
      unfold step
      dsimp only
      split
      · rw [count_roll]
        dsimp only
        split
        · exact Nat.zero_le _
        · exact h
      · split
        · split
          · rw [count_roll]
            exact Nat.zero_le _
          · exact Nat.zero_le _
        · rename_i hcount
          exact Nat.succ_le_succ (Nat.le_of_not_lt hcount)

theorem Sound.step (h : r.Sound) (c : RollerCall) : (r.step c).Sound := by
  refine ⟨count_step h.count c, ?_, ?_⟩
  · rcases step_opens r c with ⟨-, hlast, -⟩ | ⟨-, hlt, -, -⟩
    · rw [hlast]
      exact h.positive
    · exact Int.lt_trans h.positive hlt
  · rcases step_opens r c with ⟨-, hlast, hstart⟩ | ⟨-, -, hstart, -⟩
    · rw [hstart, hlast]
      exact h.period
    · exact hstart

/-- A chain of tests is a call of the roller, if each of its ends is. -/
theorem step_append {σ : Type*} (roller : σ → Roller) {full : Prop} [Decidable full]
    (reset : Bool) (now later : ℤ) {filled passed kept counted : σ}
    (hfilled : roller filled = roll { r with count := if reset then 0 else r.count } now)
    (hpassed : roller passed = roll { r with count := 0 } later)
    (hkept : roller kept = { r with count := 0 })
    (hcounted : roller counted = { r with count := r.count + 1 }) :
    roller (if full then filled
      else if Logger.kCheckTimeRoll_ < r.count then
        if Logger.period now ≠ r.startOfPeriod then passed else kept
      else counted) = r.step (.append (decide full) reset now later) := by
  unfold step
  dsimp only
  by_cases hfull : full
  · rw [if_pos hfull, decide_eq_true hfull]
    exact hfilled
  · rw [if_neg hfull, decide_eq_false hfull, if_neg Bool.false_ne_true]
    split
    · split
      · exact hpassed
      · exact hkept
    · exact hcounted

theorem files_step (r : Roller) (c : RollerCall) : r.files ≤ (r.step c).files := by
  rcases step_opens r c with ⟨hfiles, -, -⟩ | ⟨hfiles, -, -, -⟩
  · exact Nat.le_of_eq hfiles.symm
  · rw [hfiles]
    exact Nat.le_succ _

/-- The period is the beginning of a day. -/
theorem period_eq {t : ℤ} (h : 0 < t) : Logger.period t = utcDay t * (60 * 60 * 24) := by
  unfold Logger.period utcDay Logger.kRollPerSeconds_
  rw [Int.tdiv_eq_ediv_of_nonneg (by omega)]

/-- A reading on a later day is past the last roll, and in another period. -/
theorem Sound.later (h : r.Sound) {t : ℤ} (hday : utcDay r.lastRoll < utcDay t) :
    r.lastRoll < t ∧ Logger.period t ≠ r.startOfPeriod := by
  have hpos := h.positive
  have hlt : r.lastRoll < t := by
    unfold utcDay at hday
    omega
  refine ⟨hlt, ?_⟩
  rw [h.period, period_eq hpos, period_eq (by omega)]
  omega

/-- **On a later day a call opens a file, or counts.** -/
theorem step_later (h : r.Sound) {full reset : Bool} {now later : ℤ}
    (hlater : ∀ t ∈ r.readings (.append full reset now later), utcDay r.lastRoll < utcDay t) :
    (r.step (.append full reset now later)).files = r.files + 1
      ∨ r.count ≤ Logger.kCheckTimeRoll_
        ∧ r.step (.append full reset now later) = { r with count := r.count + 1 } := by
  unfold readings at hlater
  unfold step
  dsimp only at hlater ⊢
  split at hlater
  · rename_i hfull
    obtain ⟨hlt, -⟩ := h.later (hlater now (List.mem_singleton_self now))
    rw [if_pos hfull, roll, if_pos hlt]
    exact Or.inl rfl
  · rename_i hfull
    rw [if_neg hfull]
    split at hlater
    · rename_i hcount
      rw [if_pos hcount]
      split at hlater
      · rename_i hperiod
        obtain ⟨hlt, -⟩ := h.later (hlater later (by simp))
        rw [if_pos hperiod, roll, if_pos hlt]
        exact Or.inl rfl
      · -- the check does not pass over a new day
        rename_i hperiod
        obtain ⟨-, hne⟩ := h.later (hlater now (List.mem_singleton_self now))
        exact absurd hne hperiod
    · rename_i hcount
      rw [if_neg hcount]
      exact Or.inr ⟨Nat.le_of_not_lt hcount, rfl⟩

end Roller

/-! ## Machines that roll -/

/-- A logger with its calls, what they read from the clock, and how it is a
`Roller`. -/
structure RollMachine (σ ε : Type*) where
  step : σ → ε → Option σ
  isAppend : ε → Bool
  readings : σ → ε → List ℤ
  roller : σ → Roller
  call : σ → ε → RollerCall

/-- A logger, and the readings of the clock at which its files were opened. -/
structure Opened (σ : Type*) where
  logger : σ
  openings : List ℤ

namespace RollMachine

variable {σ ε : Type*} (m : RollMachine σ ε)

/-- A call. A file that is there afterwards and was not before has been opened at
the last reading of the clock. -/
def next (o : Opened σ) (e : ε) : Option (Opened σ) :=
  (m.step o.logger e).map fun s =>
    ⟨s, if (m.roller o.logger).files < (m.roller s).files then
      o.openings ++ (m.readings o.logger e).getLast?.toList else o.openings⟩

/-- `lastRoll_` and `startOfPeriod_` are those of the opening of the current file,
and every file was opened at a later second than the one before. -/
structure Current (o : Opened σ) : Prop where
  files : o.openings.length = (m.roller o.logger).files
  lastRoll : o.openings.getLast? = some (m.roller o.logger).lastRoll
  startOfPeriod : (m.roller o.logger).startOfPeriod
    = utcDay (m.roller o.logger).lastRoll * (60 * 60 * 24)
  increasing : o.openings.Pairwise (· < ·)

/-- What a call reads from the clock is on a later day than the opening of the
file that was current at `o`. -/
def Later (o : Opened σ) (p : Opened σ) (e : ε) : Prop :=
  ∀ opened ∈ o.openings.getLast?, ∀ t ∈ m.readings p.logger e, utcDay opened < utcDay t

/-- From a logger that was constructed at the reading `now`: whatever the calls,
the stored times are those of the current file, and among so many consecutive
`append_unlocked` on a later day one opens a new file. -/
def RollsDaily (s : σ) (now : ℤ) : Prop :=
  ∀ before o, run m.next ⟨s, [now]⟩ before = some o →
    m.Current o ∧ ∀ window p, run m.next o window = some p →
      Logger.kCheckTimeRoll_ + 2 ≤ (window.filter m.isAppend).length →
      Along m.next (m.Later o) o window →
      (m.roller o.logger).files < (m.roller p.logger).files

/-- The logger is a `Roller`, call by call. -/
structure Simulates : Prop where
  step : ∀ s e t, m.step s e = some t → m.roller t = (m.roller s).step (m.call s e)
  readings : ∀ s e t, m.step s e = some t → m.readings s e = (m.roller s).readings (m.call s e)
  append : ∀ s e t, m.step s e = some t → m.isAppend e = true →
    ∃ full reset now later, m.call s e = .append full reset now later

variable {m} {o p : Opened σ} {e : ε}

/-- The invariant of a run. -/
structure Sound (m : RollMachine σ ε) (o : Opened σ) : Prop where
  roller : (m.roller o.logger).Sound
  current : m.Current o

theorem next_eq (h : m.next o e = some p) : m.step o.logger e = some p.logger
    ∧ p.openings = if (m.roller o.logger).files < (m.roller p.logger).files then
      o.openings ++ (m.readings o.logger e).getLast?.toList else o.openings := by
  obtain ⟨s, hs, rfl⟩ := Option.map_eq_some_iff.mp h
  exact ⟨hs, rfl⟩

theorem sound_next (hm : m.Simulates) (h : m.Sound o) (hnext : m.next o e = some p) :
    m.Sound p := by
  obtain ⟨hroller, hfiles, hlast, -, hincreasing⟩ := h
  obtain ⟨hstep, hopenings⟩ := next_eq hnext
  have hsim := hm.step _ _ _ hstep
  have hsound := hroller.step (m.call o.logger e)
  rw [← hsim] at hsound
  have hperiod := hsound.period
  rw [Roller.period_eq hsound.positive] at hperiod
  have hopens := Roller.step_opens (m.roller o.logger) (m.call o.logger e)
  rw [← hsim, ← hm.readings _ _ _ hstep] at hopens
  refine ⟨hsound, ?_⟩
  rcases hopens with ⟨hsame, hroll, -⟩ | ⟨hmore, hlt, -, hread⟩
  · rw [if_neg (by omega)] at hopenings
    refine ⟨?_, ?_, hperiod, ?_⟩
    · rw [hopenings, hfiles, hsame]
    · rw [hopenings, hlast, hroll]
    · rw [hopenings]
      exact hincreasing
  · rw [if_pos (by omega), hread, Option.toList_some] at hopenings
    refine ⟨?_, ?_, hperiod, ?_⟩
    · rw [hopenings, List.length_append, hfiles, hmore]
      rfl
    · rw [hopenings, List.getLast?_concat]
    · -- the last opening is the largest one so far
      rw [hopenings, List.pairwise_append]
      refine ⟨hincreasing, List.pairwise_singleton _ _, ?_⟩
      intro a ha b hb
      rw [List.mem_singleton.mp hb]
      obtain ⟨init, hinit⟩ := List.getLast?_eq_some_iff.mp hlast
      rw [hinit] at ha hincreasing
      rcases List.mem_append.mp ha with ha | ha
      · exact Int.lt_trans ((List.pairwise_append.mp hincreasing).2.2 a ha _
          (List.mem_singleton_self _)) hlt
      · rw [List.mem_singleton.mp ha]
        exact hlt

theorem files_le (hm : m.Simulates) {es : List ε} (hrun : run m.next o es = some p) :
    (m.roller o.logger).files ≤ (m.roller p.logger).files := by
  apply run_inv (I := fun q => (m.roller o.logger).files ≤ (m.roller q.logger).files) _
    (Nat.le_refl _) hrun
  intro s e t hle hstep
  rw [hm.step _ _ _ (next_eq hstep).1]
  exact Nat.le_trans hle (Roller.files_step _ _)

/-- **One file at least.** From a sound state with a counter at `count`, so many
calls on a later day open one: each that does not counts. -/
theorem opens_of_later (hm : m.Simulates) {es : List ε} {day : ℤ} (h : (m.roller o.logger).Sound)
    (hday : utcDay (m.roller o.logger).lastRoll = day)
    (hrun : run m.next o es = some p)
    (hmany : Logger.kCheckTimeRoll_ + 2
      ≤ (es.filter m.isAppend).length + (m.roller o.logger).count)
    (hlater : Along m.next (fun q e => ∀ t ∈ m.readings q.logger e, day < utcDay t) o es) :
    (m.roller o.logger).files < (m.roller p.logger).files := by
  induction es generalizing o with
  | nil =>
      have hcount := h.count
      rw [List.filter_nil, List.length_nil] at hmany
      omega
  | cons e es ih =>
      obtain ⟨q, hq, hrun⟩ := (run_cons m.next).mp hrun
      obtain ⟨hread, hlater⟩ := hlater
      have hstep := (next_eq hq).1
      have hsim := hm.step _ _ _ hstep
      have hsound : (m.roller q.logger).Sound := by
        rw [hsim]
        exact h.step _
      have hmore := files_le hm hrun
      rw [hm.readings _ _ _ hstep, ← hday] at hread
      cases hcall : m.call o.logger e with
      | idle =>
          rw [hcall] at hsim
          have hidle : m.isAppend e = false := by
            rw [Bool.eq_false_iff]
            intro happend
            obtain ⟨full, reset, now, later, heq⟩ := hm.append _ _ _ hstep happend
            rw [hcall] at heq
            cases heq
          rw [List.filter_cons_of_neg (by rw [hidle]; decide)] at hmany
          have hsame : m.roller q.logger = m.roller o.logger := hsim
          rw [← hsame] at hmany hday ⊢
          exact ih hsound hday hrun hmany (hlater q hq)
      | append full reset now later =>
          rw [hcall] at hsim hread
          rcases Roller.step_later h hread with hopen | ⟨hcount, hnext⟩
          · rw [← hsim] at hopen
            omega
          · rw [hnext] at hsim
            have hlen : ((e :: es).filter m.isAppend).length
                ≤ (es.filter m.isAppend).length + 1 := by
              rw [List.filter_cons]
              split
              · exact Nat.le_refl _
              · exact Nat.le_succ _
            have hfiles : (m.roller q.logger).files = (m.roller o.logger).files := by rw [hsim]
            have hroll : (m.roller q.logger).lastRoll = (m.roller o.logger).lastRoll := by rw [hsim]
            have hplus : (m.roller q.logger).count = (m.roller o.logger).count + 1 := by rw [hsim]
            rw [← hfiles]
            exact ih hsound (hroll ▸ hday) hrun (by omega) (hlater q hq)

/-- A logger that is a `Roller` and has been constructed soundly rolls daily. -/
theorem rollsDaily (hm : m.Simulates) {s : σ} {now : ℤ} (h : m.Sound ⟨s, [now]⟩) :
    m.RollsDaily s now := by
  intro before o hbefore
  have hsound : m.Sound o := run_inv (fun _ _ _ hi hn => sound_next hm hi hn) h hbefore
  refine ⟨hsound.current, ?_⟩
  intro window p hrun hmany hlater
  apply opens_of_later hm hsound.roller rfl hrun (Nat.le_trans hmany (Nat.le_add_right _ _))
  apply along_of_inv (I := fun _ => True) _ (fun _ _ _ _ _ _ => trivial) trivial hlater
  intro q e _ hread
  exact hread _ hsound.current.lastRoll

end RollMachine

/-! ## The two loggers -/

section Loggers

/-- What a `Logger`'s rolls depend on. -/
def Logger.roller (l : Logger α) : Roller :=
  ⟨l.count_, l.startOfPeriod_, l.lastRoll_, l.files.length⟩

/-- What an `AsyncLogger`'s rolls depend on. -/
def AsyncLogger.roller (l : AsyncLogger α) : Roller :=
  ⟨l.count_, l.startOfPeriod_, l.lastRoll_, l.files.length⟩

/-- The open file after the write of a call. -/
def LoggerCall.written (call : LoggerCall α) (logFile_ : Option (LogFile α)) :
    Option (LogFile α) :=
  logFile_.bind fun logFile => logFile.append call.logLine call.n call.results

/-- What `append_unlocked` reads from the clock. -/
def Logger.readings (l : Logger α) (call : LoggerCall α) : List ℤ :=
  match call.written l.logFile_ with
  | none => []
  | some logFile =>
      if 0 < l.rollSize_ ∧ l.rollSize_ < logFile.writtenBytes_ then [call.now]
      else if kCheckTimeRoll_ < l.count_ then
        if period call.now ≠ l.startOfPeriod_ then [call.now, call.later] else [call.now]
      else []

/-- What `append_unlocked` reads from the clock. -/
def AsyncLogger.readings (l : AsyncLogger α) (call : LoggerCall α) : List ℤ :=
  match call.written l.logFile_ with
  | none => []
  | some logFile =>
      if l.rollSize_ < logFile.writtenBytes_ then [call.now]
      else if kCheckTimeRoll_ < l.count_ then
        if period call.now ≠ l.startOfPeriod_ then [call.now, call.later] else [call.now]
      else []

/-- A full file leaves the counter of a `Logger` alone. -/
def Logger.rollerCall (l : Logger α) (call : LoggerCall α) : RollerCall :=
  match call.written l.logFile_ with
  | none => .idle
  | some logFile =>
      .append (decide (0 < l.rollSize_ ∧ l.rollSize_ < logFile.writtenBytes_)) false call.now
        call.later

/-- A full file resets the counter of an `AsyncLogger`. -/
def AsyncLogger.rollerCall (l : AsyncLogger α) (call : LoggerCall α) : RollerCall :=
  match call.written l.logFile_ with
  | none => .idle
  | some logFile =>
      .append (decide (l.rollSize_ < logFile.writtenBytes_)) true call.now call.later

/-- The calls of a `Logger`. -/
def Logger.rolls : RollMachine (Logger α) (LoggerEvent α) where
  step l
    | .append call => l.append_unlocked call.logLine call.n call.results call.now call.later
    | .flush => l.flush
  isAppend
    | .append _ => true
    | .flush => false
  readings l
    | .append call => l.readings call
    | .flush => []
  roller := Logger.roller
  call l
    | .append call => l.rollerCall call
    | .flush => .idle

/-- A call of an `AsyncLogger`: what `AsyncLogging` does with it, in any order. -/
inductive AsyncLoggerEvent (α : Type*) where
  | append_unlocked (call : LoggerCall α)
  | appendToBuffer_locked (logline : List α)
  | swapBuffersToWrite_locked
  | recycle

/-- The calls of an `AsyncLogger`. -/
def AsyncLogger.rolls : RollMachine (AsyncLogger α) (AsyncLoggerEvent α) where
  step l
    | .append_unlocked call =>
        l.append_unlocked call.logLine call.n call.results call.now call.later
    | .appendToBuffer_locked logline => appendToBuffer_locked l logline
    | .swapBuffersToWrite_locked => swapBuffersToWrite_locked l
    | .recycle => appendBuffers_unlocked.recycle l
  isAppend
    | .append_unlocked _ => true
    | _ => false
  readings l
    | .append_unlocked call => l.readings call
    | _ => []
  roller := AsyncLogger.roller
  call l
    | .append_unlocked call => l.rollerCall call
    | _ => .idle

end Loggers

/-! ## They are rollers -/

section Simulation

/-- A file takes the place of the open one. -/
theorem length_files {closed : List (LogFile α)} {logFile_ : Option (LogFile α)}
    {f : LogFile α} (f' : LogFile α) (h : logFile_ = some f) :
    (closed ++ (some f').toList).length = (closed ++ logFile_.toList).length := by
  rw [h, List.length_append, List.length_append]
  rfl

theorem Logger.roller_rollFile (l : Logger α) (now : ℤ) :
    (l.rollFile now).roller = l.roller.roll now := by
  unfold rollFile Roller.roll
  by_cases hlt : l.lastRoll_ < now
  · have hlt' : l.roller.lastRoll < now := hlt
    rw [if_pos hlt, if_pos hlt']
    unfold roller files
    rw [List.length_append]
    rfl
  · have hlt' : ¬ l.roller.lastRoll < now := hlt
    rw [if_neg hlt, if_neg hlt']

theorem AsyncLogger.roller_rollFile (l : AsyncLogger α) (now : ℤ) :
    (l.rollFile now).roller = l.roller.roll now := by
  unfold rollFile Roller.roll
  by_cases hlt : l.lastRoll_ < now
  · have hlt' : l.roller.lastRoll < now := hlt
    rw [if_pos hlt, if_pos hlt']
    unfold roller files
    rw [List.length_append]
    rfl
  · have hlt' : ¬ l.roller.lastRoll < now := hlt
    rw [if_neg hlt, if_neg hlt']

/-- **`Logger::append_unlocked` is a call of the roller.** -/
theorem Logger.append_roller {l l' : Logger α} {call : LoggerCall α}
    (h : l.append_unlocked call.logLine call.n call.results call.now call.later = some l') :
    (∃ full, l.rollerCall call = .append full false call.now call.later)
      ∧ l'.roller = l.roller.step (l.rollerCall call)
      ∧ l.readings call = l.roller.readings (l.rollerCall call) := by
  unfold append_unlocked at h
  cases hfile : l.logFile_ with
  | none =>
      rw [hfile] at h
      cases h
  | some f =>
      rw [hfile] at h
      obtain ⟨f', hf', rfl⟩ := Option.map_eq_some_iff.mp h
      have hwritten : call.written l.logFile_ = some f' := by
        rw [hfile]
        exact hf'
      have hone : ∀ (count : ℕ) (lastFlush : ℤ) (g : LogFile α),
          ({ l with count_ := count, lastFlush_ := lastFlush, logFile_ := some g } : Logger α).roller
            = { l.roller with count := count } := by
        intro count lastFlush g
        unfold roller files
        dsimp only
        rw [length_files g hfile]
      have hroll : ∀ (count : ℕ) (t : ℤ),
          (rollFile { l with count_ := count, logFile_ := some f' } t).roller
            = ({ l.roller with count := count } : Roller).roll t := by
        intro count t
        rw [roller_rollFile]
        exact congrArg (Roller.roll · t) (hone count l.lastFlush_ f')
      unfold rollerCall readings
      rw [hwritten]
      refine ⟨⟨_, rfl⟩, ?_, ?_⟩
      · apply Roller.step_append roller false call.now call.later (hroll l.count_ call.now)
          (hroll 0 call.later) _ (hone (l.count_ + 1) l.lastFlush_ f')
        split
        · exact hone 0 call.now f'.flush
        · exact hone 0 l.lastFlush_ f'
      · unfold Roller.readings
        simp only [decide_eq_true_eq]
        rfl

/-- **`AsyncLogger::append_unlocked` is a call of the roller.** -/
theorem AsyncLogger.append_roller {l l' : AsyncLogger α} {call : LoggerCall α}
    (h : l.append_unlocked call.logLine call.n call.results call.now call.later = some l') :
    (∃ full, l.rollerCall call = .append full true call.now call.later)
      ∧ l'.roller = l.roller.step (l.rollerCall call)
      ∧ l.readings call = l.roller.readings (l.rollerCall call) := by
  unfold append_unlocked at h
  cases hfile : l.logFile_ with
  | none =>
      rw [hfile] at h
      cases h
  | some f =>
      rw [hfile] at h
      obtain ⟨f', hf', rfl⟩ := Option.map_eq_some_iff.mp h
      have hwritten : call.written l.logFile_ = some f' := by
        rw [hfile]
        exact hf'
      have hone : ∀ count : ℕ,
          ({ l with count_ := count, logFile_ := some f' } : AsyncLogger α).roller
            = { l.roller with count := count } := by
        intro count
        unfold roller files
        dsimp only
        rw [length_files f' hfile]
      have hroll : ∀ (count : ℕ) (t : ℤ),
          (rollFile { l with count_ := count, logFile_ := some f' } t).roller
            = ({ l.roller with count := count } : Roller).roll t := by
        intro count t
        rw [roller_rollFile]
        exact congrArg (Roller.roll · t) (hone count)
      unfold rollerCall readings
      rw [hwritten]
      refine ⟨⟨_, rfl⟩, ?_, ?_⟩
      · exact Roller.step_append roller true call.now call.later (hroll 0 call.now)
          (hroll 0 call.later) (hone 0) (hone (l.count_ + 1))
      · unfold Roller.readings
        simp only [decide_eq_true_eq]
        rfl

theorem Logger.simulates : (Logger.rolls : RollMachine (Logger α) _).Simulates where
  step := by
    intro l e l' h
    cases e with
    | append call => exact (append_roller h).2.1
    | flush =>
        obtain ⟨f, hfile, rfl⟩ := Option.map_eq_some_iff.mp h
        show Roller.mk _ _ _ _ = Roller.mk _ _ _ _
        unfold files
        dsimp only
        rw [length_files _ hfile]
  readings := by
    intro l e l' h
    cases e with
    | append call => exact (append_roller h).2.2
    | flush => rfl
  append := by
    intro l e l' h happend
    cases e with
    | append call =>
        obtain ⟨full, hcall⟩ := (append_roller h).1
        exact ⟨full, false, call.now, call.later, hcall⟩
    | flush => cases happend

/-- The other calls do not concern the files. -/
theorem AsyncLogger.roller_bufferAppend (l : AsyncLogger α) (buffer : BufferPtr) (buf : List α) :
    (l.bufferAppend buffer buf).roller = l.roller := by
  rw [bufferAppend_eq]
  rfl

theorem AsyncLogger.roller_append {l l' : AsyncLogger α} {logline : List α}
    (h : appendToBuffer_locked l logline = some l') : l'.roller = l.roller := by
  unfold appendToBuffer_locked at h
  cases hcurrent : l.currentBuffer_ with
  | none =>
      rw [hcurrent] at h
      cases h
  | some current =>
      rw [hcurrent] at h
      obtain rfl := Option.some.inj h
      have hfill : (appendToBuffer_locked.fill l current).1.roller = l.roller := by
        unfold appendToBuffer_locked.fill
        cases hnext : l.nextBuffer_ with
        | none => rfl
        | some next => rfl
      show AsyncLogger.roller (if _ then _ else _) = _
      split
      · exact roller_bufferAppend l current logline
      · rw [roller_bufferAppend]
        exact hfill

theorem AsyncLogger.roller_swap {l l' : AsyncLogger α}
    (h : swapBuffersToWrite_locked l = some l') : l'.roller = l.roller := by
  unfold swapBuffersToWrite_locked at h
  cases hcurrent : l.currentBuffer_ with
  | none =>
      rw [hcurrent] at h
      cases h
  | some current =>
      rw [hcurrent] at h
      obtain rfl := Option.some.inj h
      show AsyncLogger.roller (if _ then _ else _) = _
      split
      · show AsyncLogger.roller (if _ then _ else _) = _
        split <;> rfl
      · show AsyncLogger.roller (if _ then _ else _) = _
        split <;> rfl

theorem AsyncLogger.roller_takeBack {l l' : AsyncLogger α} {spare : Option BufferPtr}
    {b : BufferPtr} (h : takeBack l spare = some (l', b)) :
    l'.roller = l.roller := by
  unfold takeBack at h
  split at h
  · cases h
    rfl
  · split at h
    · cases h
    · cases h
      rfl

theorem AsyncLogger.roller_recycle {l l' : AsyncLogger α}
    (h : appendBuffers_unlocked.recycle l = some l') : l'.roller = l.roller := by
  unfold appendBuffers_unlocked.recycle at h
  obtain ⟨⟨l1, b1⟩, h1, h⟩ := Option.bind_eq_some_iff.mp h
  obtain ⟨⟨l2, b2⟩, h2, h⟩ := Option.bind_eq_some_iff.mp h
  have hr1 : l1.roller = l.roller := roller_takeBack h1
  have hr2 : l2.roller = l1.roller :=
    (roller_takeBack (l := { l1 with buffer1_ := some b1 }) h2).trans rfl
  cases hfile : l2.logFile_ with
  | none => simp only [hfile, reduceCtorEq] at h
  | some f =>
      simp only [hfile, Option.some.injEq] at h
      rw [← hr1, ← hr2, ← h]
      unfold roller files
      dsimp only
      rw [length_files _ hfile]

theorem AsyncLogger.simulates : (AsyncLogger.rolls : RollMachine (AsyncLogger α) _).Simulates where
  step := by
    intro l e l' h
    cases e with
    | append_unlocked call => exact (append_roller h).2.1
    | appendToBuffer_locked logline => exact roller_append h
    | swapBuffersToWrite_locked => exact roller_swap h
    | recycle => exact roller_recycle h
  readings := by
    intro l e l' h
    cases e with
    | append_unlocked call => exact (append_roller h).2.2
    | appendToBuffer_locked logline => rfl
    | swapBuffersToWrite_locked => rfl
    | recycle => rfl
  append := by
    intro l e l' h happend
    cases e with
    | append_unlocked call =>
        obtain ⟨full, hcall⟩ := (append_roller h).1
        exact ⟨full, true, call.now, call.later, hcall⟩
    | appendToBuffer_locked logline => cases happend
    | swapBuffersToWrite_locked => cases happend
    | recycle => cases happend

end Simulation

/-! ## The result -/

/-- A logger whose first file was opened at `now`. -/
theorem RollMachine.sound_init {σ ε : Type*} {m : RollMachine σ ε} {s : σ} {now : ℤ}
    (hnow : 0 < now) (h : m.roller s = ⟨0, Logger.period now, now, 1⟩) :
    m.Sound ⟨s, [now]⟩ := by
  refine ⟨?_, ?_⟩
  · rw [h]
    exact ⟨Nat.zero_le _, hnow, rfl⟩
  · refine ⟨?_, ?_, ?_, List.pairwise_singleton _ _⟩
    · rw [h]
      rfl
    · rw [h]
      rfl
    · rw [h]
      exact Roller.period_eq hnow

/-- **Both loggers roll daily.** From a constructor that reads a positive clock,
whatever the rolling size, the lines, the results of `fwrite` and the clock, and
whatever else is called in between: the stored times are those of the current
file, whose opening is later than that of every file before; and of 1026
consecutive `append_unlocked` whose readings are on a later day than the opening
of the current file one opens a new file. -/
theorem rolls_daily (rollSize : ℕ) (flushInterval now : ℤ) (hnow : 0 < now) :
    (Logger.rolls : RollMachine (Logger α) _).RollsDaily
        (Logger.make rollSize flushInterval now) now
      ∧ (AsyncLogger.rolls : RollMachine (AsyncLogger α) _).RollsDaily
        (AsyncLogger.make rollSize now) now := by
  constructor
  · apply RollMachine.rollsDaily Logger.simulates
    apply RollMachine.sound_init hnow
    show (Logger.rollFile _ now).roller = _
    rw [Logger.roller_rollFile]
    exact if_pos hnow
  · apply RollMachine.rollsDaily AsyncLogger.simulates
    apply RollMachine.sound_init hnow
    show (AsyncLogger.rollFile _ now).roller = _
    rw [AsyncLogger.roller_rollFile]
    exact if_pos hnow

/-- A clock that has just begun. -/
theorem rolls_daily_one :
    (Logger.rolls : RollMachine (Logger ℕ) _).RollsDaily (Logger.make 1000 3 1) 1
      ∧ (AsyncLogger.rolls : RollMachine (AsyncLogger ℕ) _).RollsDaily (AsyncLogger.make 1000 1) 1 :=
  rolls_daily 1000 3 1 (by decide)

end Libiak.Log
