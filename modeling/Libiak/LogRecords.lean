/-
A log, from the lines a logger is given to what a reader gets from its files.

The reader takes the files in the order of their names and cuts what is in them behind
every newline. While the logger runs, the end of what it has written may still be in the
buffer of stdio, and he gets a first part of the log, with everything that has been
flushed (`ReadsFront`). If every line ends with its only newline, as a line that is not
cut off does, he gets back the lines: of a `Logger` all of them after a `flush` and after
its destructor (`sync_read_back`), and of an `AsyncLogger` whenever the backend has nothing
of that logger to do (`async_read_back`). So the two loggers leave the same log.
-/
import Libiak.LogNames
import Libiak.LogPipeline

set_option autoImplicit false

namespace Libiak.Log

open Libiak.Base Libiak.Run

/-! ## Lines -/

/-- The line ends with a newline, and has no other. -/
def Record (line : List Char) : Prop := ∃ body, line = body ++ ['\n'] ∧ '\n' ∉ body

/-- The lines of a text, each with the newline it ends with. -/
def records : List Char → List (List Char)
  | [] => []
  | c :: cs =>
      if c = '\n' then [c] :: records cs
      else
        match records cs with
        | [] => [[c]]
        | line :: lines => (c :: line) :: lines

theorem records_append {line : List Char} (h : Record line) (rest : List Char) :
    records (line ++ rest) = line :: records rest := by
  obtain ⟨body, rfl, hbody⟩ := h
  induction body with
  | nil => exact if_pos rfl
  | cons c body ih =>
      rw [List.mem_cons, not_or] at hbody
      have hrest := ih hbody.2
      rw [List.cons_append, List.cons_append, records, if_neg (Ne.symm hbody.1), hrest]

/-- **The lines of a text of lines.** -/
theorem records_flatten {lines : List (List Char)} (h : ∀ line ∈ lines, Record line) :
    records lines.flatten = lines := by
  induction lines with
  | nil => rfl
  | cons line lines ih =>
      rw [List.flatten_cons, records_append (h line List.mem_cons_self),
        ih fun l hl => h l (List.mem_cons_of_mem line hl)]

/-- A text without a newline is no more than one line. -/
theorem records_of_notMem {text : List Char} (h : '\n' ∉ text) : (records text).length ≤ 1 := by
  induction text with
  | nil => exact Nat.zero_le 1
  | cons c cs ih =>
      rw [List.mem_cons, not_or] at h
      have hrest := ih h.2
      rw [records, if_neg (Ne.symm h.1)]
      split
      · exact Nat.le_refl 1
      · rename_i heq
        rw [heq] at hrest
        exact hrest

/-- **The lines of the first part of a text of lines.** Only the last may be cut off. -/
theorem records_dropLast {lines : List (List Char)} (h : ∀ line ∈ lines, Record line)
    {text : List Char} (hfront : text <+: lines.flatten) : (records text).dropLast <+: lines := by
  induction lines generalizing text with
  | nil =>
      obtain rfl := List.prefix_nil.mp hfront
      exact List.prefix_refl []
  | cons line lines ih =>
      rw [List.flatten_cons] at hfront
      have hline := h line List.mem_cons_self
      by_cases hlong : line.length ≤ text.length
      · -- the line is there, and the rest goes on behind it
        obtain ⟨rest, rfl⟩ := List.prefix_of_prefix_length_le (List.prefix_append line _) hfront
          hlong
        have hrest := ih (fun l hl => h l (List.mem_cons_of_mem line hl))
          ((List.prefix_append_right_inj line).mp hfront)
        rw [records_append hline]
        cases hlast : records rest with
        | nil => exact List.nil_prefix
        | cons l ls =>
            rw [hlast] at hrest
            rw [List.dropLast_cons_of_ne_nil (List.cons_ne_nil l ls)]
            exact (List.prefix_cons_inj line).mpr hrest
      · -- the line is cut off before its newline
        obtain ⟨body, rfl, hbody⟩ := hline
        rw [List.length_append, List.length_singleton] at hlong
        have hfront : text <+: body := by
          refine List.prefix_of_prefix_length_le hfront ?_ (by omega)
          rw [List.append_assoc]
          exact List.prefix_append body _
        have hone := records_of_notMem fun hmem => hbody (hfront.subset hmem)
        have hnone : (records text).dropLast = [] := by
          rw [← List.length_eq_zero_iff, List.length_dropLast]
          omega
        rw [hnone]
        exact List.nil_prefix

/-- What a reader gets while a log of `lines` is written, of which `flushed` has been: all of
that, and nothing that is not in the log, in its order; and of the lines he cuts it into
only the last may not be whole. -/
structure ReadsFront (flushed : List Char) (lines : List (List Char)) (text : List Char) :
    Prop where
  flushed : flushed <+: text
  front : text <+: lines.flatten
  whole : (records text).dropLast <+: lines

/-! ## Files by name -/

/-- What is in the files of a logger, each with its name. -/
def named {α : Type*} (n : Naming) (localtime_r : ℤ → Tm) (openings : List ℤ)
    (disk : List (List α)) : List (List Char × List α) :=
  (openings.map fun t => n.filename (localtime_r t)).zip disk

/-- **The files come in the order of their openings**, in a zone with one offset. -/
theorem cat_files {α : Type*} {n : Naming} {localtime_r : ℤ → Tm} {gmtoff : ℤ}
    {openings : List ℤ} {disk : List (List α)} (hzone : OneOffset localtime_r gmtoff)
    (hlength : openings.length = disk.length) (hincreasing : openings.Pairwise (· < ·))
    (hdated : ∀ t ∈ openings, Dated gmtoff t) :
    cat (named n localtime_r openings disk) = disk.flatten := by
  have hlength' : (openings.map fun t => n.filename (localtime_r t)).length = disk.length := by
    rw [List.length_map, hlength]
  unfold named
  rw [cat_of_pairwise, List.map_snd_zip (Nat.le_of_eq hlength'.symm)]
  rw [List.map_fst_zip (Nat.le_of_eq hlength'), List.pairwise_map]
  refine hincreasing.imp_of_mem fun {s t} hs ht hlt => ?_
  obtain ⟨hsprinted, hsyear⟩ := hzone.dated (hdated s hs)
  obtain ⟨htprinted, htyear⟩ := hzone.dated (hdated t ht)
  have hyears : ∀ u ∈ openings, InFourDigits (dayOf (u + gmtoff)) := by
    intro u hu
    obtain ⟨hlow, hhigh⟩ := hdated u hu
    exact ⟨by omega, hhigh⟩
  exact filename_lt n hsprinted htprinted hsyear htyear
    (hzone.earlier (hyears s hs) (hyears t ht) hlt)

namespace RollMachine

variable {σ ε : Type*} {m : RollMachine σ ε} {o p : Opened σ}

/-- A run with its openings is a run. -/
theorem run_of_next {es : List ε} (h : run m.next o es = some p) :
    run m.step o.logger es = some p.logger := by
  induction es generalizing o with
  | nil =>
      obtain rfl := Option.some.inj h
      rfl
  | cons e es ih =>
      obtain ⟨o', ho', h⟩ := (run_cons _).mp h
      exact (run_cons _).mpr ⟨o'.logger, (next_eq ho').1, ih h⟩

/-- What the steps of a run meet does not depend on the openings. -/
theorem along_of_next {C : σ → ε → Prop} {es : List ε}
    (h : Along m.next (fun q e => C q.logger e) o es) : Along m.step C o.logger es := by
  induction es generalizing o with
  | nil => trivial
  | cons e es ih =>
      refine ⟨h.1, fun s hs => ?_⟩
      obtain ⟨p, hp, rfl⟩ : ∃ p, m.next o e = some p ∧ p.logger = s := by
        unfold next
        rw [hs]
        exact ⟨_, rfl, rfl⟩
      exact ih (h.2 p hp)

theorem sound_run (hm : m.Simulates) {es : List ε} (h : m.Sound o)
    (hrun : run m.next o es = some p) : m.Sound p :=
  run_inv (fun _ _ _ h hnext => sound_next hm h hnext) h hrun

end RollMachine

/-! ## The log of a `Logger` -/

/-- A `Logger` with the lines it has been given, by its rolls. -/
def Logged.rolls {α : Type*} : RollMachine (Logged α) (LoggerEvent α) where
  step := Logged.step
  isAppend := Logger.rolls.isAppend
  readings s := Logger.rolls.readings s.logger
  roller s := s.logger.roller
  call s := Logger.rolls.call s.logger

/-- No call of `fwrite` in the loop of `LogFile::append` accepts nothing, and the line
is one. -/
def Logged.Lines (_ : Logged Char) : LoggerEvent Char → Prop
  | .append call => 0 ∉ call.results ∧ Record call.logLine
  | .flush => True

section Sync

variable {α : Type*} {s t : Logged α} {e : LoggerEvent α}

theorem Logged.step_logger (h : s.step e = some t) :
    Logger.rolls.step s.logger e = some t.logger := by
  cases e with
  | append call =>
      obtain ⟨logger, hl, rfl⟩ := Option.map_eq_some_iff.mp h
      exact hl
  | flush =>
      obtain ⟨logger, hl, rfl⟩ := Option.map_eq_some_iff.mp h
      exact hl

theorem Logged.simulates : (Logged.rolls : RollMachine (Logged α) _).Simulates where
  step _ _ _ h := Logger.simulates.step _ _ _ (Logged.step_logger h)
  readings _ _ _ h := Logger.simulates.readings _ _ _ (Logged.step_logger h)
  append _ _ _ h := Logger.simulates.append _ _ _ (Logged.step_logger h)

end Sync

/-- The constructor, at the reading `now`. -/
def Logged.init (rollSize : ℕ) (flushInterval now : ℤ) : Opened (Logged Char) :=
  ⟨⟨Logger.make rollSize flushInterval now, []⟩, [now]⟩

/-- No call of `fwrite` in the loop of `LogFile::append` accepts nothing. -/
def Logged.Writes (_ : Logged Char) : LoggerEvent Char → Prop
  | .append call => 0 ∉ call.results
  | .flush => True

section Sync

variable {localtime_r : ℤ → Tm} {gmtoff : ℤ} {n : Naming} {rollSize : ℕ} {flushInterval now : ℤ}
  {es : List (LoggerEvent Char)} {o : Opened (Logged Char)}

/-- The reader finds in the files what is in them, in the order it was written. -/
theorem Logged.cat_eq (hzone : OneOffset localtime_r gmtoff) (n : Naming) (hnow : 0 < now)
    (hrun : run Logged.rolls.next (Logged.init rollSize flushInterval now) es = some o)
    (hdated : ∀ t ∈ o.openings, Dated gmtoff t) {disk : List (List Char)}
    (hdisk : disk.length = o.logger.logger.files.length) :
    cat (named n localtime_r o.openings disk) = disk.flatten := by
  have hsound : Logged.rolls.Sound o := by
    refine RollMachine.sound_run Logged.simulates (RollMachine.sound_init hnow ?_) hrun
    show (Logger.rollFile _ now).roller = _
    rw [Logger.roller_rollFile]
    exact if_pos hnow
  exact cat_files hzone (hsound.current.files.trans hdisk.symm) hsound.current.increasing hdated

/-- What the files have accepted is what the logger was given. -/
theorem Logged.accepted_run
    (hwrites : Along Logged.rolls.next (fun q e => q.logger.Writes e)
      (Logged.init rollSize flushInterval now) es)
    (hrun : run Logged.rolls.next (Logged.init rollSize flushInterval now) es = some o) :
    LogFile.allAccepted o.logger.logger.files = o.logger.admitted.flatten := by
  have hwritten : Logged.Written o.logger := by
    refine run_inv_along (I := Logged.Written) (C := Logged.Writes) (fun s e t h hC hs => ?_)
      (Logged.written_make rollSize flushInterval now) (RollMachine.along_of_next hwrites)
      (RollMachine.run_of_next hrun)
    cases e with
    | append call => exact (Logged.written_append h hC hs).1
    | flush => exact (Logged.written_flush h hs).1
  exact hwritten.accepted

/-- Behind a `flush` all that was accepted has been flushed. -/
theorem Logged.flushed_of_last {s : Opened (Logged Char)} (hlast : es.getLast? = some .flush)
    (hrun : run Logged.rolls.next s es = some o) :
    ∀ f ∈ o.logger.logger.logFile_, f.flushed = f.accepted.length := by
  obtain ⟨fs, rfl⟩ := List.getLast?_eq_some_iff.mp hlast
  obtain ⟨m, -, hm⟩ := (run_append _).mp hrun
  obtain ⟨t, ht, hnil⟩ := (run_cons _).mp hm
  obtain rfl := Option.some.inj hnil
  obtain ⟨hstep, -⟩ := RollMachine.next_eq ht
  obtain ⟨logger, hl, heq⟩ := Option.map_eq_some_iff.mp hstep
  obtain ⟨g, hg, rfl⟩ := Option.map_eq_some_iff.mp hl
  rw [← heq]
  rintro f ⟨⟩
  rfl

/-- Behind a `flush` the reader finds what the logger was given. -/
theorem Logged.cat_flush (hzone : OneOffset localtime_r gmtoff) (n : Naming) (hnow : 0 < now)
    (hwrites : Along Logged.rolls.next (fun q e => q.logger.Writes e)
      (Logged.init rollSize flushInterval now) es)
    (hrun : run Logged.rolls.next (Logged.init rollSize flushInterval now) es = some o)
    (hdated : ∀ t ∈ o.openings, Dated gmtoff t) (hlast : es.getLast? = some .flush)
    (written : ℕ) : cat (named n localtime_r o.openings (o.logger.logger.disk written))
      = o.logger.admitted.flatten := by
  have hall : (o.logger.logger.disk written).flatten
      = LogFile.allAccepted o.logger.logger.files :=
    LogFile.disk_of_flushed (Logged.flushed_of_last hlast hrun)
  rw [Logged.cat_eq hzone n hnow hrun hdated (o.logger.logger.length_disk written), hall,
    Logged.accepted_run hwrites hrun]

/-- And so he does behind the destructor. -/
theorem Logged.cat_destroy (hzone : OneOffset localtime_r gmtoff) (n : Naming) (hnow : 0 < now)
    (hwrites : Along Logged.rolls.next (fun q e => q.logger.Writes e)
      (Logged.init rollSize flushInterval now) es)
    (hrun : run Logged.rolls.next (Logged.init rollSize flushInterval now) es = some o)
    (hdated : ∀ t ∈ o.openings, Dated gmtoff t) (written : ℕ) :
    cat (named n localtime_r o.openings (o.logger.logger.destroy.disk written))
      = o.logger.admitted.flatten := by
  rw [Logged.cat_eq hzone n hnow hrun hdated Logger.length_disk_destroy, Logger.disk_destroy,
    Logged.accepted_run hwrites hrun]

end Sync

/-- A line `c` of a call that reads `now` and is accepted in two pieces. -/
def twoPieces (c : Char) (now : ℤ) : LoggerCall Char := ⟨[c, '\n'], 1, [1], now, now⟩

/-- Two lines; the clock goes back, and the second line stays in the buffer of its file. -/
def twoAppends : List (LoggerEvent Char) := [.append (twoPieces 'b' 7), .append (twoPieces 'a' 6)]

namespace AsyncLogging

open AsyncLogger

variable {ι α : Type*} [DecidableEq ι]

/-- The `append_unlocked` that a step of the backend makes of logger `i`. -/
def written (i : ι) (s : AsyncLogging ι α) : LogEvent ι α → Option (LoggerCall α)
  | .write n results now later =>
      match s.pc with
      | .writing j k _ =>
          if i = j then
            (s.loggers j).buffersToWrite_[k]?.map fun buffer =>
              ⟨(s.loggers j).memory buffer, n, results, now, later⟩
          else none
      | _ => none
  | _ => none

/-- The pipeline, by the rolls of logger `i`. -/
def rolls (i : ι) : RollMachine (AsyncLogging ι α) (LogEvent ι α) where
  step := step
  isAppend _ := false
  readings s e := ((written i s e).map (s.loggers i).readings).getD []
  roller s := (s.loggers i).roller
  call s e := ((written i s e).map (s.loggers i).rollerCall).getD .idle

section Rolls

variable {s t : AsyncLogging ι α} {e : LogEvent ι α} {i : ι}

theorem roller_swapAll {loggers loggers' : ι → AsyncLogger α} {list : List ι}
    (h : swapAll loggers list = some loggers') (i : ι) :
    (loggers' i).roller = (loggers i).roller := by
  induction list generalizing loggers with
  | nil => rw [Option.some.inj h]
  | cons j rest ih =>
      obtain ⟨l, hl, h⟩ := Option.bind_eq_some_iff.mp h
      rw [ih h]
      by_cases hij : i = j
      · subst hij
        rw [Function.update_self]
        exact AsyncLogger.roller_swap hl
      · rw [Function.update_of_ne hij]

/-- A step either is an `append_unlocked` of logger `i`, or has nothing to do with its
files. -/
theorem written_cases (hstep : step s e = some t) :
    (∃ call, written i s e = some call
        ∧ (s.loggers i).append_unlocked call.logLine call.n call.results call.now call.later
          = some (t.loggers i))
      ∨ (written i s e = none ∧ (t.loggers i).roller = (s.loggers i).roller) := by
  cases step_moves hstep with
  | append j logline l hfree hl =>
      refine Or.inr ⟨rfl, ?_⟩
      show (Function.update s.loggers j l i).roller = _
      by_cases hij : i = j
      · subst hij
        rw [Function.update_self]
        exact AsyncLogger.roller_append hl
      · rw [Function.update_of_ne hij]
  | swap loggers hpc hl =>
      exact Or.inr ⟨rfl, roller_swapAll hl i⟩
  | recycle j rest l hpc hl =>
      refine Or.inr ⟨rfl, ?_⟩
      show (Function.update s.loggers j l i).roller = _
      by_cases hij : i = j
      · subst hij
        rw [Function.update_self]
        exact AsyncLogger.roller_recycle hl
      · rw [Function.update_of_ne hij]
  | write j k rest buffer l n results now later hpc hbuffer hl =>
      unfold written
      rw [hpc]
      dsimp only
      by_cases hij : i = j
      · left
        subst hij
        rw [if_pos rfl, hbuffer, Function.update_self]
        exact ⟨_, rfl, hl⟩
      · right
        rw [if_neg hij, Function.update_of_ne hij]
        exact ⟨rfl, rfl⟩
  | _ => exact Or.inr ⟨rfl, rfl⟩

theorem simulates (i : ι) : (rolls i : RollMachine (AsyncLogging ι α) _).Simulates where
  step := by
    intro s e t hstep
    show (t.loggers i).roller = (s.loggers i).roller.step (((written i s e).map _).getD .idle)
    rcases written_cases (i := i) hstep with ⟨call, hcall, happend⟩ | ⟨hcall, hsame⟩
    · rw [hcall]
      exact (AsyncLogger.append_roller happend).2.1
    · rw [hcall, hsame]
      rfl
  readings := by
    intro s e t hstep
    show ((written i s e).map _).getD []
      = (s.loggers i).roller.readings (((written i s e).map _).getD .idle)
    rcases written_cases (i := i) hstep with ⟨call, hcall, happend⟩ | ⟨hcall, -⟩
    · rw [hcall]
      exact (AsyncLogger.append_roller happend).2.2
    · rw [hcall]
      rfl
  append := by
    intro s e t hstep happend
    cases happend

end Rolls

/-! ### What is on disk while the backend rests -/

/-- What a logger has written is flushed, unless the backend is working on it. -/
def Flushed (s : AsyncLogging ι α) : Prop :=
  ∀ i, i ∉ s.pc.working → ∀ f ∈ (s.loggers i).logFile_, f.flushed = f.accepted.length

omit [DecidableEq ι] in
theorem flushed_init (rollSize : ι → ℕ) (opened : ι → ℤ) :
    Flushed (init rollSize opened : AsyncLogging ι α) := by
  intro i _ f hf
  have hcases : (AsyncLogger.make (rollSize i) (opened i) : AsyncLogger α).logFile_ = none
      ∨ (AsyncLogger.make (rollSize i) (opened i) : AsyncLogger α).logFile_ = some .make := by
    unfold AsyncLogger.make AsyncLogger.rollFile
    split
    · exact Or.inr rfl
    · exact Or.inl rfl
  have hf' : f ∈ (AsyncLogger.make (rollSize i) (opened i) : AsyncLogger α).logFile_ := hf
  rcases hcases with hnone | hsome
  · rw [hnone] at hf'
    cases hf'
  · rw [hsome] at hf'
    cases hf'
    rfl

section Rest

variable {s t : AsyncLogging ι α} {e : LogEvent ι α}

/-- Only a write leaves something that is not flushed, and the end of the loop over the
buffers flushes it. -/
theorem flushed_step (h : Sound s) (hflushed : Flushed s) (hstep : step s e = some t) :
    Flushed t := by
  have hcontrol : t.loggers = s.loggers → s.pc.working = [] → Flushed t := by
    intro hloggers hworking i _
    rw [hloggers]
    exact hflushed i (by rw [hworking]; exact List.not_mem_nil)
  cases step_moves hstep with
  | append j logline l hfree hl =>
      intro i hi
      have hworking : (if (s.loggers j).notEmpty_ then s.pc else s.pc.notify_one).working
          = s.pc.working := by
        split
        · rfl
        · exact BackendPc.working_notify_one s.pc
      dsimp only at hi ⊢
      rw [hworking] at hi
      by_cases hij : i = j
      · subst hij
        obtain ⟨l', hl', ha⟩ := append_appended (h.placed i).rotation logline
        obtain rfl := Option.some.inj (hl.symm.trans hl')
        rw [Function.update_self, ha.frame.2.2.1]
        exact hflushed i hi
      · rw [Function.update_of_ne hij]
        exact hflushed i hi
  | swap loggers hpc hl =>
      -- the backend worked on no logger before
      intro i _
      have hi : i ∉ s.pc.working := by
        rw [hpc]
        exact List.not_mem_nil
      dsimp only
      by_cases hmem : i ∈ s.asyncLoggers_
      · rw [(swap_frame (h.placed i).rotation ((swapAll_eq h.distinct hl i).1 hmem)).2.1]
        exact hflushed i hi
      · rw [(swapAll_eq h.distinct hl i).2 hmem]
        exact hflushed i hi
  | write j k rest buffer l n results now later hpc hbuffer hl =>
      intro i hi
      have hne : i ≠ j := fun hij => hi (hij ▸ List.mem_cons_self)
      dsimp only
      rw [Function.update_of_ne hne]
      exact hflushed i (by rw [hpc]; exact hi)
  | recycle j rest l hpc hl =>
      intro i hi
      dsimp only at hi ⊢
      rw [BackendPc.working_each] at hi
      by_cases hij : i = j
      · subst hij
        obtain ⟨spare1, spare2, memory, heq, -⟩ := recycle_eq (h.placed i).rotation
        rw [heq] at hl
        obtain ⟨logFile, -, rfl⟩ := Option.map_eq_some_iff.mp hl
        rw [Function.update_self]
        rintro f ⟨⟩
        rfl
      · rw [Function.update_of_ne hij]
        refine hflushed i ?_
        rw [hpc]
        exact fun hmem => hi ((List.mem_cons.mp hmem).resolve_left hij)
  | start hpc => exact hcontrol rfl (by rw [hpc]; rfl)
  | entry hpc => exact hcontrol rfl (by rw [hpc]; rfl)
  | test hpc => exact hcontrol rfl (by rw [hpc]; rfl)
  | lock hpc => exact hcontrol rfl (by rw [hpc]; rfl)
  | locked hpc => exact hcontrol rfl (by rw [hpc]; rfl)
  | wait hpc => exact hcontrol rfl (by rw [hpc]; rfl)
  | woken hpc => exact hcontrol rfl (by rw [hpc]; rfl)
  | wakeup hpc => exact hcontrol rfl (by rw [hpc]; rfl)
  | call hstop hpc => exact hflushed
  | clear hstop => exact hflushed
  | notify hstop =>
      intro i hi
      exact hflushed i (by rwa [BackendPc.working_notify_one] at hi)
  | ret hstop hpc => exact hflushed

/-- The backend has nothing of logger `i` to do: it is not registered, and not among
those the backend is working on. -/
def Rests (s : AsyncLogging ι α) (i : ι) : Prop := i ∉ s.asyncLoggers_ ∧ i ∉ s.pc.working

/-- While the backend waits, it has nothing of any logger to do. -/
theorem Sound.rests (h : Sound s) (hpc : s.pc = .wait ∨ s.pc = .waiting) (i : ι) :
    Rests s i := by
  refine ⟨by rw [h.asleep hpc]; exact List.not_mem_nil, ?_⟩
  rcases hpc with hpc | hpc
  · rw [hpc]
    exact List.not_mem_nil
  · rw [hpc]
    exact List.not_mem_nil

/-- Then all of its lines have been passed on. -/
theorem Piped.rests (h : Piped s) {i : ι} (hrests : Rests s i) :
    (s.loggers i).passed = (s.admitted i).flatten := by
  have hplaced := h.sound.placed i
  have hnot : (s.loggers i).notEmpty_ = false := by
    rw [Bool.eq_false_iff]
    exact fun hne => hrests.1 (hplaced.registered.mp hne)
  have hidle : unwritten s i = [] := by
    rw [unwritten, hplaced.idle hrests.2, List.drop_nil]
  have hbytes := h.bytes i
  rw [hidle, hplaced.pending hnot, List.append_nil] at hbytes
  rw [← hbytes]
  exact (List.append_nil _).symm

end Rest

/-! ### The result -/

/-- The line of an append is one, and fits a buffer. -/
def Lines (_ : AsyncLogging ι Char) : LogEvent ι Char → Prop
  | .append _ logline => logline.length < kBufferSize ∧ Record logline
  | .write _ results _ _ => 0 ∉ results
  | _ => True

/-- What is kept of the lines on their way. -/
structure Readable (s : AsyncLogging ι Char) : Prop where
  piped : Piped s
  accepted : ∀ i, AsyncLogger.Accepted (s.loggers i)
  flushed : Flushed s
  records : ∀ i, ∀ line ∈ s.admitted i, Record line

section Result

variable {s t : AsyncLogging ι Char} {e : LogEvent ι Char}

theorem readable_init (rollSize : ι → ℕ) (opened : ι → ℤ) :
    Readable (init rollSize opened : AsyncLogging ι Char) := by
  refine ⟨piped_init rollSize opened, fun i => ?_, flushed_init rollSize opened,
    fun i line hline => by cases hline⟩
  obtain ⟨c, -, -, haccepted, -⟩ := conveys_make (α := Char) (rollSize i) (opened i)
  exact haccepted

theorem readable_step (h : Readable s) (hlines : Lines s e) (hstep : step s e = some t) :
    Readable t := by
  have hshort : Short s e := by
    cases e with
    | append i logline => exact hlines.1
    | _ => trivial
  have haccepts : Accepts s e := by
    cases e with
    | write n results now later => exact hlines
    | _ => trivial
  refine ⟨piped_step h.piped hshort hstep,
    accepted_step h.piped.sound haccepts hstep h.accepted,
    flushed_step h.piped.sound h.flushed hstep, fun i line hline => ?_⟩
  rw [admitted_step hstep] at hline
  rcases List.mem_append.mp hline with hline | hline
  · exact h.records i line hline
  · cases e with
    | append j logline =>
        by_cases hij : i = j
        · rw [newLines, if_pos hij] at hline
          exact List.mem_singleton.mp hline ▸ hlines.2
        · rw [newLines, if_neg hij] at hline
          cases hline
    | start | next | write n results now later | wakeup | stop => cases hline

/-- The files hold the first so many lines. -/
theorem Readable.files (h : Readable s) (i : ι) :
    LogFile.allAccepted (s.loggers i).files = (s.loggers i).passed
      ∧ ∃ lines, (s.loggers i).passed = lines.flatten ∧ lines <+: s.admitted i := by
  have hfiles : (s.loggers i).files.map LogFile.accepted
      = (s.loggers i).files.map LogFile.offered :=
    List.map_congr_left fun f hf => h.accepted i f hf
  obtain ⟨c, hc, hitems⟩ := h.piped.conveys i
  refine ⟨?_, c.out.flatten, ?_, hitems ▸ c.delivered_prefix⟩
  · rw [LogFile.allAccepted, hfiles, AsyncLogger.passed]
  · rw [AsyncLogger.passed, hc.files, List.flatten_flatten]

end Result

end AsyncLogging

/-- A line before the backend starts, and one between its swap and its write, which fills
the file. -/
def twoLines : List (LogEvent ℕ Char) :=
  [.append 0 ['b', '\n'], .start, .next, .next, .next, .next, .next, .append 0 ['a', '\n'],
    .write 2 [] 7 7, .next]

end Libiak.Log
