/-
How long a line of a `Logger` may stay in the buffer of its file.

`append_unlocked` does not flush on its own account, except that the check which a counter
lets through once in 1026 calls also looks at the time since the last flush. In between
only a new file, which closes the old one, and a call of `flush` bring the lines to the
disk. Every one of the three brings them all. So when more than `flushInterval_` has passed
since the last flush, 1026 further appends are enough (`flushed_within`); one less is not,
if the counter has just been reset (`onDisk_eq_of_few`).
-/
import Libiak.DailyRoll

set_option autoImplicit false

namespace Libiak.Log

open Libiak.Run

variable {α : Type*}

namespace Logger

/-- What `append_unlocked` does, one constructor for each way through it. The line is in
the file then. -/
inductive Appends (l : Logger α) (call : LoggerCall α) (f' : LogFile α) : Logger α → Prop where
  | full (hfull : 0 < l.rollSize_ ∧ l.rollSize_ < f'.writtenBytes_)
      (hread : call.now ∈ l.readings call) :
      Appends l call f' (rollFile { l with logFile_ := some f' } call.now)
  | newDay (hcount : kCheckTimeRoll_ < l.count_) (hread : call.later ∈ l.readings call) :
      Appends l call f' (rollFile { l with count_ := 0, logFile_ := some f' } call.later)
  | flush (hcount : kCheckTimeRoll_ < l.count_) :
      Appends l call f'
        { l with count_ := 0, lastFlush_ := call.now, logFile_ := some f'.flush }
  | early (hcount : kCheckTimeRoll_ < l.count_) (hread : call.now ∈ l.readings call)
      (hearly : ¬ l.flushInterval_ < call.now - l.lastFlush_) :
      Appends l call f' { l with count_ := 0, logFile_ := some f' }
  | count (hcount : l.count_ ≤ kCheckTimeRoll_) :
      Appends l call f' { l with count_ := l.count_ + 1, logFile_ := some f' }

section Append

variable {l l' : Logger α} {call : LoggerCall α}

theorem append_cases
    (h : l.append_unlocked call.logLine call.n call.results call.now call.later = some l') :
    ∃ f f', l.logFile_ = some f ∧ f.append call.logLine call.n call.results = some f'
      ∧ Appends l call f' l' := by
  unfold append_unlocked at h
  cases hfile : l.logFile_ with
  | none =>
      rw [hfile] at h
      cases h
  | some f =>
      rw [hfile] at h
      obtain ⟨f', hf', rfl⟩ := Option.map_eq_some_iff.mp h
      refine ⟨f, f', rfl, hf', ?_⟩
      have hreadings : l.readings call
          = if 0 < l.rollSize_ ∧ l.rollSize_ < f'.writtenBytes_ then [call.now]
            else if kCheckTimeRoll_ < l.count_ then
              if period call.now ≠ l.startOfPeriod_ then [call.now, call.later] else [call.now]
            else [] := by
        unfold readings LoggerCall.written
        rw [hfile, Option.bind_some, hf']
      dsimp only
      split
      · rename_i hfull
        rw [if_pos hfull] at hreadings
        exact .full hfull (by rw [hreadings]; exact List.mem_cons_self)
      · rename_i hfull
        rw [if_neg hfull] at hreadings
        split
        · rename_i hcount
          rw [if_pos hcount] at hreadings
          split
          · rename_i hperiod
            rw [if_pos hperiod] at hreadings
            exact .newDay hcount (by rw [hreadings]; simp)
          · rename_i hperiod
            rw [if_neg hperiod] at hreadings
            split
            · exact .flush hcount
            · rename_i hearly
              exact .early hcount (by rw [hreadings]; exact List.mem_cons_self) hearly
        · rename_i hcount
          exact .count (Nat.le_of_not_lt hcount)

end Append

/-! ## What is not lost -/

/-- From `l` to `l'` nothing that was accepted is taken back, and nothing that was on disk. -/
structure Keeps (l l' : Logger α) : Prop where
  accepted : LogFile.allAccepted l.files <+: LogFile.allAccepted l'.files
  onDisk : l.onDisk <+: l'.onDisk
  flushable : LogFile.Flushable l'.logFile_

theorem Keeps.trans {l l' l'' : Logger α} (h : Keeps l l') (h' : Keeps l' l'') : Keeps l l'' :=
  ⟨h.accepted.trans h'.accepted, h.onDisk.trans h'.onDisk, h'.flushable⟩

section Step

variable {l l' : Logger α} {f f' : LogFile α} {e : LoggerEvent α}

/-- A line is written to the file. -/
theorem keeps_write {logLine : List α} {n : ℕ} {results : List ℕ} (hfile : l.logFile_ = some f)
    (hwrite : f.append logLine n results = some f') (hflushable : LogFile.Flushable l.logFile_)
    (count : ℕ) : Keeps l { l with count_ := count, logFile_ := some f' } := by
  rw [hfile] at hflushable
  obtain ⟨hdisk, hflushable'⟩ := LogFile.onDisk_append l.closed hwrite hflushable
  obtain ⟨hmore, -⟩ := LogFile.append_grows hwrite
  refine ⟨?_, ?_, hflushable'⟩
  · unfold files
    dsimp only
    rw [hfile, Option.toList_some, Option.toList_some, LogFile.allAccepted_concat,
      LogFile.allAccepted_concat]
    exact (List.prefix_append_right_inj _).mpr hmore
  · unfold onDisk
    refine ⟨[], ?_⟩
    rw [List.append_nil, hfile]
    exact hdisk.symm

theorem keeps_rollFile (now : ℤ) (hfile : l.logFile_ = some f)
    (hflushable : LogFile.Flushable l.logFile_) : Keeps l (l.rollFile now) := by
  rw [hfile] at hflushable
  obtain ⟨hall, hdisk, hflushable'⟩ := rollFile_keeps now hfile hflushable
  exact ⟨⟨[], (List.append_nil _).trans hall.symm⟩, hdisk, hflushable'⟩

/-- `flush` brings everything that was accepted to the disk. -/
theorem keeps_flush {lastFlush : ℤ} {count : ℕ} (hfile : l.logFile_ = some f) :
    Keeps l { l with count_ := count, lastFlush_ := lastFlush, logFile_ := some f.flush }
      ∧ LogFile.allAccepted l.files
        <+: ({ l with count_ := count, lastFlush_ := lastFlush, logFile_ := some f.flush } :
          Logger α).onDisk := by
  have hall : ({ l with
      count_ := count, lastFlush_ := lastFlush, logFile_ := some f.flush } : Logger α).onDisk
        = LogFile.allAccepted l.files := by
    unfold onDisk files
    rw [hfile]
    exact LogFile.onDisk_flush_eq
  refine ⟨⟨?_, ?_, LogFile.flushable_flush⟩, ?_⟩
  · refine ⟨[], ?_⟩
    unfold files
    rw [List.append_nil, hfile, Option.toList_some, Option.toList_some,
      LogFile.allAccepted_concat, LogFile.allAccepted_concat]
    rfl
  · rw [hall]
    unfold onDisk files
    rw [hfile]
    exact LogFile.onDisk_le
  · exact ⟨[], (List.append_nil _).trans hall.symm⟩

/-- So does a new file. -/
theorem onDisk_rollFile {now : ℤ} (hfile : l.logFile_ = some f) (h : l.lastRoll_ < now) :
    (l.rollFile now).onDisk = LogFile.allAccepted l.files := by
  unfold rollFile
  rw [if_pos h]
  unfold onDisk files
  dsimp only
  rw [hfile, LogFile.onDisk_some]
  exact List.append_nil _

theorem step_keeps (h : rolls.step l e = some l') (hflushable : LogFile.Flushable l.logFile_) :
    Keeps l l' := by
  cases e with
  | append call =>
      obtain ⟨f, f', hfile, hwrite, happends⟩ := append_cases h
      have hwritten := fun count => keeps_write hfile hwrite hflushable count
      cases happends with
      | full hfull hread =>
          exact (hwritten l.count_).trans (keeps_rollFile _ rfl (hwritten l.count_).flushable)
      | newDay hcount hread =>
          exact (hwritten 0).trans (keeps_rollFile _ rfl (hwritten 0).flushable)
      | flush hcount =>
          exact (hwritten 0).trans (keeps_flush (l := { l with count_ := 0, logFile_ := some f' })
            rfl).1
      | early hcount hread hearly => exact hwritten 0
      | count hcount => exact hwritten (l.count_ + 1)
  | flush =>
      obtain ⟨f, hfile, rfl⟩ := Option.map_eq_some_iff.mp h
      exact (keeps_flush hfile).1

theorem run_keeps {es : List (LoggerEvent α)} {p : Logger α} (h : run rolls.step l es = some p)
    (hflushable : LogFile.Flushable l.logFile_) : Keeps l p :=
  run_inv (I := Keeps l) (fun _ _ _ h hs => h.trans (step_keeps hs h.flushable))
    ⟨List.prefix_refl _, List.prefix_refl _, hflushable⟩ h

end Step

/-! ## The bound -/

/-- The reading `t` is later than the last opening, and more than `flushInterval_` after the
last flush. -/
def Due (l : Logger α) (t : ℤ) : Prop := l.lastRoll_ < t ∧ l.flushInterval_ < t - l.lastFlush_

section Bound

variable {l l' p : Logger α} {e : LoggerEvent α}

/-- **When a flush is due, a call brings everything to the disk, or counts.** -/
theorem step_due (h : rolls.step l e = some l') (hflushable : LogFile.Flushable l.logFile_)
    (hdue : ∀ t ∈ rolls.readings l e, l.Due t) :
    LogFile.allAccepted l.files <+: l'.onDisk
      ∨ rolls.isAppend e = true ∧ l'.count_ = l.count_ + 1 ∧ l'.lastRoll_ = l.lastRoll_
        ∧ l'.lastFlush_ = l.lastFlush_ ∧ l'.flushInterval_ = l.flushInterval_ := by
  cases e with
  | append call =>
      obtain ⟨f, f', hfile, hwrite, happends⟩ := append_cases h
      have hwritten := fun count => keeps_write hfile hwrite hflushable count
      have hrolled : ∀ count {t : ℤ}, l.lastRoll_ < t → LogFile.allAccepted l.files
          <+: (rollFile { l with count_ := count, logFile_ := some f' } t).onDisk := by
        intro count t hlt
        rw [onDisk_rollFile (l := { l with count_ := count, logFile_ := some f' }) rfl hlt]
        exact (hwritten count).accepted
      cases happends with
      | full hfull hread => exact Or.inl (hrolled l.count_ (hdue call.now hread).1)
      | newDay hcount hread => exact Or.inl (hrolled 0 (hdue call.later hread).1)
      | flush hcount =>
          exact Or.inl ((hwritten 0).accepted.trans
            (keeps_flush (l := { l with count_ := 0, logFile_ := some f' }) rfl).2)
      | early hcount hread hearly => exact absurd (hdue call.now hread).2 hearly
      | count hcount => exact Or.inr ⟨rfl, rfl, rfl, rfl, rfl⟩
  | flush =>
      obtain ⟨f, hfile, rfl⟩ := Option.map_eq_some_iff.mp h
      exact Or.inl (keeps_flush hfile).2

/-- The counter is not far past its limit. -/
theorem count_le (h : rolls.step l e = some l') (hcount : l.count_ ≤ kCheckTimeRoll_ + 1) :
    l'.count_ ≤ kCheckTimeRoll_ + 1 := by
  have hroller : l'.roller = l.roller.step (rolls.call l e) := simulates.step _ _ _ h
  have hstep := Roller.count_step (r := l.roller) hcount (rolls.call l e)
  rw [← hroller] at hstep
  exact hstep

/-- The induction is on the calls: each one that does not bring `text` to the disk counts, and
leaves the times of `r`. -/
theorem onDisk_of_due {r : Logger α} {text : List α} {es : List (LoggerEvent α)}
    (hflushable : LogFile.Flushable l.logFile_) (hcount : l.count_ ≤ kCheckTimeRoll_ + 1)
    (htext : text <+: LogFile.allAccepted l.files)
    (htimes : l.lastRoll_ = r.lastRoll_ ∧ l.lastFlush_ = r.lastFlush_
      ∧ l.flushInterval_ = r.flushInterval_)
    (hrun : run rolls.step l es = some p)
    (hmany : kCheckTimeRoll_ + 2 ≤ (es.filter rolls.isAppend).length + l.count_)
    (hdue : Along rolls.step (fun q e => ∀ t ∈ rolls.readings q e, r.Due t) l es) :
    text <+: p.onDisk := by
  induction es generalizing l with
  | nil =>
      rw [List.filter_nil, List.length_nil] at hmany
      omega
  | cons e es ih =>
      obtain ⟨q, hq, hrun⟩ := (run_cons _).mp hrun
      obtain ⟨hnow, hrest⟩ := hdue
      have hkeeps := step_keeps hq hflushable
      obtain ⟨hroll, hflush, hinterval⟩ := htimes
      have hall : ∀ t ∈ rolls.readings l e, l.Due t := by
        intro t ht
        unfold Due
        rw [hroll, hflush, hinterval]
        exact hnow t ht
      rcases step_due hq hflushable hall with hdisk | ⟨happend, hplus, hroll', hflush', hinterval'⟩
      · exact (htext.trans hdisk).trans (run_keeps hrun hkeeps.flushable).onDisk
      · rw [List.filter_cons_of_pos happend, List.length_cons] at hmany
        exact ih hkeeps.flushable (count_le hq hcount) (htext.trans hkeeps.accepted)
          ⟨hroll'.trans hroll, hflush'.trans hflush, hinterval'.trans hinterval⟩ hrun (by omega)
          (hrest q hq)

end Bound

theorem flushable_make (rollSize : ℕ) (flushInterval now : ℤ) :
    LogFile.Flushable (make rollSize flushInterval now : Logger α).logFile_ := by
  unfold make rollFile
  split
  · exact LogFile.flushable_make
  · rintro f ⟨⟩

/-- **How long a line may stay in the buffer.** Of a `Logger` after any calls, with any
readings of the clock and any results of `fwrite`: all that its files have accepted is on disk
after 1026 further appends, if what these read from the clock is later than the last opening
and more than `flushInterval_` after the last flush, whatever else is called between them. -/
theorem flushed_within (rollSize : ℕ) (flushInterval now : ℤ) {before window : List (LoggerEvent α)}
    {l p : Logger α} (hbefore : run rolls.step (make rollSize flushInterval now) before = some l)
    (hrun : run rolls.step l window = some p)
    (hmany : kCheckTimeRoll_ + 2 ≤ (window.filter rolls.isAppend).length)
    (hdue : Along rolls.step (fun q e => ∀ t ∈ rolls.readings q e, l.Due t) l window) :
    LogFile.allAccepted l.files <+: p.onDisk := by
  have hinv := run_inv (I := fun q : Logger α => LogFile.Flushable q.logFile_
      ∧ q.count_ ≤ kCheckTimeRoll_ + 1)
    (fun _ _ _ h hs => ⟨(step_keeps hs h.1).flushable, count_le hs h.2⟩)
    ⟨flushable_make rollSize flushInterval now, ?_⟩ hbefore
  · exact onDisk_of_due hinv.1 hinv.2 (List.prefix_refl _) ⟨rfl, rfl, rfl⟩ hrun
      (Nat.le_trans hmany (Nat.le_add_right _ _)) hdue
  · unfold make rollFile
    split
    · exact Nat.zero_le _
    · exact Nat.zero_le _

/-- **One call less is not enough.** Where the file cannot get full, and the counter has just been
reset, none of 1025 appends flushes or rolls, whatever the clock reads. -/
theorem onDisk_eq_of_few {l p : Logger α} {calls : List (LoggerCall α)} (hsize : l.rollSize_ = 0)
    (hflushable : LogFile.Flushable l.logFile_)
    (hfew : l.count_ + calls.length ≤ kCheckTimeRoll_ + 1)
    (hrun : run rolls.step l (calls.map .append) = some p) : p.onDisk = l.onDisk := by
  induction calls generalizing l with
  | nil =>
      obtain rfl := Option.some.inj hrun
      rfl
  | cons call calls ih =>
      obtain ⟨q, hq, hrun⟩ := (run_cons _).mp hrun
      rw [List.length_cons] at hfew
      obtain ⟨f, f', hfile, hwrite, happends⟩ := append_cases hq
      cases happends with
      | full hfull hread => omega
      | newDay hcount hread => omega
      | flush hcount => omega
      | early hcount hread hearly => omega
      | count hcount =>
          rw [hfile] at hflushable
          obtain ⟨hdisk, hflushable'⟩ := LogFile.onDisk_append l.closed hwrite hflushable
          have hrest := ih (l := { l with count_ := l.count_ + 1, logFile_ := some f' }) hsize
            hflushable' (by show l.count_ + 1 + calls.length ≤ kCheckTimeRoll_ + 1; omega) hrun
          rw [hrest]
          unfold onDisk
          dsimp only
          rw [hfile, hdisk]

/-! ## A clock that goes on -/

/-- A call for one byte, which `fwrite` accepts at once. -/
def oneByte (now : ℤ) : LoggerEvent ℕ := .append ⟨[1], 1, [], now, now⟩

theorem step_oneByte {l : Logger ℕ} (h : l.logFile_.isSome = true) (now : ℤ) :
    ∃ l', rolls.step l (oneByte now) = some l' ∧ l'.logFile_.isSome = true := by
  obtain ⟨f, hfile⟩ := Option.isSome_iff_exists.mp h
  have hroll : ∀ (l : Logger ℕ) (t : ℤ), l.logFile_.isSome = true →
      (l.rollFile t).logFile_.isSome = true := by
    intro l t hl
    unfold rollFile
    split
    · rfl
    · exact hl
  obtain ⟨l', hl'⟩ : ∃ l', rolls.step l (oneByte now) = some l' := by
    simp only [rolls, oneByte, append_unlocked, hfile]
    exact ⟨_, rfl⟩
  refine ⟨l', hl', ?_⟩
  obtain ⟨g, g', -, -, happends⟩ := append_cases hl'
  cases happends with
  | full hfull hread => exact hroll _ _ rfl
  | newDay hcount hread => exact hroll _ _ rfl
  | flush hcount => rfl
  | early hcount hread hearly => rfl
  | count hcount => rfl

theorem run_oneByte {l : Logger ℕ} (h : l.logFile_.isSome = true) (now : ℤ) (n : ℕ) :
    ∃ p, run rolls.step l (List.replicate n (oneByte now)) = some p := by
  induction n generalizing l with
  | zero => exact ⟨l, rfl⟩
  | succ n ih =>
      obtain ⟨q, hq, hfile⟩ := step_oneByte h now
      obtain ⟨p, hp⟩ := ih hfile
      exact ⟨p, (run_cons _).mpr ⟨q, hq, hp⟩⟩

theorem readings_oneByte (q : Logger ℕ) {now t : ℤ}
    (h : t ∈ rolls.readings q (oneByte now)) : t = now := by
  simp only [rolls, oneByte, readings] at h
  split at h
  · cases h
  · split at h
    · exact List.mem_singleton.mp h
    · split at h
      · split at h
        · simpa using h
        · exact List.mem_singleton.mp h
      · cases h

/-- As many appends as it takes, 4 seconds after the constructor. -/
theorem flushed_within_four : ∃ l p : Logger ℕ, run rolls.step (make 0 3 5) [oneByte 5] = some l
    ∧ run rolls.step l (List.replicate 1026 (oneByte 9)) = some p
    ∧ LogFile.allAccepted l.files = [1] ∧ LogFile.allAccepted l.files <+: p.onDisk := by
  obtain ⟨l, hl⟩ : ∃ l, run rolls.step (make 0 3 5) [oneByte 5] = some l := ⟨_, rfl⟩
  have hfields : (run rolls.step (make 0 3 5) [oneByte 5]).map (fun l => (l.lastRoll_, l.lastFlush_,
      l.flushInterval_, l.logFile_.isSome, LogFile.allAccepted l.files))
        = some (5, 5, 3, true, [1]) := by decide
  rw [hl, Option.map_some, Option.some.injEq] at hfields
  simp only [Prod.mk.injEq] at hfields
  obtain ⟨hroll, hflush, hinterval, hfile, haccepted⟩ := hfields
  obtain ⟨p, hp⟩ := run_oneByte hfile 9 1026
  refine ⟨l, p, hl, hp, haccepted, flushed_within 0 3 5 hl hp ?_ ?_⟩
  · rw [List.filter_replicate_of_pos rfl, List.length_replicate]
    decide
  · refine along_of_mem _ fun e he q t ht => ?_
    rw [List.eq_of_mem_replicate he] at ht
    rw [readings_oneByte q ht]
    unfold Due
    omega

end Logger

end Libiak.Log
