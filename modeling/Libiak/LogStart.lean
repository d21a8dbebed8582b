/-
`AsyncLogging::start()`, step by step, with the latch it waits on.

`AsyncLogging.lean` has a `start()` of one step, and lets `stop()` be called only on a
backend that is past its entry. Here `start()` is what it is: it stores `running_`, creates
the thread and waits on `latch_`, while `threadFunc` asserts `running_` and counts the latch
down; and all that `stop()` is asked for is that `start()` has returned. The latch makes up
the difference. Every run is one of the machine of `AsyncLogging.lean` (`start_refines`), so
what is proved of that one holds; the assertion does not fail, because `stop()` cannot come
before it; and `start()` does not sleep once the backend is past its entry.

This is so for the first `start()` of an `AsyncLogging`. The latch does not close again.
-/
import Libiak.AsyncLogging
import Libiak.CountDownLatch

set_option autoImplicit false

namespace Libiak.Log

open Libiak.Run Libiak.Base

/-- How far `start()` is: not called, past `running_ = true`, past the creation of the
thread, in `latch_.wait()`, returned. -/
inductive StartPc where
  | notCalled
  | running
  | created
  | waiting
  | returned
  deriving DecidableEq

/-- An `AsyncLogging` with the call of `start()`. The one that waits on `latch_` is its
caller. Of the backend at the entry of `threadFunc`, whether it is past the assertion. -/
structure LogStart (ι α : Type*) where
  logging : AsyncLogging ι α
  latch_ : Monitor.Threads Unit ℤ
  startPc : StartPc
  asserted : Bool

/-- A step of `start()`, of the backend at its entry, or any other. -/
inductive StartEvent (ι α : Type*) where
  | store
  | create
  | wait
  | lock
  | wakeup
  | assert
  | countDown
  | log (e : LogEvent ι α)

namespace LogStart

open AsyncLogging CountDownLatch

variable {ι α : Type*} [DecidableEq ι]

/-- The constructor. -/
def init (rollSize : ι → ℕ) (opened : ι → ℤ) : LogStart ι α :=
  ⟨AsyncLogging.init rollSize opened, Monitor.init 1, .notCalled, false⟩

/-- The next step of `stop()`, which is called once `start()` has returned. -/
def stop (s : LogStart ι α) : Option (AsyncLogging ι α) :=
  match s.logging.stopPc with
  | .notCalled =>
      if s.startPc = .returned then
        some { s.logging with stopPc := .called, before := s.logging.admitted }
      else none
  | .called | .cleared | .notified | .returned => s.logging.stop

/-- The steps that are not of `start()` or of the entry. -/
def other (s : LogStart ι α) : LogEvent ι α → Option (AsyncLogging ι α)
  | .start => none
  | .stop => s.stop
  | .next => if s.logging.pc = .entry then none else s.logging.next
  | .append i logline => s.logging.append i logline
  | .write n results now later => s.logging.write n results now later
  | .wakeup => s.logging.wakeup

def step (s : LogStart ι α) : StartEvent ι α → Option (LogStart ι α)
  | .store =>
      if s.startPc = .notCalled then
        some { s with startPc := .running, logging := { s.logging with running_ := true } }
      else none
  | .create =>
      if s.startPc = .running then
        some { s with startPc := .created, logging := { s.logging with pc := .entry } }
      else none
  | .wait =>
      if s.startPc = .created then
        (latch.step s.latch_ (.call ())).map fun latch_ => { s with latch_, startPc := .waiting }
      else none
  | .lock =>
      if s.startPc = .waiting then
        (latch.step s.latch_ (.lock ())).map fun latch_ =>
          { s with latch_, startPc := if latch_.through = [] then .waiting else .returned }
      else none
  | .wakeup => (latch.step s.latch_ (.wakeup ())).map fun latch_ => { s with latch_ }
  | .assert =>
      if s.logging.pc = .entry ∧ s.asserted = false ∧ s.logging.running_ then
        some { s with asserted := true }
      else none
  | .countDown =>
      if s.logging.pc = .entry ∧ s.asserted then
        (latch.step s.latch_ (.act .countDown)).map fun latch_ =>
          { s with latch_, logging := { s.logging with pc := .test } }
      else none
  | .log e => (s.other e).map fun logging => { s with logging }

/-! ## The machine with a `start()` of one step -/

/-- What the event is there: `start()` is the creation of the thread, and the entry of the
backend the `countDown`. -/
def visible : StartEvent ι α → Option (LogEvent ι α)
  | .create => some .start
  | .countDown => some .next
  | .log e => some e
  | .store | .wait | .lock | .wakeup | .assert => none

/-- The state there: before the creation of the thread nothing has happened. -/
def seen (s : LogStart ι α) : AsyncLogging ι α :=
  if s.startPc = .running then { s.logging with running_ := false } else s.logging

omit [DecidableEq ι] in
theorem seen_of_ne {s : LogStart ι α} (h : s.startPc ≠ .running) : s.seen = s.logging := if_neg h

/-- What every run keeps. -/
structure Gated (s : LogStart ι α) : Prop where
  early : s.logging.pc = .notStarted ↔ s.startPc = .notCalled ∨ s.startPc = .running
  latched : s.latch_.shared = if s.logging.pc = .notStarted ∨ s.logging.pc = .entry then 1 else 0
  passed : latch.Passed s.latch_
  awake : latch.Awake s.latch_
  inside : (Monitor.inWait s.latch_).length = if s.startPc = .waiting then 1 else 0
  through : s.latch_.through ≠ [] ↔ s.startPc = .returned
  stopped : s.logging.stopPc ≠ .notCalled → s.startPc = .returned
  running : s.startPc ≠ .notCalled → s.logging.stopPc = .notCalled ∨ s.logging.stopPc = .called →
    s.logging.running_ = true
  idle : s.startPc = .notCalled → s.logging.running_ = false

section Frame

variable {s t : AsyncLogging ι α} {e : LogEvent ι α}

/-- The backend has not come to the entry, or is at it, exactly if it was. -/
structure SamePlace (s t : AsyncLogging ι α) : Prop where
  notStarted : t.pc = .notStarted ↔ s.pc = .notStarted
  entry : t.pc = .entry ↔ s.pc = .entry

omit [DecidableEq ι] in
theorem samePlace_of_ne {place place' : BackendPc ι} (hpc : s.pc = place) (hpc' : t.pc = place')
    (h : place ≠ .notStarted ∧ place ≠ .entry) (h' : place' ≠ .notStarted ∧ place' ≠ .entry) :
    SamePlace s t := by
  subst hpc hpc'
  exact ⟨⟨fun heq => absurd heq h'.1, fun heq => absurd heq h.1⟩,
    ⟨fun heq => absurd heq h'.2, fun heq => absurd heq h.2⟩⟩

omit [DecidableEq ι] in
theorem samePlace_notify_one (hpc : t.pc = s.pc.notify_one) : SamePlace s t := by
  constructor
  · constructor
    · intro heq
      exact BackendPc.eq_of_notify_one (by simp) (hpc.symm.trans heq)
    · intro heq
      rw [hpc, heq]
      rfl
  · constructor
    · intro heq
      exact BackendPc.eq_of_notify_one (by simp) (hpc.symm.trans heq)
    · intro heq
      rw [hpc, heq]
      rfl

/-- Nothing but `start()` and the entry itself brings the backend to its entry, or past it. -/
theorem samePlace_step (h : s.step e = some t) (hstart : e ≠ .start)
    (hentry : e = .next → s.pc ≠ .entry) : SamePlace s t := by
  have heach : ∀ loggers : List ι, BackendPc.each loggers ≠ .notStarted
      ∧ BackendPc.each loggers ≠ .entry := fun loggers =>
    ⟨BackendPc.each_ne loggers (by simp) rfl, BackendPc.each_ne loggers (by simp) rfl⟩
  cases step_moves h with
  | append i logline l hfree hl =>
      by_cases hnotEmpty : (s.loggers i).notEmpty_ = true
      · simp only [hnotEmpty, if_true]
        exact ⟨Iff.rfl, Iff.rfl⟩
      · apply samePlace_notify_one
        exact if_neg hnotEmpty
  | start hpc => exact absurd rfl hstart
  | entry hpc => exact absurd hpc (hentry rfl)
  | test hpc =>
      refine samePlace_of_ne hpc rfl (by simp) ?_
      split <;> simp
  | lock hpc => exact samePlace_of_ne hpc rfl (by simp) (by simp)
  | locked hpc =>
      refine samePlace_of_ne hpc rfl (by simp) ?_
      split <;> simp
  | wait hpc => exact samePlace_of_ne hpc rfl (by simp) (by simp)
  | woken hpc => exact samePlace_of_ne hpc rfl (by simp) (by simp)
  | wakeup hpc => exact samePlace_of_ne hpc rfl (by simp) (by simp)
  | swap loggers hpc hl => exact samePlace_of_ne hpc rfl (by simp) (heach _)
  | recycle i rest l hpc hl => exact samePlace_of_ne hpc rfl (by simp) (heach _)
  | write i written rest buffer l n results now later hpc hbuffer hl =>
      exact samePlace_of_ne hpc rfl (by simp) (by simp)
  | call hstop hpc => exact ⟨Iff.rfl, Iff.rfl⟩
  | clear hstop => exact ⟨Iff.rfl, Iff.rfl⟩
  | notify hstop => exact samePlace_notify_one rfl
  | ret hstop hpc => exact ⟨Iff.rfl, Iff.rfl⟩

/-- Nothing but `start()` and `stop()` changes `running_`. -/
theorem control_step (h : s.step e = some t) (hstart : e ≠ .start) (hstop : e ≠ .stop) :
    t.running_ = s.running_ ∧ t.stopPc = s.stopPc := by
  cases step_moves h with
  | start hpc => exact absurd rfl hstart
  | call _ _ => exact absurd rfl hstop
  | clear _ => exact absurd rfl hstop
  | notify _ => exact absurd rfl hstop
  | ret _ _ => exact absurd rfl hstop
  | append i logline l hfree hl => exact ⟨rfl, rfl⟩
  | entry hpc => exact ⟨rfl, rfl⟩
  | test hpc => exact ⟨rfl, rfl⟩
  | lock hpc => exact ⟨rfl, rfl⟩
  | locked hpc => exact ⟨rfl, rfl⟩
  | wait hpc => exact ⟨rfl, rfl⟩
  | woken hpc => exact ⟨rfl, rfl⟩
  | wakeup hpc => exact ⟨rfl, rfl⟩
  | swap loggers hpc hl => exact ⟨rfl, rfl⟩
  | recycle i rest l hpc hl => exact ⟨rfl, rfl⟩
  | write i written rest buffer l n results now later hpc hbuffer hl => exact ⟨rfl, rfl⟩

/-- An append does not look at `running_`. -/
theorem append_running {i : ι} {logline : List α} (h : s.append i logline = some t) (b : Bool) :
    AsyncLogging.append { s with running_ := b } i logline = some { t with running_ := b } := by
  unfold AsyncLogging.append at h ⊢
  split at h
  · cases h
  · rename_i hfree
    obtain ⟨l, hl, rfl⟩ := Option.map_eq_some_iff.mp h
    rw [if_neg hfree, hl]
    rfl

end Frame

section Steps

variable {s t : LogStart ι α} {e : LogEvent ι α} {l : AsyncLogging ι α}

/-- **The latch keeps `stop()` from coming too early.** -/
theorem Gated.past (h : Gated s) (hreturned : s.startPc = .returned) :
    ¬ (s.logging.pc = .notStarted ∨ s.logging.pc = .entry) := by
  intro hearly
  have hopen := isOpen_iff.mp (h.passed (h.through.mpr hreturned))
  rw [h.latched, if_pos hearly] at hopen
  exact absurd hopen (by decide)

/-- So the steps are those of the machine with a `start()` of one step. -/
theorem Gated.other (h : Gated s) (hother : s.other e = some l) :
    s.logging.step e = some l ∧ e ≠ .start ∧ (e = .next → s.logging.pc ≠ .entry)
      ∧ (e = .stop → s.startPc = .returned) := by
  cases e with
  | append i logline => exact ⟨hother, by simp, by simp, by simp⟩
  | start => cases hother
  | next =>
      simp only [LogStart.other, Option.ite_none_left_eq_some] at hother
      exact ⟨hother.2, by simp, fun _ => hother.1, by simp⟩
  | write n results now later => exact ⟨hother, by simp, by simp, by simp⟩
  | wakeup => exact ⟨hother, by simp, by simp, by simp⟩
  | stop =>
      have hstop : s.stop = some l := hother
      unfold LogStart.stop at hstop
      refine ⟨?_, by simp, by simp, fun _ => ?_⟩
      · show s.logging.stop = some l
        cases hpc : s.logging.stopPc with
        | notCalled =>
            rw [hpc] at hstop
            simp only [Option.ite_none_right_eq_some] at hstop
            unfold AsyncLogging.stop
            rw [hpc]
            dsimp only
            rw [if_neg (h.past hstop.1)]
            exact hstop.2
        | called | cleared | notified | returned =>
            rw [hpc] at hstop
            exact hstop
      · cases hpc : s.logging.stopPc with
        | notCalled =>
            rw [hpc] at hstop
            simp only [Option.ite_none_right_eq_some] at hstop
            exact hstop.1
        | called | cleared | notified | returned => exact h.stopped (by rw [hpc]; decide)

/-- The backend at its entry finds `running_` set. -/
theorem Gated.asserts (h : Gated s) (hentry : s.logging.pc = .entry) :
    s.logging.running_ = true := by
  have hcalled : s.startPc ≠ .notCalled := by
    intro hnot
    have hpc := h.early.mpr (Or.inl hnot)
    rw [hentry] at hpc
    cases hpc
  refine h.running hcalled (Or.inl ?_)
  by_contra hstop
  exact h.past (h.stopped hstop) (Or.inr hentry)

/-- A step that is not of `start()` or of the entry. -/
theorem gated_log (h : Gated s) (hother : s.other e = some l) :
    Gated { s with logging := l }
      ∧ s.seen.step e = some ({ s with logging := l } : LogStart ι α).seen := by
  obtain ⟨hstep, hstart, hentry, hreturned⟩ := h.other hother
  have hplace := samePlace_step hstep hstart hentry
  constructor
  · refine ⟨hplace.notStarted.trans h.early, ?_, h.passed, h.awake, h.inside, h.through, ?_, ?_, ?_⟩
    · show s.latch_.shared = if l.pc = .notStarted ∨ l.pc = .entry then 1 else 0
      simp only [hplace.notStarted, hplace.entry]
      exact h.latched
    · intro hstopped
      by_cases hstop : e = .stop
      · exact hreturned hstop
      · obtain ⟨-, hsame⟩ := control_step hstep hstart hstop
        exact h.stopped (hsame ▸ hstopped)
    · intro hcalled hstopPc
      by_cases hstop : e = .stop
      · subst hstop
        cases step_moves hstep with
        | call hnot hpc => exact h.running hcalled (Or.inl hnot)
        | clear _ => simp at hstopPc
        | notify _ => simp at hstopPc
        | ret _ _ => simp at hstopPc
      · obtain ⟨hrunning, hsame⟩ := control_step hstep hstart hstop
        show l.running_ = true
        rw [hrunning]
        exact h.running hcalled (by rw [← hsame]; exact hstopPc)
    · intro hnot
      by_cases hstop : e = .stop
      · have hback := hreturned hstop
        exact absurd (hnot.symm.trans hback) (by decide)
      · exact (control_step hstep hstart hstop).1.trans (h.idle hnot)
  · by_cases hrunning : s.startPc = .running
    · -- the thread is not there yet, so this is an append
      have hpc := h.early.mpr (Or.inr hrunning)
      unfold seen
      dsimp only
      rw [if_pos hrunning, if_pos hrunning]
      cases e with
      | append i logline => exact append_running hother false
      | start => exact absurd rfl hstart
      | stop => exact absurd (hrunning.symm.trans (hreturned rfl)) (by decide)
      | next =>
          rw [AsyncLogging.step, AsyncLogging.next, hpc] at hstep
          cases hstep
      | write n results now later =>
          rw [AsyncLogging.step, AsyncLogging.write, hpc] at hstep
          cases hstep
      | wakeup =>
          rw [AsyncLogging.step, AsyncLogging.wakeup, hpc] at hstep
          cases hstep
    · rw [seen_of_ne hrunning, seen_of_ne (s := { s with logging := l }) hrunning]
      exact hstep

/-- A step of the caller in the latch, which leaves the count alone. -/
theorem Gated.latch_step (h : Gated s) {latch_ : Monitor.Threads Unit ℤ}
    {e : Monitor.Event Unit LatchCall} (hstep : latch.step s.latch_ e = some latch_)
    (hsilent : countDowns [e] = 0) :
    latch_.shared = (if s.logging.pc = .notStarted ∨ s.logging.pc = .entry then 1 else 0)
      ∧ latch.Passed latch_ ∧ latch.Awake latch_ := by
  refine ⟨?_, Monitor.passed_step stays h.passed hstep, Monitor.awake_step wakes h.awake hstep⟩
  rw [← h.latched, shared_step hstep, hsilent]
  exact Int.sub_zero _

/-- The caller of `start()` begins to wait. -/
theorem gated_wait (h : Gated s) (hpc : s.startPc = .created) {latch_ : Monitor.Threads Unit ℤ}
    (hstep : latch.step s.latch_ (.call ()) = some latch_) :
    Gated { s with latch_, startPc := .waiting } := by
  obtain ⟨hlatched, hpassed, hawake⟩ := h.latch_step hstep rfl
  have hinside := h.inside
  have hthrough : s.latch_.through = [] := by
    by_contra hne
    exact absurd (hpc.symm.trans (h.through.mp hne)) (by decide)
  have hlater : ¬ (s.startPc = .notCalled ∨ s.startPc = .running) := by
    rw [hpc]
    decide
  rw [hpc, if_neg (by decide)] at hinside
  obtain rfl := Option.some.inj hstep
  refine ⟨?_, hlatched, hpassed, hawake, ?_, ?_, ?_, ?_, ?_⟩
  · rw [h.early]
    exact iff_of_false hlater (by simp)
  · show (s.latch_.cv_ ++ s.latch_.notified ++ (s.latch_.running ++ [()])).length = 1
    rw [← List.append_assoc, List.length_append, List.length_singleton]
    unfold Monitor.inWait at hinside
    omega
  · show s.latch_.through ≠ [] ↔ StartPc.waiting = .returned
    exact iff_of_false (fun hne => hne hthrough) (by decide)
  · intro hstopped
    exact absurd (hpc.symm.trans (h.stopped hstopped)) (by decide)
  · exact fun _ => h.running (by rw [hpc]; decide)
  · intro hnot
    cases hnot

/-- It gets the mutex of the latch. -/
theorem gated_lock (h : Gated s) (hpc : s.startPc = .waiting) {latch_ : Monitor.Threads Unit ℤ}
    (hstep : latch.step s.latch_ (.lock ()) = some latch_) :
    Gated { s with latch_, startPc := if latch_.through = [] then .waiting else .returned } := by
  obtain ⟨hlatched, hpassed, hawake⟩ := h.latch_step hstep rfl
  have hinside := h.inside
  rw [hpc, if_pos rfl] at hinside
  have hlater : ¬ (s.startPc = .notCalled ∨ s.startPc = .running) := by
    rw [hpc]
    decide
  have hstopped : s.logging.stopPc = .notCalled := by
    by_contra hstopped
    exact absurd (hpc.symm.trans (h.stopped hstopped)) (by decide)
  have hthrough : s.latch_.through = [] := by
    by_contra hne
    exact absurd (hpc.symm.trans (h.through.mp hne)) (by decide)
  have hrunning := h.running (by rw [hpc]; decide)
  rcases Monitor.lock_cases hstep with ⟨-, hnew, hlength⟩ | ⟨-, hnew, hlength⟩
  · have hne : latch_.through ≠ [] := by
      rw [hnew, hthrough]
      exact List.cons_ne_nil _ _
    simp only [if_neg hne]
    refine ⟨?_, hlatched, hpassed, hawake, ?_, iff_of_true hne rfl, fun _ => rfl,
      fun _ => hrunning, fun hnot => by cases hnot⟩
    · rw [h.early]
      exact iff_of_false hlater (by simp)
    · show (Monitor.inWait latch_).length = 0
      omega
  · have hnil : latch_.through = [] := hnew.trans hthrough
    simp only [if_pos hnil]
    refine ⟨?_, hlatched, hpassed, hawake, ?_, iff_of_false (fun hne => hne hnil) (by simp),
      fun hne => absurd hstopped hne, fun _ => hrunning, fun hnot => by cases hnot⟩
    · rw [h.early]
      exact iff_of_false hlater (by simp)
    · show (Monitor.inWait latch_).length = 1
      omega

/-- It wakes for nothing. -/
theorem gated_wakeup (h : Gated s) {latch_ : Monitor.Threads Unit ℤ}
    (hstep : latch.step s.latch_ (.wakeup ()) = some latch_) : Gated { s with latch_ } := by
  obtain ⟨hlatched, hpassed, hawake⟩ := h.latch_step hstep rfl
  have hsame : (Monitor.inWait latch_).length = (Monitor.inWait s.latch_).length
      ∧ latch_.through = s.latch_.through := by
    cases Monitor.step_moves hstep with
    | wakeup i hi =>
        have hpos := List.length_pos_of_mem hi
        refine ⟨?_, rfl⟩
        simp only [Monitor.inWait, List.length_append, List.length_erase_of_mem hi,
          List.length_singleton]
        omega
  refine ⟨h.early, hlatched, hpassed, hawake, ?_, ?_, h.stopped, h.running, h.idle⟩
  · rw [hsame.1]
    exact h.inside
  · show latch_.through ≠ [] ↔ s.startPc = .returned
    rw [hsame.2]
    exact h.through

/-- The backend counts the latch down, and goes on. -/
theorem gated_countDown (h : Gated s) (hpc : s.logging.pc = .entry)
    {latch_ : Monitor.Threads Unit ℤ}
    (hstep : latch.step s.latch_ (.act .countDown) = some latch_) :
    Gated { s with latch_, logging := { s.logging with pc := .test } } := by
  have hlater : ¬ (s.startPc = .notCalled ∨ s.startPc = .running) := by
    rw [← h.early, hpc]
    simp
  have hshared : latch_.shared = 0 := by
    rw [shared_step hstep, h.latched, if_pos (Or.inr hpc)]
    rfl
  have hsame : (Monitor.inWait latch_).length = (Monitor.inWait s.latch_).length
      ∧ latch_.through = s.latch_.through := by
    cases Monitor.step_moves hstep with
    | silent call shared hact => exact ⟨rfl, rfl⟩
    | notify call shared hact =>
        refine ⟨?_, rfl⟩
        simp only [Monitor.inWait, List.length_append, List.length_nil]
        omega
  refine ⟨?_, ?_, Monitor.passed_step stays h.passed hstep,
    Monitor.awake_step wakes h.awake hstep, ?_, ?_, h.stopped, h.running, h.idle⟩
  · exact iff_of_false (by simp) hlater
  · rw [hshared]
    exact (if_neg (by simp)).symm
  · rw [hsame.1]
    exact h.inside
  · show latch_.through ≠ [] ↔ s.startPc = .returned
    rw [hsame.2]
    exact h.through

/-- **One step**: it keeps the gate, and is one of the other machine, or none. -/
theorem gated_step {e : StartEvent ι α} (h : Gated s) (hstep : s.step e = some t) :
    Gated t ∧ run AsyncLogging.step s.seen (visible e).toList = some t.seen := by
  cases e with
  | store =>
      simp only [LogStart.step, Option.ite_none_right_eq_some, Option.some_inj] at hstep
      obtain ⟨hpc, rfl⟩ := hstep
      have hstarted := h.early.mpr (Or.inl hpc)
      have hidle := h.idle hpc
      constructor
      · refine ⟨iff_of_true hstarted (Or.inr rfl), h.latched, h.passed, h.awake, ?_, ?_, ?_,
          fun _ _ => rfl, fun hnot => by cases hnot⟩
        · rw [h.inside, hpc]
          rfl
        · rw [h.through, hpc]
          exact iff_of_false (by simp) (by simp)
        · intro hstopped
          exact absurd (hpc.symm.trans (h.stopped hstopped)) (by decide)
      · rw [seen_of_ne (by rw [hpc]; decide)]
        show some s.logging = some { s.logging with running_ := false }
        rw [← hidle]
  | create =>
      simp only [LogStart.step, Option.ite_none_right_eq_some, Option.some_inj] at hstep
      obtain ⟨hpc, rfl⟩ := hstep
      have hstarted := h.early.mpr (Or.inr hpc)
      have hnotCalled : s.logging.stopPc = .notCalled := by
        by_contra hstopped
        exact absurd (hpc.symm.trans (h.stopped hstopped)) (by decide)
      have hrunning := h.running (by rw [hpc]; decide) (Or.inl hnotCalled)
      constructor
      · refine ⟨iff_of_false (by simp) (by simp), ?_, h.passed, h.awake, ?_, ?_,
          fun hne => absurd hnotCalled hne, fun _ _ => hrunning, fun hnot => by cases hnot⟩
        · rw [h.latched, if_pos (Or.inl hstarted)]
          exact (if_pos (Or.inr rfl)).symm
        · rw [h.inside, hpc]
          rfl
        · rw [h.through, hpc]
          exact iff_of_false (by simp) (by simp)
      · have hseen : s.seen = { s.logging with running_ := false } := if_pos hpc
        rw [hseen]
        show (AsyncLogging.start { s.logging with running_ := false }).bind _ = _
        unfold AsyncLogging.start
        dsimp only
        rw [hstarted]
        show some { s.logging with running_ := true, pc := .entry }
          = some { s.logging with pc := .entry }
        rw [← hrunning]
  | wait =>
      simp only [LogStart.step, Option.ite_none_right_eq_some] at hstep
      obtain ⟨hpc, hstep⟩ := hstep
      obtain ⟨latch_, hlatch, rfl⟩ := Option.map_eq_some_iff.mp hstep
      refine ⟨gated_wait h hpc hlatch, ?_⟩
      rw [seen_of_ne (by rw [hpc]; decide)]
      rfl
  | lock =>
      simp only [LogStart.step, Option.ite_none_right_eq_some] at hstep
      obtain ⟨hpc, hstep⟩ := hstep
      obtain ⟨latch_, hlatch, rfl⟩ := Option.map_eq_some_iff.mp hstep
      refine ⟨gated_lock h hpc hlatch, ?_⟩
      rw [seen_of_ne (by rw [hpc]; decide), seen_of_ne (by dsimp only; split <;> decide)]
      rfl
  | wakeup =>
      obtain ⟨latch_, hlatch, rfl⟩ := Option.map_eq_some_iff.mp hstep
      exact ⟨gated_wakeup h hlatch, rfl⟩
  | assert =>
      simp only [LogStart.step, Option.ite_none_right_eq_some, Option.some_inj] at hstep
      obtain ⟨-, rfl⟩ := hstep
      exact ⟨⟨h.early, h.latched, h.passed, h.awake, h.inside, h.through, h.stopped, h.running,
        h.idle⟩, rfl⟩
  | countDown =>
      simp only [LogStart.step, Option.ite_none_right_eq_some] at hstep
      obtain ⟨⟨hpc, -⟩, hstep⟩ := hstep
      obtain ⟨latch_, hlatch, rfl⟩ := Option.map_eq_some_iff.mp hstep
      refine ⟨gated_countDown h hpc hlatch, ?_⟩
      have hcreated : s.startPc ≠ .running := by
        intro hrunning
        have hstarted := h.early.mpr (Or.inr hrunning)
        rw [hpc] at hstarted
        cases hstarted
      have hasserts := h.asserts hpc
      have hseen : ({ s with latch_, logging := { s.logging with pc := .test } } :
          LogStart ι α).seen = { s.logging with pc := .test } := if_neg hcreated
      rw [seen_of_ne hcreated, hseen]
      show (AsyncLogging.next s.logging).bind _ = _
      unfold AsyncLogging.next
      rw [hpc]
      dsimp only
      rw [if_pos hasserts]
      rfl
  | log e =>
      obtain ⟨l, hother, rfl⟩ := Option.map_eq_some_iff.mp hstep
      obtain ⟨hgated, hseen⟩ := gated_log h hother
      refine ⟨hgated, ?_⟩
      show (AsyncLogging.step s.seen e).bind _ = _
      rw [hseen]
      rfl

end Steps

/-! ## Runs -/

theorem gated_init (rollSize : ι → ℕ) (opened : ι → ℤ) :
    Gated (init rollSize opened : LogStart ι α) := by
  refine ⟨iff_of_true rfl (Or.inl rfl), rfl, fun hne => absurd rfl hne, fun _ => rfl, rfl,
    iff_of_false (fun hne => hne rfl) (by simp [init]), fun hne => absurd rfl hne, ?_, fun _ => rfl⟩
  intro hne
  exact absurd rfl hne

/-- **`start()` and its latch are one step.** For any number of loggers, in every
interleaving of the producers, the backend, `start()` with its wait on the latch, and a
`stop()` that is called once `start()` has returned, with wakeups that nobody asked for,
of the caller and of the backend:

* the run is one of the machine in which `start()` is a single step, and `stop()` is held
  back until the backend is past its entry;
* the assertion at the entry of `threadFunc` holds whenever the backend comes to it;
* where the backend is past its entry, the caller of `start()` is not asleep, and has
  returned or does so with its next step in the latch. -/
theorem start_refines (rollSize : ι → ℕ) (opened : ι → ℤ) {es : List (StartEvent ι α)}
    {s : LogStart ι α} (hrun : run step (init rollSize opened) es = some s) :
    run AsyncLogging.step (AsyncLogging.init rollSize opened) (es.filterMap visible) = some s.seen
      ∧ (s.logging.pc = .entry → s.logging.running_ = true)
      ∧ (s.startPc = .waiting → ¬ (s.logging.pc = .notStarted ∨ s.logging.pc = .entry) →
        s.latch_.cv_ = [] ∧ ∃ t, s.step .lock = some t ∧ t.startPc = .returned) := by
  obtain ⟨hgated, hsim⟩ := run_visible AsyncLogging.step seen visible (I := Gated)
    (fun _ _ _ h hs => gated_step h hs) (gated_init rollSize opened) hrun
  refine ⟨hsim, hgated.asserts, fun hwaiting hpast => ?_⟩
  have hopen : latch.isOpen s.latch_.shared = true := by
    refine isOpen_iff.mpr (Int.le_of_eq ?_)
    rw [hgated.latched, if_neg hpast]
  have hcv := hgated.awake hopen
  have hinside := hgated.inside
  rw [if_pos hwaiting, Monitor.inWait, hcv, List.nil_append] at hinside
  have hpos : 0 < (s.latch_.notified ++ s.latch_.running).length := by omega
  obtain ⟨i, hi⟩ := List.exists_mem_of_length_pos hpos
  obtain ⟨latch_, hlatch, hthrough⟩ := Monitor.lock_of_open hopen hi
  refine ⟨hcv, { s with latch_, startPc := .returned }, ?_, rfl⟩
  have hne : latch_.through ≠ [] := by
    rw [hthrough]
    exact List.append_ne_nil_of_right_ne_nil _ (List.cons_ne_nil _ _)
  simp only [step, if_pos hwaiting]
  rw [hlatch, Option.map_some, if_neg hne]

/-- The caller of `start()` sleeps, wakes for nothing, sleeps again and is notified. -/
def woken : List (StartEvent ℕ ℕ) :=
  [.store, .create, .wait, .lock, .wakeup, .lock, .assert, .countDown]

theorem start_refines_woken : ∃ s, run step (init (fun _ => 0) fun _ => 5) woken = some s
    ∧ run AsyncLogging.step (AsyncLogging.init (fun _ => 0) fun _ => 5) [.start, .next]
      = some s.seen
    ∧ (s.logging.pc = .entry → s.logging.running_ = true)
    ∧ s.latch_.cv_ = [] ∧ ∃ t, s.step .lock = some t ∧ t.startPc = .returned := by
  obtain ⟨s, hs⟩ : ∃ s, run step (init (fun _ => 0) fun _ => 5) woken = some s := ⟨_, rfl⟩
  have hplaces : (run step (init (fun _ => 0) fun _ => 5) woken).map
      (fun s => (s.startPc, s.logging.pc)) = some (.waiting, .test) := rfl
  rw [hs] at hplaces
  obtain ⟨hstart, hpc⟩ := Prod.mk.inj (Option.some.inj hplaces)
  obtain ⟨hsim, hasserts, hnext⟩ := start_refines _ _ hs
  exact ⟨s, hs, hsim, hasserts, hnext hstart (by simp [hpc])⟩

end LogStart

end Libiak.Log
