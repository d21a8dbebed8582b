/-
`log/AsyncLogging.cpp`: the producers' `append`, the backend thread and `stop()`,
as one machine over any number of loggers.

An `append` is one step, since the whole of it is under the lock. The backend is
where it is in `threadFunc` and `swapAsyncLoggersToWrite`; between taking the
lock and giving it back it excludes appends. Its wait may also end without a
notification, as that of a condition variable may. `start()` and `stop()` do not
take the lock at all, so nothing excludes their steps.

What every run keeps is `Sound`: which loggers are registered, which of them the
backend is working on, and `Rotation` for each. `Moves` says once what each
event can do; all later results go by cases on it.
-/
import Libiak.AsyncLogger
import Libiak.Run

set_option autoImplicit false

namespace Libiak.Log

open Libiak.Run

/-- Where the backend thread is: not created, at the entry of `threadFunc`, at
the test of the `while`, about to lock, at the test of `asyncLoggers_` with the
lock, about to wait with the lock, waiting, notified, about to swap with the
lock, in `appendBuffers_unlocked` of a logger with so many of its buffers
written and the other loggers still to come, or out of `threadFunc`. -/
inductive BackendPc (ι : Type*) where
  | notStarted
  | entry
  | test
  | lock
  | locked
  | wait
  | waiting
  | woken
  | swap
  | writing (asyncLogger : ι) (written : ℕ) (rest : List ι)
  | exited
  deriving DecidableEq

section BackendPc

variable {ι : Type*}

/-- The backend has the lock. -/
def BackendPc.holds : BackendPc ι → Bool
  | .locked | .wait | .swap => true
  | _ => false

/-- `cv_.notify_one()`, on the place of the backend. -/
def BackendPc.notify_one : BackendPc ι → BackendPc ι
  | .waiting => .woken
  | pc => pc

theorem BackendPc.notify_one_of_ne {pc : BackendPc ι} (h : pc ≠ .waiting) :
    pc.notify_one = pc := by
  unfold BackendPc.notify_one
  split
  · exact absurd rfl h
  · rfl

theorem BackendPc.notify_one_ne_waiting (pc : BackendPc ι) : pc.notify_one ≠ .waiting := by
  unfold BackendPc.notify_one
  split
  · simp
  · assumption

/-- A notification brings the backend to no place but `woken`. -/
theorem BackendPc.eq_of_notify_one {pc place : BackendPc ι} (hplace : place ≠ .woken)
    (h : pc.notify_one = place) : pc = place := by
  by_cases hwaiting : pc = .waiting
  · rw [hwaiting] at h
    exact absurd h.symm hplace
  · rwa [BackendPc.notify_one_of_ne hwaiting] at h

theorem BackendPc.notify_one_ne {pc place : BackendPc ι} (hplace : place ≠ .woken)
    (h : pc ≠ place) : pc.notify_one ≠ place :=
  fun heq => h (BackendPc.eq_of_notify_one hplace heq)

/-- The head of a `for` over loggers in `threadFunc`. -/
def BackendPc.each : List ι → BackendPc ι
  | [] => .test
  | i :: rest => .writing i 0 rest

/-- The loggers of the loop of `threadFunc` that are not done. -/
def BackendPc.working : BackendPc ι → List ι
  | .writing i _ rest => i :: rest
  | _ => []

@[simp] theorem BackendPc.working_each (loggers : List ι) :
    (BackendPc.each loggers).working = loggers := by
  cases loggers with
  | nil => rfl
  | cons i rest => rfl

/-- The head of the loop leads to the test or to a logger, and nowhere else. -/
theorem BackendPc.each_ne {place : BackendPc ι} (loggers : List ι) (htest : place ≠ .test)
    (hworking : place.working = []) : BackendPc.each loggers ≠ place := by
  intro heq
  rw [← heq, BackendPc.working_each] at hworking
  rw [hworking] at heq
  exact htest heq.symm

@[simp] theorem BackendPc.working_notify_one (pc : BackendPc ι) :
    pc.notify_one.working = pc.working := by
  cases pc <;> rfl

/-- How many buffers of logger `i` the backend has written since it swapped
them out. -/
def BackendPc.written [DecidableEq ι] (pc : BackendPc ι) (i : ι) : ℕ :=
  match pc with
  | .writing j written _ => if i = j then written else 0
  | _ => 0

@[simp] theorem BackendPc.written_each [DecidableEq ι] (loggers : List ι) (i : ι) :
    (BackendPc.each loggers).written i = 0 := by
  cases loggers with
  | nil => rfl
  | cons j rest => exact ite_self 0

@[simp] theorem BackendPc.written_notify_one [DecidableEq ι] (pc : BackendPc ι) (i : ι) :
    pc.notify_one.written i = pc.written i := by
  cases pc <;> rfl

theorem BackendPc.written_self [DecidableEq ι] (i : ι) (k : ℕ) (rest : List ι) :
    (BackendPc.writing i k rest).written i = k :=
  if_pos rfl

theorem BackendPc.written_of_ne [DecidableEq ι] {i j : ι} (h : i ≠ j) (k : ℕ) (rest : List ι) :
    (BackendPc.writing j k rest).written i = 0 :=
  if_neg h

end BackendPc

/-- How far the call of `stop()` is: not made, made, past `running_ = false`,
past `notify_one()`, past `join()`. -/
inductive StopPc where
  | notCalled
  | called
  | cleared
  | notified
  | returned
  deriving DecidableEq

/-- `class AsyncLogging`, its loggers, and what an observer of the lock has
seen: the lines admitted for each logger, and those that were admitted before
`stop()` was called. -/
structure AsyncLogging (ι α : Type*) where
  running_ : Bool
  asyncLoggers_ : List ι
  loggers : ι → AsyncLogger α
  pc : BackendPc ι
  stopPc : StopPc
  admitted : ι → List (List α)
  before : ι → List (List α)

/-- A call of `append`, `start()`, a step of the backend, one `append_unlocked`
of the backend with what `fwrite` and the clock return, a wait that ends by
itself, a step of `stop()`. -/
inductive LogEvent (ι α : Type*) where
  | append (asyncLogger : ι) (logline : List α)
  | start
  | next
  | write (n : ℕ) (results : List ℕ) (now later : ℤ)
  | wakeup
  | stop

namespace AsyncLogging

open AsyncLogger

variable {ι α : Type*} [DecidableEq ι]

/-- `AsyncLogging::AsyncLogging`, and the loggers' constructors. -/
def init (rollSize : ι → ℕ) (opened : ι → ℤ) : AsyncLogging ι α :=
  { running_ := false, asyncLoggers_ := []
    loggers := fun i => AsyncLogger.make (rollSize i) (opened i)
    pc := .notStarted, stopPc := .notCalled, admitted := fun _ => [], before := fun _ => [] }

/-- `AsyncLogging::append`. -/
def append (s : AsyncLogging ι α) (asyncLogger : ι) (logline : List α) :
    Option (AsyncLogging ι α) :=
  if s.pc.holds then none
  else
    (appendToBuffer_locked (s.loggers asyncLogger) logline).map fun l =>
      let notEmpty := (s.loggers asyncLogger).notEmpty_
      { s with
        loggers := Function.update s.loggers asyncLogger l
        admitted := Function.update s.admitted asyncLogger (s.admitted asyncLogger ++ [logline])
        asyncLoggers_ := if notEmpty then s.asyncLoggers_ else s.asyncLoggers_ ++ [asyncLogger]
        pc := if notEmpty then s.pc else s.pc.notify_one }

/-- The loop of `swapAsyncLoggersToWrite`. -/
def swapAll (loggers : ι → AsyncLogger α) : List ι → Option (ι → AsyncLogger α)
  | [] => some loggers
  | i :: rest =>
      (swapBuffersToWrite_locked (loggers i)).bind fun l =>
        swapAll (Function.update loggers i l) rest

/-- The backend's next step, unless it is an `append_unlocked`. -/
def next (s : AsyncLogging ι α) : Option (AsyncLogging ι α) :=
  match s.pc with
  | .notStarted | .waiting | .exited => none
  | .entry => if s.running_ then some { s with pc := .test } else none
  | .test => some { s with pc := if s.running_ then .lock else .exited }
  | .lock => some { s with pc := .locked }
  | .locked => some { s with pc := if s.asyncLoggers_.isEmpty then .wait else .swap }
  | .wait => some { s with pc := .waiting }
  | .woken => some { s with pc := .swap }
  | .swap =>
      (swapAll s.loggers s.asyncLoggers_).map fun loggers =>
        { s with asyncLoggers_ := [], loggers := loggers, pc := BackendPc.each s.asyncLoggers_ }
  | .writing i written rest =>
      if written = (s.loggers i).buffersToWrite_.length then
        (appendBuffers_unlocked.recycle (s.loggers i)).map fun l =>
          { s with loggers := Function.update s.loggers i l, pc := BackendPc.each rest }
      else none

/-- The backend's next step where it is an `append_unlocked`: that of the buffer
the loop of `appendBuffers_unlocked` has come to. -/
def write (s : AsyncLogging ι α) (n : ℕ) (results : List ℕ) (now later : ℤ) :
    Option (AsyncLogging ι α) :=
  match s.pc with
  | .writing i written rest =>
      match (s.loggers i).buffersToWrite_[written]? with
      | none => none
      | some buffer =>
          (append_unlocked (s.loggers i) ((s.loggers i).memory buffer) n results now later).map
            fun l =>
              { s with
                loggers := Function.update s.loggers i l, pc := .writing i (written + 1) rest }
  | _ => none

/-- A wait that nothing was notified of ends all the same: `swapAsyncLoggersToWrite`
goes on with the swap. -/
def wakeup (s : AsyncLogging ι α) : Option (AsyncLogging ι α) :=
  match s.pc with
  | .waiting => some { s with pc := .woken }
  | _ => none

/-- `start()`: it returns when the backend is past the entry. -/
def start (s : AsyncLogging ι α) : Option (AsyncLogging ι α) :=
  match s.pc with
  | .notStarted => some { s with running_ := true, pc := .entry }
  | _ => none

/-- The next step of `stop()`, which is called once `start()` has returned. -/
def stop (s : AsyncLogging ι α) : Option (AsyncLogging ι α) :=
  match s.stopPc with
  | .notCalled =>
      if s.pc = .notStarted ∨ s.pc = .entry then none
      else some { s with stopPc := .called, before := s.admitted }
  | .called => some { s with stopPc := .cleared, running_ := false }
  | .cleared => some { s with stopPc := .notified, pc := s.pc.notify_one }
  | .notified => if s.pc = .exited then some { s with stopPc := .returned } else none
  | .returned => none

def step (s : AsyncLogging ι α) : LogEvent ι α → Option (AsyncLogging ι α)
  | .append i logline => s.append i logline
  | .start => s.start
  | .next => s.next
  | .write n results now later => s.write n results now later
  | .wakeup => s.wakeup
  | .stop => s.stop

/-! ## What an event can do -/

section Moves

variable {s t : AsyncLogging ι α} {e : LogEvent ι α}

/-- The moves of the machine: what has to hold before, and the state after. -/
inductive Moves (s : AsyncLogging ι α) : LogEvent ι α → AsyncLogging ι α → Prop where
  | append (i : ι) (logline : List α) (l : AsyncLogger α) (hfree : s.pc.holds = false)
      (hl : appendToBuffer_locked (s.loggers i) logline = some l) :
      Moves s (.append i logline) { s with
        loggers := Function.update s.loggers i l
        admitted := Function.update s.admitted i (s.admitted i ++ [logline])
        asyncLoggers_ :=
          if (s.loggers i).notEmpty_ then s.asyncLoggers_ else s.asyncLoggers_ ++ [i]
        pc := if (s.loggers i).notEmpty_ then s.pc else s.pc.notify_one }
  | start (hpc : s.pc = .notStarted) : Moves s .start { s with running_ := true, pc := .entry }
  | entry (hpc : s.pc = .entry) : Moves s .next { s with pc := .test }
  | test (hpc : s.pc = .test) :
      Moves s .next { s with pc := if s.running_ then .lock else .exited }
  | lock (hpc : s.pc = .lock) : Moves s .next { s with pc := .locked }
  | locked (hpc : s.pc = .locked) :
      Moves s .next { s with pc := if s.asyncLoggers_.isEmpty then .wait else .swap }
  | wait (hpc : s.pc = .wait) : Moves s .next { s with pc := .waiting }
  | woken (hpc : s.pc = .woken) : Moves s .next { s with pc := .swap }
  | swap (loggers : ι → AsyncLogger α) (hpc : s.pc = .swap)
      (hl : swapAll s.loggers s.asyncLoggers_ = some loggers) :
      Moves s .next { s with
        asyncLoggers_ := [], loggers := loggers, pc := BackendPc.each s.asyncLoggers_ }
  | recycle (i : ι) (rest : List ι) (l : AsyncLogger α)
      (hpc : s.pc = .writing i (s.loggers i).buffersToWrite_.length rest)
      (hl : appendBuffers_unlocked.recycle (s.loggers i) = some l) :
      Moves s .next { s with loggers := Function.update s.loggers i l, pc := BackendPc.each rest }
  | write (i : ι) (written : ℕ) (rest : List ι) (buffer : BufferPtr) (l : AsyncLogger α)
      (n : ℕ) (results : List ℕ) (now later : ℤ) (hpc : s.pc = .writing i written rest)
      (hbuffer : (s.loggers i).buffersToWrite_[written]? = some buffer)
      (hl : append_unlocked (s.loggers i) ((s.loggers i).memory buffer) n results now later
        = some l) :
      Moves s (.write n results now later) { s with
        loggers := Function.update s.loggers i l, pc := .writing i (written + 1) rest }
  | wakeup (hpc : s.pc = .waiting) : Moves s .wakeup { s with pc := .woken }
  | call (hstop : s.stopPc = .notCalled) (hpc : s.pc ≠ .notStarted ∧ s.pc ≠ .entry) :
      Moves s .stop { s with stopPc := .called, before := s.admitted }
  | clear (hstop : s.stopPc = .called) :
      Moves s .stop { s with stopPc := .cleared, running_ := false }
  | notify (hstop : s.stopPc = .cleared) :
      Moves s .stop { s with stopPc := .notified, pc := s.pc.notify_one }
  | ret (hstop : s.stopPc = .notified) (hpc : s.pc = .exited) :
      Moves s .stop { s with stopPc := .returned }

theorem step_moves (h : step s e = some t) : Moves s e t := by
  cases e with
  | append i logline =>
      rw [step, append] at h
      split at h
      · cases h
      · rename_i hfree
        obtain ⟨l, hl, rfl⟩ := Option.map_eq_some_iff.mp h
        exact .append i logline l (by simpa using hfree) hl
  | start =>
      rw [step, start] at h
      split at h
      · rename_i hpc
        exact (Option.some.inj h) ▸ .start hpc
      · cases h
  | next =>
      rw [step, next] at h
      split at h
      · cases h
      · cases h
      · cases h
      · rename_i hpc
        split at h
        · exact (Option.some.inj h) ▸ .entry hpc
        · cases h
      · rename_i hpc
        exact (Option.some.inj h) ▸ .test hpc
      · rename_i hpc
        exact (Option.some.inj h) ▸ .lock hpc
      · rename_i hpc
        exact (Option.some.inj h) ▸ .locked hpc
      · rename_i hpc
        exact (Option.some.inj h) ▸ .wait hpc
      · rename_i hpc
        exact (Option.some.inj h) ▸ .woken hpc
      · rename_i hpc
        obtain ⟨loggers, hl, rfl⟩ := Option.map_eq_some_iff.mp h
        exact .swap loggers hpc hl
      · rename_i i written rest hpc
        split at h
        · rename_i hwritten
          obtain ⟨l, hl, rfl⟩ := Option.map_eq_some_iff.mp h
          exact .recycle i rest l (hwritten ▸ hpc) hl
        · cases h
  | write n results now later =>
      rw [step, write] at h
      split at h
      · rename_i i written rest hpc
        split at h
        · cases h
        · rename_i buffer hbuffer
          obtain ⟨l, hl, rfl⟩ := Option.map_eq_some_iff.mp h
          exact .write i written rest buffer l n results now later hpc hbuffer hl
      · cases h
  | wakeup =>
      rw [step, wakeup] at h
      split at h
      · rename_i hpc
        exact (Option.some.inj h) ▸ .wakeup hpc
      · cases h
  | stop =>
      rw [step, stop] at h
      split at h
      · rename_i hstop
        split at h
        · cases h
        · rename_i hpc
          exact (Option.some.inj h) ▸ .call hstop (not_or.mp hpc)
      · rename_i hstop
        exact (Option.some.inj h) ▸ .clear hstop
      · rename_i hstop
        exact (Option.some.inj h) ▸ .notify hstop
      · rename_i hstop
        split at h
        · rename_i hpc
          exact (Option.some.inj h) ▸ .ret hstop hpc
        · cases h
      · cases h

end Moves

/-! ## What every run keeps -/

/-- A logger is safe to use, is registered while it has something for the next
move, has something to write only while the backend is working on it, and as
much of that is written as the backend has counted. -/
structure Placed (l : AsyncLogger α) (registered working : Prop) (written : ℕ) : Prop where
  rotation : Rotation l
  registered : l.notEmpty_ = true ↔ registered
  pending : l.notEmpty_ = false → l.pending = []
  idle : ¬ working → l.buffersToWrite_ = []
  progress : written ≤ l.buffersToWrite_.length

/-- Every logger is in its place and in no place twice, and the backend does not
wait while one is registered. -/
structure Sound (s : AsyncLogging ι α) : Prop where
  placed : ∀ i, Placed (s.loggers i) (i ∈ s.asyncLoggers_) (i ∈ s.pc.working) (s.pc.written i)
  distinct : s.asyncLoggers_.Nodup
  order : s.pc.working.Nodup
  asleep : s.pc = .wait ∨ s.pc = .waiting → s.asyncLoggers_ = []

theorem sound_init (rollSize : ι → ℕ) (opened : ι → ℤ) :
    Sound (init rollSize opened : AsyncLogging ι α) := by
  refine ⟨fun i => ?_, List.nodup_nil, List.nodup_nil, fun _ => rfl⟩
  obtain ⟨h1, h2, h3⟩ := make_frame (α := α) (rollSize i) (opened i)
  refine ⟨rotation_make (rollSize i) (opened i), ?_, fun _ => h3, fun _ => h2, Nat.zero_le _⟩
  show (AsyncLogger.make (rollSize i) (opened i) : AsyncLogger α).notEmpty_ = true ↔ i ∈ []
  rw [h1]
  simp

/-- The loop moves the buffers of the loggers it is for, each by itself. -/
theorem swapAll_eq {loggers loggers' : ι → AsyncLogger α} {list : List ι} (hdistinct : list.Nodup)
    (h : swapAll loggers list = some loggers') (i : ι) :
    (i ∈ list → swapBuffersToWrite_locked (loggers i) = some (loggers' i))
      ∧ (i ∉ list → loggers' i = loggers i) := by
  induction list generalizing loggers with
  | nil => exact ⟨fun hi => absurd hi List.not_mem_nil, fun _ => by rw [Option.some.inj h]⟩
  | cons j rest ih =>
      obtain ⟨hj, hrest⟩ := List.nodup_cons.mp hdistinct
      rw [swapAll] at h
      obtain ⟨l, hl, h⟩ := Option.bind_eq_some_iff.mp h
      obtain ⟨h1, h2⟩ := ih hrest h
      by_cases hij : i = j
      · subst hij
        rw [Function.update_self] at h2
        exact ⟨fun _ => by rw [h2 hj, hl], fun hi => absurd List.mem_cons_self hi⟩
      · rw [Function.update_of_ne hij] at h1 h2
        refine ⟨fun hi => h1 ?_, fun hi => h2 fun hmem => hi (List.mem_cons_of_mem j hmem)⟩
        exact (List.mem_cons.mp hi).resolve_left hij

section Step

variable {s t : AsyncLogging ι α} {e : LogEvent ι α}

/-- An append places its logger among the registered ones. -/
theorem sound_append {i : ι} {logline : List α} {l : AsyncLogger α} (h : Sound s)
    (hfree : s.pc.holds = false)
    (hl : appendToBuffer_locked (s.loggers i) logline = some l) :
    Sound { s with
      loggers := Function.update s.loggers i l
      admitted := Function.update s.admitted i (s.admitted i ++ [logline])
      asyncLoggers_ := if (s.loggers i).notEmpty_ then s.asyncLoggers_ else s.asyncLoggers_ ++ [i]
      pc := if (s.loggers i).notEmpty_ then s.pc else s.pc.notify_one } := by
  obtain ⟨hrotation, hregistered, hpending, hidle, hprogress⟩ := h.placed i
  obtain ⟨l', hl', ha⟩ := append_appended hrotation logline
  obtain rfl := Option.some.inj (hl.symm.trans hl')
  obtain ⟨hne, htoWrite, -, -⟩ := ha.frame
  have hworking : (if (s.loggers i).notEmpty_ then s.pc else s.pc.notify_one).working
      = s.pc.working := by
    split
    · rfl
    · exact BackendPc.working_notify_one s.pc
  have hwritten : ∀ j, (if (s.loggers i).notEmpty_ then s.pc else s.pc.notify_one).written j
      = s.pc.written j := by
    intro j
    split
    · rfl
    · exact BackendPc.written_notify_one s.pc j
  refine ⟨?_, ?_, ?_, ?_⟩
  · intro j
    rw [hworking, hwritten]
    by_cases hj : j = i
    · -- the logger of the line is registered now, if it was not
      subst hj
      simp only [Function.update_self]
      refine ⟨rotation_append hrotation ha, ?_, fun hfalse => ?_, fun hj => ?_, ?_⟩
      · rw [hne]
        split
        · rename_i hwas
          simpa using hregistered.mp hwas
        · simp
      · rw [hne] at hfalse
        cases hfalse
      · rw [htoWrite]
        exact hidle hj
      · rw [htoWrite]
        exact hprogress
    · simp only [Function.update_of_ne hj]
      obtain ⟨h1, h2, h3, h4, h5⟩ := h.placed j
      refine ⟨h1, ?_, h3, h4, h5⟩
      split
      · exact h2
      · simpa [hj] using h2
  · dsimp only
    split
    · exact h.distinct
    · rename_i hwas
      have hi : i ∉ s.asyncLoggers_ := fun hi => hwas (hregistered.mpr hi)
      rw [← List.concat_eq_append]
      exact h.distinct.concat hi
  · rw [hworking]
    exact h.order
  · -- the append that registers the first logger wakes the backend
    dsimp only
    split
    · rename_i hwas
      intro hpc
      have hi := hregistered.mp hwas
      rw [h.asleep hpc] at hi
      exact absurd hi List.not_mem_nil
    · -- the lock is free, so the backend is not between its test and its wait
      rintro (hpc | hpc)
      · rw [BackendPc.eq_of_notify_one (by simp) hpc] at hfree
        cases hfree
      · exact absurd hpc (BackendPc.notify_one_ne_waiting s.pc)

/-- The swap places the registered loggers where the backend works. -/
theorem sound_swap {loggers : ι → AsyncLogger α} (h : Sound s) (hpc : s.pc = .swap)
    (hl : swapAll s.loggers s.asyncLoggers_ = some loggers) :
    Sound { s with
      asyncLoggers_ := [], loggers := loggers, pc := BackendPc.each s.asyncLoggers_ } := by
  refine ⟨fun i => ?_, List.nodup_nil, ?_, fun _ => rfl⟩
  · obtain ⟨hrotation, hregistered, hpending, hidle, -⟩ := h.placed i
    rw [BackendPc.working_each, BackendPc.written_each]
    have hnone : (s.loggers i).buffersToWrite_ = [] := by
      apply hidle
      rw [hpc]
      exact List.not_mem_nil
    by_cases hi : i ∈ s.asyncLoggers_
    · have hmoved := (swapAll_eq h.distinct hl i).1 hi
      refine ⟨rotation_swap hrotation hnone hmoved, ?_,
        fun _ => pending_swap hrotation hnone hmoved, fun hni => absurd hi hni, Nat.zero_le _⟩
      rw [(swap_frame hrotation hmoved).1]
      simp
    · have hstill := (swapAll_eq h.distinct hl i).2 hi
      show Placed (loggers i) _ _ 0
      rw [hstill]
      refine ⟨hrotation, ?_, hpending, fun _ => hnone, Nat.zero_le _⟩
      rw [hregistered]
      simp [hi]
  · rw [BackendPc.working_each]
    exact h.distinct

/-- A step of the backend on the logger it is working on. -/
theorem Sound.work {i : ι} {l : AsyncLogger α} {pc : BackendPc ι} (h : Sound s)
    (hrotation : Rotation l) (hnotEmpty : l.notEmpty_ = (s.loggers i).notEmpty_)
    (hpending : l.pending = (s.loggers i).pending) (hsub : pc.working.Sublist s.pc.working)
    (hidle : i ∉ pc.working → l.buffersToWrite_ = [])
    (hprogress : pc.written i ≤ l.buffersToWrite_.length)
    (hother : ∀ j, j ≠ i → (j ∉ pc.working → j ∉ s.pc.working) ∧ pc.written j = s.pc.written j)
    (hawake : pc ≠ .wait ∧ pc ≠ .waiting) :
    Sound { s with loggers := Function.update s.loggers i l, pc := pc } := by
  refine ⟨fun j => ?_, h.distinct, h.order.sublist hsub, ?_⟩
  · obtain ⟨h1, h2, h3, h4, h5⟩ := h.placed j
    by_cases hj : j = i
    · subst hj
      simp only [Function.update_self]
      exact ⟨hrotation, by rw [hnotEmpty]; exact h2, by rw [hnotEmpty, hpending]; exact h3, hidle,
        hprogress⟩
    · simp only [Function.update_of_ne hj]
      rw [(hother j hj).2]
      exact ⟨h1, h2, h3, fun hw => h4 ((hother j hj).1 hw), h5⟩
  · rintro (hpc | hpc)
    · exact absurd hpc hawake.1
    · exact absurd hpc hawake.2

/-- A step that leaves the loggers and their registration alone. -/
theorem Sound.control (h : Sound s) (hloggers : t.loggers = s.loggers)
    (hregistered : t.asyncLoggers_ = s.asyncLoggers_) (hworking : t.pc.working = s.pc.working)
    (hwritten : ∀ i, t.pc.written i = s.pc.written i)
    (hasleep : t.pc = .wait ∨ t.pc = .waiting → s.asyncLoggers_ = []) : Sound t := by
  refine ⟨?_, ?_, ?_, ?_⟩
  · intro i
    rw [hloggers, hregistered, hworking, hwritten]
    exact h.placed i
  · rw [hregistered]
    exact h.distinct
  · rw [hworking]
    exact h.order
  · rw [hregistered]
    exact hasleep

/-- **Every step keeps every logger in its place.** -/
theorem sound_step (h : Sound s) (hstep : step s e = some t) : Sound t := by
  cases step_moves hstep with
  | append i logline l hfree hl => exact sound_append h hfree hl
  | swap loggers hpc hl => exact sound_swap h hpc hl
  | write i written rest buffer l n results now later hpc hbuffer hl =>
      -- one more buffer of the batch is written, and the batch has that many
      obtain ⟨f, f', -, -, -, -, count, start, roll, flush, closed, logFile, hl'⟩ :=
        append_unlocked_cases hl
      refine h.work (rotation_write (h.placed i).rotation hl) (by rw [hl']) (pending_write hl)
        ?_ ?_ ?_ ?_ ⟨by simp, by simp⟩
      · rw [hpc]
        exact List.Sublist.refl _
      · exact fun hi => absurd List.mem_cons_self hi
      · rw [BackendPc.written_self, hl']
        exact (List.getElem?_eq_some_iff.mp hbuffer).1
      · rw [hpc]
        intro j hj
        rw [BackendPc.written_of_ne hj, BackendPc.written_of_ne hj]
        exact ⟨id, rfl⟩
  | recycle i rest l hpc hl =>
      -- the batch of logger `i` is empty again, and the others are as they were
      have hrotation := (h.placed i).rotation
      obtain ⟨spare1, spare2, memory, heq, -⟩ := recycle_eq hrotation
      rw [heq] at hl
      obtain ⟨logFile, -, hl'⟩ := Option.map_eq_some_iff.mp hl
      rw [← heq] at hl
      refine h.work (rotation_recycle hrotation hl) (by rw [← hl']) (pending_recycle hrotation hl)
        ?_ ?_ ?_ ?_ ?_
      · rw [hpc, BackendPc.working_each]
        exact List.sublist_cons_self i rest
      · exact fun _ => by rw [← hl']
      · rw [BackendPc.written_each]
        exact Nat.zero_le _
      · rw [hpc, BackendPc.working_each]
        intro j hj
        rw [BackendPc.written_each, BackendPc.written_of_ne hj]
        exact ⟨fun hrest hmem => hrest ((List.mem_cons.mp hmem).resolve_left hj), rfl⟩
      · cases rest with
        | nil => exact ⟨by simp [BackendPc.each], by simp [BackendPc.each]⟩
        | cons j rest => exact ⟨by simp [BackendPc.each], by simp [BackendPc.each]⟩
  | start hpc => exact h.control rfl rfl (by rw [hpc]; rfl) (fun _ => by rw [hpc]; rfl) (by simp)
  | entry hpc => exact h.control rfl rfl (by rw [hpc]; rfl) (fun _ => by rw [hpc]; rfl) (by simp)
  | test hpc =>
      refine h.control rfl rfl ?_ (fun i => ?_) ?_
      · rw [hpc]
        cases s.running_ <;> rfl
      · rw [hpc]
        cases s.running_ <;> rfl
      · dsimp only
        cases s.running_ <;> simp
  | lock hpc => exact h.control rfl rfl (by rw [hpc]; rfl) (fun _ => by rw [hpc]; rfl) (by simp)
  | locked hpc =>
      refine h.control rfl rfl ?_ (fun i => ?_) ?_
      · rw [hpc]
        cases s.asyncLoggers_.isEmpty <;> rfl
      · rw [hpc]
        cases s.asyncLoggers_.isEmpty <;> rfl
      · dsimp only
        cases hempty : s.asyncLoggers_.isEmpty with
        | true => exact fun _ => List.isEmpty_iff.mp hempty
        | false => simp
  | wait hpc =>
      exact h.control rfl rfl (by rw [hpc]; rfl) (fun _ => by rw [hpc]; rfl)
        fun _ => h.asleep (Or.inl hpc)
  | woken hpc => exact h.control rfl rfl (by rw [hpc]; rfl) (fun _ => by rw [hpc]; rfl) (by simp)
  | wakeup hpc => exact h.control rfl rfl (by rw [hpc]; rfl) (fun _ => by rw [hpc]; rfl) (by simp)
  | call hstop hpc => exact h.control rfl rfl rfl (fun _ => rfl) h.asleep
  | clear hstop => exact h.control rfl rfl rfl (fun _ => rfl) h.asleep
  | notify hstop =>
      refine h.control rfl rfl (BackendPc.working_notify_one s.pc)
        (BackendPc.written_notify_one s.pc) fun hpc => h.asleep ?_
      rcases hpc with hpc | hpc
      · exact Or.inl (BackendPc.eq_of_notify_one (by simp) hpc)
      · exact absurd hpc (BackendPc.notify_one_ne_waiting s.pc)
  | ret hstop hpc => exact h.control rfl rfl rfl (fun _ => rfl) h.asleep

end Step

end AsyncLogging

end Libiak.Log
