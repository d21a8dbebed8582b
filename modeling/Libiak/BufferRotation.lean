/-
The buffers of one asynchronous logger, step by step.

`AsyncLogging` is a machine of many loggers, and takes the end of
`appendBuffers_unlocked` in one step. Here is one logger by itself, with appends
of any length from any thread between any two steps of the backend: the swap,
each write, each of the two places for a spare, and `clear()`. The backend may
swap a logger that nobody has appended to.

`Rotation` is kept by every step, and says of each what it needs
(`rotating_step`). What the backend of `AsyncLogging` does with a logger is a run
of this machine (`view_step`).
-/
import Libiak.AsyncLogging

set_option autoImplicit false

namespace Libiak.Log

open Libiak.Run

variable {α : Type*}

/-- Where the backend is with a logger: somewhere else, in the loop of
`appendBuffers_unlocked` with so many buffers written, at the test of `buffer1_`,
at the test of `buffer2_`, or at `clear()`. -/
inductive LoggerPc where
  | idle
  | writing (written : ℕ)
  | spare1
  | spare2
  | clear
  deriving DecidableEq

/-- A logger, and the backend at it. -/
structure LoggerRun (α : Type*) where
  logger : AsyncLogger α
  pc : LoggerPc

/-- A call of `appendToBuffer_locked`, one of `swapBuffersToWrite_locked`, one
`append_unlocked` with what `fwrite` and the clock return, another step of
`appendBuffers_unlocked`. -/
inductive RotationEvent (α : Type*) where
  | append (logline : List α)
  | swap
  | write (n : ℕ) (results : List ℕ) (now later : ℤ)
  | next

namespace LoggerRun

open AsyncLogger

/-- `AsyncLogger::AsyncLogger`. -/
def init (rollSize : ℕ) (now : ℤ) : LoggerRun α := ⟨AsyncLogger.make rollSize now, .idle⟩

/-- A step of `appendBuffers_unlocked` that writes nothing. -/
def next (s : LoggerRun α) : Option (LoggerRun α) :=
  match s.pc with
  | .idle => none
  | .writing written =>
      if written = s.logger.buffersToWrite_.length then some { s with pc := .spare1 } else none
  | .spare1 =>
      (takeBack s.logger s.logger.buffer1_).map fun r =>
        ⟨{ r.1 with buffer1_ := some r.2 }, .spare2⟩
  | .spare2 =>
      (takeBack s.logger s.logger.buffer2_).map fun r =>
        ⟨{ r.1 with buffer2_ := some r.2 }, .clear⟩
  | .clear =>
      s.logger.logFile_.map fun logFile =>
        ⟨{ s.logger with buffersToWrite_ := [], logFile_ := some logFile.flush }, .idle⟩

/-- The next write of the loop of `appendBuffers_unlocked`. -/
def write (s : LoggerRun α) (n : ℕ) (results : List ℕ) (now later : ℤ) :
    Option (LoggerRun α) :=
  match s.pc with
  | .writing written =>
      match s.logger.buffersToWrite_[written]? with
      | none => none
      | some buffer =>
          (append_unlocked s.logger (s.logger.memory buffer) n results now later).map fun l =>
            ⟨l, .writing (written + 1)⟩
  | _ => none

/-- An append can come at any time, a swap when the backend is done with the
buffers of the one before. -/
def step (s : LoggerRun α) : RotationEvent α → Option (LoggerRun α)
  | .append logline => (appendToBuffer_locked s.logger logline).map fun l => { s with logger := l }
  | .swap =>
      match s.pc with
      | .idle => (swapBuffersToWrite_locked s.logger).map fun l => ⟨l, .writing 0⟩
      | _ => none
  | .write n results now later => s.write n results now later
  | .next => s.next

/-- The buffers are in rotation, there is nothing to write while the backend is
elsewhere, and a place that the backend has passed holds its spare. -/
structure Rotating (s : LoggerRun α) : Prop where
  rotation : Rotation s.logger
  idle : s.pc = .idle → s.logger.buffersToWrite_ = []
  progress : ∀ written, s.pc = .writing written → written ≤ s.logger.buffersToWrite_.length
  spare1 : s.pc = .spare2 ∨ s.pc = .clear → s.logger.buffer1_ ≠ none
  spare2 : s.pc = .clear → s.logger.buffer2_ ≠ none

theorem rotating_init (rollSize : ℕ) (now : ℤ) : Rotating (init rollSize now : LoggerRun α) where
  rotation := rotation_make rollSize now
  idle := fun _ => (make_frame rollSize now).2.1
  progress := fun _ h => by cases h
  spare1 := fun h => by rcases h with h | h <;> cases h
  spare2 := fun h => by cases h

section Step

variable {s t : LoggerRun α}

/-- The places of the two spares. -/
theorem Rotating.places (h : Rotating s) :
    (s.logger.buffer1_ = none → s.logger.buffersToWrite_ ≠ [])
      ∧ (s.logger.buffer2_ = none → s.logger.buffersToWrite_ ≠ []) := by
  have hspare := h.rotation.spare
  constructor
  · intro h1 hnil
    exact (hspare hnil).1 h1
  · intro h2 hnil
    exact (hspare hnil).2 h2

/-- An append leaves alone what the backend works with. -/
theorem rotating_append (h : Rotating s) {logline : List α} {l : AsyncLogger α}
    (ha : Appended s.logger logline l) : Rotating { s with logger := l } := by
  have htoWrite := ha.frame.2.1
  have hspares : l.buffer1_ = s.logger.buffer1_ ∧ l.buffer2_ = s.logger.buffer2_ := by
    cases ha with
    | room current hcurrent => exact ⟨rfl, rfl⟩
    | full current fresh memory allocated hcurrent hfresh hframe hnext hbound hallocated =>
        exact ⟨rfl, rfl⟩
  exact
    { rotation := rotation_append h.rotation ha
      idle := by
        intro hpc
        rw [htoWrite]
        exact h.idle hpc
      progress := by
        intro written hpc
        rw [htoWrite]
        exact h.progress written hpc
      spare1 := by
        intro hpc
        rw [hspares.1]
        exact h.spare1 hpc
      spare2 := by
        intro hpc
        rw [hspares.2]
        exact h.spare2 hpc }

/-- Each place for a spare keeps its buffer, or gets one that has been written. -/
theorem rotating_next (h : Rotating s) (hstep : s.next = some t) : Rotating t := by
  obtain ⟨hneed1, hneed2⟩ := h.places
  have hspares := h.rotation.spares
  unfold missing at hspares
  unfold next at hstep
  split at hstep
  · cases hstep
  · -- the loop is done
    split at hstep
    · obtain rfl := Option.some.inj hstep
      exact ⟨h.rotation, by simp, by simp, by simp, by simp⟩
    · cases hstep
  · obtain ⟨spare, toWrite, memory, heq, hspare, hclean, -, -, hlen, hcount⟩ := takeBack_eq hneed1
    rw [heq] at hstep
    obtain rfl := Option.some.inj hstep
    refine ⟨h.rotation.refill _ _ _ hclean ?_ ?_ ?_, by simp, by simp, by simp, by simp⟩
    · intro b
      have := hcount b
      simp only [Option.toList_some]
      omega
    · intro b hb
      rcases List.mem_append.mp hb with hb | hb
      · obtain rfl := List.mem_singleton.mp hb
        exact hspare fun b hb => h.rotation.clean b (by simp only [List.mem_append]; tauto)
      · exact hclean b (h.rotation.clean b (List.mem_append_right _ hb))
    · simp only [missing]
      simp only [reduceCtorEq, if_false]
      omega
  · rename_i hpc
    have hfirst := h.spare1 (Or.inl hpc)
    obtain ⟨spare, toWrite, memory, heq, hspare, hclean, -, -, hlen, hcount⟩ := takeBack_eq hneed2
    rw [heq] at hstep
    obtain rfl := Option.some.inj hstep
    refine ⟨h.rotation.refill _ _ _ hclean ?_ ?_ ?_, by simp, by simp, fun _ => hfirst, by simp⟩
    · intro b
      have := hcount b
      simp only [Option.toList_some]
      omega
    · intro b hb
      rcases List.mem_append.mp hb with hb | hb
      · exact hclean b (h.rotation.clean b (by simp only [List.mem_append]; tauto))
      · obtain rfl := List.mem_singleton.mp hb
        exact hspare fun b hb => h.rotation.clean b (List.mem_append_right _ hb)
    · simp only [missing]
      simp only [if_neg hfirst, reduceCtorEq, if_false]
      omega
  · -- both places are taken, and what is cleared is in no other
    rename_i hpc
    obtain ⟨logFile, -, rfl⟩ := Option.map_eq_some_iff.mp hstep
    have h1 := h.spare1 (Or.inr hpc)
    have h2 := h.spare2 hpc
    have hrotation := h.rotation.refill s.logger.buffer1_ s.logger.buffer2_ []
      (fun _ hb => hb) (fun b => by simp) (fun b hb => h.rotation.clean b (by
        simp only [List.mem_append] at hb ⊢
        tauto)) (by simp [missing, h1, h2])
    obtain ⟨r1, r2, r3, r4, r5, r6⟩ := hrotation
    exact ⟨⟨r1, r2, r3, r4, r5, r6⟩, fun _ => rfl, by simp, by simp, by simp⟩

theorem rotating_write (h : Rotating s) {n : ℕ} {results : List ℕ} {now later : ℤ}
    (hstep : s.write n results now later = some t) : Rotating t := by
  unfold write at hstep
  split at hstep
  · rename_i written hpc
    split at hstep
    · cases hstep
    · rename_i buffer hbuffer
      obtain ⟨l, hl, rfl⟩ := Option.map_eq_some_iff.mp hstep
      obtain ⟨f, f', -, -, -, -, count, start, roll, flush, closed, logFile, hl'⟩ :=
        append_unlocked_cases hl
      refine ⟨rotation_write h.rotation hl, by simp, ?_, by simp, by simp⟩
      rintro written' hpc'
      obtain rfl := LoggerPc.writing.inj hpc'
      rw [hl']
      exact (List.getElem?_eq_some_iff.mp hbuffer).1
  · cases hstep

/-- **Every step keeps the buffers in rotation.** -/
theorem rotating_step {e : RotationEvent α} (h : Rotating s) (hstep : step s e = some t) :
    Rotating t := by
  cases e with
  | append logline =>
      obtain ⟨l, hl, rfl⟩ := Option.map_eq_some_iff.mp hstep
      obtain ⟨l', hl', ha⟩ := append_appended h.rotation logline
      obtain rfl := Option.some.inj (hl.symm.trans hl')
      exact rotating_append h ha
  | swap =>
      rw [step] at hstep
      split at hstep
      · rename_i hpc
        obtain ⟨l, hl, rfl⟩ := Option.map_eq_some_iff.mp hstep
        refine ⟨rotation_swap h.rotation (h.idle hpc) hl, by simp, ?_, by simp, by simp⟩
        intro written hpc'
        rw [← LoggerPc.writing.inj hpc']
        exact Nat.zero_le _
      · cases hstep
  | write n results now later => exact rotating_write h hstep
  | next => exact rotating_next h hstep

end Step

/-! ## What the backend of `AsyncLogging` does with a logger -/

section View

variable {ι : Type*} [DecidableEq ι] {s t : AsyncLogging ι α}

/-- The backend, as far as logger `i` is concerned. -/
def view (s : AsyncLogging ι α) (i : ι) : LoggerRun α :=
  ⟨s.loggers i, if i ∈ s.pc.working then .writing (s.pc.written i) else .idle⟩

/-- The end of `appendBuffers_unlocked`, in four steps. -/
theorem run_recycle {l l' : AsyncLogger α} (h : appendBuffers_unlocked.recycle l = some l') :
    run step ⟨l, .writing l.buffersToWrite_.length⟩ [.next, .next, .next, .next]
      = some ⟨l', .idle⟩ := by
  obtain ⟨r1, h1, h⟩ := Option.bind_eq_some_iff.mp h
  obtain ⟨r2, h2, h⟩ := Option.bind_eq_some_iff.mp h
  dsimp only at h
  split at h
  · cases h
  · rename_i logFile hfile
    obtain rfl := Option.some.inj h
    simp only [run, step, next, if_true, Option.bind_some, h1, Option.map_some, h2, hfile]

/-- Loggers and places that stay as they are. -/
theorem view_congr {i : ι} (hlogger : t.loggers i = s.loggers i)
    (hworking : i ∈ t.pc.working ↔ i ∈ s.pc.working) (hwritten : t.pc.written i = s.pc.written i) :
    ∃ es, run step (view s i) es = some (view t i) := by
  refine ⟨[], ?_⟩
  simp only [run, view, hlogger, hworking, hwritten]

/-- **A step of `AsyncLogging` is, for each logger, steps of its own.** -/
theorem view_step {e : LogEvent ι α} (h : AsyncLogging.Sound s)
    (hstep : AsyncLogging.step s e = some t) (i : ι) :
    ∃ es, run step (view s i) es = some (view t i) := by
  cases AsyncLogging.step_moves hstep with
  | append j logline l hfree hl =>
      have hworking : (if (s.loggers j).notEmpty_ then s.pc else s.pc.notify_one).working
          = s.pc.working := by
        split
        · rfl
        · exact BackendPc.working_notify_one s.pc
      have hwritten : (if (s.loggers j).notEmpty_ then s.pc else s.pc.notify_one).written i
          = s.pc.written i := by
        split
        · rfl
        · exact BackendPc.written_notify_one s.pc i
      by_cases hi : i = j
      · subst hi
        refine ⟨[.append logline], ?_⟩
        simp only [run, step, view, hl, Option.map_some, Option.bind_some, hworking, hwritten,
          Function.update_self]
      · exact view_congr (Function.update_of_ne hi ..) (by rw [hworking]) hwritten
  | swap loggers hpc hl =>
      have hidle : s.pc.working = [] := by
        rw [hpc]
        rfl
      by_cases hi : i ∈ s.asyncLoggers_
      · have hmoved := (AsyncLogging.swapAll_eq h.distinct hl i).1 hi
        refine ⟨[.swap], ?_⟩
        simp only [run, step, view, hidle, List.not_mem_nil, if_false, hmoved, Option.map_some,
          Option.bind_some, BackendPc.working_each, BackendPc.written_each, if_pos hi]
      · apply view_congr
        · exact (AsyncLogging.swapAll_eq h.distinct hl i).2 hi
        · rw [hidle, BackendPc.working_each]
          simp [hi]
        · rw [BackendPc.written_each, hpc]
          rfl
  | write j written rest buffer l n results now later hpc hbuffer hl =>
      by_cases hi : i = j
      · subst hi
        refine ⟨[.write n results now later], ?_⟩
        simp only [run, step, write, view, hpc, BackendPc.working, List.mem_cons_self, if_true,
          BackendPc.written_self, hbuffer, hl, Option.map_some, Option.bind_some,
          Function.update_self]
      · apply view_congr (Function.update_of_ne hi ..)
        · rw [hpc]
          rfl
        · rw [hpc, BackendPc.written_of_ne hi, BackendPc.written_of_ne hi]
  | recycle j rest l hpc hl =>
      by_cases hi : i = j
      · subst hi
        have hrest : i ∉ rest := by
          have horder := h.order
          rw [hpc] at horder
          exact (List.nodup_cons.mp horder).1
        refine ⟨[.next, .next, .next, .next], ?_⟩
        have hview : view s i = ⟨s.loggers i, .writing (s.loggers i).buffersToWrite_.length⟩ := by
          simp only [view, hpc, BackendPc.working, List.mem_cons_self, if_true,
            BackendPc.written_self]
        rw [hview, run_recycle hl]
        simp only [view, BackendPc.working_each, if_neg hrest, Function.update_self]
      · apply view_congr (Function.update_of_ne hi ..)
        · rw [hpc, BackendPc.working_each, BackendPc.working, List.mem_cons]
          simp [hi]
        · rw [hpc, BackendPc.written_each, BackendPc.written_of_ne hi]
  | start hpc => exact view_congr rfl (by rw [hpc]; rfl) (by rw [hpc]; rfl)
  | entry hpc => exact view_congr rfl (by rw [hpc]; rfl) (by rw [hpc]; rfl)
  | test hpc =>
      refine view_congr rfl ?_ ?_
      · rw [hpc]
        cases s.running_ <;> rfl
      · rw [hpc]
        cases s.running_ <;> rfl
  | lock hpc => exact view_congr rfl (by rw [hpc]; rfl) (by rw [hpc]; rfl)
  | locked hpc =>
      refine view_congr rfl ?_ ?_
      · rw [hpc]
        cases s.asyncLoggers_.isEmpty <;> rfl
      · rw [hpc]
        cases s.asyncLoggers_.isEmpty <;> rfl
  | wait hpc => exact view_congr rfl (by rw [hpc]; rfl) (by rw [hpc]; rfl)
  | woken hpc => exact view_congr rfl (by rw [hpc]; rfl) (by rw [hpc]; rfl)
  | wakeup hpc => exact view_congr rfl (by rw [hpc]; rfl) (by rw [hpc]; rfl)
  | call hstop hpc => exact view_congr rfl Iff.rfl rfl
  | clear hstop => exact view_congr rfl Iff.rfl rfl
  | notify hstop =>
      refine view_congr rfl ?_ ?_
      · rw [BackendPc.working_notify_one]
      · exact BackendPc.written_notify_one s.pc i
  | ret hstop hpc => exact view_congr rfl Iff.rfl rfl

/-- **Every run of `AsyncLogging` is, for each logger, a run of its own.** -/
theorem view_reach (rollSize : ι → ℕ) (opened : ι → ℤ) {es : List (LogEvent ι α)}
    (hrun : run AsyncLogging.step (AsyncLogging.init rollSize opened) es = some s) (i : ι) :
    Reach step (init (rollSize i) (opened i)) (view s i) := by
  have hstart : view (AsyncLogging.init rollSize opened : AsyncLogging ι α) i
      = init (rollSize i) (opened i) := rfl
  have hkept := run_inv (I := fun u : AsyncLogging ι α => AsyncLogging.Sound u
    ∧ Reach step (init (rollSize i) (opened i)) (view u i)) ?_
    ⟨AsyncLogging.sound_init rollSize opened, [], by rw [hstart]; rfl⟩ hrun
  · exact hkept.2
  · rintro u e v ⟨hsound, hreach⟩ hs
    exact ⟨AsyncLogging.sound_step hsound hs, reach_trans step hreach (view_step hsound hs i)⟩

end View

/-! ## Rotation -/

/-- **The rotation of the buffers is safe.** In every state that appends of any
length, swaps and the steps of `appendBuffers_unlocked` lead to, in any order but
that a swap waits for the end of `appendBuffers_unlocked`: `currentBuffer_` is not
null; both spares are there and empty when a swap may come; there is a written
buffer where `back()` and `pop_back()` are called; and no buffer is in two places. -/
theorem rotation_safe (rollSize : ℕ) (now : ℤ) (es : List (RotationEvent α)) (s : LoggerRun α)
    (hrun : run step (init rollSize now) es = some s) :
    s.logger.currentBuffer_ ≠ none
      ∧ (s.pc = .idle → ∃ spare1 spare2, s.logger.buffer1_ = some spare1
          ∧ s.logger.buffer2_ = some spare2 ∧ s.logger.memory spare1 = []
          ∧ s.logger.memory spare2 = [])
      ∧ (s.pc = .spare1 → s.logger.buffer1_ = none → s.logger.buffersToWrite_ ≠ [])
      ∧ (s.pc = .spare2 → s.logger.buffer2_ = none → s.logger.buffersToWrite_ ≠ [])
      ∧ s.logger.held.Nodup := by
  have h : Rotating s :=
    run_inv (fun _ _ _ h hs => rotating_step h hs) (rotating_init rollSize now) hrun
  obtain ⟨hneed1, hneed2⟩ := h.places
  refine ⟨h.rotation.current, fun hpc => ?_, fun _ => hneed1, fun _ => hneed2, h.rotation.nodup⟩
  obtain ⟨h1, h2⟩ := h.rotation.spare (h.idle hpc)
  obtain ⟨spare1, hspare1⟩ := Option.ne_none_iff_exists'.mp h1
  obtain ⟨spare2, hspare2⟩ := Option.ne_none_iff_exists'.mp h2
  refine ⟨spare1, spare2, hspare1, hspare2, ?_, ?_⟩
  · apply h.rotation.clean
    simp [hspare1]
  · apply h.rotation.clean
    simp [hspare2]

/-- One line is written while the next one comes, and then the backend is at the
place the first one has left empty. -/
theorem rotation_safe_back :
    ∃ s : LoggerRun ℕ,
      run step (init 9 1)
          [.append [1], .swap, .append [2], .write 1 [] 0 0, .next] = some s
        ∧ s.pc = .spare1 ∧ s.logger.buffer1_ = none ∧ s.logger.buffersToWrite_ ≠ [] := by
  have heval : (run step (init 9 1 : LoggerRun ℕ)
      [.append [1], .swap, .append [2], .write 1 [] 0 0, .next]).map
        (fun s => (s.pc, s.logger.buffer1_)) = some (.spare1, none) := by
    decide
  obtain ⟨s, hrun, hs⟩ := Option.map_eq_some_iff.mp heval
  obtain ⟨hpc, hspare⟩ := Prod.mk.inj hs
  exact ⟨s, hrun, hpc, hspare, (rotation_safe 9 1 _ s hrun).2.2.1 hpc hspare⟩

end LoggerRun

end Libiak.Log
