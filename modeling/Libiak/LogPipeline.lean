/-
The lines of every logger, from the lock to the files.

The machine of `AsyncLogging` is a conveyor for each logger: an append puts a
line on it, the swap takes a group away, a write delivers one, and every other
step lets it rest (`step_conveys`). So nothing is lost, repeated or reordered,
and no line is cut between two files (`pipeline_lines`).

The files are written through `fwrite`. What it returns is part of the event;
the result is for the runs in which no call of `LogFile::append`'s loop accepts
nothing, which is when that loop accepts the whole line.
-/
import Libiak.AsyncLogging

set_option autoImplicit false

namespace Libiak.Log.AsyncLogging

open Libiak.Run AsyncLogger

variable {ι α : Type*} [DecidableEq ι] {s t : AsyncLogging ι α} {e : LogEvent ι α}

/-! ## One step -/

/-- The buffers of logger `i` that have been swapped out and not been written. -/
def unwritten (s : AsyncLogging ι α) (i : ι) : List BufferPtr :=
  (s.loggers i).buffersToWrite_.drop (s.pc.written i)

/-- The lines an event puts on the conveyor of logger `i`. -/
def newLines (i : ι) : LogEvent ι α → List (List α)
  | .append j logline => if i = j then [logline] else []
  | _ => []

/-- Every line that is appended fits a buffer. -/
def Short (_ : AsyncLogging ι α) : LogEvent ι α → Prop
  | .append _ logline => logline.length < kBufferSize
  | _ => True

/-- No call of `fwrite` in the loop of `LogFile::append` accepts nothing. -/
def Accepts (_ : AsyncLogging ι α) : LogEvent ι α → Prop
  | .write _ results _ _ => 0 ∉ results
  | _ => True

instance (s : AsyncLogging ι α) : (e : LogEvent ι α) → Decidable (Short s e)
  | .append _ logline => inferInstanceAs (Decidable (logline.length < kBufferSize))
  | .start | .next | .write .. | .wakeup | .stop => isTrue trivial

instance (s : AsyncLogging ι α) : (e : LogEvent ι α) → Decidable (Accepts s e)
  | .write _ results _ _ => inferInstanceAs (Decidable (0 ∉ results))
  | .append .. | .start | .next | .wakeup | .stop => isTrue trivial

/-- The admitted lines are those of the appends. -/
theorem admitted_step (hstep : step s e = some t) (i : ι) :
    t.admitted i = s.admitted i ++ newLines i e := by
  cases step_moves hstep with
  | append j logline l hfree hl =>
      show Function.update s.admitted j (s.admitted j ++ [logline]) i = _
      by_cases hij : i = j
      · subst hij
        rw [Function.update_self, newLines, if_pos rfl]
      · rw [Function.update_of_ne hij, newLines, if_neg hij, List.append_nil]
  | _ => exact (List.append_nil _).symm

/-- **The machine is a conveyor for each logger.** -/
theorem step_conveys (h : Sound s) (hshort : Short s e) (hstep : step s e = some t) (i : ι)
    {c : Conveyor (List α)} (hc : Conveys (s.loggers i) (unwritten s i) c) :
    ∃ d, Conveyor.Step (newLines i e) c d ∧ Conveys (t.loggers i) (unwritten t i) d := by
  -- a step that leaves logger `i` alone lets its conveyor rest
  have hrest : newLines i e = [] → t.loggers i = s.loggers i → t.pc.written i = s.pc.written i →
      ∃ d, Conveyor.Step (newLines i e) c d ∧ Conveys (t.loggers i) (unwritten t i) d := by
    intro hnew hl hw
    refine ⟨c, ?_, ?_⟩
    · rw [hnew]
      exact .rest
    · rw [unwritten, hl, hw]
      exact hc
  have hrotation := (h.placed i).rotation
  unfold unwritten at hc
  cases step_moves hstep with
  | append j logline l hfree hl =>
      have hw : (if (s.loggers j).notEmpty_ then s.pc else s.pc.notify_one).written i
          = s.pc.written i := by
        split
        · rfl
        · exact BackendPc.written_notify_one s.pc i
      by_cases hij : i = j
      · -- the line joins the lines of the current buffer
        subst hij
        obtain ⟨l', hl', ha⟩ := append_appended hrotation logline
        obtain rfl := Option.some.inj (hl.symm.trans hl')
        obtain ⟨-, htoWrite, -, -⟩ := ha.frame
        obtain ⟨d, hd, hc'⟩ := conveys_append hrotation ha hshort
          (fun b hb => List.mem_of_mem_drop hb) hc
        refine ⟨d, ?_, ?_⟩
        · rw [newLines, if_pos rfl]
          exact hd
        · unfold unwritten
          dsimp only
          rw [hw, Function.update_self, htoWrite]
          exact hc'
      · exact hrest (if_neg hij) (Function.update_of_ne hij ..) hw
  | swap loggers hpc hl =>
      have hw : s.pc.written i = 0 := by
        rw [hpc]
        rfl
      by_cases hi : i ∈ s.asyncLoggers_
      · -- the full buffers are the batch now, and nothing of it is written yet
        have hidle : (s.loggers i).buffersToWrite_ = [] := by
          apply (h.placed i).idle
          rw [hpc]
          exact List.not_mem_nil
        rw [hidle, List.drop_nil] at hc
        obtain ⟨d, hd, hc'⟩ :=
          conveys_swap hrotation hidle ((swapAll_eq h.distinct hl i).1 hi) hc
        refine ⟨d, hd, ?_⟩
        unfold unwritten
        dsimp only
        rw [BackendPc.written_each, List.drop_zero]
        exact hc'
      · apply hrest rfl ((swapAll_eq h.distinct hl i).2 hi)
        rw [hw]
        exact BackendPc.written_each _ i
  | write j k rest buffer l n results now later hpc hbuffer hl =>
      by_cases hij : i = j
      · -- the next buffer of the batch goes to the file
        subst hij
        rw [hpc, BackendPc.written_self, List.drop_eq_getElem?_toList_append, hbuffer] at hc
        obtain ⟨d, hd, hc'⟩ := conveys_write hl hc
        obtain ⟨f, f', -, -, -, -, count, start, roll, flush, closed, logFile, hl'⟩ :=
          append_unlocked_cases hl
        refine ⟨d, hd, ?_⟩
        unfold unwritten
        dsimp only
        rw [BackendPc.written_self, Function.update_self]
        have htoWrite : l.buffersToWrite_ = (s.loggers i).buffersToWrite_ := by rw [hl']
        rw [htoWrite]
        exact hc'
      · apply hrest rfl (Function.update_of_ne hij ..)
        show (BackendPc.writing j (k + 1) rest).written i = s.pc.written i
        rw [hpc, BackendPc.written_of_ne hij, BackendPc.written_of_ne hij]
  | recycle j rest l hpc hl =>
      by_cases hij : i = j
      · -- the batch is written: the buffers are emptied, and no line with them
        subst hij
        rw [hpc, BackendPc.written_self, List.drop_length] at hc
        refine ⟨c, .rest, ?_⟩
        obtain ⟨spare1, spare2, memory, heq, -⟩ := recycle_eq hrotation
        have hnil : l.buffersToWrite_ = [] := by
          rw [heq] at hl
          obtain ⟨logFile, -, rfl⟩ := Option.map_eq_some_iff.mp hl
          rfl
        unfold unwritten
        dsimp only
        rw [Function.update_self, hnil, List.drop_nil]
        exact conveys_recycle hrotation hl hc
      · apply hrest rfl (Function.update_of_ne hij ..)
        rw [hpc, BackendPc.written_of_ne hij]
        exact BackendPc.written_each rest i
  | test hpc =>
      refine hrest rfl rfl ?_
      rw [hpc]
      cases s.running_ <;> rfl
  | locked hpc =>
      refine hrest rfl rfl ?_
      rw [hpc]
      cases s.asyncLoggers_.isEmpty <;> rfl
  | notify hstop => exact hrest rfl rfl (BackendPc.written_notify_one s.pc i)
  | call hstop hpc => exact hrest rfl rfl rfl
  | clear hstop => exact hrest rfl rfl rfl
  | ret hstop hpc => exact hrest rfl rfl rfl
  | start hpc => exact hrest rfl rfl (by rw [hpc]; rfl)
  | entry hpc => exact hrest rfl rfl (by rw [hpc]; rfl)
  | lock hpc => exact hrest rfl rfl (by rw [hpc]; rfl)
  | wait hpc => exact hrest rfl rfl (by rw [hpc]; rfl)
  | woken hpc => exact hrest rfl rfl (by rw [hpc]; rfl)
  | wakeup hpc => exact hrest rfl rfl (by rw [hpc]; rfl)

theorem accepted_step (h : Sound s) (haccepts : Accepts s e) (hstep : step s e = some t)
    (ha : ∀ i, Accepted (s.loggers i)) (i : ι) : Accepted (t.loggers i) := by
  cases step_moves hstep with
  | append j logline l hfree hl =>
      by_cases hij : i = j
      · subst hij
        obtain ⟨l', hl', happended⟩ := append_appended (h.placed i).rotation logline
        obtain rfl := Option.some.inj (hl.symm.trans hl')
        show Accepted (Function.update s.loggers i l i)
        rw [Function.update_self, Accepted, happended.frame.2.2.2]
        exact ha i
      · show Accepted (Function.update s.loggers j l i)
        rw [Function.update_of_ne hij]
        exact ha i
  | swap loggers hpc hl =>
      show Accepted (loggers i)
      by_cases hi : i ∈ s.asyncLoggers_
      · have hmoved := (swapAll_eq h.distinct hl i).1 hi
        rw [Accepted, (swap_frame (h.placed i).rotation hmoved).2.2]
        exact ha i
      · rw [(swapAll_eq h.distinct hl i).2 hi]
        exact ha i
  | write j k rest buffer l n results now later hpc hbuffer hl =>
      show Accepted (Function.update s.loggers j l i)
      by_cases hij : i = j
      · subst hij
        rw [Function.update_self]
        exact accepted_write (ha i) haccepts hl
      · rw [Function.update_of_ne hij]
        exact ha i
  | recycle j rest l hpc hl =>
      show Accepted (Function.update s.loggers j l i)
      by_cases hij : i = j
      · subst hij
        rw [Function.update_self]
        exact accepted_recycle (h.placed i).rotation (ha i) hl
      · rw [Function.update_of_ne hij]
        exact ha i
  | _ => exact ha i

/-! ## Runs -/

/-- Every logger is in its place, and its places hold the admitted lines. -/
structure Piped (s : AsyncLogging ι α) : Prop where
  sound : Sound s
  conveys : ∀ i, ∃ c, Conveys (s.loggers i) (unwritten s i) c ∧ c.items = s.admitted i

theorem piped_init (rollSize : ι → ℕ) (opened : ι → ℤ) :
    Piped (init rollSize opened : AsyncLogging ι α) := by
  refine ⟨sound_init rollSize opened, fun i => ?_⟩
  obtain ⟨c, hc, hitems, -⟩ := conveys_make (α := α) (rollSize i) (opened i)
  refine ⟨c, ?_, hitems⟩
  have hnil : unwritten (init rollSize opened : AsyncLogging ι α) i = [] := by
    show List.drop _ (AsyncLogger.make (rollSize i) (opened i) : AsyncLogger α).buffersToWrite_ = []
    rw [(make_frame (rollSize i) (opened i)).2.1, List.drop_nil]
  rw [hnil]
  exact hc

theorem piped_step (h : Piped s) (hshort : Short s e) (hstep : step s e = some t) : Piped t := by
  refine ⟨sound_step h.sound hstep, fun i => ?_⟩
  obtain ⟨c, hc, hitems⟩ := h.conveys i
  obtain ⟨d, hd, hconveys⟩ := step_conveys h.sound hshort hstep i hc
  exact ⟨d, hconveys, by rw [hd.items, hitems, admitted_step hstep]⟩

/-- The bytes of the admitted lines, place by place. -/
theorem Piped.bytes (h : Piped s) (i : ι) :
    (s.loggers i).passed ++ (s.loggers i).bytes (unwritten s i) ++ (s.loggers i).pending
      = (s.admitted i).flatten := by
  obtain ⟨c, hc, hitems⟩ := h.conveys i
  rw [hc.items, hitems]

/-- **The pipeline loses, repeats, reorders and splits nothing.** In every run,
also where waits end by themselves, in which the lines fit a buffer and `fwrite`
accepts what it is given, the contents of a logger's files, then the buffers
swapped out and not yet written, then `buffers_`, then `currentBuffer_`, are the
bytes of its lines in the order in which the lock admitted them; and each file
holds whole lines, the next file going on with the next line. -/
theorem pipeline_lines (rollSize : ι → ℕ) (opened : ι → ℤ) (es : List (LogEvent ι α))
    (hshort : Along step Short (init rollSize opened) es)
    (haccepts : Along step Accepts (init rollSize opened) es)
    (hrun : run step (init rollSize opened) es = some s) (i : ι) :
    ((s.loggers i).files.map LogFile.accepted).flatten
        ++ (s.loggers i).bytes (unwritten s i) ++ (s.loggers i).bytes (s.loggers i).buffers_
        ++ (s.loggers i).bytes (s.loggers i).currentBuffer_.toList
      = (s.admitted i).flatten
    ∧ ∃ groups : List (List (List α)),
        (s.loggers i).files.map LogFile.accepted = groups.map List.flatten
          ∧ groups.flatten <+: s.admitted i := by
  have hinv : Piped s ∧ ∀ i, Accepted (s.loggers i) := by
    refine run_inv_along (I := fun s : AsyncLogging ι α => Piped s ∧ ∀ i, Accepted (s.loggers i))
      (fun s e t h hC hs => ?_) ?_ (along_and step hshort haccepts) hrun
    · exact ⟨piped_step h.1 hC.1 hs, accepted_step h.1.sound hC.2 hs h.2⟩
    · refine ⟨piped_init rollSize opened, fun i => ?_⟩
      obtain ⟨c, -, -, haccepted, -⟩ := conveys_make (α := α) (rollSize i) (opened i)
      exact haccepted
  obtain ⟨hpiped, haccepted⟩ := hinv
  have hfiles : (s.loggers i).files.map LogFile.accepted
      = (s.loggers i).files.map LogFile.offered :=
    List.map_congr_left fun f hf => haccepted i f hf
  constructor
  · rw [← hpiped.bytes i, hfiles, passed, pending, List.append_assoc]
  · obtain ⟨c, hc, hitems⟩ := hpiped.conveys i
    exact ⟨c.out, hfiles.trans hc.files, hitems ▸ c.delivered_prefix⟩

/-- Two loggers. The wait of the backend ends by itself, the second line of the
first logger is appended between the swap and the write, and the write rolls the
file. -/
theorem pipeline_lines_two :
    ∃ s : AsyncLogging ℕ ℕ,
      run step (init (fun _ => 1) (fun _ => 1))
          [.start, .next, .next, .next, .next, .next, .wakeup, .append 0 [1, 2], .append 1 [3],
            .next, .next, .append 0 [4], .write 1 [1] 5 5, .next] = some s
      ∧ ((s.loggers 0).files.map LogFile.accepted).flatten
            ++ (s.loggers 0).bytes (unwritten s 0) ++ (s.loggers 0).bytes (s.loggers 0).buffers_
            ++ (s.loggers 0).bytes (s.loggers 0).currentBuffer_.toList
          = (s.admitted 0).flatten
      ∧ ∃ groups : List (List (List ℕ)),
          (s.loggers 0).files.map LogFile.accepted = groups.map List.flatten
            ∧ groups.flatten <+: s.admitted 0 := by
  obtain ⟨s, hrun⟩ := Option.isSome_iff_exists.mp (show (run step
    (init (fun _ => 1) (fun _ => 1) : AsyncLogging ℕ ℕ)
    [.start, .next, .next, .next, .next, .next, .wakeup, .append 0 [1, 2], .append 1 [3],
      .next, .next, .append 0 [4], .write 1 [1] 5 5, .next]).isSome = true by decide +kernel)
  exact ⟨s, hrun, pipeline_lines (fun _ => 1) (fun _ => 1) _ (by decide +kernel)
    (by decide +kernel) hrun 0⟩

end Libiak.Log.AsyncLogging
