/-
`AsyncLogging`: how a logger with bytes finds the backend.

`notEmpty_` is in the logger, `asyncLoggers_` in `AsyncLogging`, and the
notification is only sent when the flag is set; what links the three is `Sound`,
which holds also where waits end without a notification. The link is all the
backend needs: from every state a run reaches it comes, by steps of its own, to
one in which no logger holds a byte (`catches_up`).
-/
import Libiak.LogStop

set_option autoImplicit false

namespace Libiak.Log

open Libiak.Run

namespace AsyncLogging

open AsyncLogger

variable {ι α : Type*} [DecidableEq ι] {s t : AsyncLogging ι α} {e : LogEvent ι α}

/-! ## What every run keeps -/

/-- Files are open, registration is sound, and a backend that has been started
and not stopped is in its loop. -/
structure Registering (s : AsyncLogging ι α) : Prop where
  sound : Sound s
  opened : Opened s
  alive : s.running_ = true → s.pc ≠ .notStarted ∧ s.pc ≠ .exited

theorem registering_init (rollSize : ι → ℕ) {opened : ι → ℤ} (hopened : ∀ i, 0 < opened i) :
    Registering (init rollSize opened : AsyncLogging ι α) :=
  ⟨sound_init rollSize opened, opened_init rollSize hopened, fun h => by cases h⟩

/-- The backend leaves its loop only past a test of `running_`. -/
theorem alive_step (h : s.running_ = true → s.pc ≠ .notStarted ∧ s.pc ≠ .exited)
    (hstep : step s e = some t) : t.running_ = true → t.pc ≠ .notStarted ∧ t.pc ≠ .exited := by
  have hnotify : s.pc ≠ .notStarted ∧ s.pc ≠ .exited →
      s.pc.notify_one ≠ .notStarted ∧ s.pc.notify_one ≠ .exited := fun hpc =>
    ⟨BackendPc.notify_one_ne (by simp) hpc.1, BackendPc.notify_one_ne (by simp) hpc.2⟩
  have heach : ∀ loggers : List ι, BackendPc.each loggers ≠ .notStarted
      ∧ BackendPc.each loggers ≠ .exited := fun loggers =>
    ⟨BackendPc.each_ne loggers (by simp) rfl, BackendPc.each_ne loggers (by simp) rfl⟩
  cases step_moves hstep with
  | append i logline l hfree hl =>
      intro hrunning
      dsimp only
      split
      · exact h hrunning
      · exact hnotify (h hrunning)
  | test hpc =>
      intro hrunning
      dsimp only at hrunning ⊢
      rw [hrunning]
      simp
  | locked hpc =>
      intro hrunning
      dsimp only
      cases s.asyncLoggers_.isEmpty <;> simp
  | swap loggers hpc hl => exact fun _ => heach _
  | recycle i rest l hpc hl => exact fun _ => heach _
  | start hpc => exact fun _ => by simp
  | entry hpc => exact fun _ => by simp
  | lock hpc => exact fun _ => by simp
  | wait hpc => exact fun _ => by simp
  | woken hpc => exact fun _ => by simp
  | wakeup hpc => exact fun _ => by simp
  | write i written rest buffer l n results now later hpc hbuffer hl => exact fun _ => by simp
  | call hstop hpc => exact h
  | clear hstop => exact fun hrunning => absurd hrunning (by simp)
  | notify hstop => exact fun hrunning => hnotify (h hrunning)
  | ret hstop hpc => exact h

theorem registering_step (h : Registering s) (hstep : step s e = some t) : Registering t :=
  ⟨sound_step h.sound hstep, opened_step h.sound h.opened hstep, alive_step h.alive hstep⟩

/-! ## The backend by itself -/

/-- No buffer of a logger holds a byte, and none is on its way to a file. -/
def CaughtUp (s : AsyncLogging ι α) : Prop :=
  ∀ i, (s.loggers i).pending = [] ∧ (s.loggers i).buffersToWrite_ = []

/-- With no logger registered and none at work there is nothing to write. -/
theorem Sound.caughtUp (h : Sound s) (hnone : ∀ i, (s.loggers i).pending ≠ [] → i ∉ s.asyncLoggers_)
    (hidle : s.pc.working = []) : CaughtUp s := by
  intro i
  obtain ⟨-, hregistered, hpending, hwritten, -⟩ := h.placed i
  refine ⟨?_, hwritten (by rw [hidle]; exact List.not_mem_nil)⟩
  by_contra hne
  apply hnone i hne
  rw [← hregistered]
  by_contra hclear
  exact hne (hpending (by simpa using hclear))

/-- The swap of loggers that have a current buffer goes through. -/
theorem swapAll_some {loggers : ι → AsyncLogger α} {list : List ι}
    (hcurrent : ∀ i ∈ list, (loggers i).currentBuffer_ ≠ none) (hdistinct : list.Nodup) :
    ∃ loggers', swapAll loggers list = some loggers' := by
  induction list generalizing loggers with
  | nil => exact ⟨loggers, rfl⟩
  | cons i rest ih =>
      obtain ⟨hi, hrest⟩ := List.nodup_cons.mp hdistinct
      obtain ⟨current, hc⟩ := Option.ne_none_iff_exists'.mp (hcurrent i List.mem_cons_self)
      obtain ⟨l, hl⟩ : ∃ l, swapBuffersToWrite_locked (loggers i) = some l := by
        unfold swapBuffersToWrite_locked
        rw [hc]
        exact ⟨_, rfl⟩
      rw [swapAll, hl]
      apply ih _ hrest
      intro j hj
      have hji : j ≠ i := by
        rintro rfl
        exact hi hj
      rw [Function.update_of_ne hji]
      exact hcurrent j (List.mem_cons_of_mem i hj)

/-- The backend swaps, writes what it has taken and is at the test again. -/
theorem caughtUp_of_swap (h : Registering s) (hpc : s.pc = .swap) :
    ∃ es t, (∀ e ∈ es, e.ofBackend = true) ∧ run step s es = some t
      ∧ t.admitted = s.admitted ∧ t.stopPc = s.stopPc ∧ CaughtUp t := by
  obtain ⟨loggers, hl⟩ := swapAll_some (fun i _ => (h.sound.placed i).rotation.current)
    h.sound.distinct
  obtain ⟨u, hu⟩ : ∃ u, u = { s with
    asyncLoggers_ := [], loggers := loggers, pc := BackendPc.each s.asyncLoggers_ } := ⟨_, rfl⟩
  have hstep : step s .next = some u := by
    rw [step, next, hpc]
    simp only [hl, Option.map_some, hu]
  have hsound := sound_step h.sound hstep
  have hpending : ∀ i, (u.loggers i).pending = [] := by
    -- nobody is registered right after the swap
    intro i
    obtain ⟨-, hregistered, hpending, -, -⟩ := hsound.placed i
    apply hpending
    by_contra hset
    have hmem := hregistered.mp (by simpa using hset)
    rw [hu] at hmem
    exact absurd hmem List.not_mem_nil
  obtain ⟨t, ⟨es, hes, hrun, -, hstop, hadmitted, -, hkept⟩, ht, hpct⟩ :=
    quiet_each hsound (opened_step h.sound h.opened hstep) (by rw [hu])
  refine ⟨.next :: es, t, List.forall_mem_cons.mpr ⟨rfl, hes⟩,
    (run_cons step).mpr ⟨u, hstep, hrun⟩, by rw [hadmitted, hu], by rw [hstop, hu], ?_⟩
  apply ht.caughtUp
  · intro i hne
    exact absurd ((hkept i).trans (hpending i)) hne
  · rw [hpct]
    rfl

/-- The same, from anywhere between the entry of the thread and the swap: with a
logger registered no step on the way is a wait. -/
theorem caughtUp_of_idle (h : Registering s) (hrunning : s.running_ = true)
    (hidle : s.pc.working = []) :
    ∃ es t, (∀ e ∈ es, e.ofBackend = true) ∧ run step s es = some t
      ∧ t.admitted = s.admitted ∧ t.stopPc = s.stopPc ∧ CaughtUp t := by
  by_cases hnone : s.asyncLoggers_ = []
  · refine ⟨[], s, by simp, rfl, rfl, rfl, h.sound.caughtUp (fun i _ => ?_) hidle⟩
    rw [hnone]
    exact List.not_mem_nil
  · have hnotEmpty : s.asyncLoggers_.isEmpty = false := by simpa using hnone
    -- the way to the swap changes nothing but the place of the backend
    have hway : ∃ n, run step s (List.replicate n .next) = some { s with pc := .swap } := by
      have hlocked : run step { s with pc := .locked } [.next] = some { s with pc := .swap } := by
        rw [run, step, next]
        simp only [hnotEmpty]
        rfl
      have hlock : step { s with pc := .test } .next = some { s with pc := .lock } := by
        rw [step, next]
        simp only [hrunning, if_true]
      have htest : run step { s with pc := .test } [.next, .next, .next]
          = some { s with pc := .swap } := (run_cons step).mpr ⟨_, hlock, hlocked⟩
      have hentry : step { s with pc := .entry } .next = some { s with pc := .test } := by
        rw [step, next]
        simp only [hrunning, if_true]
      obtain ⟨hstarted, hloop⟩ := h.alive hrunning
      obtain ⟨pc, hpc⟩ : ∃ pc, s.pc = pc := ⟨_, rfl⟩
      have hself : s = { s with pc := pc } := by rw [← hpc]
      cases pc with
      | notStarted => exact absurd hpc hstarted
      | exited => exact absurd hpc hloop
      | entry =>
          refine ⟨4, ?_⟩
          rw [hself]
          exact (run_cons step).mpr ⟨_, hentry, htest⟩
      | test =>
          refine ⟨3, ?_⟩
          rw [hself]
          exact htest
      | lock =>
          refine ⟨2, ?_⟩
          rw [hself]
          exact hlocked
      | locked =>
          refine ⟨1, ?_⟩
          rw [hself]
          exact hlocked
      | wait => exact absurd (h.sound.asleep (Or.inl hpc)) hnone
      | waiting => exact absurd (h.sound.asleep (Or.inr hpc)) hnone
      | woken =>
          refine ⟨1, ?_⟩
          rw [hself]
          rfl
      | swap =>
          refine ⟨0, ?_⟩
          rw [hself]
          rfl
      | writing i k rest =>
          rw [hpc] at hidle
          cases hidle
    obtain ⟨n, hn⟩ := hway
    have hswap : Registering { s with pc := .swap } := by
      refine ⟨h.sound.control rfl rfl hidle.symm (fun i => ?_) (by simp), h.opened, by simp⟩
      cases hpc : s.pc <;> rw [hpc] at hidle <;> first | rfl | cases hidle
    obtain ⟨fs, t, hfs, hrun, hadmitted, hstop, hdone⟩ := caughtUp_of_swap hswap rfl
    refine ⟨List.replicate n .next ++ fs, t, List.forall_mem_append.mpr ⟨?_, hfs⟩,
      (run_append step).mpr ⟨_, hn, hrun⟩, hadmitted, hstop, hdone⟩
    intro e he
    rw [List.eq_of_mem_replicate he]
    rfl

/-- **The backend catches up by itself.** -/
theorem catches_up (h : Registering s) (hrunning : s.running_ = true) :
    ∃ es t, (∀ e ∈ es, e.ofBackend = true) ∧ run step s es = some t
      ∧ t.admitted = s.admitted ∧ t.stopPc = s.stopPc ∧ CaughtUp t := by
  by_cases hidle : s.pc.working = []
  · exact caughtUp_of_idle h hrunning hidle
  · obtain ⟨i, k, rest, hpc⟩ : ∃ i k rest, s.pc = .writing i k rest := by
      cases hpc : s.pc <;> rw [hpc] at hidle <;> first
        | exact absurd rfl hidle
        | exact ⟨_, _, _, rfl⟩
    -- the loop it is in comes to an end first
    obtain ⟨u, hquiet, hu, hou, hpcu⟩ := quiet_writing h.sound h.opened hpc
    obtain ⟨v, hquiet', hv, hpcv⟩ := quiet_each hu hou hpcu
    obtain ⟨es, hes, hrun, hrunningv, hstop, hadmitted, -, -⟩ := quiet_trans hquiet hquiet'
    have hregistering : Registering v :=
      run_inv (I := Registering) (fun _ _ _ ha hs => registering_step ha hs) h hrun
    obtain ⟨fs, t, hfs, hrun', hadmitted', hstop', hdone⟩ :=
      caughtUp_of_idle hregistering (hrunningv.trans hrunning) (by rw [hpcv]; rfl)
    exact ⟨es ++ fs, t, List.forall_mem_append.mpr ⟨hes, hfs⟩,
      (run_append step).mpr ⟨v, hrun, hrun'⟩, hadmitted'.trans hadmitted, hstop'.trans hstop,
      hdone⟩

/-- **Registration of dirty loggers.** For any number of loggers, in every state
that a run of appends, of steps of the backend, of `start()` and of `stop()`
reaches, with waits that may end by themselves: a logger's `notEmpty_` is set if
and only if it occurs in `asyncLoggers_`, no logger occurs there twice, a logger
with bytes in `currentBuffer_` or `buffers_` does occur there, and the backend
does not wait while a logger does. So, as long as `running_` is set, the backend
has steps of its own to a state in which everything that has been appended is in
the files; for these the files have to be open, which they are when the loggers
were made with a clock past its epoch. -/
theorem registration (rollSize : ι → ℕ) (opened : ι → ℤ) (es : List (LogEvent ι α))
    (hrun : run step (init rollSize opened) es = some s) :
    (∀ i, (s.loggers i).notEmpty_ = true ↔ i ∈ s.asyncLoggers_)
      ∧ s.asyncLoggers_.Nodup
      ∧ (∀ i, (s.loggers i).bytes (s.loggers i).currentBuffer_.toList ≠ []
          ∨ (s.loggers i).bytes (s.loggers i).buffers_ ≠ [] → i ∈ s.asyncLoggers_)
      ∧ (s.asyncLoggers_ ≠ [] → s.pc ≠ .waiting)
      ∧ ((∀ i, 0 < opened i) → s.running_ = true →
          ∃ fs t, (∀ e ∈ fs, e.ofBackend = true) ∧ run step s fs = some t
            ∧ t.admitted = s.admitted ∧ t.stopPc = s.stopPc ∧ CaughtUp t) := by
  have h : Sound s :=
    run_inv (fun _ _ _ h hs => sound_step h hs) (sound_init rollSize opened) hrun
  refine ⟨fun i => (h.placed i).registered, h.distinct, fun i hbytes => ?_,
    fun hne hpc => hne (h.asleep (Or.inr hpc)), fun hopened => ?_⟩
  · -- with the flag clear nothing would be pending
    obtain ⟨-, hregistered, hpending, -, -⟩ := h.placed i
    rw [← hregistered]
    by_contra hclear
    have hnone := hpending (by simpa using hclear)
    unfold pending at hnone
    obtain ⟨h1, h2⟩ := List.append_eq_nil_iff.mp hnone
    rcases hbytes with hbytes | hbytes
    · exact hbytes h2
    · exact hbytes h1
  · exact catches_up (run_inv (fun _ _ _ h hs => registering_step h hs)
      (registering_init rollSize hopened) hrun)

/-- Two loggers; the wait ends by itself before anything is appended, and the
second logger's line comes between the swap and the test. -/
theorem registration_two :
    ∃ s : AsyncLogging ℕ ℕ,
      run step (init (fun _ => 1) (fun _ => 1))
          [.start, .next, .next, .next, .next, .next, .wakeup, .append 0 [1], .next, .next,
            .append 1 [2]] = some s
      ∧ ((s.loggers 1).notEmpty_ = true ↔ 1 ∈ s.asyncLoggers_)
      ∧ (s.running_ = true →
          ∃ fs t, (∀ e ∈ fs, e.ofBackend = true) ∧ run step s fs = some t
            ∧ t.admitted = s.admitted ∧ t.stopPc = s.stopPc ∧ CaughtUp t) := by
  obtain ⟨s, hrun⟩ := Option.isSome_iff_exists.mp (show (run step
    (init (fun _ => 1) (fun _ => 1) : AsyncLogging ℕ ℕ)
    [.start, .next, .next, .next, .next, .next, .wakeup, .append 0 [1], .next, .next,
      .append 1 [2]]).isSome = true by decide +kernel)
  have h := registration (fun _ => 1) (fun _ => 1) _ hrun
  exact ⟨s, hrun, h.1 1, h.2.2.2.2 fun _ => by decide⟩

end AsyncLogging

end Libiak.Log
