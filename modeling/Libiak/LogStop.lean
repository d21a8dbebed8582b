/-
`AsyncLogging::stop()`: whether it comes back, and what it leaves behind.

`stop()` clears `running_` and notifies without taking the lock, and the backend
looks at `running_` only at the head of its loop. Two things can go wrong, each
in one window:

* the notification falls between the backend's test of `running_` and its wait.
  Nobody sends another one, so the backend sleeps and the join does not return
  (`notStranded_iff`);
* the call falls outside the stretch between that test and the swap, while a
  logger holds bytes. The backend does not come back for them (`drained_iff`).

Both conditions are about the state at one step of `stop()`, and exact.
-/
import Libiak.LogPipeline

set_option autoImplicit false

namespace Libiak.Log

open Libiak.Run

/-- The backend has passed the test of `running_` and has not swapped. -/
def BackendPc.beforeSwap {ι : Type*} : BackendPc ι → Bool
  | .lock | .locked | .wait | .waiting | .woken | .swap => true
  | _ => false

@[simp] theorem BackendPc.beforeSwap_notify_one {ι : Type*} (pc : BackendPc ι) :
    pc.notify_one.beforeSwap = pc.beforeSwap := by
  cases pc <;> rfl

theorem BackendPc.each_cases {ι : Type*} (loggers : List ι) :
    BackendPc.each loggers = .test ∨ ∃ i rest, BackendPc.each loggers = .writing i 0 rest := by
  cases loggers with
  | nil => exact Or.inl rfl
  | cons i rest => exact Or.inr ⟨i, rest, rfl⟩

/-- The steps that the backend takes by itself. -/
def LogEvent.ofBackend {ι α : Type*} : LogEvent ι α → Bool
  | .next | .write .. => true
  | _ => false

namespace AsyncLogging

open AsyncLogger

variable {ι α : Type*} [DecidableEq ι] {s t : AsyncLogging ι α} {e : LogEvent ι α}

omit [DecidableEq ι] in
theorem short_of_backend (he : e.ofBackend = true) (s : AsyncLogging ι α) : Short s e := by
  cases e with
  | append i logline => cases he
  | _ => trivial

/-! ## `stop()` is called on a started backend -/

/-- Past the call of `stop()` the backend has been started, and past its store
`running_` is false. -/
structure Stopping (s : AsyncLogging ι α) : Prop where
  started : s.stopPc ≠ .notCalled → s.pc ≠ .notStarted ∧ s.pc ≠ .entry
  cleared : s.stopPc ≠ .notCalled → s.stopPc ≠ .called → s.running_ = false

omit [DecidableEq ι] in
theorem stopping_init (rollSize : ι → ℕ) (opened : ι → ℤ) :
    Stopping (init rollSize opened : AsyncLogging ι α) :=
  ⟨fun h => absurd rfl h, fun h => absurd rfl h⟩

theorem stopping_step (h : Stopping s) (hstep : step s e = some t) : Stopping t := by
  obtain ⟨h1, h2⟩ := h
  have hnotify : s.pc ≠ .notStarted ∧ s.pc ≠ .entry →
      s.pc.notify_one ≠ .notStarted ∧ s.pc.notify_one ≠ .entry := fun hpc =>
    ⟨BackendPc.notify_one_ne (by simp) hpc.1, BackendPc.notify_one_ne (by simp) hpc.2⟩
  have heach : ∀ loggers : List ι, BackendPc.each loggers ≠ .notStarted
      ∧ BackendPc.each loggers ≠ .entry := fun loggers =>
    ⟨BackendPc.each_ne loggers (by simp) rfl, BackendPc.each_ne loggers (by simp) rfl⟩
  cases step_moves hstep with
  | append i logline l hfree hl =>
      refine ⟨fun hs => ?_, h2⟩
      dsimp only
      split
      · exact h1 hs
      · exact hnotify (h1 hs)
  | start hpc => exact ⟨fun hs => absurd hpc (h1 hs).1, fun hs => absurd hpc (h1 hs).1⟩
  | test hpc =>
      refine ⟨fun _ => ?_, h2⟩
      dsimp only
      cases s.running_ <;> simp
  | locked hpc =>
      refine ⟨fun _ => ?_, h2⟩
      dsimp only
      cases s.asyncLoggers_.isEmpty <;> simp
  | swap loggers hpc hl => exact ⟨fun _ => heach _, h2⟩
  | recycle i rest l hpc hl => exact ⟨fun _ => heach _, h2⟩
  | entry hpc => exact ⟨fun _ => by simp, h2⟩
  | lock hpc => exact ⟨fun _ => by simp, h2⟩
  | wait hpc => exact ⟨fun _ => by simp, h2⟩
  | woken hpc => exact ⟨fun _ => by simp, h2⟩
  | wakeup hpc => exact ⟨fun _ => by simp, h2⟩
  | write i written rest buffer l n results now later hpc hbuffer hl =>
      exact ⟨fun _ => by simp, h2⟩
  | call hstop hpc => exact ⟨fun _ => hpc, fun _ hs => absurd rfl hs⟩
  | clear hstop => exact ⟨fun _ => h1 (by rw [hstop]; decide), fun _ _ => rfl⟩
  | notify hstop =>
      exact ⟨fun _ => hnotify (h1 (by rw [hstop]; decide)),
        fun _ _ => h2 (by rw [hstop]; decide) (by rw [hstop]; decide)⟩
  | ret hstop hpc =>
      exact ⟨fun _ => h1 (by rw [hstop]; decide),
        fun _ _ => h2 (by rw [hstop]; decide) (by rw [hstop]; decide)⟩

/-! ## The notification -/

/-- The backend is between its test of `running_` and its wait, and nothing but
a notification will keep it from sleeping. -/
def Missed (s : AsyncLogging ι α) : Prop :=
  s.pc = .wait ∨ ((s.pc = .lock ∨ s.pc = .locked) ∧ s.asyncLoggers_ = [])

/-- `stop()` has notified and the backend is asleep. -/
def Stranded (s : AsyncLogging ι α) : Prop :=
  s.running_ = false ∧ s.stopPc = .notified ∧ s.pc = .waiting

/-- When `stop()` notifies, the backend is not about to sleep. -/
def Heard (s : AsyncLogging ι α) : LogEvent ι α → Prop
  | .stop => s.stopPc = .cleared → ¬ Missed s
  | _ => True

instance (s : AsyncLogging ι α) : Decidable (Missed s) :=
  inferInstanceAs (Decidable (_ ∨ _))

instance (s : AsyncLogging ι α) : (e : LogEvent ι α) → Decidable (Heard s e)
  | .stop => inferInstanceAs (Decidable (_ → _))
  | .append .. | .start | .next | .write .. | .wakeup => isTrue trivial

/-- Past the store of `stop()` the backend is not about to sleep, and past the
notification it is not asleep. -/
structure Awake (s : AsyncLogging ι α) : Prop where
  stopped : s.stopPc ≠ .notCalled ∧ s.stopPc ≠ .called
  heard : ¬ Missed s
  awake : s.stopPc ≠ .cleared → s.pc ≠ .waiting

/-- With `running_` cleared nothing brings the backend back before its wait. -/
theorem awake_step (h : Stopping s) (ha : Awake s) (hstep : step s e = some t) : Awake t := by
  obtain ⟨hstopped, hheard, hawake⟩ := ha
  have hrunning : s.running_ = false := h.cleared hstopped.1 hstopped.2
  have hstarted := h.started hstopped.1
  unfold Missed at hheard
  cases step_moves hstep with
  | append i logline l hfree hl =>
      -- an append can wake the backend and register a logger, and both keep it from its wait
      refine ⟨hstopped, ?_, ?_⟩
      · rintro (hpc | ⟨hpc, hempty⟩)
        · apply hheard
          left
          dsimp only at hpc
          split at hpc
          · exact hpc
          · exact BackendPc.eq_of_notify_one (by simp) hpc
        · apply hheard
          right
          dsimp only at hpc hempty
          split at hempty
          · rename_i hwas
            rw [if_pos hwas] at hpc
            exact ⟨hpc, hempty⟩
          · exact absurd hempty (by simp)
      · intro hs
        dsimp only
        split
        · exact hawake hs
        · exact BackendPc.notify_one_ne_waiting s.pc
  | start hpc => exact absurd hpc hstarted.1
  | entry hpc => exact absurd hpc hstarted.2
  | test hpc =>
      rw [hrunning]
      exact ⟨hstopped, by simp [Missed], by simp⟩
  | lock hpc =>
      refine ⟨hstopped, ?_, by simp⟩
      rintro (hpc' | ⟨-, hempty⟩)
      · cases hpc'
      · exact hheard (Or.inr ⟨Or.inl hpc, hempty⟩)
  | locked hpc =>
      -- the backend that has the lock finds a logger: the window was not hit
      have hsome : s.asyncLoggers_.isEmpty = false := by
        cases hempty : s.asyncLoggers_ with
        | nil => exact absurd (Or.inr ⟨Or.inr hpc, hempty⟩) hheard
        | cons i rest => rfl
      rw [hsome]
      exact ⟨hstopped, by simp [Missed], by simp⟩
  | wait hpc => exact absurd (Or.inl hpc) hheard
  | woken hpc => exact ⟨hstopped, by simp [Missed], by simp⟩
  | wakeup hpc => exact ⟨hstopped, by simp [Missed], by simp⟩
  | swap loggers hpc hl =>
      rcases BackendPc.each_cases s.asyncLoggers_ with heq | ⟨i, rest, heq⟩
      · rw [heq]
        exact ⟨hstopped, by simp [Missed], by simp⟩
      · rw [heq]
        exact ⟨hstopped, by simp [Missed], by simp⟩
  | recycle i rest l hpc hl =>
      rcases BackendPc.each_cases rest with heq | ⟨j, rest, heq⟩
      · rw [heq]
        exact ⟨hstopped, by simp [Missed], by simp⟩
      · rw [heq]
        exact ⟨hstopped, by simp [Missed], by simp⟩
  | write i written rest buffer l n results now later hpc hbuffer hl =>
      exact ⟨hstopped, by simp [Missed], by simp⟩
  | call hstop hpc => exact absurd hstop hstopped.1
  | clear hstop => exact absurd hstop hstopped.2
  | notify hstop =>
      refine ⟨⟨by simp, by simp⟩, ?_, fun _ => ?_⟩
      · rintro (hpc | ⟨hpc | hpc, hempty⟩)
        · exact hheard (Or.inl (BackendPc.eq_of_notify_one (by simp) hpc))
        · exact hheard (Or.inr ⟨Or.inl (BackendPc.eq_of_notify_one (by simp) hpc), hempty⟩)
        · exact hheard (Or.inr ⟨Or.inr (BackendPc.eq_of_notify_one (by simp) hpc), hempty⟩)
      · exact BackendPc.notify_one_ne_waiting s.pc
  | ret hstop hpc =>
      exact ⟨⟨by simp, by simp⟩, hheard, fun _ => hawake (by rw [hstop]; simp)⟩

/-- A backend that is about to sleep, and that nothing notifies any more, does, by steps of
its own. -/
theorem missed_sleeps (hrunning : s.running_ = false) (hstop : s.stopPc = .notified)
    (hmissed : Missed s) :
    ∃ fs t, (∀ e ∈ fs, e.ofBackend = true) ∧ run step s fs = some t ∧ Stranded t := by
  have hwait : ∀ u : AsyncLogging ι α, u.running_ = false → u.stopPc = .notified →
      u.pc = .wait → ∃ t, run step u [.next] = some t ∧ Stranded t := by
    intro u h1 h2 h3
    refine ⟨{ u with pc := .waiting }, ?_, h1, h2, rfl⟩
    rw [run, step, next, h3]
    rfl
  have hlocked : ∀ u : AsyncLogging ι α, u.running_ = false → u.stopPc = .notified →
      u.pc = .locked → u.asyncLoggers_ = [] →
      ∃ t, run step u [.next, .next] = some t ∧ Stranded t := by
    intro u h1 h2 h3 h4
    obtain ⟨t, ht, hstranded⟩ := hwait { u with pc := .wait } h1 h2 rfl
    refine ⟨t, (run_cons step).mpr ⟨_, ?_, ht⟩, hstranded⟩
    rw [step, next, h3, h4]
    rfl
  rcases hmissed with hpc | ⟨hpc | hpc, hempty⟩
  · obtain ⟨t, ht, hstranded⟩ := hwait s hrunning hstop hpc
    exact ⟨[.next], t, by simp [LogEvent.ofBackend], ht, hstranded⟩
  · obtain ⟨t, ht, hstranded⟩ := hlocked { s with pc := .locked } hrunning hstop rfl hempty
    refine ⟨[.next, .next, .next], t, by simp [LogEvent.ofBackend],
      (run_cons step).mpr ⟨_, ?_, ht⟩, hstranded⟩
    rw [step, next, hpc]
  · obtain ⟨t, ht, hstranded⟩ := hlocked s hrunning hstop hpc hempty
    exact ⟨[.next, .next], t, by simp [LogEvent.ofBackend], ht, hstranded⟩

/-- A notification that falls into the window is lost. -/
theorem missed_stranded (h : Stopping s) (hstop : s.stopPc = .cleared) (hmissed : Missed s) :
    ∃ fs t, LogEvent.wakeup ∉ fs ∧ run step s fs = some t ∧ Stranded t := by
  have hrunning : s.running_ = false :=
    h.cleared (by rw [hstop]; decide) (by rw [hstop]; decide)
  have hpc : s.pc.notify_one = s.pc := by
    apply BackendPc.notify_one_of_ne
    intro hwaiting
    unfold Missed at hmissed
    simp [hwaiting] at hmissed
  obtain ⟨fs, t, hfs, ht, hstranded⟩ :=
    missed_sleeps (s := { s with stopPc := .notified }) hrunning rfl hmissed
  refine ⟨.stop :: fs, t, ?_, (run_cons step).mpr ⟨_, ?_, ht⟩, hstranded⟩
  · intro hmem
    rcases List.mem_cons.mp hmem with heq | hmem
    · cases heq
    · exact absurd (hfs .wakeup hmem) Bool.false_ne_true
  · rw [step, stop, hstop]
    simp only [hpc]

/-- **`stop()` strands the backend exactly through its window.** In every run in
which `stop()` does not notify while the backend is between its test of
`running_` and its wait with no logger registered, no state has the backend
asleep after the notification. And in a state of any run in which `stop()` is
about to notify, that no state reached from there has it asleep after the
notification, where no wait ends by itself, holds if and only if the backend is
not in that window. -/
theorem notStranded_iff (rollSize : ι → ℕ) (opened : ι → ℤ) (es : List (LogEvent ι α)) :
    (Along step Heard (init rollSize opened) es →
        Throughout step (fun t => ¬ Stranded t) (init rollSize opened) es)
      ∧ ∀ s, run step (init rollSize opened) es = some s → s.stopPc = .cleared →
        ((∀ fs t, LogEvent.wakeup ∉ fs → run step s fs = some t → ¬ Stranded t)
          ↔ ¬ Missed s) := by
  constructor
  · intro hC
    refine throughout_of_along (C := Heard)
      (I := fun s : AsyncLogging ι α =>
        Stopping s ∧ (s.stopPc = .notified ∨ s.stopPc = .returned → Awake s)) ?_ ?_ hC ?_
    · rintro s ⟨-, hawake⟩ ⟨-, hstop, hpc⟩
      exact (hawake (Or.inl hstop)).awake (by rw [hstop]; decide) hpc
    · rintro s e t ⟨hstopping, hawake⟩ hheard hstep
      refine ⟨stopping_step hstopping hstep, fun hstop => ?_⟩
      -- the notification is the step that has to be heard
      by_cases hs : s.stopPc = .notified ∨ s.stopPc = .returned
      · exact awake_step hstopping (hawake hs) hstep
      · cases step_moves hstep with
        | notify hcleared =>
            refine awake_step hstopping ⟨?_, hheard hcleared, fun hne => absurd hcleared hne⟩ hstep
            rw [hcleared]
            decide
        | ret hnotified hpc => exact absurd (Or.inl hnotified) hs
        | call hnot hpc => simp at hstop
        | clear hcalled => simp at hstop
        | _ => exact absurd hstop hs
    · exact ⟨stopping_init rollSize opened, fun h => by simp [init] at h⟩
  · intro s hrun hstop
    have hstopping : Stopping s :=
      run_inv (fun _ _ _ h hs => stopping_step h hs) (stopping_init rollSize opened) hrun
    constructor
    · intro hnever hmissed
      obtain ⟨fs, t, hfs, ht, hstranded⟩ := missed_stranded hstopping hstop hmissed
      exact hnever fs t hfs ht hstranded
    · rintro hheard fs t - ht ⟨-, hnotified, hpc⟩
      have hawake : Awake s := by
        refine ⟨?_, hheard, fun hne => absurd hstop hne⟩
        rw [hstop]
        decide
      have hinv : Stopping t ∧ Awake t := by
        refine run_inv (I := fun s : AsyncLogging ι α => Stopping s ∧ Awake s) ?_
          ⟨hstopping, hawake⟩ ht
        exact fun s e t h hs => ⟨stopping_step h.1 hs, awake_step h.1 h.2 hs⟩
      exact hinv.2.awake (by rw [hnotified]; decide) hpc

/-- The backend sleeps when `stop()` is called. -/
theorem notStranded_one :
    Throughout step (fun t => ¬ Stranded t)
      (init (fun _ => 1) (fun _ => 1) : AsyncLogging ℕ ℕ)
      [.start, .next, .next, .next, .next, .next, .stop, .stop, .stop, .next, .next, .next,
        .stop] :=
  (notStranded_iff (fun _ => 1) (fun _ => 1) _).1 (by decide)

/-- The run that shows the condition is needed: the backend has tested
`running_` when `stop()` clears it and notifies, and goes to sleep. -/
theorem stop_stranded :
    ∃ t, run step (init (fun _ => 1) (fun _ => 1) : AsyncLogging ℕ ℕ)
        [.start, .next, .next, .stop, .stop, .stop, .next, .next, .next] = some t
      ∧ Stranded t := by
  have heval : (run step (init (fun _ => 1) (fun _ => 1) : AsyncLogging ℕ ℕ)
      [.start, .next, .next, .stop, .stop, .stop, .next, .next, .next]).map
        (fun t => (t.running_, t.stopPc, t.pc)) = some (false, .notified, .waiting) := by
    decide
  obtain ⟨t, hrun, ht⟩ := Option.map_eq_some_iff.mp heval
  simp only [Prod.mk.injEq] at ht
  exact ⟨t, hrun, ht.1, ht.2.1, ht.2.2⟩

/-! ## What is left behind -/

/-- The bytes that the producers have lost sight of. -/
def handed (s : AsyncLogging ι α) (i : ι) : List α :=
  (s.loggers i).passed ++ (s.loggers i).bytes (unwritten s i)

/-- All bytes of the lines that were admitted for logger `i` before `stop()` was
called have been passed to its files, and what its buffers hold is of later
lines. -/
structure Drained (s : AsyncLogging ι α) (i : ι) : Prop where
  passed : (s.before i).flatten <+: (s.loggers i).passed
  written : (s.loggers i).buffersToWrite_ = []
  later : (s.loggers i).pending <:+ ((s.admitted i).drop (s.before i).length).flatten

/-- When `stop()` is called, the backend has still to swap, or no registered
logger holds bytes. -/
def Drains (s : AsyncLogging ι α) : LogEvent ι α → Prop
  | .stop => s.stopPc = .notCalled →
      s.pc.beforeSwap = true ∨ ∀ i ∈ s.asyncLoggers_, (s.loggers i).pending = []
  | _ => True

instance (s : AsyncLogging ι α) : (e : LogEvent ι α) → Decidable (Drains s e)
  | .stop => inferInstanceAs (Decidable (_ → _ ∨ _))
  | .append .. | .start | .next | .write .. | .wakeup => isTrue trivial

/-- What has been handed over stays handed over. -/
theorem handed_step (h : Piped s) (hshort : Short s e) (hstep : step s e = some t) (i : ι) :
    handed s i <+: handed t i := by
  obtain ⟨c, hc, -⟩ := h.conveys i
  obtain ⟨d, hd, hc'⟩ := step_conveys h.sound hshort hstep i hc
  unfold handed
  rw [hc.handed, hc'.handed]
  obtain ⟨more, hmore⟩ := hd.handed
  rw [← hmore, List.flatten_append]
  exact List.prefix_append _ _

/-- With nothing pending everything admitted has been handed over. -/
theorem Piped.handed_all (h : Piped s) {i : ι} (hpending : (s.loggers i).pending = []) :
    handed s i = (s.admitted i).flatten := by
  rw [← h.bytes i, hpending, List.append_nil]
  rfl

/-- A backend that has still to swap does so before anything else, and nothing
is pending right after it. -/
theorem beforeSwap_step (h : Sound s) (hs : s.pc.beforeSwap = true) (hstep : step s e = some t) :
    t.pc.beforeSwap = true ∨ ∀ i, (t.loggers i).pending = [] := by
  cases step_moves hstep with
  | append i logline l hfree hl =>
      left
      dsimp only
      split
      · exact hs
      · rw [BackendPc.beforeSwap_notify_one]
        exact hs
  | swap loggers hpc hl =>
      right
      intro i
      obtain ⟨hrotation, hregistered, hpending, hidle, -⟩ := h.placed i
      by_cases hi : i ∈ s.asyncLoggers_
      · refine pending_swap hrotation (hidle ?_) ((swapAll_eq h.distinct hl i).1 hi)
        rw [hpc]
        exact List.not_mem_nil
      · show (loggers i).pending = []
        rw [(swapAll_eq h.distinct hl i).2 hi]
        apply hpending
        by_contra hne
        exact hi (hregistered.mp (by simpa using hne))
  | locked hpc =>
      left
      dsimp only
      cases s.asyncLoggers_.isEmpty <;> rfl
  | lock hpc => exact Or.inl rfl
  | wait hpc => exact Or.inl rfl
  | woken hpc => exact Or.inl rfl
  | wakeup hpc => exact Or.inl rfl
  | notify hstop =>
      left
      rw [BackendPc.beforeSwap_notify_one]
      exact hs
  | call hstop hpc => exact Or.inl hs
  | clear hstop => exact Or.inl hs
  | ret hstop hpc => exact Or.inl hs
  | start hpc => rw [hpc] at hs; cases hs
  | entry hpc => rw [hpc] at hs; cases hs
  | test hpc => rw [hpc] at hs; cases hs
  | recycle i rest l hpc hl => rw [hpc] at hs; cases hs
  | write i written rest buffer l n results now later hpc hbuffer hl => rw [hpc] at hs; cases hs

/-- What was admitted before the call was admitted, and has been handed over
unless the backend is still to swap. -/
structure Kept (s : AsyncLogging ι α) : Prop where
  before : ∀ i, s.before i <+: s.admitted i
  handed : s.pc.beforeSwap = true ∨ ∀ i, (s.before i).flatten <+: handed s i

theorem before_step (hstep : step s e = some t) (i : ι) :
    t.before i = s.before i ∨ (e = .stop ∧ s.stopPc = .notCalled ∧ t.before i = s.admitted i) := by
  cases step_moves hstep with
  | call hstop hpc => exact Or.inr ⟨rfl, hstop, rfl⟩
  | _ => exact Or.inl rfl

theorem kept_step (h : Piped s) (hk : Kept s) (hshort : Short s e)
    (hcall : e = .stop → s.stopPc ≠ .notCalled) (hstep : step s e = some t) : Kept t := by
  have hbefore : ∀ i, t.before i = s.before i := by
    intro i
    rcases before_step hstep i with heq | ⟨he, hstop, -⟩
    · exact heq
    · exact absurd hstop (hcall he)
  have hadmitted : ∀ i, t.before i <+: t.admitted i := by
    intro i
    rw [hbefore, admitted_step hstep]
    exact (hk.before i).trans (List.prefix_append _ _)
  refine ⟨hadmitted, ?_⟩
  rcases hk.handed with hs | hhanded
  · rcases beforeSwap_step h.sound hs hstep with ht | hpending
    · exact Or.inl ht
    · right
      intro i
      rw [(piped_step h hshort hstep).handed_all (hpending i)]
      obtain ⟨later, hlater⟩ := hadmitted i
      rw [← hlater, List.flatten_append]
      exact List.prefix_append _ _
  · right
    intro i
    rw [hbefore]
    exact (hhanded i).trans (handed_step h hshort hstep i)

/-- The call itself, under its condition. -/
theorem kept_call (h : Piped s) (hstop : s.stopPc = .notCalled) (hdrains : Drains s .stop) :
    Kept { s with stopPc := .called, before := s.admitted } := by
  refine ⟨fun i => List.prefix_refl _, ?_⟩
  rcases hdrains hstop with hs | hpending
  · exact Or.inl hs
  · right
    intro i
    have hnone : (s.loggers i).pending = [] := by
      obtain ⟨-, hregistered, hnone, -, -⟩ := h.sound.placed i
      by_cases hi : i ∈ s.asyncLoggers_
      · exact hpending i hi
      · apply hnone
        by_contra hne
        exact hi (hregistered.mp (by simpa using hne))
    exact ⟨[], (List.append_nil _).trans (h.handed_all hnone).symm⟩

/-- When the backend is out of its loop, kept is drained. -/
theorem Kept.drained (h : Piped s) (hk : Kept s) (hpc : s.pc = .exited) (i : ι) : Drained s i := by
  have hnone : (s.loggers i).buffersToWrite_ = [] := by
    apply (h.sound.placed i).idle
    rw [hpc]
    exact List.not_mem_nil
  have hunwritten : unwritten s i = [] := by
    unfold unwritten
    rw [hnone, List.drop_nil]
  have hpassed : (s.before i).flatten <+: (s.loggers i).passed := by
    rcases hk.handed with hs | hhanded
    · rw [hpc] at hs
      cases hs
    · have hi := hhanded i
      unfold AsyncLogging.handed at hi
      rw [hunwritten] at hi
      simpa [bytes] using hi
  refine ⟨hpassed, hnone, ?_⟩
  -- both sides continue the bytes of the earlier lines
  obtain ⟨more, hmore⟩ := hpassed
  obtain ⟨later, hlater⟩ := hk.before i
  have hbytes := h.bytes i
  rw [hunwritten, ← hmore, ← hlater, List.flatten_append] at hbytes
  simp only [bytes, List.map_nil, List.flatten_nil, List.append_nil, List.append_assoc,
    List.append_cancel_left_eq] at hbytes
  rw [← hlater, List.drop_left, ← hbytes]
  exact List.suffix_append _ _

/-! ## A backend that does not come back -/

/-- Every logger has a file. -/
def Opened (s : AsyncLogging ι α) : Prop := ∀ i, (s.loggers i).logFile_ ≠ none

omit [DecidableEq ι] in
theorem opened_init (rollSize : ι → ℕ) {opened : ι → ℤ} (hopened : ∀ i, 0 < opened i) :
    Opened (init rollSize opened : AsyncLogging ι α) := by
  intro i
  obtain ⟨c, -, -, -, hfile⟩ := conveys_make (α := α) (rollSize i) (opened i)
  exact hfile (hopened i)

theorem opened_step (h : Sound s) (ho : Opened s) (hstep : step s e = some t) : Opened t := by
  intro i
  cases step_moves hstep with
  | append j logline l hfree hl =>
      show (Function.update s.loggers j l i).logFile_ ≠ none
      by_cases hij : i = j
      · subst hij
        obtain ⟨l', hl', ha⟩ := append_appended (h.placed i).rotation logline
        obtain rfl := Option.some.inj (hl.symm.trans hl')
        rw [Function.update_self, ha.frame.2.2.1]
        exact ho i
      · rw [Function.update_of_ne hij]
        exact ho i
  | swap loggers hpc hl =>
      show (loggers i).logFile_ ≠ none
      by_cases hi : i ∈ s.asyncLoggers_
      · rw [(swap_frame (h.placed i).rotation ((swapAll_eq h.distinct hl i).1 hi)).2.1]
        exact ho i
      · rw [(swapAll_eq h.distinct hl i).2 hi]
        exact ho i
  | write j k rest buffer l n results now later hpc hbuffer hl =>
      show (Function.update s.loggers j l i).logFile_ ≠ none
      by_cases hij : i = j
      · subst hij
        obtain ⟨f, f', -, -, -, hfile, -⟩ := append_unlocked_cases hl
        rw [Function.update_self]
        exact hfile
      · rw [Function.update_of_ne hij]
        exact ho i
  | recycle j rest l hpc hl =>
      show (Function.update s.loggers j l i).logFile_ ≠ none
      by_cases hij : i = j
      · subst hij
        obtain ⟨spare1, spare2, memory, heq, -⟩ := recycle_eq (h.placed i).rotation
        rw [heq] at hl
        obtain ⟨logFile, -, rfl⟩ := Option.map_eq_some_iff.mp hl
        rw [Function.update_self]
        simp
      · rw [Function.update_of_ne hij]
        exact ho i
  | _ => exact ho i

/-- The backend can run from `s` to `t` by itself, and nothing that the producers
or `stop()` look at changes. -/
def Quiet (s t : AsyncLogging ι α) : Prop :=
  ∃ es, (∀ e ∈ es, e.ofBackend = true) ∧ run step s es = some t
    ∧ t.running_ = s.running_ ∧ t.stopPc = s.stopPc ∧ t.admitted = s.admitted
    ∧ t.before = s.before ∧ ∀ i, (t.loggers i).pending = (s.loggers i).pending

theorem quiet_refl (s : AsyncLogging ι α) : Quiet s s :=
  ⟨[], fun _ he => absurd he List.not_mem_nil, rfl, rfl, rfl, rfl, rfl, fun _ => rfl⟩

theorem quiet_trans {u : AsyncLogging ι α} (h1 : Quiet s t) (h2 : Quiet t u) : Quiet s u := by
  obtain ⟨es, hes, hrun1, ha1, hb1, hc1, hd1, he1⟩ := h1
  obtain ⟨fs, hfs, hrun2, ha2, hb2, hc2, hd2, he2⟩ := h2
  refine ⟨es ++ fs, fun e he => ?_, (run_append step).mpr ⟨t, hrun1, hrun2⟩, ha2.trans ha1,
    hb2.trans hb1, hc2.trans hc1, hd2.trans hd1, fun i => (he2 i).trans (he1 i)⟩
  rcases List.mem_append.mp he with he | he
  · exact hes e he
  · exact hfs e he

/-- The next write or the end of `appendBuffers_unlocked` goes through. -/
theorem quiet_writing (h : Sound s) (ho : Opened s) {i : ι} {k : ℕ} {rest : List ι}
    (hpc : s.pc = .writing i k rest) :
    ∃ t, Quiet s t ∧ Sound t ∧ Opened t ∧ t.pc = BackendPc.each rest := by
  have hk : k ≤ (s.loggers i).buffersToWrite_.length := by
    have hprogress := (h.placed i).progress
    rw [hpc, BackendPc.written_self] at hprogress
    exact hprogress
  -- by the number of buffers that are left
  obtain ⟨left, hleft⟩ : ∃ left, left = (s.loggers i).buffersToWrite_.length - k := ⟨_, rfl⟩
  induction left generalizing s k with
  | zero =>
      obtain rfl : k = (s.loggers i).buffersToWrite_.length := by omega
      obtain ⟨logFile, hfile⟩ := Option.ne_none_iff_exists'.mp (ho i)
      obtain ⟨l, hl⟩ : ∃ l, appendBuffers_unlocked.recycle (s.loggers i) = some l := by
        obtain ⟨spare1, spare2, memory, heq, -⟩ := recycle_eq (h.placed i).rotation
        rw [heq, hfile]
        exact ⟨_, rfl⟩
      have hstep : step s .next = some { s with
          loggers := Function.update s.loggers i l, pc := BackendPc.each rest } := by
        rw [step, next, hpc]
        simp only [if_true, hl, Option.map_some]
      refine ⟨{ s with loggers := Function.update s.loggers i l, pc := BackendPc.each rest },
        ⟨[.next], by simp [LogEvent.ofBackend], ?_, rfl, rfl, rfl, rfl, fun j => ?_⟩,
        sound_step h hstep,
        opened_step h ho hstep, rfl⟩
      · rw [run, hstep]
        rfl
      · by_cases hj : j = i
        · subst hj
          simp only [Function.update_self]
          exact pending_recycle (h.placed j).rotation hl
        · simp only [Function.update_of_ne hj]
  | succ left ih =>
      have hlt : k < (s.loggers i).buffersToWrite_.length := by omega
      obtain ⟨buffer, hbuffer⟩ : ∃ buffer, (s.loggers i).buffersToWrite_[k]? = some buffer :=
        ⟨_, List.getElem?_eq_getElem hlt⟩
      obtain ⟨l, hl⟩ := append_unlocked_whole (ho i) ((s.loggers i).memory buffer) 0 0
      obtain ⟨f, f', -, -, -, -, count, start, roll, flush, closed, logFile, hl'⟩ :=
        append_unlocked_cases hl
      have hstep : step s (.write ((s.loggers i).memory buffer).length [] 0 0) = some { s with
          loggers := Function.update s.loggers i l, pc := .writing i (k + 1) rest } := by
        rw [step, write, hpc]
        simp only [hbuffer, hl, Option.map_some]
      obtain ⟨t, hquiet, ht⟩ := ih (sound_step h hstep) (opened_step h ho hstep) rfl
        (by simp only [Function.update_self, hl']; exact hlt)
        (by simp only [Function.update_self, hl']; omega)
      refine ⟨t, quiet_trans ?_ hquiet, ht⟩
      refine ⟨[.write ((s.loggers i).memory buffer).length [] 0 0],
        by simp [LogEvent.ofBackend], ?_, rfl, rfl, rfl, rfl, fun j => ?_⟩
      · rw [run, hstep]
        rfl
      · by_cases hj : j = i
        · subst hj
          simp only [Function.update_self]
          exact pending_write hl
        · simp only [Function.update_of_ne hj]

/-- A backend that is done with a list of loggers is at the test again. -/
theorem quiet_each (h : Sound s) (ho : Opened s) {loggers : List ι}
    (hpc : s.pc = BackendPc.each loggers) : ∃ t, Quiet s t ∧ Sound t ∧ t.pc = .test := by
  induction loggers generalizing s with
  | nil => exact ⟨s, quiet_refl s, h, hpc⟩
  | cons i rest ih =>
      obtain ⟨t, hquiet, ht, hot, hpct⟩ := quiet_writing h ho hpc
      obtain ⟨u, hquiet', hu⟩ := ih ht hot hpct
      exact ⟨u, quiet_trans hquiet hquiet', hu⟩

/-- With `running_` cleared, a backend that has no swap to make comes out of its
loop and leaves everything pending. -/
theorem quiet_exits (h : Sound s) (ho : Opened s) (hrunning : s.running_ = false)
    (hpc : s.pc = .test ∨ (∃ i k rest, s.pc = .writing i k rest) ∨ s.pc = .exited) :
    ∃ t, Quiet s t ∧ t.pc = .exited := by
  have htest : ∀ u : AsyncLogging ι α, u.running_ = false → u.pc = .test →
      ∃ t, Quiet u t ∧ t.pc = .exited := by
    intro u hu hpcu
    refine ⟨{ u with pc := .exited }, ⟨[.next], by simp [LogEvent.ofBackend], ?_, rfl, rfl, rfl,
      rfl, fun _ => rfl⟩, rfl⟩
    rw [run, step, next, hpcu]
    simp [hu, run]
  rcases hpc with hpc | ⟨i, k, rest, hpc⟩ | hpc
  · exact htest s hrunning hpc
  · obtain ⟨t, hquiet, ht, hot, hpct⟩ := quiet_writing h ho hpc
    obtain ⟨u, hquiet', -, hpcu⟩ := quiet_each ht hot hpct
    have hall := quiet_trans hquiet hquiet'
    have hrunningu : u.running_ = false := by
      obtain ⟨-, -, -, hr, -⟩ := hall
      rw [hr, hrunning]
    obtain ⟨v, hquiet'', hpcv⟩ := htest u hrunningu hpcu
    exact ⟨v, quiet_trans hall hquiet'', hpcv⟩
  · exact ⟨s, quiet_refl s, hpc⟩

/-- A call that finds bytes pending, and the backend past its swap, leaves them
behind. -/
theorem not_drained (h : Piped s) (ho : Opened s) (hstop : s.stopPc = .notCalled)
    (hpc : s.pc ≠ .notStarted ∧ s.pc ≠ .entry) (hswap : s.pc.beforeSwap = false) {i : ι}
    (hpending : (s.loggers i).pending ≠ []) :
    ∃ fs t, Along step Short s (.stop :: fs) ∧ run step s (.stop :: fs) = some t
      ∧ t.stopPc = .returned ∧ ¬ Drained t i := by
  -- the call, the store and the notification
  obtain ⟨u, hu⟩ : ∃ u, u = { s with
    stopPc := .notified, running_ := false, before := s.admitted } := ⟨_, rfl⟩
  have hnotify : s.pc.notify_one = s.pc := by
    apply BackendPc.notify_one_of_ne
    intro hwaiting
    rw [hwaiting] at hswap
    cases hswap
  have hstops : run step s [.stop, .stop, .stop] = some u := by
    have hcall : step s .stop = some { s with stopPc := .called, before := s.admitted } := by
      rw [step, stop, hstop]
      exact if_neg (not_or.mpr hpc)
    have hlast : ({ s with stopPc := .notified, running_ := false, before := s.admitted
                           pc := s.pc.notify_one } : AsyncLogging ι α) = u := by
      rw [hnotify, hu]
    rw [run, hcall]
    exact congrArg some hlast
  have hpiped : Piped u := run_inv_along (fun _ _ _ h hC hs => piped_step h hC hs) h
    (along_of_mem step (by simp [Short])) hstops
  have hou : Opened u := by
    rw [hu]
    exact ho
  have hpcu : u.pc = .test ∨ (∃ j k rest, u.pc = .writing j k rest) ∨ u.pc = .exited := by
    rw [hu]
    cases hs : s.pc <;> rw [hs] at hswap hpc <;> simp [BackendPc.beforeSwap] at hswap hpc ⊢
  -- the rest of the backend's loop, and the join
  obtain ⟨v, ⟨es, hes, hrun, -, hstopv, hadmitted, hbefore, hsame⟩, hexited⟩ :=
    quiet_exits hpiped.sound hou (by rw [hu]) hpcu
  have hjoin : step v .stop = some { v with stopPc := .returned } := by
    rw [step, stop, hstopv, hu]
    exact if_pos hexited
  have hpipedv : Piped v := run_inv_along (fun _ _ _ h hC hs => piped_step h hC hs) hpiped
    (along_of_mem step fun e he => short_of_backend (hes e he)) hrun
  refine ⟨[.stop, .stop] ++ (es ++ [.stop]), { v with stopPc := .returned }, ?_, ?_, rfl, ?_⟩
  · apply along_of_mem
    intro e he
    simp only [List.mem_cons, List.mem_append, List.not_mem_nil, or_false] at he
    rcases he with rfl | (rfl | rfl) | he | rfl
    · exact fun _ => trivial
    · exact fun _ => trivial
    · exact fun _ => trivial
    · exact short_of_backend (hes e he)
    · exact fun _ => trivial
  · show run step s ([.stop, .stop, .stop] ++ (es ++ [.stop])) = _
    refine (run_append step).mpr ⟨u, hstops, (run_append step).mpr ⟨v, hrun, ?_⟩⟩
    rw [run, hjoin]
    rfl
  · -- the bytes that are still pending were admitted before the call
    rintro ⟨hpassed, -, -⟩
    have hlength := hpassed.length_le
    have hbytes := congrArg List.length (hpipedv.bytes i)
    have hb : v.before i = v.admitted i := by
      rw [hbefore, hadmitted, hu]
    have hp : (v.loggers i).pending ≠ [] := by
      rw [hsame, hu]
      exact hpending
    have hpos := List.length_pos_iff.mpr hp
    simp only [hb, List.length_append] at hlength hbytes
    omega

/-- The call is the only step out of `notCalled`. -/
theorem called_step (hstep : step s e = some t) (hcalled : t.stopPc ≠ .notCalled) :
    s.stopPc ≠ .notCalled
      ∨ (e = .stop ∧ s.stopPc = .notCalled
        ∧ t = { s with stopPc := .called, before := s.admitted }) := by
  cases step_moves hstep with
  | call hstop hpc => exact Or.inr ⟨rfl, hstop, rfl⟩
  | clear hstop => exact Or.inl (by rw [hstop]; decide)
  | notify hstop => exact Or.inl (by rw [hstop]; decide)
  | ret hstop hpc => exact Or.inl (by rw [hstop]; decide)
  | _ => exact Or.inl hcalled

/-- When `stop()` has returned the backend is out of its loop. -/
theorem exited_step (h : s.stopPc = .returned → s.pc = .exited) (hstep : step s e = some t) :
    t.stopPc = .returned → t.pc = .exited := by
  intro hstop
  cases step_moves hstep with
  | append i logline l hfree hl =>
      dsimp only
      rw [h hstop]
      exact ite_self _
  | start hpc => rw [h hstop] at hpc; cases hpc
  | entry hpc => rw [h hstop] at hpc; cases hpc
  | test hpc => rw [h hstop] at hpc; cases hpc
  | lock hpc => rw [h hstop] at hpc; cases hpc
  | locked hpc => rw [h hstop] at hpc; cases hpc
  | wait hpc => rw [h hstop] at hpc; cases hpc
  | woken hpc => rw [h hstop] at hpc; cases hpc
  | wakeup hpc => rw [h hstop] at hpc; cases hpc
  | swap loggers hpc hl => rw [h hstop] at hpc; cases hpc
  | recycle i rest l hpc hl => rw [h hstop] at hpc; cases hpc
  | write i written rest buffer l n results now later hpc hbuffer hl =>
      rw [h hstop] at hpc
      cases hpc
  | call hnot hpc => cases hstop
  | clear hcalled => cases hstop
  | notify hcleared => cases hstop
  | ret hnotified hpc => exact hpc

/-- What a run keeps whose call of `stop()` meets the condition. -/
structure Draining (s : AsyncLogging ι α) : Prop where
  piped : Piped s
  kept : s.stopPc ≠ .notCalled → Kept s
  exited : s.stopPc = .returned → s.pc = .exited

theorem draining_step (h : Draining s) (hshort : Short s e) (hdrains : Drains s e)
    (hstep : step s e = some t) : Draining t := by
  refine ⟨piped_step h.piped hshort hstep, fun hcalled => ?_, exited_step h.exited hstep⟩
  rcases called_step hstep hcalled with hs | ⟨rfl, hstop, rfl⟩
  · exact kept_step h.piped (h.kept hs) hshort (fun _ => hs) hstep
  · exact kept_call h.piped hstop hdrains

theorem Draining.drained (h : Draining s) (hstop : s.stopPc = .returned) (i : ι) :
    Drained s i :=
  (h.kept (by rw [hstop]; decide)).drained h.piped (h.exited hstop) i

/-- **`stop()` drains exactly what its call finds before the swap.** In every run
of lines that fit a buffer, in which `stop()` is called when the backend has
still to swap or no registered logger holds bytes: when `stop()` has returned,
every logger is drained of the lines admitted before the call. And in a state of
any run of such lines in which `stop()` is about to be called, that every run
from there in which it returns leaves all loggers drained holds if and only if
the call finds the backend or the loggers so. -/
theorem drained_iff (rollSize : ι → ℕ) (opened : ι → ℤ) (hopened : ∀ i, 0 < opened i)
    (es : List (LogEvent ι α)) (hshort : Along step Short (init rollSize opened) es) :
    (Along step Drains (init rollSize opened) es →
        Throughout step (fun t => t.stopPc = .returned → ∀ i, Drained t i)
          (init rollSize opened) es)
      ∧ ∀ s, run step (init rollSize opened) es = some s → s.stopPc = .notCalled →
        s.pc ≠ .notStarted ∧ s.pc ≠ .entry →
        ((∀ fs t, Along step Short s (.stop :: fs) → run step s (.stop :: fs) = some t →
            t.stopPc = .returned → ∀ i, Drained t i)
          ↔ (s.pc.beforeSwap = true ∨ ∀ i ∈ s.asyncLoggers_, (s.loggers i).pending = [])) := by
  have hinit : Draining (init rollSize opened : AsyncLogging ι α) :=
    ⟨piped_init rollSize opened, fun h => absurd rfl h, fun h => by simp [init] at h⟩
  constructor
  · intro hdrains
    refine throughout_of_along (C := fun s e => Short s e ∧ Drains s e)
      (I := fun s : AsyncLogging ι α => Draining s) (fun s h => h.drained) ?_
      (along_and step hshort hdrains) hinit
    exact fun s e t h hC hs => draining_step h hC.1 hC.2 hs
  · intro s hrun hstop hpc
    have hs : Piped s ∧ Opened s := by
      refine run_inv_along (I := fun s : AsyncLogging ι α => Piped s ∧ Opened s) ?_
        ⟨hinit.piped, opened_init rollSize hopened⟩ hshort hrun
      exact fun s e t h hC hs => ⟨piped_step h.1 hC hs, opened_step h.1.sound h.2 hs⟩
    constructor
    · intro hall
      by_contra hnot
      rw [not_or, Bool.not_eq_true] at hnot
      obtain ⟨hswap, hpending⟩ := hnot
      simp only [not_forall] at hpending
      obtain ⟨i, -, hi⟩ := hpending
      obtain ⟨fs, t, hfs, hrunt, hret, hnotdrained⟩ := not_drained hs.1 hs.2 hstop hpc hswap hi
      exact hnotdrained (hall fs t hfs hrunt hret i)
    · intro hcond fs t hfs hrunt hret i
      -- the call is the only step of the run the condition is about
      obtain ⟨u, hcall, hrest⟩ := (run_cons step).mp hrunt
      have hu : Draining u := by
        refine draining_step ⟨hs.1, fun h => absurd hstop h, ?_⟩ hfs.1 (fun _ => hcond) hcall
        intro h
        rw [hstop] at h
        cases h
      have hcalled : u.stopPc ≠ .notCalled := by
        rw [step, stop, hstop] at hcall
        simp only [if_neg (not_or.mpr hpc)] at hcall
        rw [← Option.some.inj hcall]
        simp
      have ht : Draining t ∧ t.stopPc ≠ .notCalled := by
        refine run_inv_along
          (I := fun s : AsyncLogging ι α => Draining s ∧ s.stopPc ≠ .notCalled) ?_ ⟨hu, hcalled⟩
          (hfs.2 u hcall) hrest
        intro s e t h hC hs
        have hstay : t.stopPc ≠ .notCalled := by
          cases step_moves hs with
          | call hstop hpc => simp
          | clear hstop => simp
          | notify hstop => simp
          | ret hstop hpc => simp
          | _ => exact h.2
        refine ⟨draining_step h.1 hC ?_ hs, hstay⟩
        cases e with
        | stop => exact fun hnot => absurd hnot h.2
        | _ => trivial
      exact ht.1.drained hret i

/-- `stop()` is called while the backend waits, and a line is appended after the
call. -/
theorem drained_one :
    Throughout step (fun t => t.stopPc = .returned → ∀ i, Drained t i)
      (init (fun _ => 1) (fun _ => 1) : AsyncLogging ℕ ℕ)
      [.start, .next, .next, .next, .next, .next, .append 0 [1, 2], .stop, .append 0 [3], .stop,
        .stop, .next, .next, .write 3 [] 2 2, .next, .next, .stop] :=
  (drained_iff (fun _ => 1) (fun _ => 1) (fun _ => by decide) _ (by decide +kernel)).1
    (by decide +kernel)

/-- The run that shows the condition is needed: the second line is appended
while the backend writes the first one, and `stop()` is called before it is
done. -/
theorem stop_not_drained :
    ∃ t : AsyncLogging ℕ ℕ, run step (init (fun _ => 1) (fun _ => 1))
        [.start, .next, .next, .next, .next, .next, .append 0 [1], .next, .next,
          .append 0 [2], .stop, .stop, .stop, .write 1 [] 1 1, .next, .next, .stop] = some t
      ∧ t.stopPc = .returned ∧ (t.loggers 0).pending = [2] ∧ ¬ Drained t 0 := by
  have heval : (run step (init (fun _ => 1) (fun _ => 1) : AsyncLogging ℕ ℕ)
      [.start, .next, .next, .next, .next, .next, .append 0 [1], .next, .next,
        .append 0 [2], .stop, .stop, .stop, .write 1 [] 1 1, .next, .next, .stop]).map
        (fun t => (t.stopPc, t.before 0, (t.loggers 0).passed, (t.loggers 0).pending))
      = some (.returned, [[1], [2]], [1], [2]) := by
    decide +kernel
  obtain ⟨t, hrun, ht⟩ := Option.map_eq_some_iff.mp heval
  simp only [Prod.mk.injEq] at ht
  refine ⟨t, hrun, ht.1, ht.2.2.2, fun hdrained => ?_⟩
  have hpassed := hdrained.passed
  rw [ht.2.1, ht.2.2.1] at hpassed
  exact absurd hpassed (by decide)

end AsyncLogging

end Libiak.Log
