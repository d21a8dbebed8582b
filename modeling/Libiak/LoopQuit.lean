/-
What `EventLoop::quit()` leaves behind.

`quit_` is tested once in a turn of `loop()`, and the queue is swapped out once
in a turn, before that test. A functor that is in the queue when `quit()` is
called is run before `loop()` returns if the swap of that turn is still ahead.
Behind it, from the batch to the test, the loop ends with the functor in the
queue: `quit_drains_iff` is exact about each call of `quit()`, whatever happens
before and after it.
-/
import Libiak.EventLoop

set_option autoImplicit false

namespace Libiak.Net

open Libiak.Run

namespace EventLoop

variable {φ κ : Type*} {s t : EventLoop φ κ} {e : LoopEvent φ κ}

/-- The loop's thread is past the test of `quit_` and before the swap of the
queue. -/
def beforeSwap : LoopPc → Bool
  | .poll | .dispatch | .wakeupRead | .wakeupDisable | .handler => true
  | _ => false

/-- The loop's thread is past the swap and not past the test. -/
def afterSwap : LoopPc → Bool
  | .batch | .running | .test => true
  | _ => false

/-! ## What a step does to the queue -/

/-- Nothing of the queue is changed, and `quit_` is not. -/
structure SameQueue (s t : EventLoop φ κ) : Prop where
  pending : t.pendingFunctors_ = s.pendingFunctors_
  functors : t.functors = s.functors
  started : t.started = s.started
  pushed : t.pushed = s.pushed
  quit : t.quit_ = s.quit_

/-- The steps, by the place of the loop's thread. -/
inductive QueueMove (s t : EventLoop φ κ) : Prop
  /-- A push, a write, or a `quit()`: the loop stays where it is. -/
  | call (new : List φ) (hpc : t.pc = s.pc)
      (hpending : t.pendingFunctors_ = s.pendingFunctors_ ++ new)
      (hfunctors : t.functors = s.functors) (hstarted : t.started = s.started)
      (hpushed : t.pushed = s.pushed ++ new) (hquit : s.quit_ = true → t.quit_ = true)
  /-- The head of `loop()`. -/
  | enter (hpc : s.pc = .entry) (hpc' : t.pc = .test)
      (hpending : t.pendingFunctors_ = s.pendingFunctors_) (hfunctors : t.functors = s.functors)
      (hstarted : t.started = s.started) (hpushed : t.pushed = s.pushed)
  /-- A step towards the swap. -/
  | round (hpc : beforeSwap s.pc = true) (hpc' : beforeSwap t.pc = true) (hsame : SameQueue s t)
  | swap (hpc : s.pc = .dispatch) (hpc' : t.pc = .batch) (hpending : t.pendingFunctors_ = [])
      (hfunctors : t.functors = s.pendingFunctors_) (hstarted : t.started = s.started)
      (hpushed : t.pushed = s.pushed)
  /-- A functor of the batch is started. -/
  | start (functor : φ) (hpc : s.pc = .batch) (hpc' : t.pc = .running)
      (hpending : t.pendingFunctors_ = s.pendingFunctors_)
      (hfunctors : s.functors = functor :: t.functors)
      (hstarted : t.started = s.started ++ [functor]) (hpushed : t.pushed = s.pushed)
      (hquit : t.quit_ = s.quit_)
  /-- A functor is done, or the batch. -/
  | back (hpc : s.pc = .running ∧ t.pc = .batch ∨ s.pc = .batch ∧ t.pc = .test)
      (hsame : SameQueue s t)
  | again (hpc : s.pc = .test) (hpc' : t.pc = .poll) (hquit : s.quit_ = false)
      (hsame : SameQueue s t)
  | exit (hpc : s.pc = .test) (hpc' : t.pc = .exited) (hquit : s.quit_ = true)
      (hsame : SameQueue s t)

theorem queueMove_wakeup (writers : ℕ) (calling : Bool) :
    QueueMove s { s.wakeup with writers := writers, calling := calling } := by
  obtain ⟨counter, edge, heq, -, -⟩ := wakeup_eq s
  rw [heq]
  exact .call [] rfl (List.append_nil _).symm rfl rfl (List.append_nil _).symm fun h => h

theorem queueMove_next (hstep : s.next = some t) : QueueMove s t := by
  unfold next at hstep
  split at hstep
  · cases hstep
  · cases hpc : s.pc with
    | entry =>
        rw [hpc] at hstep
        obtain rfl := Option.some.inj hstep
        exact .enter hpc rfl rfl rfl rfl rfl
    | test =>
        rw [hpc] at hstep
        obtain rfl := Option.some.inj hstep
        by_cases hquit : s.quit_ = true
        · exact .exit hpc (if_pos hquit) hquit ⟨rfl, rfl, rfl, rfl, rfl⟩
        · exact .again hpc (if_neg hquit) (by simpa using hquit) ⟨rfl, rfl, rfl, rfl, rfl⟩
    | poll =>
        rw [hpc] at hstep
        cases hstep
    | dispatch =>
        rw [hpc] at hstep
        obtain rfl := Option.some.inj hstep
        have hround : beforeSwap s.pc = true := by
          rw [hpc]
          rfl
        unfold dispatch
        split
        · exact .swap hpc rfl rfl rfl rfl rfl
        · exact .round hround rfl ⟨rfl, rfl, rfl, rfl, rfl⟩
        · simp only
          split
          · exact .round hround rfl ⟨rfl, rfl, rfl, rfl, rfl⟩
          · exact .round hround hround ⟨rfl, rfl, rfl, rfl, rfl⟩
    | wakeupRead =>
        rw [hpc] at hstep
        obtain rfl := Option.some.inj hstep
        exact .round (by rw [hpc]; rfl) rfl ⟨rfl, rfl, rfl, rfl, rfl⟩
    | wakeupDisable =>
        rw [hpc] at hstep
        obtain rfl := Option.some.inj hstep
        exact .round (by rw [hpc]; rfl) rfl ⟨rfl, rfl, rfl, rfl, rfl⟩
    | handler =>
        rw [hpc] at hstep
        obtain rfl := Option.some.inj hstep
        exact .round (by rw [hpc]; rfl) rfl ⟨rfl, rfl, rfl, rfl, rfl⟩
    | batch =>
        simp only [hpc] at hstep
        split at hstep
        · obtain rfl := Option.some.inj hstep
          exact .back (Or.inr ⟨hpc, rfl⟩) ⟨rfl, rfl, rfl, rfl, rfl⟩
        · rename_i functor rest hlist
          obtain rfl := Option.some.inj hstep
          exact .start functor hpc rfl rfl hlist rfl rfl rfl
    | running =>
        rw [hpc] at hstep
        obtain rfl := Option.some.inj hstep
        exact .back (Or.inl ⟨hpc, rfl⟩) ⟨rfl, rfl, rfl, rfl, rfl⟩
    | exited =>
        rw [hpc] at hstep
        cases hstep

theorem step_queueMove (hstep : step s e = some t) : QueueMove s t := by
  cases e with
  | push f =>
      obtain rfl := Option.some.inj hstep
      exact .call [f] rfl rfl rfl rfl rfl fun h => h
  | quit =>
      obtain rfl := Option.some.inj hstep
      exact .call [] rfl (List.append_nil _).symm rfl rfl (List.append_nil _).symm fun _ => rfl
  | wakeup =>
      rw [step, Option.ite_none_right_eq_some, Option.some_inj] at hstep
      rw [← hstep.2]
      have hmove := queueMove_wakeup (s := s) (s.writers - 1) s.calling
      obtain ⟨counter, edge, heq, -, -⟩ := wakeup_eq s
      rw [heq] at hmove ⊢
      exact hmove
  | callPush f =>
      rw [step, Option.ite_none_right_eq_some, Option.some_inj] at hstep
      rw [← hstep.2]
      exact .call [f] rfl rfl rfl rfl rfl fun h => h
  | callQuit =>
      rw [step, Option.ite_none_right_eq_some, Option.some_inj] at hstep
      rw [← hstep.2]
      exact .call [] rfl (List.append_nil _).symm rfl rfl (List.append_nil _).symm fun _ => rfl
  | callWakeup =>
      rw [step, Option.ite_none_right_eq_some, Option.some_inj] at hstep
      rw [← hstep.2]
      have hmove := queueMove_wakeup (s := s) s.writers false
      obtain ⟨counter, edge, heq, -, -⟩ := wakeup_eq s
      rw [heq] at hmove ⊢
      exact hmove
  | poll before after events =>
      rw [step, poll, Option.ite_none_right_eq_some, Option.some_inj] at hstep
      obtain ⟨⟨hpc, -⟩, rfl⟩ := hstep
      exact .round (by rw [hpc]; rfl) rfl ⟨rfl, rfl, rfl, rfl, rfl⟩
  | next => exact queueMove_next hstep

/-! ## The first `n` functors pushed -/

/-- They are in the batch or have been started, or the swap that takes them is
still ahead. -/
def Taken (n : ℕ) (s : EventLoop φ κ) : Prop :=
  n ≤ s.started.length + s.functors.length
    ∨ (beforeSwap s.pc = true ∧ n ≤ s.pushed.length)

/-- Where no swap is ahead, they have been taken. -/
theorem Taken.length_le {n : ℕ} (h : Taken n s) (hpc : beforeSwap s.pc = false) :
    n ≤ s.started.length + s.functors.length := by
  rcases h with h | ⟨hround, -⟩
  · exact h
  · rw [hpc] at hround
    cases hround

theorem taken_step {n : ℕ} (hord : Ordered s) (h : Taken n s) (hmove : QueueMove s t) :
    Taken n t := by
  unfold Taken
  cases hmove with
  | call new hpc hpending hfunctors hstarted hpushed hquit =>
      rw [hpc, hfunctors, hstarted, hpushed, List.length_append]
      rcases h with h | ⟨h1, h2⟩
      · exact Or.inl h
      · exact Or.inr ⟨h1, by omega⟩
  | enter hpc hpc' hpending hfunctors hstarted hpushed =>
      have hle := h.length_le (by rw [hpc]; rfl)
      rw [hfunctors, hstarted]
      exact Or.inl hle
  | round hpc hpc' hsame =>
      rw [hsame.functors, hsame.started, hsame.pushed]
      rcases h with h | ⟨-, h2⟩
      · exact Or.inl h
      · exact Or.inr ⟨hpc', h2⟩
  -- the swap takes everything pushed so far
  | swap hpc hpc' hpending hfunctors hstarted hpushed =>
      unfold Taken at h
      have hnil := hord.functors_nil (by simp [hpc])
      have horder := congrArg List.length hord.order
      simp only [hnil, List.append_nil, List.length_append, List.length_nil] at horder h
      rw [hfunctors, hstarted]
      rcases h with h | ⟨-, h2⟩
      · exact Or.inl (by omega)
      · exact Or.inl (by omega)
  | start functor hpc hpc' hpending hfunctors hstarted hpushed hquit =>
      have hle := h.length_le (by rw [hpc]; rfl)
      rw [hfunctors, List.length_cons] at hle
      rw [hstarted, List.length_append, List.length_singleton]
      exact Or.inl (by omega)
  | back hpc hsame =>
      have hpast : beforeSwap s.pc = false := by
        rcases hpc with ⟨hpc, -⟩ | ⟨hpc, -⟩
        · rw [hpc]
          rfl
        · rw [hpc]
          rfl
      rw [hsame.functors, hsame.started]
      exact Or.inl (h.length_le hpast)
  | again hpc hpc' hquit hsame =>
      have hle := h.length_le (by rw [hpc]; rfl)
      rw [hsame.functors, hsame.started]
      exact Or.inl hle
  | exit hpc hpc' hquit hsame =>
      have hle := h.length_le (by rw [hpc]; rfl)
      rw [hsame.functors, hsame.started]
      exact Or.inl hle

/-- One of them is not in the batch, `quit_` is set, and there will be no other
swap. -/
structure Missed (n : ℕ) (s : EventLoop φ κ) : Prop where
  quit : s.quit_ = true
  place : afterSwap s.pc = true ∨ s.pc = .exited
  short : s.started.length + s.functors.length < n

theorem Missed.same {n : ℕ} (h : Missed n s) (hsame : SameQueue s t)
    (hplace : afterSwap t.pc = true ∨ t.pc = .exited) : Missed n t := by
  refine ⟨hsame.quit.trans h.quit, hplace, ?_⟩
  rw [hsame.started, hsame.functors]
  exact h.short

theorem missed_step {n : ℕ} (h : Missed n s) (hmove : QueueMove s t) : Missed n t := by
  have haway : ∀ pc : LoopPc, s.pc = pc → afterSwap pc = true ∨ pc = .exited := by
    rintro pc rfl
    exact h.place
  cases hmove with
  | call new hpc hpending hfunctors hstarted hpushed hquit =>
      refine ⟨hquit h.quit, hpc ▸ h.place, ?_⟩
      rw [hstarted, hfunctors]
      exact h.short
  | enter hpc hpc' hpending hfunctors hstarted hpushed => simpa [afterSwap] using haway _ hpc
  | round hpc hpc' hsame =>
      -- past the swap there is no way back to it once `quit_` is set
      have hplace := h.place
      cases hs : s.pc <;> simp [hs, afterSwap, beforeSwap] at hplace hpc
  | swap hpc hpc' hpending hfunctors hstarted hpushed => simpa [afterSwap] using haway _ hpc
  | start functor hpc hpc' hpending hfunctors hstarted hpushed hquit =>
      refine ⟨hquit.trans h.quit, Or.inl (by rw [hpc']; rfl), ?_⟩
      have hshort := h.short
      rw [hfunctors, List.length_cons] at hshort
      rw [hstarted, List.length_append, List.length_singleton]
      omega
  | back hpc hsame =>
      rcases hpc with ⟨-, hpc'⟩ | ⟨-, hpc'⟩
      · exact h.same hsame (Or.inl (by rw [hpc']; rfl))
      · exact h.same hsame (Or.inl (by rw [hpc']; rfl))
  | again hpc hpc' hquit hsame =>
      rw [h.quit] at hquit
      cases hquit
  | exit hpc hpc' hquit hsame => exact h.same hsame (Or.inr hpc')

/-- A call of `quit()`, by another thread or by the loop's own. -/
def IsQuit : LoopEvent φ κ → Bool
  | .quit | .callQuit => true
  | _ => false

/-- `loop()` has been entered and has not returned. -/
def Running (s : EventLoop φ κ) : Prop := s.pc ≠ .entry ∧ s.pc ≠ .exited

/-- The queue is empty, or the swap of the turn is still ahead. -/
def Drains (s : EventLoop φ κ) : Prop := s.pendingFunctors_ = [] ∨ beforeSwap s.pc = true

theorem isQuit_step (he : IsQuit e = true) (hstep : step s e = some t) :
    t.quit_ = true ∧ t.pc = s.pc ∧ t.functors = s.functors ∧ t.started = s.started
      ∧ t.pushed = s.pushed := by
  cases e with
  | quit =>
      obtain rfl := Option.some.inj hstep
      exact ⟨rfl, rfl, rfl, rfl, rfl⟩
  | callQuit =>
      rw [step, Option.ite_none_right_eq_some, Option.some_inj] at hstep
      rw [← hstep.2]
      exact ⟨rfl, rfl, rfl, rfl, rfl⟩
  | push f => cases he
  | wakeup => cases he
  | callPush f => cases he
  | callWakeup => cases he
  | poll before after events => cases he
  | next => cases he

theorem Ordered.started_prefix (h : Ordered s) : s.started <+: s.pushed := by
  rw [← h.order, List.append_assoc]
  exact List.prefix_append _ _

theorem pushed_prefix {es : List (LoopEvent φ κ)} (hrun : run step s es = some t) :
    s.pushed <+: t.pushed := by
  apply run_inv (I := fun u => s.pushed <+: u.pushed) _ (List.prefix_refl _) hrun
  intro u e v hu hstep
  cases step_queueMove hstep with
  | call new hpc hpending hfunctors hstarted hpushed hquit =>
      rw [hpushed]
      exact hu.trans (List.prefix_append _ _)
  | enter hpc hpc' hpending hfunctors hstarted hpushed => exact hpushed ▸ hu
  | round hpc hpc' hsame => exact hsame.pushed ▸ hu
  | swap hpc hpc' hpending hfunctors hstarted hpushed => exact hpushed ▸ hu
  | start functor hpc hpc' hpending hfunctors hstarted hpushed hquit => exact hpushed ▸ hu
  | back hpc hsame => exact hsame.pushed ▸ hu
  | again hpc hpc' hquit hsame => exact hsame.pushed ▸ hu
  | exit hpc hpc' hquit hsame => exact hsame.pushed ▸ hu

/-- Once `loop()` has returned, the first `n` functors have been started if they
had been taken. -/
theorem Taken.started {n : ℕ} (hord : Ordered t) (h : Taken n t) (hexit : t.pc = .exited) :
    n ≤ t.started.length := by
  have hnil := hord.functors_nil (by simp [hexit])
  have hle := h.length_le (by rw [hexit]; rfl)
  rw [hnil] at hle
  exact hle

/-- **What is run before `loop()` returns.** In any run, for any call of
`quit()` on a running loop: when `loop()` has returned, every functor that was
pushed before the call has been run if and only if the call found the queue
empty, or the swap of that turn still ahead. -/
theorem quit_drains_iff (es fs : List (LoopEvent φ κ)) (e : LoopEvent φ κ)
    (s s' t : EventLoop φ κ) (hbefore : run step init es = some s) (hrunning : Running s)
    (he : IsQuit e = true) (hquit : step s e = some s') (hafter : run step s' fs = some t)
    (hexit : t.pc = .exited) : s.pushed <+: t.started ↔ Drains s := by
  have hord : Ordered s := run_inv (fun _ _ _ h hs => ordered_step h hs) ordered_init hbefore
  have hord' : Ordered s' := ordered_step hord hquit
  have hordt : Ordered t := run_inv (fun _ _ _ h hs => ordered_step h hs) hord' hafter
  obtain ⟨hset, hpc, hfunctors, hstarted, hpushed⟩ := isQuit_step he hquit
  have hlen := congrArg List.length hord.order
  simp only [List.length_append] at hlen
  have hprefix : s.pushed <+: t.pushed := by
    rw [← hpushed]
    exact pushed_prefix hafter
  constructor
  · -- a functor that the swap has missed is never started
    intro hall
    by_contra hlost
    obtain ⟨hne, hpast⟩ := not_or.mp hlost
    have hmissed : Missed s.pushed.length s' := by
      refine ⟨hset, ?_, ?_⟩
      · rw [hpc]
        revert hpast hrunning
        unfold Running
        cases s.pc <;> simp [beforeSwap, afterSwap]
      · rw [hstarted, hfunctors]
        have := List.length_pos_iff.mpr hne
        omega
    have hend := run_inv (I := Missed s.pushed.length)
      (fun _ _ _ h hs => missed_step h (step_queueMove hs)) hmissed hafter
    have hshort := hend.short
    have := hall.length_le
    omega
  · -- what is taken by the swap, or before it, has been started at the end
    intro hdrains
    have htaken : Taken s.pushed.length s' := by
      unfold Taken
      rw [hstarted, hfunctors, hpushed, hpc]
      rcases hdrains with hnil | hround
      · rw [hnil, List.length_nil] at hlen
        exact Or.inl (by omega)
      · exact Or.inr ⟨hround, Nat.le_refl _⟩
    have hend := run_inv (I := fun u => Ordered u ∧ Taken s.pushed.length u)
      (fun _ _ _ h hs => ⟨ordered_step h.1 hs, taken_step h.1 h.2 (step_queueMove hs)⟩)
      ⟨hord', htaken⟩ hafter
    exact List.prefix_of_prefix_length_le hprefix hordt.started_prefix
      (hend.2.started hordt hexit)

/-- Another thread pushes and quits while the loop is in `poll`. -/
theorem quit_drains_poll :
    ((run step (init : EventLoop ℕ ℕ) [.next, .next, .push 7, .wakeup]).get
        (by decide)).pushed <+:
      ((run step (init : EventLoop ℕ ℕ) ([.next, .next, .push 7, .wakeup] ++ .quit ::
        [.wakeup, .poll [] [] ⟨false, false, true, false⟩, .next, .next, .next, .next, .next, .next,
          .next, .next])).get (by decide)).started ↔
    Drains ((run step (init : EventLoop ℕ ℕ) [.next, .next, .push 7, .wakeup]).get (by decide)) :=
  quit_drains_iff [.next, .next, .push 7, .wakeup]
    [.wakeup, .poll [] [] ⟨false, false, true, false⟩, .next, .next, .next, .next, .next, .next,
      .next, .next] .quit _ _ _ (Option.some_get (by decide)).symm ⟨by decide, by decide⟩ rfl rfl
    rfl rfl

/-- A functor on the loop's thread pushes another, and quits. -/
theorem quit_drops :
    (run step (init : EventLoop ℕ ℕ) [.next, .next, .push 0, .wakeup,
      .poll [] [] ⟨false, false, true, false⟩, .next, .next, .next, .next, .next, .callPush 7,
      .callWakeup, .callQuit, .callWakeup, .next, .next, .next]).map
        (fun t => (t.pc, t.pushed, t.started, t.pendingFunctors_))
      = some (.exited, [0, 7], [0], [7]) := by
  decide

end EventLoop

end Libiak.Net
