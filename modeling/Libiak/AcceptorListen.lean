/-
`Acceptor::listen` and `Acceptor::close`: whether the channel follows `accept_`.

The calls set `accept_` and leave the channel to the functors they queue. What
the channel still has to do is in the queue, in every run (`Settling`), so with
nothing queued a registered channel belongs to an acceptor that accepts. But
`listenInLoop` also asks `listenning_`, which `closeInLoop` does not reset: an
acceptor that has listened and has been closed is spent, and does not open its
channel again (`acceptor_spent`).
-/
import Libiak.Acceptor

set_option autoImplicit false

namespace Libiak.Net

open Libiak.Run

/-- The acceptor has listened, and its channel has been closed since. -/
def Acceptor.Spent (a : Acceptor) : Prop := a.listenning_ = true ∧ a.channel_.started_ = false

instance (a : Acceptor) : Decidable a.Spent := inferInstanceAs (Decidable (_ ∧ _))

namespace AcceptorLoop

/-- The functors that are still to run, in order. -/
def queue (s : AcceptorLoop) : List AcceptorFunctor := s.functors ++ s.pendingFunctors_

/-- No `listen` that is not ignored is made of a spent acceptor. -/
def Renews (s : AcceptorLoop) : AcceptorEvent → Prop
  | .listen => s.acceptor.accept_ = false → ¬ s.acceptor.Spent
  | _ => True

instance (s : AcceptorLoop) : (e : AcceptorEvent) → Decidable (Renews s e)
  | .listen => inferInstanceAs (Decidable (_ → _))
  | .close | .setAcceptCallback | .poll _ | .handle | .accept .. | .functor => isTrue trivial

/-- What the acceptor still has to do is in the queue: to listen, if it accepts
and has not, and to close its channel, if it does not accept. -/
structure Settling (s : AcceptorLoop) : Prop where
  idle : s.pc ≠ .functors → s.functors = []
  once : s.acceptor.channel_.started_ = true → s.acceptor.listenning_ = true
  opening : s.acceptor.accept_ = true → s.acceptor.listenning_ = false →
    .listenInLoop ∈ s.queue
  closing : s.acceptor.accept_ = false → s.acceptor.channel_.started_ = true →
    .closeInLoop ∈ s.queue

section Step

variable {s t : AcceptorLoop} {e : AcceptorEvent}

theorem settling_init (idleFd : Option ℕ) : Settling (init idleFd) :=
  ⟨fun _ => rfl, fun h => (by cases h), fun h => (by cases h), fun _ h => by cases h⟩

/-- The steps that are no calls and no functors leave the flags and the queue. -/
theorem frame_step (hidle : s.pc ≠ .functors → s.functors = []) (hlisten : e ≠ .listen)
    (hclose : e ≠ .close) (hfunctor : e ≠ .functor) (hstep : step s e = some t) :
    t.acceptor.accept_ = s.acceptor.accept_ ∧ t.acceptor.listenning_ = s.acceptor.listenning_
      ∧ t.acceptor.channel_.started_ = s.acceptor.channel_.started_ ∧ t.queue = s.queue
      ∧ (t.pc ≠ .functors → t.functors = []) := by
  cases step_moves hstep with
  | listen a f haccept hchannel => exact absurd rfl hlisten
  | close a f hchannel => exact absurd rfl hclose
  | functor a rest pc hpc hpc' haccept hchannel => exact absurd rfl hfunctor
  | setAcceptCallback => exact ⟨rfl, rfl, rfl, rfl, hidle⟩
  | poll events r hpc hreg hpolled =>
      exact ⟨rfl, rfl, hpolled.started_eq, rfl, fun _ => hidle (by rw [hpc]; decide)⟩
  | swap hpc hlist =>
      -- the batch is empty until the swap
      have hnil := hidle (by rw [hpc]; decide)
      refine ⟨rfl, rfl, rfl, ?_, fun hne => absurd rfl hne⟩
      unfold queue
      rw [hnil]
      exact List.append_nil _
  | enter rest hpc hlist hread haccept c hc =>
      rw [hc]
      exact ⟨rfl, rfl, rfl, rfl, fun _ => hidle (by rw [hpc]; decide)⟩
  | skip rest hpc hlist hskip c hc =>
      rw [hc]
      exact ⟨rfl, rfl, rfl, rfl, hidle⟩
  | rearm sockFd idle null hpc hagain c hc =>
      rw [hc]
      exact ⟨rfl, rfl, rfl, rfl, fun _ => hidle (by rw [hpc]; decide)⟩
  | turn sockFd idle null fd handed closed hpc hturn => exact ⟨rfl, rfl, rfl, rfl, hidle⟩
  | giveUp err idle null hpc herr c hc =>
      rw [hc]
      exact ⟨rfl, rfl, rfl, rfl, fun _ => hidle (by rw [hpc]; decide)⟩

/-- The functor that runs is the first of the queue. -/
theorem functor_cases (h : s.functor = some t) :
    s.pc = .functors
      ∧ ((s.functors = [] ∧ t = { s with pc := .poll })
        ∨ (∃ rest, s.functors = .listenInLoop :: rest
          ∧ t = { s with acceptor := s.acceptor.listenInLoop, functors := rest })
        ∨ ∃ rest, s.functors = .closeInLoop :: rest
          ∧ t = { s with acceptor := s.acceptor.closeInLoop, functors := rest }) := by
  unfold functor at h
  split at h
  · rename_i hpc
    refine ⟨hpc, ?_⟩
    split at h
    · rename_i hnil
      exact Or.inl ⟨hnil, (Option.some.inj h).symm⟩
    · rename_i rest hcons
      exact Or.inr (Or.inl ⟨rest, hcons, (Option.some.inj h).symm⟩)
    · rename_i rest hcons
      exact Or.inr (Or.inr ⟨rest, hcons, (Option.some.inj h).symm⟩)
  · cases h

/-- A functor of the other kind stays in the queue when the first one runs. -/
theorem mem_queue_tail {f g : AcceptorFunctor} {rest : List AcceptorFunctor} {a : Acceptor}
    (hcons : s.functors = f :: rest) (hne : g ≠ f) (hmem : g ∈ s.queue) :
    g ∈ queue { s with acceptor := a, functors := rest } := by
  unfold queue at hmem ⊢
  rw [hcons, List.cons_append] at hmem
  exact (List.mem_cons.mp hmem).resolve_left hne

/-- **Every step keeps what is to be done in the queue.** -/
theorem settling_step (h : Settling s) (hstep : step s e = some t) : Settling t := by
  obtain ⟨hidle, honce, hopening, hclosing⟩ := h
  have hcall : ∀ f : List AcceptorFunctor, ∀ a, ∀ g ∈ f,
      g ∈ queue { s with acceptor := a, pendingFunctors_ := s.pendingFunctors_ ++ f } := by
    intro f a g hg
    unfold queue
    exact List.mem_append_right _ (List.mem_append_right _ hg)
  by_cases hlisten : e = .listen
  · subst hlisten
    obtain rfl := Option.some.inj hstep
    unfold call Acceptor.listen
    by_cases haccept : s.acceptor.accept_ = true
    · rw [if_pos haccept]
      dsimp only
      rw [Option.toList_none, List.append_nil]
      exact ⟨hidle, honce, hopening, hclosing⟩
    · rw [if_neg haccept]
      exact ⟨hidle, honce, fun _ _ => hcall _ _ _ List.mem_cons_self, fun hf => by cases hf⟩
  by_cases hclose : e = .close
  · subst hclose
    obtain rfl := Option.some.inj hstep
    unfold call Acceptor.close
    by_cases haccept : s.acceptor.accept_ = true
    · rw [if_neg (by simp [haccept])]
      exact ⟨hidle, honce, fun hf => (by cases hf), fun _ _ => hcall _ _ _ List.mem_cons_self⟩
    · rw [if_pos (by simp [haccept])]
      dsimp only
      rw [Option.toList_none, List.append_nil]
      exact ⟨hidle, honce, hopening, hclosing⟩
  by_cases hfunctor : e = .functor
  · subst hfunctor
    obtain ⟨hpc, ⟨hnil, rfl⟩ | ⟨rest, hcons, rfl⟩ | ⟨rest, hcons, rfl⟩⟩ := functor_cases hstep
    · exact ⟨fun _ => hnil, honce, hopening, hclosing⟩
    · -- the channel is opened, or was not to be
      unfold Acceptor.listenInLoop
      split
      · rename_i hskip
        simp only [Bool.or_eq_true, Bool.not_eq_true'] at hskip
        refine ⟨fun hne => absurd hpc hne, honce, fun haccept hnot => ?_, fun hf hstarted => ?_⟩
        · rcases hskip with hf | hlistenning
          · rw [hf] at haccept
            cases haccept
          · rw [hlistenning] at hnot
            cases hnot
        · exact mem_queue_tail hcons (by decide) (hclosing hf hstarted)
      · rename_i hopen
        simp only [Bool.or_eq_true, Bool.not_eq_true', not_or, Bool.not_eq_false] at hopen
        refine ⟨fun hne => absurd hpc hne, fun _ => rfl, fun _ hnot => (by cases hnot), ?_⟩
        intro hf
        dsimp only at hf
        rw [hopen.1] at hf
        cases hf
    · -- the channel is closed, or was not to be
      unfold Acceptor.closeInLoop
      split
      · rename_i haccept
        refine ⟨fun hne => absurd hpc hne, honce, fun ha hnot => ?_, fun hf => ?_⟩
        · exact mem_queue_tail hcons (by decide) (hopening ha hnot)
        · rw [haccept] at hf
          cases hf
      · refine ⟨fun hne => absurd hpc hne, fun hf => (by cases hf), fun ha hnot => ?_,
          fun _ hf => by cases hf⟩
        exact mem_queue_tail hcons (by decide) (hopening ha hnot)
  · obtain ⟨h1, h2, h3, h4, h5⟩ := frame_step hidle hlisten hclose hfunctor hstep
    refine ⟨h5, ?_, ?_, ?_⟩
    · rw [h2, h3]
      exact honce
    · rw [h1, h2, h4]
      exact hopening
    · rw [h1, h3, h4]
      exact hclosing

/-- An acceptor that accepts is not spent, as long as no spent one is made to
listen. -/
theorem fresh_step (h : Settling s) (hfresh : s.acceptor.accept_ = true → ¬ s.acceptor.Spent)
    (hC : Renews s e) (hstep : step s e = some t) :
    t.acceptor.accept_ = true → ¬ t.acceptor.Spent := by
  by_cases hlisten : e = .listen
  · subst hlisten
    obtain rfl := Option.some.inj hstep
    unfold call Acceptor.listen
    by_cases haccept : s.acceptor.accept_ = true
    · rw [if_pos haccept]
      exact hfresh
    · rw [if_neg haccept]
      exact fun _ => hC (by simpa using haccept)
  by_cases hclose : e = .close
  · subst hclose
    obtain rfl := Option.some.inj hstep
    unfold call Acceptor.close
    by_cases haccept : s.acceptor.accept_ = true
    · rw [if_neg (by simp [haccept])]
      exact fun hf => by cases hf
    · rw [if_pos (by simp [haccept])]
      exact hfresh
  by_cases hfunctor : e = .functor
  · subst hfunctor
    obtain ⟨-, ⟨-, rfl⟩ | ⟨rest, -, rfl⟩ | ⟨rest, -, rfl⟩⟩ := functor_cases hstep
    · exact hfresh
    · unfold Acceptor.listenInLoop
      split
      · exact hfresh
      · rintro - ⟨-, hf⟩
        cases hf
    · unfold Acceptor.closeInLoop
      split
      · exact hfresh
      · rename_i haccept
        exact fun ha => absurd ha haccept
  · obtain ⟨h1, h2, h3, -⟩ := frame_step h.idle hlisten hclose hfunctor hstep
    unfold Acceptor.Spent
    rw [h1, h2, h3]
    exact hfresh

end Step

/-- **`listen` and `close` converge, where no spent acceptor is made to listen.**
In every run of calls of `listen` and `close` from any thread and rounds of the
loop with any events and any answers of `accept4`: when no functor is queued, the
channel is registered if and only if `accept_` is set, provided that every
`listen` that is not ignored was made of an acceptor that had not listened or
whose channel was still open. Without that proviso a registered channel still
belongs to an acceptor that accepts, and one that accepts without a registered
channel is spent. -/
theorem acceptor_converges (idleFd : Option ℕ) (es : List AcceptorEvent) (t : AcceptorLoop)
    (hrun : run step (init idleFd) es = some t) (hqueue : t.queue = []) :
    (Along step Renews (init idleFd) es →
        (t.acceptor.channel_.started_ = true ↔ t.acceptor.accept_ = true))
      ∧ (t.acceptor.channel_.started_ = true → t.acceptor.accept_ = true)
      ∧ (t.acceptor.accept_ = true → t.acceptor.channel_.started_ = false →
        t.acceptor.Spent) := by
  have h : Settling t :=
    run_inv (fun _ _ _ h hs => settling_step h hs) (settling_init idleFd) hrun
  have hsound : t.acceptor.channel_.started_ = true → t.acceptor.accept_ = true := by
    intro hstarted
    by_contra hnot
    have hmem := h.closing (by simpa using hnot) hstarted
    rw [hqueue] at hmem
    exact absurd hmem List.not_mem_nil
  have hspent : t.acceptor.accept_ = true → t.acceptor.channel_.started_ = false →
      t.acceptor.Spent := by
    intro haccept hclosed
    refine ⟨?_, hclosed⟩
    by_contra hnot
    have hmem := h.opening haccept (by simpa using hnot)
    rw [hqueue] at hmem
    exact absurd hmem List.not_mem_nil
  refine ⟨fun hC => ⟨hsound, fun haccept => ?_⟩, hsound, hspent⟩
  have hfresh := (run_inv_along
    (I := fun s : AcceptorLoop => Settling s ∧ (s.acceptor.accept_ = true → ¬ s.acceptor.Spent))
    (fun _ _ _ h hC hs => ⟨settling_step h.1 hs, fresh_step h.1 h.2 hC hs⟩)
    ⟨settling_init idleFd, fun h => by cases h⟩ hC hrun).2
  by_contra hnot
  exact hfresh haccept (hspent haccept (by simpa using hnot))

/-- Two calls while the functor of the first is queued, and one more after the
channel has been opened: the acceptor ends closed, and so does its channel. -/
theorem acceptor_converges_closed : ∃ t,
    run step (init (some 3)) [.listen, .close, .listen, .poll Events.none, .handle, .functor,
      .functor, .functor, .functor, .poll Events.none, .close, .handle, .functor,
      .functor] = some t
    ∧ t.acceptor.accept_ = false
    ∧ (t.acceptor.channel_.started_ = true ↔ t.acceptor.accept_ = true) := by
  have heval : (run step (init (some 3)) [.listen, .close, .listen, .poll Events.none, .handle,
      .functor, .functor, .functor, .functor, .poll Events.none, .close, .handle, .functor,
      .functor]).map (fun t => (t.queue, t.acceptor.accept_)) = some ([], false) := by
    decide
  obtain ⟨t, hrun, ht⟩ := Option.map_eq_some_iff.mp heval
  obtain ⟨hqueue, haccept⟩ := Prod.mk.inj ht
  exact ⟨t, hrun, haccept, (acceptor_converges (some 3) _ t hrun hqueue).1 (by decide)⟩

/-- Listen, close, and listen again, each after the functor of the one before has
run: the acceptor accepts, nothing is queued, and the channel stays closed. -/
theorem acceptor_spent : ∃ t,
    run step (init (some 3)) [.listen, .poll Events.none, .handle, .functor, .functor, .close,
      .poll Events.none, .handle, .functor, .functor, .listen, .poll Events.none, .handle,
      .functor, .functor] = some t
    ∧ t.queue = [] ∧ t.acceptor.accept_ = true ∧ t.acceptor.channel_.started_ = false
    ∧ ¬ (t.acceptor.channel_.started_ = true ↔ t.acceptor.accept_ = true) := by
  have heval : (run step (init (some 3)) [.listen, .poll Events.none, .handle, .functor, .functor,
      .close, .poll Events.none, .handle, .functor, .functor, .listen, .poll Events.none, .handle,
      .functor, .functor]).map
        (fun t => (t.queue, t.acceptor.accept_, t.acceptor.channel_.started_))
      = some ([], true, false) := by
    decide
  obtain ⟨t, hrun, ht⟩ := Option.map_eq_some_iff.mp heval
  simp only [Prod.mk.injEq] at ht
  obtain ⟨hqueue, haccept, hclosed⟩ := ht
  refine ⟨t, hrun, hqueue, haccept, hclosed, ?_⟩
  rw [haccept, hclosed]
  decide

end AcceptorLoop

end Libiak.Net
