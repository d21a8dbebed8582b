/-
`net/EventLoop.cpp`: the loop, its queue of functors, and the descriptor that
wakes it up.

One loop runs on one thread; any number of others push functors. A push and the
write to the `eventfd` behind it are two steps, and so are the read of the
`eventfd` and the clearing of the gate of its channel: between any two of them
the other threads can do anything. The loop's own thread also pushes, out of a
functor or out of the callback of another channel; it is then inside
`runInLoop` and does nothing else until its own write is done (`calling`).

The poller is edge-triggered. `edge` is set by a write and cleared by a report,
and a report needs it; a full counter refuses the write, as the kernel does.
Other channels of the loop appear on the active list under names of their own,
before and behind the loop's, and their callbacks are user code.
-/
import Libiak.Channel
import Libiak.Run
import Mathlib.Algebra.Group.Nat.Defs

set_option autoImplicit false

namespace Libiak.Net

open Libiak.Run

variable {φ κ : Type*}

/-- Where the thread of the loop is. `entry` is before the assignment of
`quit_` at the head of `loop()`, `test` the test of the `while`. `dispatch` is
the loop of `handleActivedChannels`, `wakeupRead` and `wakeupDisable` are the two
lines of `handleWakeup`, `handler` the callbacks of another channel. `batch` is
the loop of `doPendingFunctors`, `running` a functor. -/
inductive LoopPc where
  | entry
  | test
  | poll
  | dispatch
  | wakeupRead
  | wakeupDisable
  | handler
  | batch
  | running
  | exited
  deriving DecidableEq

/-- `class EventLoop`, its thread, and the `eventfd`. `writers` counts the other
threads that have pushed, or set `quit_`, and not written yet. The history:
the functors pushed and those started, in order. -/
structure EventLoop (φ κ : Type*) where
  quit_ : Bool
  pendingFunctors_ : List φ
  functors : List φ
  activedChannels_ : List (Option κ)
  wakeupChannel_ : Channel
  counter : ℕ
  edge : Bool
  pc : LoopPc
  calling : Bool
  writers : ℕ
  pushed : List φ
  started : List φ

/-- What can happen to a loop next: another thread pushes, sets `quit_`, or
writes; the loop's thread does the same inside user code; a poll returns; or the
loop's thread takes its next step. -/
inductive LoopEvent (φ κ : Type*) where
  | push (functor : φ)
  | quit
  | wakeup
  | callPush (functor : φ)
  | callQuit
  | callWakeup
  | poll (before after : List κ) (events : Events)
  | next

namespace EventLoop

/-- The loop as `EventLoop::EventLoop` leaves it, on a thread about to call
`loop()`. -/
def init : EventLoop φ κ :=
  { quit_ := false, pendingFunctors_ := [], functors := [], activedChannels_ := []
    wakeupChannel_ := Channel.make.enableRead.open, counter := 0, edge := false
    pc := .entry, calling := false, writers := 0, pushed := [], started := [] }

/-- `EventLoop::wakeup`: an `eventfd` holds at most `2 ^ 64 - 2`. -/
def wakeup (s : EventLoop φ κ) : EventLoop φ κ :=
  if s.counter + 1 < 2 ^ 64 - 1 then { s with counter := s.counter + 1, edge := true } else s

/-- The push of `runInLoop`, under the mutex. -/
def push (s : EventLoop φ κ) (functor : φ) : EventLoop φ κ :=
  { s with pendingFunctors_ := s.pendingFunctors_ ++ [functor], pushed := s.pushed ++ [functor] }

/-- The loop's thread is in user code. -/
def inUser : LoopPc → Bool
  | .handler | .running => true
  | _ => false

/-- `EPollPoller::poll`. The `eventfd` is reported readable only if it has been
written since its last report and not read to zero. -/
def poll (s : EventLoop φ κ) (before after : List κ) (events : Events) :
    Option (EventLoop φ κ) :=
  if s.pc = .poll ∧ (events.input = true → 0 < s.counter ∧ s.edge = true) then
    let r := Channel.poll none events
      (s.wakeupChannel_, s.activedChannels_ ++ before.map some)
    some { s with
      wakeupChannel_ := r.1, activedChannels_ := r.2 ++ after.map some
      edge := s.edge && !events.input, pc := .dispatch }
  else none

/-- The next channel of the active list, or the swap of `doPendingFunctors` when
there is none. The channel of the loop has a read callback only. -/
def dispatch (s : EventLoop φ κ) : EventLoop φ κ :=
  match s.activedChannels_ with
  | [] => { s with functors := s.pendingFunctors_, pendingFunctors_ := [], pc := .batch }
  | some _ :: rest => { s with activedChannels_ := rest, pc := .handler }
  | none :: rest =>
      let channel := { s.wakeupChannel_ with actived_ := false, rclose_ := false, rerror_ := false }
      if s.wakeupChannel_.rread_ then
        { s with
          activedChannels_ := rest, wakeupChannel_ := { channel with rread_ := false }
          pc := .wakeupRead }
      else
        { s with activedChannels_ := rest, wakeupChannel_ := { channel with rwrite_ := false } }

/-- The next step of the loop's thread. -/
def next (s : EventLoop φ κ) : Option (EventLoop φ κ) :=
  if s.calling then none
  else
    match s.pc with
    | .entry => some { s with quit_ := false, pc := .test }
    | .test => some { s with pc := if s.quit_ then .exited else .poll }
    | .poll => none
    | .dispatch => some s.dispatch
    | .wakeupRead => some { s with counter := 0, pc := .wakeupDisable }
    | .wakeupDisable =>
        some { s with
          wakeupChannel_ := { s.wakeupChannel_ with readable_ := false, rwrite_ := false }
          pc := .dispatch }
    | .handler => some { s with pc := .dispatch }
    | .batch =>
        match s.functors with
        | [] => some { s with pc := .test }
        | functor :: rest =>
            some { s with functors := rest, started := s.started ++ [functor], pc := .running }
    | .running => some { s with pc := .batch }
    | .exited => none

def step (s : EventLoop φ κ) : LoopEvent φ κ → Option (EventLoop φ κ)
  | .push functor => some { s.push functor with writers := s.writers + 1 }
  | .quit => some { s with quit_ := true, writers := s.writers + 1 }
  | .wakeup => if 0 < s.writers then some { s.wakeup with writers := s.writers - 1 } else none
  | .callPush functor =>
      if inUser s.pc = true ∧ s.calling = false then
        some { s.push functor with calling := true }
      else none
  | .callQuit =>
      if inUser s.pc = true ∧ s.calling = false then
        some { s with quit_ := true, calling := true }
      else none
  | .callWakeup => if s.calling = true then some { s.wakeup with calling := false } else none
  | .poll before after events => s.poll before after events
  | .next => s.next

/-! ## The invariant -/

/-- The places of the loop's thread between a poll and the swap of the queue. -/
def inRound : LoopPc → Bool
  | .dispatch | .wakeupRead | .wakeupDisable | .handler => true
  | _ => false

/-- What ties the queue, the counter, the edge and the gate together.

A functor in the queue has its wake-up ahead of it (a thread that has pushed and
not written), on its way (a counter that is not zero), or is about to be swapped
out, since the loop is between a poll and the swap (`waked`). A counter that is
not zero has an edge to report, or has been reported and not read yet
(`reported`). And the gate is shut only between a
report and the end of `handleWakeup` (`gate`), so that a report gets through. -/
structure Wakeful (s : EventLoop φ κ) : Prop where
  read : s.wakeupChannel_.read_ = true
  idle : inRound s.pc = false → s.activedChannels_ = []
  listed : s.wakeupChannel_.actived_ = true → none ∈ s.activedChannels_
  pending : s.wakeupChannel_.rread_ = true → s.wakeupChannel_.actived_ = true
  gate : s.wakeupChannel_.readable_ = true →
    s.wakeupChannel_.rread_ = true ∨ s.pc = .wakeupRead ∨ s.pc = .wakeupDisable
  reported : 0 < s.counter →
    s.edge = true ∨ s.wakeupChannel_.rread_ = true ∨ s.pc = .wakeupRead
  waked : s.pendingFunctors_ ≠ [] →
    0 < s.writers ∨ s.calling = true ∨ 0 < s.counter ∨ inRound s.pc = true
  caller : s.calling = true → inUser s.pc = true

/-- The functors that have started, those of the batch and those in the queue
are those pushed, in order. -/
structure Ordered (s : EventLoop φ κ) : Prop where
  order : s.started ++ s.functors ++ s.pendingFunctors_ = s.pushed
  batch : s.functors ≠ [] → s.pc = .batch ∨ s.pc = .running

theorem wakeful_init : Wakeful (init : EventLoop φ κ) where
  read := rfl
  idle := fun _ => rfl
  listed := fun h => absurd h Bool.false_ne_true
  pending := fun h => absurd h Bool.false_ne_true
  gate := fun h => absurd h Bool.false_ne_true
  reported := fun h => absurd h (Nat.lt_irrefl 0)
  waked := fun h => absurd rfl h
  caller := fun h => absurd h Bool.false_ne_true

theorem ordered_init : Ordered (init : EventLoop φ κ) where
  order := rfl
  batch := fun h => absurd rfl h

section Step

variable {s t : EventLoop φ κ}

/-- Outside `handleWakeup` a shut gate has a read pending behind it. -/
theorem Wakeful.gate_elsewhere (h : Wakeful s) (hpc : s.pc ≠ .wakeupRead ∧ s.pc ≠ .wakeupDisable)
    (hshut : s.wakeupChannel_.readable_ = true) : s.wakeupChannel_.rread_ = true := by
  rcases h.gate hshut with h1 | h1 | h1
  · exact h1
  · exact absurd h1 hpc.1
  · exact absurd h1 hpc.2

/-- Away from the read of the `eventfd` a counter that is not zero is reported
or about to be. -/
theorem Wakeful.reported_elsewhere (h : Wakeful s) (hpc : s.pc ≠ .wakeupRead)
    (hcounter : 0 < s.counter) : s.edge = true ∨ s.wakeupChannel_.rread_ = true := by
  rcases h.reported hcounter with h1 | h1 | h1
  · exact Or.inl h1
  · exact Or.inr h1
  · exact absurd h1 hpc

/-- A write leaves a counter that is not zero, and an edge unless the counter
was full. -/
theorem wakeup_eq (s : EventLoop φ κ) :
    ∃ counter edge, s.wakeup = { s with counter := counter, edge := edge } ∧ 0 < counter
      ∧ (edge = true ∨ (counter = s.counter ∧ edge = s.edge)) := by
  unfold wakeup
  by_cases hroom : s.counter + 1 < 2 ^ 64 - 1
  · rw [if_pos hroom]
    exact ⟨s.counter + 1, true, rfl, Nat.succ_pos _, Or.inl rfl⟩
  · rw [if_neg hroom]
    exact ⟨s.counter, s.edge, rfl, by omega, Or.inr ⟨rfl, rfl⟩⟩

/-- After a write nothing else is needed for the queue. -/
theorem Wakeful.wakeup (h : Wakeful s) (writers : ℕ) (calling : Bool)
    (hcaller : calling = true → inUser s.pc = true) :
    Wakeful { s.wakeup with writers := writers, calling := calling } := by
  obtain ⟨counter, edge, heq, hpos, hedge⟩ := wakeup_eq s
  rw [heq]
  refine ⟨h.read, h.idle, h.listed, h.pending, h.gate, ?_, ?_, hcaller⟩
  · intro _
    rcases hedge with rfl | ⟨hcounter, rfl⟩
    · exact Or.inl rfl
    · exact h.reported (hcounter ▸ hpos)
  · intro _
    exact Or.inr (Or.inr (Or.inl hpos))

/-- The reported events reach the channel, since a report finds the gate open. -/
theorem wakeful_poll {before after : List κ} {events : Events} (h : Wakeful s)
    (hstep : s.poll before after events = some t) : Wakeful t := by
  unfold poll at hstep
  split at hstep
  · rename_i hguard
    obtain ⟨hpc, hreport⟩ := hguard
    obtain rfl := Option.some.inj hstep
    have hpc' : inRound s.pc = false := by
      rw [hpc]
      rfl
    have hlist := h.idle hpc'
    -- at the poll no flag is pending and the gate is open
    have hact : s.wakeupChannel_.actived_ = false := by
      by_contra hact
      have hmem := h.listed (by simpa using hact)
      rw [hlist] at hmem
      exact absurd hmem List.not_mem_nil
    have hread : s.wakeupChannel_.rread_ = false := by
      by_contra hread
      rw [h.pending (by simpa using hread)] at hact
      cases hact
    have hopen : s.wakeupChannel_.readable_ = false := by
      by_contra hopen
      have hread' := h.gate_elsewhere (by simp [hpc]) (by simpa using hopen)
      rw [hread] at hread'
      cases hread'
    have hpolled := Channel.polled_poll none events
      (s.wakeupChannel_, s.activedChannels_ ++ before.map some)
    refine ⟨hpolled.read_eq.trans h.read, ?_, ?_, ?_, ?_, ?_, ?_, ?_⟩
    · intro hidle
      cases hidle
    · intro hact'
      apply List.mem_append_left
      rcases hpolled.listed with ⟨h1, -⟩ | ⟨-, -, h2⟩
      · rw [h1, hact] at hact'
        cases hact'
      · rw [h2]
        exact List.mem_append_right _ (List.mem_singleton_self _)
    · intro hread'
      rcases hpolled.read_gate with ⟨-, h1⟩ | ⟨-, -, -, h1⟩
      · rw [h1, hread] at hread'
        cases hread'
      · exact h1
    · intro hopen'
      rcases hpolled.read_gate with ⟨h1, -⟩ | ⟨-, -, h1, -⟩
      · rw [h1, hopen] at hopen'
        cases hopen'
      · exact Or.inl h1
    · intro hcounter
      -- either the edge was reported and raised `rread_`, or it is still there
      by_cases hinput : events.input = true
      · exact Or.inr (Or.inl (Channel.poll_input none hinput h.read hopen))
      · rcases h.reported_elsewhere (by simp [hpc]) hcounter with h1 | h1
        · left
          simp [h1, hinput]
        · rw [hread] at h1
          cases h1
    · intro _
      exact Or.inr (Or.inr (Or.inr rfl))
    · intro hcall
      have huser := h.caller hcall
      rw [hpc] at huser
      cases huser
  · cases hstep

/-- The dispatch of one entry of the active list, or the swap. -/
theorem wakeful_dispatch (h : Wakeful s) (hpc : s.pc = .dispatch) (hcall : s.calling = false) :
    Wakeful s.dispatch := by
  have hnone : s.calling = true → False := fun hc => by
    rw [hcall] at hc
    cases hc
  have haway : s.pc ≠ .wakeupRead ∧ s.pc ≠ .wakeupDisable := by simp [hpc]
  unfold dispatch
  split
  · -- the swap: nothing is pending on the channel, and the queue is empty
    rename_i hlist
    have hact : s.wakeupChannel_.actived_ = true → False := by
      intro hact
      have hmem := h.listed hact
      rw [hlist] at hmem
      exact absurd hmem List.not_mem_nil
    refine ⟨h.read, fun _ => hlist, fun ha => (hact ha).elim, h.pending, ?_, ?_, ?_, ?_⟩
    · intro hopen
      exact (hact (h.pending (h.gate_elsewhere haway hopen))).elim
    · intro hcounter
      rcases h.reported_elsewhere haway.1 hcounter with h1 | h1
      · exact Or.inl h1
      · exact (hact (h.pending h1)).elim
    · intro hne
      exact absurd rfl hne
    · intro hc
      exact (hnone hc).elim
  · -- another channel: its entry leaves the list, that of the loop's channel stays
    rename_i k rest hlist
    refine ⟨h.read, fun hidle => absurd hidle.symm Bool.false_ne_true, ?_, h.pending, ?_, ?_,
      fun _ => Or.inr (Or.inr (Or.inr rfl)), fun _ => rfl⟩
    · intro hact
      have hmem := h.listed hact
      rw [hlist] at hmem
      rcases List.mem_cons.mp hmem with h1 | h1
      · cases h1
      · exact h1
    · intro hopen
      exact Or.inl (h.gate_elsewhere haway hopen)
    · intro hcounter
      rcases h.reported_elsewhere haway.1 hcounter with h1 | h1
      · exact Or.inl h1
      · exact Or.inr (Or.inl h1)
  · rename_i rest hlist
    simp only
    split
    · -- the channel of the loop, with its read pending
      refine ⟨h.read, fun hidle => absurd hidle.symm Bool.false_ne_true,
        fun hact => absurd hact Bool.false_ne_true, fun hread => absurd hread Bool.false_ne_true,
        fun _ => Or.inr (Or.inl rfl), fun _ => Or.inr (Or.inr rfl), ?_, ?_⟩
      · exact fun _ => Or.inr (Or.inr (Or.inr rfl))
      · intro hc
        exact (hnone hc).elim
    · -- nothing is pending on it: the gate is open and the counter not reported
      rename_i hread
      refine ⟨h.read, fun hidle => ?_, fun hact => absurd hact Bool.false_ne_true,
        fun hread' => absurd hread' hread, ?_, ?_, ?_, ?_⟩
      · rw [hpc] at hidle
        cases hidle
      · intro hopen
        exact absurd (h.gate_elsewhere haway hopen) hread
      · intro hcounter
        rcases h.reported_elsewhere haway.1 hcounter with h1 | h1
        · exact Or.inl h1
        · exact absurd h1 hread
      · intro _
        exact Or.inr (Or.inr (Or.inr (by rw [hpc]; rfl)))
      · intro hc
        exact (hnone hc).elim

/-- A step of the loop's thread from a place `pc` where it neither reads the
`eventfd` nor clears the gate, to another such place that is as far from the
swap. -/
theorem Wakeful.moved (h : Wakeful s) {pc : LoopPc} (quit : Bool) (functors started : List φ)
    (hcall : s.calling = false) (hpc : s.pc ≠ .wakeupRead ∧ s.pc ≠ .wakeupDisable)
    (hround : inRound pc = inRound s.pc) :
    Wakeful { s with quit_ := quit, functors := functors, started := started, pc := pc } := by
  refine ⟨h.read, fun hidle => h.idle (hround ▸ hidle), h.listed, h.pending, ?_, ?_, ?_, ?_⟩
  · intro hopen
    exact Or.inl (h.gate_elsewhere hpc hopen)
  · intro hcounter
    rcases h.reported_elsewhere hpc.1 hcounter with h1 | h1
    · exact Or.inl h1
    · exact Or.inr (Or.inl h1)
  · intro hne
    show _ ∨ _ ∨ _ ∨ inRound pc = true
    rw [hround]
    exact h.waked hne
  · intro hc
    rw [show s.calling = true from hc] at hcall
    cases hcall

/-- Every step of the loop's thread keeps the invariant. -/
theorem wakeful_next (h : Wakeful s) (hstep : s.next = some t) : Wakeful t := by
  unfold next at hstep
  split at hstep
  · cases hstep
  · rename_i hcall
    have hcall' : s.calling = false := by simpa using hcall
    cases hpc : s.pc with
    | entry =>
        rw [hpc] at hstep
        exact (Option.some.inj hstep) ▸
          h.moved false s.functors s.started hcall' (by simp [hpc]) (by rw [hpc]; rfl)
    | test =>
        rw [hpc] at hstep
        refine (Option.some.inj hstep) ▸
          h.moved s.quit_ s.functors s.started hcall' (by simp [hpc]) ?_
        rw [hpc]
        cases s.quit_ <;> rfl
    | poll =>
        rw [hpc] at hstep
        cases hstep
    | dispatch =>
        rw [hpc] at hstep
        exact (Option.some.inj hstep) ▸ wakeful_dispatch h hpc hcall'
    | wakeupRead =>
        rw [hpc] at hstep
        obtain rfl := Option.some.inj hstep
        exact ⟨h.read, fun hidle => absurd hidle.symm Bool.false_ne_true, h.listed, h.pending,
          fun _ => Or.inr (Or.inr rfl), fun hpos => absurd hpos (Nat.lt_irrefl 0),
          fun _ => Or.inr (Or.inr (Or.inr rfl)), fun hc => absurd hc hcall⟩
    | wakeupDisable =>
        rw [hpc] at hstep
        obtain rfl := Option.some.inj hstep
        refine ⟨h.read, fun hidle => absurd hidle.symm Bool.false_ne_true, h.listed, h.pending,
          fun hopen => absurd hopen Bool.false_ne_true, ?_,
          fun _ => Or.inr (Or.inr (Or.inr rfl)), fun hc => absurd hc hcall⟩
        intro hcounter
        rcases h.reported_elsewhere (by simp [hpc]) hcounter with h1 | h1
        · exact Or.inl h1
        · exact Or.inr (Or.inl h1)
    | handler =>
        rw [hpc] at hstep
        exact (Option.some.inj hstep) ▸
          h.moved s.quit_ s.functors s.started hcall' (by simp [hpc]) (by rw [hpc]; rfl)
    | batch =>
        simp only [hpc] at hstep
        split at hstep
        · exact (Option.some.inj hstep) ▸
            h.moved s.quit_ s.functors s.started hcall' (by simp [hpc]) (by rw [hpc]; rfl)
        · rename_i f rest hlist
          exact (Option.some.inj hstep) ▸
            h.moved s.quit_ rest (s.started ++ [f]) hcall' (by simp [hpc]) (by rw [hpc]; rfl)
    | running =>
        rw [hpc] at hstep
        exact (Option.some.inj hstep) ▸
          h.moved s.quit_ s.functors s.started hcall' (by simp [hpc]) (by rw [hpc]; rfl)
    | exited =>
        rw [hpc] at hstep
        cases hstep

/-- Every step keeps the invariant. -/
theorem wakeful_step {e : LoopEvent φ κ} (h : Wakeful s) (hstep : step s e = some t) :
    Wakeful t := by
  cases e with
  | push f =>
      obtain rfl := Option.some.inj hstep
      exact ⟨h.read, h.idle, h.listed, h.pending, h.gate, h.reported,
        fun _ => Or.inl (Nat.succ_pos _), h.caller⟩
  | quit =>
      obtain rfl := Option.some.inj hstep
      exact ⟨h.read, h.idle, h.listed, h.pending, h.gate, h.reported,
        fun _ => Or.inl (Nat.succ_pos _), h.caller⟩
  | wakeup =>
      rw [step] at hstep
      split at hstep
      · have hw := h.wakeup (s.writers - 1) s.calling h.caller
        obtain ⟨counter, edge, heq, -, -⟩ := wakeup_eq s
        rw [heq] at hw hstep
        exact (Option.some.inj hstep) ▸ hw
      · cases hstep
  | callPush f =>
      rw [step] at hstep
      split at hstep
      · rename_i hguard
        obtain rfl := Option.some.inj hstep
        exact ⟨h.read, h.idle, h.listed, h.pending, h.gate, h.reported,
          fun _ => Or.inr (Or.inl rfl), fun _ => hguard.1⟩
      · cases hstep
  | callQuit =>
      rw [step] at hstep
      split at hstep
      · rename_i hguard
        obtain rfl := Option.some.inj hstep
        exact ⟨h.read, h.idle, h.listed, h.pending, h.gate, h.reported,
          fun _ => Or.inr (Or.inl rfl), fun _ => hguard.1⟩
      · cases hstep
  | callWakeup =>
      rw [step] at hstep
      split at hstep
      · have hw := h.wakeup s.writers false (fun hc => absurd hc Bool.false_ne_true)
        obtain ⟨counter, edge, heq, -, -⟩ := wakeup_eq s
        rw [heq] at hw hstep
        exact (Option.some.inj hstep) ▸ hw
      · cases hstep
  | poll before after events => exact wakeful_poll h hstep
  | next => exact wakeful_next h hstep

/-- No functor of a batch is left outside `doPendingFunctors`. -/
theorem Ordered.functors_nil (h : Ordered s) (hpc : s.pc ≠ .batch ∧ s.pc ≠ .running) :
    s.functors = [] := by
  by_contra hne
  rcases h.batch hne with h1 | h1
  · exact hpc.1 h1
  · exact hpc.2 h1

/-- Every step of the loop's thread keeps the order: the swap moves the queue,
and a functor that starts is the first of the batch. -/
theorem ordered_next (h : Ordered s) (hstep : s.next = some t) : Ordered t := by
  have horder := h.order
  unfold next at hstep
  split at hstep
  · cases hstep
  · cases hpc : s.pc with
    | entry =>
        rw [hpc] at hstep
        have hnil := h.functors_nil (by simp [hpc])
        exact (Option.some.inj hstep) ▸ ⟨horder, fun hne => absurd hnil hne⟩
    | test =>
        rw [hpc] at hstep
        have hnil := h.functors_nil (by simp [hpc])
        exact (Option.some.inj hstep) ▸ ⟨horder, fun hne => absurd hnil hne⟩
    | poll =>
        rw [hpc] at hstep
        cases hstep
    | dispatch =>
        rw [hpc] at hstep
        obtain rfl := Option.some.inj hstep
        have hnil := h.functors_nil (by simp [hpc])
        unfold dispatch
        split
        · rw [hnil, List.append_nil] at horder
          refine ⟨?_, fun _ => Or.inl rfl⟩
          show s.started ++ s.pendingFunctors_ ++ [] = s.pushed
          rw [List.append_nil, horder]
        · exact ⟨horder, fun hne => absurd hnil hne⟩
        · simp only
          split
          · exact ⟨horder, fun hne => absurd hnil hne⟩
          · exact ⟨horder, fun hne => absurd hnil hne⟩
    | wakeupRead =>
        rw [hpc] at hstep
        have hnil := h.functors_nil (by simp [hpc])
        exact (Option.some.inj hstep) ▸ ⟨horder, fun hne => absurd hnil hne⟩
    | wakeupDisable =>
        rw [hpc] at hstep
        have hnil := h.functors_nil (by simp [hpc])
        exact (Option.some.inj hstep) ▸ ⟨horder, fun hne => absurd hnil hne⟩
    | handler =>
        rw [hpc] at hstep
        have hnil := h.functors_nil (by simp [hpc])
        exact (Option.some.inj hstep) ▸ ⟨horder, fun hne => absurd hnil hne⟩
    | batch =>
        simp only [hpc] at hstep
        split at hstep
        · rename_i hnil
          exact (Option.some.inj hstep) ▸ ⟨horder, fun hne => absurd hnil hne⟩
        · rename_i f rest hlist
          refine (Option.some.inj hstep) ▸ ⟨?_, fun _ => Or.inr rfl⟩
          show s.started ++ [f] ++ rest ++ s.pendingFunctors_ = s.pushed
          rw [hlist] at horder
          rw [List.append_assoc s.started, List.singleton_append]
          exact horder
    | running =>
        rw [hpc] at hstep
        exact (Option.some.inj hstep) ▸ ⟨horder, fun _ => Or.inl rfl⟩
    | exited =>
        rw [hpc] at hstep
        cases hstep

/-- Every step keeps the order. -/
theorem ordered_step {e : LoopEvent φ κ} (h : Ordered s) (hstep : step s e = some t) :
    Ordered t := by
  have horder := h.order
  have hpush : ∀ f, s.started ++ s.functors ++ (s.pendingFunctors_ ++ [f]) = s.pushed ++ [f] := by
    intro f
    rw [← List.append_assoc, horder]
  cases e with
  | push f =>
      obtain rfl := Option.some.inj hstep
      exact ⟨hpush f, h.batch⟩
  | quit =>
      obtain rfl := Option.some.inj hstep
      exact ⟨horder, h.batch⟩
  | wakeup =>
      rw [step] at hstep
      split at hstep
      · obtain ⟨counter, edge, heq, -, -⟩ := wakeup_eq s
        rw [heq] at hstep
        exact (Option.some.inj hstep) ▸ ⟨horder, h.batch⟩
      · cases hstep
  | callPush f =>
      rw [step] at hstep
      split at hstep
      · exact (Option.some.inj hstep) ▸ ⟨hpush f, h.batch⟩
      · cases hstep
  | callQuit =>
      rw [step] at hstep
      split at hstep
      · exact (Option.some.inj hstep) ▸ ⟨horder, h.batch⟩
      · cases hstep
  | callWakeup =>
      rw [step] at hstep
      split at hstep
      · obtain ⟨counter, edge, heq, -, -⟩ := wakeup_eq s
        rw [heq] at hstep
        exact (Option.some.inj hstep) ▸ ⟨horder, h.batch⟩
      · cases hstep
  | poll before after events =>
      rw [step, poll] at hstep
      split at hstep
      · rename_i hguard
        have hnil := h.functors_nil (by simp [hguard.1])
        exact (Option.some.inj hstep) ▸ ⟨horder, fun hne => absurd hnil hne⟩
      · cases hstep
  | next => exact ordered_next h hstep

end Step

/-! ## Runs -/

/-- A report of the `eventfd` is due, and the channel lets it through: the
counter is not zero, it was written since its last report, and the gate is
open. -/
structure WakeupDue (s : EventLoop φ κ) : Prop where
  counter : 0 < s.counter
  edge : s.edge = true
  read : s.wakeupChannel_.read_ = true
  open_ : s.wakeupChannel_.readable_ = false ∧ s.wakeupChannel_.rread_ = false

/-- At the poll, a queue that is not empty and that every producer has written
for has its report due. -/
theorem Wakeful.due {s : EventLoop φ κ} (h : Wakeful s) (hpc : s.pc = .poll)
    (hne : s.pendingFunctors_ ≠ []) (hwriters : s.writers = 0) : WakeupDue s := by
  have hlist := h.idle (by rw [hpc]; rfl)
  have hread : s.wakeupChannel_.rread_ = false := by
    by_contra hread
    have hmem := h.listed (h.pending (by simpa using hread))
    rw [hlist] at hmem
    exact absurd hmem List.not_mem_nil
  have hcounter : 0 < s.counter := by
    rcases h.waked hne with h1 | h1 | h1 | h1
    · omega
    · have huser := h.caller h1
      rw [hpc] at huser
      cases huser
    · exact h1
    · rw [hpc] at h1
      cases h1
  refine ⟨hcounter, ?_, h.read, ?_, hread⟩
  · rcases h.reported hcounter with h1 | h1 | h1
    · exact h1
    · rw [hread] at h1
      cases h1
    · rw [hpc] at h1
      cases h1
  · by_contra hopen
    rcases h.gate (by simpa using hopen) with h1 | h1 | h1
    · rw [hread] at h1
      cases h1
    · rw [hpc] at h1
      cases h1
    · rw [hpc] at h1
      cases h1

/-- **Exactly once, in order, and no wake-up is lost.** In every state of every
run of a loop, whatever the other threads do: the functors started, those of the
current batch and those in the queue are together those pushed, in the order of
the pushes; and where the loop is in `poll` with a queue that is not empty and
every producer past its write, the `eventfd` has a report due that the gate of
its channel lets through. -/
theorem loop_queue (es : List (LoopEvent φ κ)) (t : EventLoop φ κ)
    (hrun : run step init es = some t) :
    t.started ++ t.functors ++ t.pendingFunctors_ = t.pushed
      ∧ (t.pc = .poll → t.pendingFunctors_ ≠ [] → t.writers = 0 → WakeupDue t) := by
  have hwakeful : Wakeful t :=
    run_inv (fun _ _ _ h hs => wakeful_step h hs) wakeful_init hrun
  have hordered : Ordered t :=
    run_inv (fun _ _ _ h hs => ordered_step h hs) ordered_init hrun
  exact ⟨hordered.order, hwakeful.due⟩

/-- A functor is pushed while the loop is about to poll, and its write makes the
report due. -/
theorem loop_queue_one :
    WakeupDue ((run step (init : EventLoop ℕ ℕ) [.next, .next, .push 7, .wakeup]).get
      (by decide)) :=
  (loop_queue [.next, .next, .push 7, .wakeup] _ (Option.some_get (by decide)).symm).2
    (by decide) (by decide) (by decide)

end EventLoop

end Libiak.Net
