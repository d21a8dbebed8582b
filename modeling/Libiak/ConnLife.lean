/-
The life cycle of a connection as its user sees it: `connectCallback` once, then
any number of `recvCallback` and `sendCallback`, then `disconnectCallback` once.

The callbacks are invoked from two places that do not look at each other's
flags. `onClose` reports the end whether or not `establishInLoop` has reported
the beginning, since `close_` guards the one and `establish_` the other. And one
call of `Channel::handleEvents` dispatches a close and then the read and the
write that were reported with it, so that the loops of `onRead` and `onWrite`
run, and report, on a connection that has been reported closed.

A round cannot go wrong in this way unless `epoll_wait` has reported a hang-up in it
or `readv` has found the end of the stream (`told`): a closed connection wants
no events, so none is pending that was not reported together with its end
(`Round`). So the cycle is kept exactly while `readv` and `writev` bring nothing
in such a round, and no `onClose` runs before `establishInLoop` (`conn_lifeCycle_iff`).
-/
import Libiak.InputGate

set_option autoImplicit false

namespace Libiak.Net

open Libiak.Run

variable {α : Type*}

/-- The callbacks that may come between the first and the last. -/
def Callback.isMiddle : Callback → Bool
  | .recv _ | .send _ => true
  | _ => false

/-- The callbacks of a connection that have been invoked are the beginning of a
life: connect, then receives and sends, then disconnect. -/
def LifeCycle (callbacks : List Callback) : Prop :=
  ∃ middle, (∀ c ∈ middle, Callback.isMiddle c = true)
    ∧ callbacks <+: .connect :: middle ++ [.disconnect]

theorem lifeCycle_nil : LifeCycle [] :=
  ⟨[], fun _ h => absurd h List.not_mem_nil, List.nil_prefix⟩

/-- A life that has begun, and may have ended. -/
theorem lifeCycle_begun {middle : List Callback}
    (h : ∀ c ∈ middle, Callback.isMiddle c = true) (ended : Bool) :
    LifeCycle (.connect :: middle ++ if ended then [.disconnect] else []) := by
  refine ⟨middle, h, ?_⟩
  cases ended
  · exact (List.prefix_append_right_inj _).mpr List.nil_prefix
  · exact List.prefix_refl _

/-- Nothing comes after the end. -/
theorem not_lifeCycle_after {middle : List Callback} {c : Callback} :
    ¬ LifeCycle (.connect :: middle ++ [.disconnect] ++ [c]) := by
  rintro ⟨middle', hmiddle, rest, heq⟩
  -- all but the last of the callbacks of a life are not disconnects
  have hlast := congrArg List.dropLast heq
  rw [List.dropLast_concat, List.append_assoc, List.append_assoc,
    List.dropLast_append_of_ne_nil (by simp), List.dropLast_append_of_ne_nil (by simp)] at hlast
  have hmem : Callback.disconnect ∈ Callback.connect :: middle' := by
    rw [← hlast]
    simp
  rcases List.mem_cons.mp hmem with h | h
  · cases h
  · exact absurd (hmiddle _ h) (by decide)

/-- Nothing comes before the beginning. -/
theorem not_lifeCycle_disconnect (callbacks : List Callback) :
    ¬ LifeCycle (.disconnect :: callbacks) := by
  rintro ⟨middle, -, rest, heq⟩
  simp at heq

/-! ## What a round has told -/

/-- Whether a round has told of the end, after a call in it: `epoll_wait` begins the
round, with a hang-up or without, and `readv` may find the end of the stream. -/
def SysCall.tell (told : Bool) : SysCall → Bool
  | .epollWait events => events.hup
  | .readv (some 0) => true
  | .readv _ | .write _ _ | .writev _ | .shutdownWrite => told

/-- In the last round a hang-up has been reported or the end of the stream been found. -/
def told (calls : List SysCall) : Bool := calls.foldl SysCall.tell false

theorem told_append (calls : List SysCall) (c : SysCall) :
    told (calls ++ [c]) = c.tell (told calls) := by
  rw [told, List.foldl_append]
  rfl

section Turn

variable {io : IoBuffers α}

/-- **What of a turn is counted, and what ends the connection**, by the result of `readv`. -/
theorem onRead.turn_counts {result : Readv α} {r : IoBuffers α × ReadOutcome}
    (h : onRead.turn io result = some r) :
    (r.2.counts = true ↔ ∃ n ∈ result.result, n ≠ 0 ∧ n ≤ onRead.size io)
      ∧ (r.2 = .eof ↔ result.result = some 0) := by
  cases result with
  | error =>
      obtain ⟨turn, -, h⟩ := Option.bind_eq_some_iff.mp h
      rw [← Option.some.inj h]
      simp [ReadOutcome.counts, Readv.result]
  | data bytes =>
      obtain ⟨turn, readTail, next, rfl, hsize⟩ := onRead.turn_finish h
      unfold onRead.finish
      dsimp only
      rw [hsize]
      simp only [Readv.result, Option.mem_some_iff, exists_eq_left', Option.some.injEq]
      by_cases heof : bytes.length = 0
      · simp [heof, ReadOutcome.counts]
      · rw [if_neg heof]
        by_cases hover : bytes.length > onRead.size io
        · simp [hover, heof, ReadOutcome.counts]
        · rw [if_neg hover]
          have hle := Nat.le_of_not_lt hover
          by_cases hshort : bytes.length < onRead.size io
          · simp [hshort, heof, hle, ReadOutcome.counts]
          · simp [hshort, heof, hle, ReadOutcome.counts]

/-- The size of the head ring and of the ring behind it, as `onWrite` counts it. -/
def onWrite.sizeOf (io : IoBuffers α) : ℕ :=
  match io.writeHead_ with
  | [] => 0
  | writeHead :: rest => onWrite.size writeHead rest.head?

theorem onWrite.turn_counts {result : Option ℕ} {r : IoBuffers α × WriteOutcome}
    (h : onWrite.turn io result = some r) :
    r.2.counts = true ↔ ∃ n ∈ result, n ≤ onWrite.sizeOf io := by
  obtain ⟨bytes, -, h⟩ := Option.bind_eq_some_iff.mp h
  unfold onWrite.sizeOf
  split at h
  · cases h
  · rw [← Option.some.inj h]
    simp [WriteOutcome.counts]
  · rename_i writeHead rest writesize hchain _
    rw [hchain]
    simp only [Option.mem_some_iff, exists_eq_left']
    split at h
    · cases h
    · dsimp only at h
      split at h
      · rename_i hover
        rw [← Option.some.inj h]
        simpa [WriteOutcome.counts] using hover
      · rename_i hover
        obtain ⟨advanced, -, h⟩ := Option.bind_eq_some_iff.mp h
        rw [← Option.some.inj h]
        have hle := Nat.le_of_not_lt hover
        dsimp only
        split <;> simp [WriteOutcome.counts, hle]

end Turn

namespace Conn

/-! ## The invariant -/

/-- The places of the loop inside `Channel::handleEvents`. -/
def inHandler : Pc → Bool
  | .poll | .dispatch | .functors => false
  | _ => true

/-- Something of the connection is there that `establishInLoop` brings about:
the buffers, the registration, or events of the channel. -/
def Busy (s : Conn α) : Prop :=
  s.conn.io ≠ none ∨ s.conn.channel_.started_ = true ∨ s.activedChannels_ ≠ []
    ∨ inHandler s.pc = true

theorem busy_of_handler {s : Conn α} (hpc : inHandler s.pc = true) : Busy s :=
  Or.inr (Or.inr (Or.inr hpc))

theorem busy_of_io {s : Conn α} {io : IoBuffers α} (hio : s.conn.io = some io) : Busy s :=
  Or.inl (by rw [hio]; simp)

/-- A step that leaves the handlers brings nothing about. -/
theorem Busy.of_left {s t : Conn α} (hb : Busy t) (hpc : inHandler t.pc = false)
    (hio : t.conn.io = s.conn.io) (hstarted : t.conn.channel_.started_ = s.conn.channel_.started_)
    (hlist : t.activedChannels_ = s.activedChannels_) : Busy s := by
  rcases hb with h1 | h1 | h1 | h1
  · exact Or.inl (hio ▸ h1)
  · exact Or.inr (Or.inl (hstarted ▸ h1))
  · exact Or.inr (Or.inr (Or.inl (hlist ▸ h1)))
  · rw [hpc] at h1
    cases h1

/-- The callbacks invoked so far are what the two flags say. -/
structure Life (s : Conn α) : Prop where
  busy : Busy s → s.conn.establish_ = true
  fresh : s.conn.establish_ = false → s.conn.close_ = false ∧ s.callbacks = []
  begun : s.conn.establish_ = true → ∃ middle, (∀ c ∈ middle, Callback.isMiddle c = true)
    ∧ s.callbacks = .connect :: middle ++ if s.conn.close_ then [.disconnect] else []

theorem life_init (capacity : Capacity) (storage : ℕ → ℕ → α) :
    Life (init capacity storage) where
  busy := fun h => by
    rcases h with h | h | h | h
    · exact absurd rfl h
    · cases h
    · exact absurd rfl h
    · cases h
  fresh := fun _ => ⟨rfl, rfl⟩
  begun := fun h => by cases h

theorem Life.lifeCycle {s : Conn α} (h : Life s) : LifeCycle s.callbacks := by
  cases hest : s.conn.establish_ with
  | false =>
      rw [(h.fresh hest).2]
      exact lifeCycle_nil
  | true =>
      obtain ⟨middle, hmiddle, heq⟩ := h.begun hest
      rw [heq]
      exact lifeCycle_begun hmiddle _

/-! ## What is pending in a round -/

/-- The places of the loop inside `onRead` and `onWrite`, at a system call. -/
def inCall : Pc → Bool
  | .reading | .writing => true
  | _ => false

/-- A closed connection wants no events; a hang-up that is pending was reported in this
round; and what is pending on a closed connection is so in a round that has told of the
end. -/
structure Round (s : Conn α) : Prop where
  interest : s.conn.close_ = true →
    s.conn.channel_.read_ = false ∧ s.conn.channel_.write_ = false
  pending : s.conn.channel_.rclose_ = true →
    told s.calls = true ∧ (s.conn.channel_.actived_ = true ∨ s.pc = .onClose)
  closed : s.conn.channel_.closed_ = true →
    s.conn.close_ = true ∨ s.conn.channel_.rclose_ = true
  ended : told s.calls = true → s.conn.close_ = true ∨ s.conn.channel_.closed_ = true
  late : s.conn.close_ = true → s.conn.channel_.rread_ = true ∨ s.conn.channel_.rwrite_ = true
    ∨ inCall s.pc = true → told s.calls = true

theorem round_init (capacity : Capacity) (storage : ℕ → ℕ → α) :
    Round (init capacity storage) where
  interest := fun h => by cases h
  pending := fun h => by cases h
  closed := fun h => by cases h
  ended := fun h => by cases h
  late := fun h => by cases h

section Round

variable {s t : Conn α} {e : Event α}

/-- Past the test of `rclose_` none is pending. -/
theorem Round.rclose_done (h : Round s) (hphase : Phase s) (hpc : s.pc ≠ .dispatch)
    (hpc' : s.pc ≠ .onClose) : s.conn.channel_.rclose_ = false := by
  by_contra hrclose
  rcases (h.pending (Bool.not_eq_false _ ▸ hrclose)).2 with hact | hpc''
  · rw [(hphase.idle hpc).1] at hact
    cases hact
  · exact hpc' hpc''

/-- At a system call the connection is closed if the round has told of the end. -/
theorem Round.closed_of_told (h : Round s) (hphase : Phase s)
    (hpc : s.pc = .reading ∨ s.pc = .writing) (htold : told s.calls = true) :
    s.conn.close_ = true := by
  have hrclose : s.conn.channel_.rclose_ = false := by
    refine h.rclose_done hphase ?_ ?_
    · rcases hpc with hpc | hpc <;> simp [hpc]
    · rcases hpc with hpc | hpc <;> simp [hpc]
  rcases h.ended htold with hclose | hclosed
  · exact hclose
  · refine (h.closed hclosed).resolve_right ?_
    rw [hrclose]
    exact Bool.false_ne_true

/-- What a step that is not a poll, and closes nothing, leaves as it is. -/
structure SameRound (s t : Conn α) : Prop where
  close : t.conn.close_ = s.conn.close_
  read : t.conn.channel_.read_ = s.conn.channel_.read_
  write : t.conn.channel_.write_ = s.conn.channel_.write_
  rclose : t.conn.channel_.rclose_ = s.conn.channel_.rclose_
  closed : t.conn.channel_.closed_ = s.conn.channel_.closed_
  told : told t.calls = told s.calls

theorem Round.frame (h : Round s) (hsame : SameRound s t)
    (hpending : s.conn.channel_.rclose_ = true → s.conn.channel_.actived_ = true ∨ s.pc = .onClose →
      t.conn.channel_.actived_ = true ∨ t.pc = .onClose)
    (hlate : t.conn.channel_.rread_ = true ∨ t.conn.channel_.rwrite_ = true ∨ inCall t.pc = true →
      s.conn.channel_.rread_ = true ∨ s.conn.channel_.rwrite_ = true ∨ inCall s.pc = true) :
    Round t where
  interest := by
    rw [hsame.close, hsame.read, hsame.write]
    exact h.interest
  pending := by
    rw [hsame.rclose, hsame.told]
    exact fun hrclose => ⟨(h.pending hrclose).1, hpending hrclose (h.pending hrclose).2⟩
  closed := by
    rw [hsame.closed, hsame.close, hsame.rclose]
    exact h.closed
  ended := by
    rw [hsame.told, hsame.close, hsame.closed]
    exact h.ended
  late := by
    rw [hsame.close, hsame.told]
    exact fun hclose hpending => h.late hclose (hlate hpending)

/-- A step from past the test of `rclose_`, where no hang-up is pending. -/
theorem Round.past (h : Round s) (hphase : Phase s) (hpc : s.pc ≠ .dispatch)
    (hpc' : s.pc ≠ .onClose) (hsame : SameRound s t)
    (hlate : t.conn.channel_.rread_ = true ∨ t.conn.channel_.rwrite_ = true ∨ inCall t.pc = true →
      s.conn.channel_.rread_ = true ∨ s.conn.channel_.rwrite_ = true ∨ inCall s.pc = true) :
    Round t := by
  refine h.frame hsame (fun hrclose => ?_) hlate
  rw [h.rclose_done hphase hpc hpc'] at hrclose
  cases hrclose

/-- A step to a place without a system call has nothing pending that was not. -/
theorem late_of_left (hread : t.conn.channel_.rread_ = s.conn.channel_.rread_)
    (hwrite : t.conn.channel_.rwrite_ = s.conn.channel_.rwrite_) (hpc : inCall t.pc = false) :
    t.conn.channel_.rread_ = true ∨ t.conn.channel_.rwrite_ = true ∨ inCall t.pc = true →
      s.conn.channel_.rread_ = true ∨ s.conn.channel_.rwrite_ = true ∨ inCall s.pc = true := by
  rw [hread, hwrite, hpc]
  exact Or.imp_right (Or.imp_right fun h => absurd h Bool.false_ne_true)

/-- A step that closes the connection: no hang-up is pending then, and what else is
pending is so in a round that has told of the end. -/
theorem round_closed (hclose : t.conn.close_ = true)
    (hinterest : t.conn.channel_.read_ = false ∧ t.conn.channel_.write_ = false)
    (hrclose : t.conn.channel_.rclose_ = false)
    (hlate : t.conn.channel_.rread_ = true ∨ t.conn.channel_.rwrite_ = true
      ∨ inCall t.pc = true → told t.calls = true) : Round t where
  interest := fun _ => hinterest
  pending := fun h => by rw [hrclose] at h; cases h
  closed := fun _ => Or.inl hclose
  ended := fun _ => Or.inl hclose
  late := fun _ => hlate

/-- What `onClose` leaves of the flags, and that it leaves no interest. -/
theorem onClose_round (c : TcpConnection α) (h : c.close_ = true →
      c.channel_.read_ = false ∧ c.channel_.write_ = false) :
    (c.onClose.1.channel_.read_ = false ∧ c.onClose.1.channel_.write_ = false)
      ∧ c.onClose.1.channel_.rclose_ = c.channel_.rclose_ := by
  rw [TcpConnection.onClose]
  split
  · rename_i hclose
    exact ⟨h hclose, rfl⟩
  · exact ⟨⟨rfl, rfl⟩, rfl⟩

/-- A poll begins a round. -/
theorem round_poll {events : Events} (hphase : Phase s) (h : Round s) (hpc : s.pc = .poll)
    (hpolled : Channel.Polled () (s.conn.channel_, s.activedChannels_)
      (Channel.poll () events (s.conn.channel_, s.activedChannels_)))
    (hchannel : t.conn.channel_ = (Channel.poll () events (s.conn.channel_, s.activedChannels_)).1)
    (hclose : t.conn.close_ = s.conn.close_) (hcalls : t.calls = s.calls ++ [.epollWait events])
    (hdispatch : t.pc = .dispatch) : Round t := by
  have hrclose := h.rclose_done hphase (by simp [hpc]) (by simp [hpc])
  obtain ⟨hact, -⟩ := hphase.idle (by simp [hpc])
  obtain ⟨hclosed', hrclose'⟩ := Channel.poll_hup () events (s.conn.channel_, s.activedChannels_)
  have htold : told t.calls = events.hup := by rw [hcalls, told_append]; rfl
  rw [hrclose, Bool.not_false, Bool.and_true] at hclosed'
  rw [hrclose, Bool.false_or] at hrclose'
  refine ⟨fun hc => ?_, fun hr => ?_, fun hc => ?_, fun hhup => ?_, fun hc hlate => ?_⟩
  · rw [hchannel, hpolled.read_eq, hpolled.write_eq]
    exact h.interest (hclose ▸ hc)
  · rw [hchannel, hrclose', Bool.and_eq_true, Bool.not_eq_true'] at hr
    rw [hchannel, htold]
    exact ⟨hr.1, Or.inl (Channel.poll_hup_actived hr.1 hr.2 hrclose)⟩
  · rw [hchannel, hclosed', Bool.or_eq_true] at hc
    rw [hclose, hchannel, hrclose']
    rcases hc with hc | hc
    · exact Or.inl ((h.closed hc).resolve_right (by rw [hrclose]; exact Bool.false_ne_true))
    · cases hold : s.conn.channel_.closed_ with
      | true =>
          exact Or.inl ((h.closed hold).resolve_right (by rw [hrclose]; exact Bool.false_ne_true))
      | false => exact Or.inr (by rw [hc]; rfl)
  · rw [htold] at hhup
    rw [hchannel, hclosed', hhup, Bool.or_true]
    exact Or.inr rfl
  · -- a closed connection wants nothing, and nothing was pending before
    obtain ⟨hread, hwrite⟩ := h.interest (hclose ▸ hc)
    rw [hchannel, hdispatch] at hlate
    rcases hlate with hlate | hlate | hlate
    · rcases hpolled.read_wanted hlate with h' | h'
      · rw [hphase.read_done hact (by rw [hpc]; rfl)] at h'
        cases h'
      · rw [hread] at h'
        cases h'
    · rcases hpolled.write_wanted hlate with h' | h'
      · rw [hphase.write_done hact (by rw [hpc]; rfl)] at h'
        cases h'
      · rw [hwrite] at h'
        cases h'
    · cases hlate

/-- **Every step keeps what a round has told.** -/
theorem round_step (hphase : Phase s) (h : Round s) (hstep : step s e = some t) : Round t := by
  cases step_moves hstep with
  | call c => exact h.frame ⟨rfl, rfl, rfl, rfl, rfl, rfl⟩ (fun _ => id) id
  | push i f hf => exact h.frame ⟨rfl, rfl, rfl, rfl, rfl, rfl⟩ (fun _ => id) id
  | peekData data size => exact h
  | readRefused data size => exact h
  | readData data size io io' hio hside =>
      exact h.frame ⟨rfl, rfl, rfl, rfl, rfl, rfl⟩ (fun _ => id) id
  | poll events u hpc hreg hpolled hpoll =>
      subst hpoll
      exact round_poll hphase h hpc hpolled rfl rfl rfl rfl
  | swap hpc hlist =>
      refine h.frame ⟨rfl, rfl, rfl, rfl, rfl, rfl⟩ (fun _ => ?_) (late_of_left rfl rfl rfl)
      exact Or.imp_right fun hclose => absurd (hpc.symm.trans hclose) (by decide)
  | enter u rest hpc hlist =>
      exact h.frame ⟨rfl, rfl, rfl, rfl, rfl, rfl⟩ (fun _ _ => Or.inr rfl)
        (late_of_left rfl rfl rfl)
  | closePending c hpc hc hclose =>
      subst hc
      obtain ⟨hinterest, hrclose⟩ := onClose_round
        { s.conn with channel_ := { s.conn.channel_ with rclose_ := false } } h.interest
      exact round_closed (onClose_close _) hinterest hrclose fun _ => (h.pending hclose).1
  | closeIdle hpc hclose =>
      refine h.frame ⟨rfl, rfl, rfl, rfl, rfl, rfl⟩ (fun hrclose => ?_) (late_of_left rfl rfl rfl)
      rw [hclose] at hrclose
      cases hrclose
  | error hpc =>
      exact h.past hphase (by simp [hpc]) (by simp [hpc]) ⟨rfl, rfl, rfl, rfl, rfl, rfl⟩
        (late_of_left rfl rfl rfl)
  | readPending hpc hread pc hpc' hshut =>
      exact h.past hphase (by simp [hpc]) (by simp [hpc]) ⟨rfl, rfl, rfl, rfl, rfl, rfl⟩
        fun _ => Or.inl hread
  | readIdle hpc hread =>
      exact h.past hphase (by simp [hpc]) (by simp [hpc]) ⟨rfl, rfl, rfl, rfl, rfl, rfl⟩
        (late_of_left rfl rfl rfl)
  | writeIdle hpc hwrite =>
      exact h.past hphase (by simp [hpc]) (by simp [hpc]) ⟨rfl, rfl, rfl, rfl, rfl, rfl⟩
        (late_of_left rfl rfl rfl)
  | writeNothing hpc hwrite hshut =>
      exact h.past hphase (by simp [hpc]) (by simp [hpc]) ⟨rfl, rfl, rfl, rfl, rfl, rfl⟩
        fun _ => Or.inr (Or.inl hwrite)
  | writeEnter hpc hwrite io hio hsize =>
      exact h.past hphase (by simp [hpc]) (by simp [hpc]) ⟨rfl, rfl, rfl, rfl, rfl, rfl⟩
        fun _ => Or.inr (Or.inl hwrite)
  | readv result hpc r hr =>
      have hdispatch : s.pc ≠ .dispatch := by simp [hpc]
      have hpast : s.pc ≠ .onClose := by simp [hpc]
      have hcall : inCall s.pc = true := by rw [hpc]; rfl
      obtain ⟨io, u, hio, hturn, hcases⟩ := TcpConnection.onRead_cases hr
      have heof := (onRead.turn_counts hturn).2
      -- a turn that does not find the end of the stream tells nothing
      have htold : u.2 ≠ .eof → told (s.calls ++ [.readv result.result]) = told s.calls := by
        intro hne
        rw [told_append]
        rcases hresult : result.result with _ | _ | n
        · rfl
        · exact absurd (heof.mpr hresult) hne
        · rfl
      have hcounted : u.2.counts = true → u.2 ≠ .eof := by
        intro hcounts hout
        rw [hout] at hcounts
        cases hcounts
      rcases hcases with ⟨⟨-, hne⟩, rfl⟩ | ⟨hout, rfl⟩ | ⟨hcounts, n, rfl⟩ | ⟨hcounts, n, rfl⟩
      · exact h.past hphase hdispatch hpast ⟨rfl, rfl, rfl, rfl, rfl, htold hne⟩
          fun _ => Or.inr (Or.inr hcall)
      · obtain ⟨hinterest, hrclose⟩ := onClose_round { s.conn with io := some u.1 } h.interest
        refine round_closed (onClose_close _) hinterest
          (hrclose.trans (h.rclose_done hphase hdispatch hpast)) fun _ => ?_
        rw [told_append, heof.mp hout]
        rfl
      · exact h.past hphase hdispatch hpast ⟨rfl, rfl, rfl, rfl, rfl, htold (hcounted hcounts)⟩
          fun _ => Or.inr (Or.inr hcall)
      · exact h.past hphase hdispatch hpast ⟨rfl, rfl, rfl, rfl, rfl, htold (hcounted hcounts)⟩
          fun _ => Or.inr (Or.inr hcall)
  | writev result hpc r hr =>
      have htold : told (s.calls ++ [.writev result]) = told s.calls := told_append _ _
      have hcall : inCall s.pc = true := by rw [hpc]; rfl
      obtain ⟨io, u, -, -, ⟨-, rfl⟩ | ⟨-, n, rfl⟩ | ⟨-, n, rfl⟩⟩ :=
        TcpConnection.onWrite_cases hr
      · exact h.past hphase (by simp [hpc]) (by simp [hpc]) ⟨rfl, rfl, rfl, rfl, rfl, htold⟩
          fun _ => Or.inr (Or.inr hcall)
      · exact h.past hphase (by simp [hpc]) (by simp [hpc]) ⟨rfl, rfl, rfl, rfl, rfl, htold⟩
          fun _ => Or.inr (Or.inr hcall)
      · exact h.past hphase (by simp [hpc]) (by simp [hpc]) ⟨rfl, rfl, rfl, rfl, rfl, htold⟩
          fun _ => Or.inr (Or.inr hcall)
  | batchDone result hpc hnil =>
      exact h.past hphase (by simp [hpc]) (by simp [hpc]) ⟨rfl, rfl, rfl, rfl, rfl, rfl⟩
        (late_of_left rfl rfl rfl)
  | establishInLoop result rest hpc hf =>
      rw [TcpConnection.establishInLoop]
      split
      · exact h.frame ⟨rfl, rfl, rfl, rfl, rfl, rfl⟩ (fun _ => id) id
      · exact h.frame ⟨rfl, rfl, rfl, rfl, rfl, rfl⟩ (fun _ => id) id
  | shutdownInLoop result rest hpc hf =>
      exact h.frame ⟨rfl, rfl, rfl, rfl, rfl, told_append _ _⟩ (fun _ => id) id
  | onClose result rest hpc hf =>
      -- among the functors nothing is pending
      have hrclose := h.rclose_done hphase (by simp [hpc]) (by simp [hpc])
      obtain ⟨hact, -⟩ := hphase.idle (by simp [hpc])
      have hread := hphase.read_done hact (by rw [hpc]; rfl)
      have hwrite := hphase.write_done hact (by rw [hpc]; rfl)
      have hflags := sameFlags_onClose s.conn
      obtain ⟨hinterest, hrclose'⟩ := onClose_round s.conn h.interest
      refine round_closed (onClose_close _) hinterest (hrclose'.trans hrclose) fun hlate => ?_
      rcases hlate with hlate | hlate | hlate
      · rw [hflags.rread, hread] at hlate
        cases hlate
      · rw [hflags.rwrite, hwrite] at hlate
        cases hlate
      · rw [hpc] at hlate
        cases hlate
  | destroyInLoop result rest hpc hf =>
      exact h.frame ⟨rfl, rfl, rfl, rfl, rfl, rfl⟩ (fun _ => id) id
  | send result data rest hpc hf c hc =>
      have htold : told (s.calls ++ [.write data.length result]) = told s.calls := told_append _ _
      obtain ⟨-, ⟨-, rfl⟩ | ⟨-, io, r, hio, -, rfl⟩⟩ := TcpConnection.send_cases hc
      · exact h.frame ⟨rfl, rfl, rfl, rfl, rfl, htold⟩ (fun _ => id) id
      · exact h.frame ⟨rfl, rfl, rfl, rfl, rfl, htold⟩ (fun _ => id) id

end Round

/-- No step of the three that break the cycle: an `onClose` runs after
`establishInLoop`, and in a round that has told of the end `readv` returns nothing that
is counted, and neither does `writev`. -/
def KeepsLife (s : Conn α) : Event α → Prop
  | .functor _ => s.pc = .functors → s.functors.head? = some .onClose → s.conn.establish_ = true
  | .readv result => told s.calls = true → ∀ io ∈ s.conn.io,
      ∀ n ∈ result.result, n = 0 ∨ onRead.size io < n
  | .writev result => told s.calls = true → ∀ io ∈ s.conn.io,
      ∀ n ∈ result, onWrite.sizeOf io < n
  | .call _ | .push _ | .peekData _ _ | .readData _ _ | .poll _ | .handle => True

instance [DecidableEq α] (s : Conn α) : (e : Event α) → Decidable (s.KeepsLife e)
  | .functor _ => inferInstanceAs (Decidable (_ → _ → _))
  | .readv result => inferInstanceAs (Decidable (told s.calls = true → ∀ io ∈ s.conn.io,
      ∀ n ∈ result.result, n = 0 ∨ onRead.size io < n))
  | .writev result => inferInstanceAs (Decidable (told s.calls = true → ∀ io ∈ s.conn.io,
      ∀ n ∈ result, onWrite.sizeOf io < n))
  | .call _ | .push _ | .peekData _ _ | .readData _ _ | .poll _ | .handle => isTrue trivial

section Step

variable {s t : Conn α} {e : Event α}

/-- **Nothing is brought about but by `establishInLoop`.** -/
theorem busy_step (h : Busy s → s.conn.establish_ = true) (hstep : step s e = some t) :
    Busy t → t.conn.establish_ = true := by
  -- a step that leaves the flag, where something is there already or nothing is new
  have hflag : t.conn.establish_ = s.conn.establish_ → Busy s → Busy t →
      t.conn.establish_ = true := fun hest hb _ => hest.trans (h hb)
  have hleft : t.conn.establish_ = s.conn.establish_ → (Busy t → Busy s) → Busy t →
      t.conn.establish_ = true := fun hest hbusy hb => hest.trans (h (hbusy hb))
  cases step_moves hstep with
  | call c => exact h
  | push i f hf => exact h
  | peekData data size => exact h
  | readRefused data size => exact h
  | readData data size io io' hio hside => exact hflag rfl (busy_of_io hio)
  | poll events u hpc hreg hpolled =>
      rcases hreg with hstarted | rfl
      · exact hflag rfl (Or.inr (Or.inl hstarted))
      · -- nothing is registered, and nothing is reported
        exact hleft rfl fun hb => hb.of_left rfl rfl rfl rfl
  | swap hpc hlist => exact hleft rfl fun hb => hb.of_left rfl rfl rfl rfl
  | enter u rest hpc hlist => exact hflag rfl (Or.inr (Or.inr (Or.inl (by rw [hlist]; simp))))
  | closePending c hpc hc =>
      refine hflag ?_ (busy_of_handler (by rw [hpc]; rfl))
      simp only [TcpConnection.onClose_establish, hc]
  | closeIdle hpc => exact hflag rfl (busy_of_handler (by rw [hpc]; rfl))
  | error hpc => exact hflag rfl (busy_of_handler (by rw [hpc]; rfl))
  | readPending hpc hread pc hpc' hshut => exact hflag rfl (busy_of_handler (by rw [hpc]; rfl))
  | readIdle hpc hread => exact hflag rfl (busy_of_handler (by rw [hpc]; rfl))
  | writeIdle hpc hwrite => exact hflag rfl (busy_of_handler (by rw [hpc]; rfl))
  | writeNothing hpc hwrite hshut => exact hflag rfl (busy_of_handler (by rw [hpc]; rfl))
  | writeEnter hpc hwrite io hio hsize => exact hflag rfl (busy_of_handler (by rw [hpc]; rfl))
  | readv result hpc r hr =>
      refine hflag ?_ (busy_of_handler (by rw [hpc]; rfl))
      obtain ⟨io, u, -, -, ⟨-, rfl⟩ | ⟨-, rfl⟩ | ⟨-, n, rfl⟩ | ⟨-, n, rfl⟩⟩ :=
        TcpConnection.onRead_cases hr
      · rfl
      · simp only [TcpConnection.onClose_establish]
      · rfl
      · rfl
  | writev result hpc r hr =>
      refine hflag ?_ (busy_of_handler (by rw [hpc]; rfl))
      obtain ⟨io, u, -, -, ⟨-, rfl⟩ | ⟨-, n, rfl⟩ | ⟨-, n, rfl⟩⟩ :=
        TcpConnection.onWrite_cases hr
      · rfl
      · rfl
      · rfl
  | batchDone result hpc hnil => exact hleft rfl fun hb => hb.of_left rfl rfl rfl rfl
  | establishInLoop result rest hpc hf =>
      rw [TcpConnection.establishInLoop]
      cases hest : s.conn.establish_ with
      | true => exact fun _ => hest
      | false => exact fun _ => rfl
  | shutdownInLoop result rest hpc hf => exact h
  | onClose result rest hpc hf =>
      refine hleft (by simp only [TcpConnection.onClose_establish]) ?_
      rw [TcpConnection.onClose]
      split <;> exact id
  | destroyInLoop result rest hpc hf =>
      -- the registration is the one thing that goes
      refine hleft rfl fun hb => ?_
      rcases hb with hb | hb | hb | hb
      · exact Or.inl hb
      · cases hb
      · exact Or.inr (Or.inr (Or.inl hb))
      · exact Or.inr (Or.inr (Or.inr hb))
  | send result data rest hpc hf c hc =>
      obtain ⟨-, ⟨-, rfl⟩ | ⟨-, io, r, hio, -, rfl⟩⟩ := TcpConnection.send_cases hc
      · exact h
      · exact hflag rfl (busy_of_io hio)

/-- A step without callbacks. -/
theorem Life.congr (h : Life s) (hbusy : Busy t → t.conn.establish_ = true)
    (hest : t.conn.establish_ = s.conn.establish_) (hclose : t.conn.close_ = s.conn.close_)
    (hcall : t.callbacks = s.callbacks) : Life t where
  busy := hbusy
  fresh := by rw [hest, hclose, hcall]; exact h.fresh
  begun := by rw [hest, hclose, hcall]; exact h.begun

/-- A receive or a send of a connection that is not closed. -/
theorem Life.middle (h : Life s) (hb : Busy s) (hopen : s.conn.close_ = false)
    {c : Callback} (hc : Callback.isMiddle c = true)
    (hest : t.conn.establish_ = s.conn.establish_) (hclose : t.conn.close_ = s.conn.close_)
    (hcall : t.callbacks = s.callbacks ++ [c]) : Life t where
  busy := fun _ => hest.trans (h.busy hb)
  fresh := fun hf => by
    rw [hest, h.busy hb] at hf
    cases hf
  begun := fun _ => by
    obtain ⟨middle, hmiddle, heq⟩ := h.begun (h.busy hb)
    refine ⟨middle ++ [c], fun d hd => ?_, ?_⟩
    · rcases List.mem_append.mp hd with hd | hd
      · exact hmiddle d hd
      · exact List.mem_singleton.mp hd ▸ hc
    · rw [hcall, heq, hclose, hopen]
      simp

/-- An `onClose` of a connection that is established. -/
theorem Life.onClose (h : Life s) (hestab : s.conn.establish_ = true) {c : TcpConnection α}
    (hest : c.establish_ = s.conn.establish_) (hclose : c.close_ = s.conn.close_)
    (hconn : t.conn = c.onClose.1) (hcall : t.callbacks = s.callbacks ++ c.onClose.2) :
    Life t := by
  have hest' : c.onClose.1.establish_ = true := by
    rw [TcpConnection.onClose]
    split
    · exact hest.trans hestab
    · exact hest.trans hestab
  obtain ⟨middle, hmiddle, heq⟩ := h.begun hestab
  refine ⟨fun _ => hconn ▸ hest', fun hf => ?_, fun _ => ⟨middle, hmiddle, ?_⟩⟩
  · rw [hconn, hest'] at hf
    cases hf
  · rw [hconn, onClose_close, hcall, heq, ← hclose, TcpConnection.onClose]
    cases hc : c.close_
    · simp
    · simp

/-- Every step that meets the condition keeps the invariant. -/
theorem life_step (hround : Round s) (h : Life s) (hC : s.KeepsLife e)
    (hstep : step s e = some t) : Life t := by
  have hbusy := busy_step h.busy hstep
  cases step_moves hstep with
  | call c => exact h.congr hbusy rfl rfl rfl
  | push i f hf => exact h.congr hbusy rfl rfl rfl
  | peekData data size => exact h
  | readRefused data size => exact h
  | readData data size io io' hio hside => exact h.congr hbusy rfl rfl rfl
  | poll events u hpc hreg hpolled => exact h.congr hbusy rfl rfl rfl
  | swap hpc hlist => exact h.congr hbusy rfl rfl rfl
  | enter u rest hpc hlist => exact h.congr hbusy rfl rfl rfl
  | closePending c hpc hc =>
      have hb : Busy s := busy_of_handler (by rw [hpc]; rfl)
      exact h.onClose (h.busy hb) (by rw [hc]) (by rw [hc]) rfl rfl
  | closeIdle hpc => exact h.congr hbusy rfl rfl rfl
  | error hpc => exact h.congr hbusy rfl rfl rfl
  | readPending hpc hread pc hpc' hshut => exact h.congr hbusy rfl rfl rfl
  | readIdle hpc hread => exact h.congr hbusy rfl rfl rfl
  | writeIdle hpc hwrite => exact h.congr hbusy rfl rfl rfl
  | writeNothing hpc hwrite hshut => exact h.congr hbusy rfl rfl rfl
  | writeEnter hpc hwrite io hio hsize => exact h.congr hbusy rfl rfl rfl
  | readv result hpc r hr =>
      have hb : Busy s := busy_of_handler (by rw [hpc]; rfl)
      obtain ⟨io, u, hio, hturn, hcases⟩ := TcpConnection.onRead_cases hr
      -- a turn that reports a size is made on a connection that is not closed
      have hopen : u.2.counts = true → s.conn.close_ = false := by
        intro hcounts
        by_contra hclosed
        have htold := hround.late (Bool.not_eq_false _ ▸ hclosed)
          (Or.inr (Or.inr (by rw [hpc]; rfl)))
        obtain ⟨n, hn, h0, hle⟩ := (onRead.turn_counts hturn).1.mp hcounts
        have := hC htold io hio n hn
        omega
      rcases hcases with ⟨-, rfl⟩ | ⟨-, rfl⟩ | ⟨hcounts, n, rfl⟩ | ⟨hcounts, n, rfl⟩
      · exact h.congr hbusy rfl rfl (List.append_nil _)
      · -- the end of the input, or an error, closes the connection
        exact h.onClose (c := { s.conn with io := some u.1 }) (h.busy hb) rfl rfl rfl rfl
      · exact h.middle hb (hopen hcounts) rfl rfl rfl rfl
      · exact h.middle hb (hopen hcounts) rfl rfl rfl rfl
  | writev result hpc r hr =>
      have hb : Busy s := busy_of_handler (by rw [hpc]; rfl)
      obtain ⟨io, u, hio, hturn, hcases⟩ := TcpConnection.onWrite_cases hr
      have hopen : u.2.counts = true → s.conn.close_ = false := by
        intro hcounts
        by_contra hclosed
        have htold := hround.late (Bool.not_eq_false _ ▸ hclosed)
          (Or.inr (Or.inr (by rw [hpc]; rfl)))
        obtain ⟨n, hn, hle⟩ := (onWrite.turn_counts hturn).mp hcounts
        have := hC htold io hio n hn
        omega
      rcases hcases with ⟨-, rfl⟩ | ⟨hcounts, n, rfl⟩ | ⟨hcounts, n, rfl⟩
      · exact h.congr hbusy rfl rfl (List.append_nil _)
      · exact h.middle hb (hopen hcounts) rfl rfl rfl rfl
      · exact h.middle hb (hopen hcounts) rfl rfl rfl rfl
  | batchDone result hpc hnil => exact h.congr hbusy rfl rfl rfl
  | establishInLoop result rest hpc hf =>
      rw [TcpConnection.establishInLoop] at hbusy ⊢
      cases hest : s.conn.establish_ with
      | true =>
          rw [hest] at hbusy
          exact h.congr hbusy rfl rfl (List.append_nil _)
      | false =>
          obtain ⟨hclose, hcall⟩ := h.fresh hest
          refine ⟨fun _ => rfl, fun hf => absurd hf.symm Bool.false_ne_true, fun _ => ⟨[], ?_, ?_⟩⟩
          · exact fun c hc => absurd hc List.not_mem_nil
          · simp [hcall, hclose]
  | shutdownInLoop result rest hpc hf => exact h.congr hbusy rfl rfl rfl
  | onClose result rest hpc hf =>
      exact h.onClose (hC hpc (by rw [hf]; rfl)) rfl rfl rfl rfl
  | destroyInLoop result rest hpc hf => exact h.congr hbusy rfl rfl rfl
  | send result data rest hpc hf c hc =>
      obtain ⟨-, ⟨-, rfl⟩ | ⟨-, io, r, hio, -, rfl⟩⟩ := TcpConnection.send_cases hc
      · exact h.congr hbusy rfl rfl rfl
      · exact h.congr hbusy rfl rfl rfl

/-- A turn that reports a size. -/
theorem onRead_of_counts {c : TcpConnection α} {result : Readv α} {io : IoBuffers α}
    {r : IoBuffers α × ReadOutcome} (hio : c.io = some io)
    (hturn : onRead.turn io result = some r) (hcounts : r.2.counts = true) :
    ∃ u n, c.onRead result = some u ∧ u.callbacks = [.recv n] := by
  obtain ⟨io', outcome⟩ := r
  simp only [TcpConnection.onRead, hio, hturn, Option.bind_eq_bind, Option.bind_some]
  cases outcome with
  | short n => exact ⟨_, _, rfl, rfl⟩
  | full n => exact ⟨_, _, rfl, rfl⟩
  | error => cases hcounts
  | eof => cases hcounts
  | overlong => cases hcounts

theorem onWrite_of_counts {c : TcpConnection α} {result : Option ℕ} {io : IoBuffers α}
    {r : IoBuffers α × WriteOutcome} (hio : c.io = some io)
    (hturn : onWrite.turn io result = some r) (hcounts : r.2.counts = true) :
    ∃ u n, c.onWrite result = some u ∧ u.callbacks = [.send n] := by
  obtain ⟨io', outcome⟩ := r
  simp only [TcpConnection.onWrite, hio, hturn, Option.bind_eq_bind, Option.bind_some]
  cases outcome with
  | short n => exact ⟨_, _, rfl, rfl⟩
  | full n => exact ⟨_, _, rfl, rfl⟩
  | error => cases hcounts
  | overlong => cases hcounts

/-- The callbacks of a connection that is closed have ended. -/
theorem Life.not_after (h : Life s) (hb : Busy s) (hclose : s.conn.close_ = true)
    (c : Callback) : ¬ LifeCycle (s.callbacks ++ [c]) := by
  obtain ⟨middle, -, heq⟩ := h.begun (h.busy hb)
  rw [heq, hclose]
  exact not_lifeCycle_after

/-- A step that does not meet the condition breaks the cycle at once. -/
theorem life_broken (hphase : Phase s) (hround : Round s) (h : Life s) (hbad : ¬ s.KeepsLife e)
    (hstep : step s e = some t) : ¬ LifeCycle t.callbacks := by
  cases e with
  | functor result =>
      simp only [KeepsLife, Classical.not_forall] at hbad
      obtain ⟨hpc, hhead, hest⟩ := hbad
      obtain ⟨rest, hf⟩ := List.head?_eq_some_iff.mp hhead
      obtain ⟨hclose, hcall⟩ := h.fresh (Bool.eq_false_iff.mpr hest)
      rw [step, functor, if_pos hpc, hf] at hstep
      rw [← Option.some.inj hstep]
      dsimp only
      rw [hcall, TcpConnection.onClose, hclose]
      exact not_lifeCycle_disconnect _
  | readv result =>
      simp only [KeepsLife, Classical.not_forall, not_or, Nat.not_lt] at hbad
      obtain ⟨htold, io, hio, n, hn, h0, hle⟩ := hbad
      rw [step, readv] at hstep
      split at hstep
      · rename_i hpc
        obtain ⟨u, hu, hstep⟩ := Option.bind_eq_some_iff.mp hstep
        obtain ⟨io', r, hio', hturn, -⟩ := TcpConnection.onRead_cases hu
        obtain rfl := Option.some.inj (hio.symm.trans hio')
        have hcounts := (onRead.turn_counts hturn).1.mpr ⟨n, hn, h0, hle⟩
        obtain ⟨u', m, hu', hcall⟩ := onRead_of_counts hio hturn hcounts
        obtain rfl := Option.some.inj (hu.symm.trans hu')
        rw [← Option.some.inj hstep, hcall]
        exact h.not_after (busy_of_io hio) (hround.closed_of_told hphase (Or.inl hpc) htold) _
      · cases hstep
  | writev result =>
      simp only [KeepsLife, Classical.not_forall, Nat.not_lt] at hbad
      obtain ⟨htold, io, hio, n, hn, hle⟩ := hbad
      rw [step, writev] at hstep
      split at hstep
      · rename_i hpc
        obtain ⟨u, hu, hstep⟩ := Option.bind_eq_some_iff.mp hstep
        obtain ⟨io', r, hio', hturn, -⟩ := TcpConnection.onWrite_cases hu
        obtain rfl := Option.some.inj (hio.symm.trans hio')
        have hcounts := (onWrite.turn_counts hturn).mpr ⟨n, hn, hle⟩
        obtain ⟨u', m, hu', hcall⟩ := onWrite_of_counts hio hturn hcounts
        obtain rfl := Option.some.inj (hu.symm.trans hu')
        rw [← Option.some.inj hstep, hcall]
        exact h.not_after (busy_of_io hio) (hround.closed_of_told hphase (Or.inr hpc) htold) _
      · cases hstep
  | _ => exact absurd trivial hbad

end Step

/-! ## Runs -/

/-- What the loop and the callbacks keep. -/
structure LifeInv (s : Conn α) : Prop where
  phase : Phase s
  round : Round s
  life : Life s

theorem lifeInv_init (capacity : Capacity) (storage : ℕ → ℕ → α) :
    LifeInv (init capacity storage) :=
  ⟨phase_init capacity storage, round_init capacity storage, life_init capacity storage⟩

/-- **The callbacks keep the life cycle exactly while no round brings anything after its
end.** In every run of a connection, of calls of `establish`, `close`, `sendPack`,
`shutdown` and `destroy` from any thread and rounds of the loop with any events and any
results of the system calls, the callbacks invoked so far are at every moment a prefix of
one `connect`, then `recv` and `send`, then one `disconnect`, if and only if no `onClose`
functor runs before `establishInLoop` has, and in a round in which `epoll_wait` reports a
hang-up or `readv` finds the end of the stream, no later `readv` returns bytes and no
later `writev` any size, or only one that is over what the rings count. -/
theorem conn_lifeCycle_iff (capacity : Capacity) (storage : ℕ → ℕ → α) {es : List (Event α)}
    {t : Conn α} (hrun : run step (init capacity storage) es = some t) :
    Throughout step (fun s => LifeCycle s.callbacks) (init capacity storage) es
      ↔ Along step KeepsLife (init capacity storage) es :=
  throughout_iff_of_run (I := LifeInv) (fun _ h => h.life.lifeCycle)
    (fun _ _ _ h hC hs => ⟨phase_step h.phase hs, round_step h.phase h.round hs,
      life_step h.round h.life hC hs⟩)
    (fun _ _ _ h hbad hs => life_broken h.phase h.round h.life hbad hs)
    (lifeInv_init capacity storage) hrun

/-- The other end hangs up: the hang-up is reported together with input, and `readv`
finds none. -/
def hangup : List (Event ℕ) :=
  establishing ++ [.poll ⟨true, false, true, false⟩, .handle, .handle, .handle, .handle,
    .readv (.data []), .handle, .handle, .functor none]

theorem conn_lifeCycle_hangup : ∃ t, run step fresh hangup = some t
    ∧ t.callbacks = [.connect, .disconnect]
    ∧ Throughout step (fun s => LifeCycle s.callbacks) fresh hangup := by
  have heval : (run step fresh hangup).map (fun t => t.callbacks)
      = some [.connect, .disconnect] := by
    decide
  obtain ⟨t, hrun, ht⟩ := Option.map_eq_some_iff.mp heval
  exact ⟨t, hrun, ht, (conn_lifeCycle_iff BufferPool.eventLoopCapacity (fun _ _ => 0)
    hrun).mpr (by decide)⟩

/-- Two runs that show the condition is needed. In the first a hang-up is
reported together with input, and the input is received after the disconnect. In
the second the connection is closed before the queued `establishInLoop` runs,
and connects after it has disconnected. -/
theorem conn_not_lifeCycle :
    ¬ Throughout step (fun s => LifeCycle s.callbacks) fresh
        (establishing ++ [.poll ⟨true, false, true, false⟩, .handle, .handle, .handle, .handle,
          .readv (.data [7])])
      ∧ ¬ Throughout step (fun s => LifeCycle s.callbacks) fresh
        [.call .close, .call .establish, .push 0, .push 0, .poll Events.none, .handle,
          .functor none, .functor none] := by
  constructor
  · intro h
    have heval : (run step fresh
        (establishing ++ [.poll ⟨true, false, true, false⟩, .handle, .handle, .handle, .handle,
          .readv (.data [7])])).map (fun s => s.callbacks)
        = some (.connect :: [] ++ [.disconnect] ++ [.recv 1]) := by
      decide
    obtain ⟨s, hrun, hs⟩ := Option.map_eq_some_iff.mp heval
    have hlast := throughout_last step h hrun
    rw [hs] at hlast
    exact not_lifeCycle_after hlast
  · intro h
    have heval : (run step fresh
        [.call .close, .call .establish, .push 0, .push 0, .poll Events.none, .handle,
          .functor none, .functor none]).map (fun s => s.callbacks)
        = some [.disconnect, .connect] := by
      decide
    obtain ⟨s, hrun, hs⟩ := Option.map_eq_some_iff.mp heval
    have hlast := throughout_last step h hrun
    rw [hs] at hlast
    exact not_lifeCycle_disconnect _ hlast

end Conn

end Libiak.Net
