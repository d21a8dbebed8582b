/-
`net/TcpClient.cpp` over its connector.

`connect_` stands for one attempt or one connection: it is set by `connect`, and
cleared when a connection closes that is not to be made again. In between the
attempt goes through the phases of a small automaton: it waits in the queue, then
there is a connecting channel or the connection, which leads back to the queue
or to the end (`Phase`). The client and its connector together are always in one
of them (`at_step`). One phase is the end of all: an attempt that `connectInLoop`
gives up, after an error it does not try again after, is lost. Nobody tells the
client, and `connect` does nothing from then on (`tcpClient_attempts_iff`).

The machine is that of `Connector.lean` with `onConnect` as its callback. A
connection is named by its descriptor; `live` are those whose `onClose` has not
run yet.
-/
import Libiak.Connector

set_option autoImplicit false

namespace Libiak.Net

open Libiak.Run

/-- `class TcpClient`, its connector on the loop, and the connections. -/
structure TcpClient where
  connect_ : Bool
  retry_ : Bool
  connection_ : Option ℕ
  loop : ConnectorLoop
  live : List ℕ
  deriving DecidableEq

/-- What can happen next: a call of `connect` or `setRetry`, the `onClose` of a
connection, or a step of the loop. -/
inductive TcpClientEvent where
  | connect
  | setRetry (retry : Bool)
  | onClose (connection : ℕ)
  | poll (events : Events)
  | handle (connected : Bool)
  | functor (opens : Bool) (result : Option Errno)

namespace TcpClient

/-- `TcpClient::TcpClient`, which sets the callback of the connector. -/
def init : TcpClient :=
  { connect_ := false, retry_ := false, connection_ := none
    loop := { ConnectorLoop.init with
      connector := { Connector.make with connectCallback_ := true } }
    live := [] }

/-- `connector_->connect()`, with its push. -/
def connectConnector (s : TcpClient) : TcpClient :=
  { s with loop := { s.loop with
    connector := s.loop.connector.connect.1
    pendingFunctors_ := s.loop.pendingFunctors_ ++ [s.loop.connector.connect.2] } }

/-- `TcpClient::connect`. -/
def connect (s : TcpClient) : TcpClient :=
  if s.connect_ then s else { s with connect_ := true }.connectConnector

/-- `TcpClient::onConnect`. -/
def onConnect (s : TcpClient) (sockFd : ℕ) : TcpClient :=
  { s with connection_ := some sockFd, live := s.live ++ [sockFd] }

/-- `TcpClient::onClose`. -/
def onClose (s : TcpClient) (connection : ℕ) : TcpClient :=
  if s.connection_ ≠ some connection then s
  else
    let s := { s with connection_ := none }
    if !s.connect_ then s
    else if s.retry_ then s.connectConnector
    else { s with connect_ := false }

/-- The loop has taken a step; `onConnect` is called with what that step handed
over. -/
def deliver (s : TcpClient) (loop : ConnectorLoop) : TcpClient :=
  (loop.handed.drop s.loop.handed.length).foldl onConnect { s with loop := loop }

def step (s : TcpClient) : TcpClientEvent → Option TcpClient
  | .connect => some s.connect
  | .setRetry retry => some { s with retry_ := retry }
  | .onClose connection =>
      -- on the thread of the loop, once for each connection
      if s.loop.pc ≠ .poll ∧ connection ∈ s.live then
        some ({ s with live := s.live.erase connection }.onClose connection)
      else none
  | .poll events => (s.loop.poll events).map s.deliver
  | .handle connected => (s.loop.handle connected).map s.deliver
  | .functor opens result => (s.loop.functor opens result).map s.deliver

/-! ## The attempt -/

/-- The phases of an attempt. -/
inductive Phase where
  | idle
  | queued
  | connecting
  | connected
  | lost
  deriving DecidableEq

/-- What an attempt can come to. -/
inductive Phase.Next : Phase → Phase → Prop where
  | stay (p : Phase) : Next p p
  | start : Next .idle .queued
  | background : Next .queued .connecting
  | atOnce : Next .queued .connected
  | giveUp : Next .queued .lost
  | established : Next .connecting .connected
  | again : Next .connecting .queued
  | reconnect : Next .connected .queued
  | finish : Next .connected .idle

/-- The functors that wait, in the order they will run. -/
def queue (s : TcpClient) : List ConnectorFunctor := s.loop.functors ++ s.loop.pendingFunctors_

/-- The client and its connector are in a phase. Before the attempt, if it is
queued, only functors `resetChannel` wait, `n` of them, and none while a channel
is connecting. -/
structure At (s : TcpClient) (p : Phase) (n : ℕ) : Prop where
  connect : s.connect_ = decide (p ≠ .idle)
  queue : s.queue = List.replicate n .resetChannel ++ if p = .queued then [.connectInLoop] else []
  connecting : s.loop.connector.connecting_ = decide (p = .connecting)
  connection : s.connection_.isSome = decide (p = .connected)
  registered : p = .connecting → n = 0 ∧ s.loop.registered = true
  flag : p ≠ .idle → s.loop.connector.connect_ = true
  callback : s.loop.connector.connectCallback_ = true
  batch : s.loop.pc ≠ .functors → s.loop.functors = []

/-- There is a connection, a queued attempt, or a connecting channel that is
registered. -/
def Attempting (s : TcpClient) : Prop :=
  s.connection_ ≠ none ∨ .connectInLoop ∈ s.loop.pendingFunctors_
    ∨ (s.loop.connector.connecting_ = true ∧ s.loop.registered = true)

/-- An attempt is not given up: the socket of a `connectInLoop` is opened, and
its `::connect` succeeds or fails with an error after which the attempt goes on
or is made again. -/
def GoesOn (s : TcpClient) : TcpClientEvent → Prop
  | .functor opens result => ∀ rest, s.loop.pc = .functors →
      s.loop.functors = .connectInLoop :: rest → s.loop.connector.connect_ = true →
      s.loop.connector.connecting_ = false →
      opens = true ∧ ∀ err, result = some err → err.connecting = true ∨ err.retries = true
  | _ => True

theorem at_init : At init .idle 0 where
  connect := rfl
  queue := rfl
  connecting := rfl
  connection := rfl
  registered := fun h => by cases h
  flag := fun h => absurd rfl h
  callback := rfl
  batch := fun _ => rfl

section Step

variable {s t : TcpClient} {p : Phase} {n : ℕ}

theorem At.no_connection (h : At s p n) (hp : p ≠ .connected) : s.connection_ = none := by
  have hnone := h.connection
  rw [decide_eq_false hp] at hnone
  simpa using hnone

/-- When the loop is about to poll, a client that is in a phase other than the
lost one attempts what its flag says. -/
theorem At.attempting (h : At s p n) (hpc : s.loop.pc = .poll) (hconnect : s.connect_ = true) :
    Attempting s ↔ p ≠ .lost := by
  have hbatch := h.batch (by rw [hpc]; decide)
  have hqueue := h.queue
  unfold TcpClient.queue at hqueue
  rw [hbatch, List.nil_append] at hqueue
  unfold Attempting
  cases p with
  | idle =>
      have := h.connect
      rw [hconnect] at this
      cases this
  | queued =>
      refine ⟨fun _ => by decide, fun _ => Or.inr (Or.inl ?_)⟩
      rw [hqueue]
      exact List.mem_append_right _ List.mem_cons_self
  | connecting =>
      exact ⟨fun _ => by decide, fun _ => Or.inr (Or.inr ⟨h.connecting, (h.registered rfl).2⟩)⟩
  | connected =>
      refine ⟨fun _ => by decide, fun _ => Or.inl fun hnone => ?_⟩
      have := h.connection
      rw [hnone] at this
      cases this
  | lost =>
      refine ⟨fun hatt => ?_, fun hne => absurd rfl hne⟩
      rcases hatt with hsome | hmem | ⟨hconnecting, -⟩
      · exact absurd (h.no_connection (by decide)) hsome
      · rw [hqueue, if_neg (by decide), List.append_nil, List.mem_replicate] at hmem
        cases hmem.2
      · have := h.connecting
        rw [hconnecting] at this
        cases this

/-- A client that is in the lost phase is in no other. -/
theorem At.lost_unique {m : ℕ} (hp : At s p n) (hlost : At s .lost m) : p = .lost := by
  cases p with
  | idle => cases hp.connect.symm.trans hlost.connect
  | queued =>
      -- an attempt in the queue is not lost
      have hmem : ConnectorFunctor.connectInLoop ∈ s.queue := by
        rw [hp.queue]
        exact List.mem_append_right _ List.mem_cons_self
      rw [hlost.queue, if_neg (by decide), List.append_nil, List.mem_replicate] at hmem
      cases hmem.2
  | connecting => cases hp.connecting.symm.trans hlost.connecting
  | connected => cases hp.connection.symm.trans hlost.connection
  | lost => rfl

/-- A step that leaves the phase. -/
theorem At.congr (h : At s p n) (hconnect : t.connect_ = s.connect_) (hqueue : t.queue = s.queue)
    (hconnector : t.loop.connector.connecting_ = s.loop.connector.connecting_
      ∧ t.loop.connector.connect_ = s.loop.connector.connect_
      ∧ t.loop.connector.connectCallback_ = s.loop.connector.connectCallback_)
    (hconnection : t.connection_ = s.connection_)
    (hregistered : s.loop.registered = true → t.loop.registered = true)
    (hbatch : t.loop.pc ≠ .functors → t.loop.functors = []) : At t p n where
  connect := hconnect.trans h.connect
  queue := hqueue.trans h.queue
  connecting := hconnector.1.trans h.connecting
  connection := by rw [hconnection]; exact h.connection
  registered := fun hp => ⟨(h.registered hp).1, hregistered (h.registered hp).2⟩
  flag := fun hp => hconnector.2.1.trans (h.flag hp)
  callback := hconnector.2.2.trans h.callback
  batch := hbatch

/-- Without an attempt in the queue, one is put at its end. -/
theorem At.connectConnector (h : At s p n) (hp : p ≠ .queued ∧ p ≠ .connecting)
    (hconnect : t.connect_ = true) (hconnection : t.connection_ = none) (hloop : t.loop = s.loop) :
    At t.connectConnector .queued n where
  connect := hconnect
  queue := by
    have hqueue := h.queue
    rw [if_neg hp.1, List.append_nil] at hqueue
    rw [if_pos rfl, ← hqueue]
    unfold TcpClient.queue TcpClient.connectConnector
    rw [hloop, List.append_assoc]
    rfl
  connecting := by
    have hconnecting := h.connecting
    rw [decide_eq_false hp.2] at hconnecting
    unfold TcpClient.connectConnector
    rw [hloop]
    exact hconnecting
  connection := by
    unfold TcpClient.connectConnector
    rw [hconnection]
    rfl
  registered := fun hp => by cases hp
  flag := fun _ => rfl
  callback := by
    unfold TcpClient.connectConnector
    rw [hloop]
    exact h.callback
  batch := by
    unfold TcpClient.connectConnector
    rw [hloop]
    exact h.batch

theorem at_connect (h : At s p n) : ∃ q, At s.connect q n ∧ p.Next q ∧ (q = .lost → p = .lost) := by
  unfold TcpClient.connect
  cases hconnect : s.connect_ with
  | true => exact ⟨p, h, .stay p, id⟩
  | false =>
      -- with `connect_` cleared there is neither an attempt nor a connection
      have hidle : p = .idle := by
        have := h.connect
        rw [hconnect] at this
        simpa using this.symm
      subst hidle
      refine ⟨.queued, ?_, .start, fun hlost => by cases hlost⟩
      exact h.connectConnector (by decide) rfl (h.no_connection (by decide)) rfl

theorem at_onClose (h : At s p n) (connection : ℕ) :
    ∃ q, At (s.onClose connection) q n ∧ p.Next q ∧ (q = .lost → p = .lost) := by
  unfold TcpClient.onClose
  by_cases hother : s.connection_ ≠ some connection
  · rw [if_pos hother]
    exact ⟨p, h, .stay p, id⟩
  · rw [if_neg hother]
    have hconnected : p = .connected := by
      by_contra hne
      exact hother (by rw [h.no_connection hne]; exact fun hf => by cases hf)
    subst hconnected
    have hconnect : s.connect_ = true := h.connect
    dsimp only
    rw [if_neg (by rw [hconnect]; decide)]
    cases s.retry_ with
    | true =>
        refine ⟨.queued, ?_, .reconnect, fun hlost => by cases hlost⟩
        exact h.connectConnector (by decide) hconnect rfl rfl
    | false =>
        refine ⟨.idle, ?_, .finish, fun hlost => by cases hlost⟩
        exact
          { connect := rfl
            queue := h.queue
            connecting := h.connecting
            connection := rfl
            registered := fun hp => by cases hp
            flag := fun hp => absurd rfl hp
            callback := h.callback
            batch := h.batch }

/-! ## The steps of the loop -/

/-- The step hands nothing over. -/
theorem At.deliver {l : ConnectorLoop} (hhanded : l.handed = s.loop.handed)
    (h : At { s with loop := l } p n) : At (s.deliver l) p n := by
  unfold TcpClient.deliver
  rw [hhanded, List.drop_length]
  exact h

/-- The step hands one descriptor over. -/
theorem At.deliver_one {l : ConnectorLoop} (fd : ℕ) (hhanded : l.handed = s.loop.handed ++ [fd])
    (h : At { s with loop := l, connection_ := some fd, live := s.live ++ [fd] } p n) :
    At (s.deliver l) p n := by
  unfold TcpClient.deliver
  rw [hhanded, List.drop_left]
  exact h

theorem at_poll (h : At s p n) {events : Events} {l : ConnectorLoop}
    (hl : s.loop.poll events = some l) : At (s.deliver l) p n := by
  unfold ConnectorLoop.poll at hl
  split at hl
  · rename_i hguard
    have hbatch := h.batch (by rw [hguard.1]; decide)
    cases hchannel : s.loop.connector.channel_ with
    | none =>
        rw [hchannel] at hl
        obtain rfl := Option.some.inj hl
        refine At.deliver rfl ?_
        exact h.congr rfl rfl ⟨rfl, rfl, rfl⟩ rfl id fun _ => hbatch
    | some r =>
        rw [hchannel] at hl
        obtain rfl := Option.some.inj hl
        refine At.deliver rfl (h.congr rfl rfl ⟨rfl, rfl, rfl⟩ rfl (fun hreg => ?_) fun _ => hbatch)
        unfold ConnectorLoop.registered at hreg ⊢
        rw [hchannel] at hreg
        exact (Channel.polled_poll () events (r.2, s.loop.activedChannels_)).started_eq.trans hreg
  · cases hl

theorem at_handle (h : At s p n) {connected : Bool} {l : ConnectorLoop}
    (hl : s.loop.handle connected = some l) :
    ∃ q m, At (s.deliver l) q m ∧ p.Next q ∧ (q = .lost → p = .lost) := by
  unfold ConnectorLoop.handle at hl
  split at hl
  · rename_i hpc
    have hbatch := h.batch (by rw [hpc]; decide)
    have hpc' : ¬ s.loop.pc ≠ .dispatch := not_not.mpr hpc
    split at hl
    · -- the swap keeps the order of the functors
      obtain rfl := Option.some.inj hl
      refine ⟨p, n, At.deliver rfl (h.congr rfl ?_ ⟨rfl, rfl, rfl⟩ rfl id ?_), .stay p, id⟩
      · unfold TcpClient.queue
        rw [hbatch, List.append_nil, List.nil_append]
      · intro hne
        exact absurd rfl hne
    · rename_i rest hlist
      obtain ⟨⟨fd, c⟩, hchannel, hl⟩ := Option.bind_eq_some_iff.mp hl
      dsimp only at hl
      have hsettled : s.loop.registered = true → c.started_ = true := by
        intro hreg
        unfold ConnectorLoop.registered at hreg
        rw [hchannel] at hreg
        exact hreg
      split at hl
      · unfold Connector.onWrite at hl
        dsimp only at hl
        by_cases hidle : (!s.loop.connector.connect_ || !s.loop.connector.connecting_) = true
        · rw [if_pos hidle] at hl
          obtain rfl := Option.some.inj hl
          exact ⟨p, n,
            At.deliver rfl (h.congr rfl rfl ⟨rfl, rfl, rfl⟩ rfl hsettled fun _ => hbatch),
            .stay p, id⟩
        · rw [if_neg hidle] at hl
          simp only [Bool.or_eq_true, Bool.not_eq_true', not_or, Bool.not_eq_false] at hidle
          -- `onWrite` has something to do only for a connecting channel
          have hconnecting : p = .connecting := by
            have := h.connecting
            rw [hidle.2] at this
            simpa using this.symm
          subst hconnecting
          obtain ⟨rfl, -⟩ := h.registered rfl
          have hqueue : s.loop.functors ++ s.loop.pendingFunctors_ = [] := h.queue
          rw [hbatch, List.nil_append] at hqueue
          have hconnect := h.flag (by decide)
          have hnone := h.no_connection (by decide)
          cases connected with
          | true =>
              -- the descriptor goes to `onConnect`, and `resetChannel` is queued
              obtain rfl := Option.some.inj hl
              refine ⟨.connected, 1, At.deliver_one fd ?_ ?_, .established,
                fun hlost => by cases hlost⟩
              · rw [h.callback]
                rfl
              · rw [h.callback]
                exact
                  { connect := h.connect
                    queue := by
                      show s.loop.functors ++ (s.loop.pendingFunctors_ ++ [.resetChannel]) = _
                      rw [hbatch, hqueue]
                      rfl
                    connecting := rfl
                    connection := rfl
                    registered := fun hp => by cases hp
                    flag := fun _ => hconnect
                    callback := rfl
                    batch := fun _ => hbatch }
          | false =>
              -- the next attempt is queued behind the `resetChannel` of this one
              obtain rfl := Option.some.inj hl
              refine ⟨.queued, 1, At.deliver rfl ?_, .again, fun hlost => by cases hlost⟩
              exact
                { connect := h.connect
                  queue := by
                    show s.loop.functors
                      ++ (s.loop.pendingFunctors_ ++ [.resetChannel] ++ [.connectInLoop]) = _
                    rw [hbatch, hqueue]
                    rfl
                  connecting := rfl
                  connection := by
                    show s.connection_.isSome = _
                    rw [hnone]
                    rfl
                  registered := fun hp => by cases hp
                  flag := fun _ => hconnect
                  callback := h.callback
                  batch := fun _ => hbatch }
      · obtain rfl := Option.some.inj hl
        exact ⟨p, n, At.deliver rfl (h.congr rfl rfl ⟨rfl, rfl, rfl⟩ rfl hsettled fun _ => hbatch),
          .stay p, id⟩
  · cases hl

/-- A `connectInLoop` at the head of the batch is the attempt, and the only
functor that waits. -/
theorem At.connectInLoop_head (h : At s p n) {rest : List ConnectorFunctor}
    (hf : s.loop.functors = .connectInLoop :: rest) :
    p = .queued ∧ rest = [] ∧ s.loop.pendingFunctors_ = [] := by
  have hqueue := h.queue
  unfold TcpClient.queue at hqueue
  rw [hf] at hqueue
  cases n with
  | zero =>
      by_cases hp : p = .queued
      · rw [if_pos hp] at hqueue
        have htail := (List.cons.inj hqueue).2
        obtain ⟨hrest, hpending⟩ := List.append_eq_nil_iff.mp htail
        exact ⟨hp, hrest, hpending⟩
      · rw [if_neg hp] at hqueue
        cases hqueue
  | succ n =>
      rw [List.replicate_succ] at hqueue
      cases (List.cons.inj hqueue).1

/-- A functor of the client's connector is never a `closeInLoop`; a
`resetChannel` at the head is one of those before the attempt. -/
theorem At.resetChannel_head (h : At s p n) {f : ConnectorFunctor} {rest : List ConnectorFunctor}
    (hf : s.loop.functors = f :: rest) (hne : f ≠ .connectInLoop) :
    f = .resetChannel ∧ ∃ m, n = m + 1 ∧ rest ++ s.loop.pendingFunctors_
      = List.replicate m .resetChannel ++ if p = .queued then [.connectInLoop] else [] := by
  have hqueue := h.queue
  unfold TcpClient.queue at hqueue
  rw [hf] at hqueue
  cases n with
  | zero =>
      by_cases hp : p = .queued
      · rw [if_pos hp] at hqueue
        exact absurd (List.cons.inj hqueue).1 hne
      · rw [if_neg hp] at hqueue
        cases hqueue
  | succ n =>
      rw [List.replicate_succ] at hqueue
      obtain ⟨hhead, htail⟩ := List.cons.inj hqueue
      exact ⟨hhead, n, rfl, htail⟩

/-- The attempt has left the queue, and has led nowhere yet. -/
theorem At.left (h : At s .queued 0) {l : ConnectorLoop}
    (hconnector : l.connector = s.loop.connector) (hfunctors : l.functors = [])
    (hpending : l.pendingFunctors_ = []) :
    At { s with loop := l } .lost 0 where
  connect := h.connect
  queue := by
    show l.functors ++ l.pendingFunctors_ = _
    rw [hfunctors, hpending]
    rfl
  connecting := by
    show l.connector.connecting_ = _
    rw [hconnector]
    exact h.connecting
  connection := h.connection
  registered := fun hp => by cases hp
  flag := fun _ => by
    show l.connector.connect_ = true
    rw [hconnector]
    exact h.flag (by decide)
  callback := by
    show l.connector.connectCallback_ = true
    rw [hconnector]
    exact h.callback
  batch := fun _ => hfunctors

/-- The functor `connectInLoop`, from a client whose attempt it is. -/
theorem at_connectInLoop (h : At s .queued 0) {opens : Bool} {result : Option Errno}
    {l : ConnectorLoop} (hpc : s.loop.pc = .functors) (hf : s.loop.functors = [.connectInLoop])
    (hpending : s.loop.pendingFunctors_ = [])
    (hl : s.loop.functor opens result = some l) :
    ∃ q, At (s.deliver l) q 0 ∧ Phase.Next .queued q
      ∧ (q = .lost ↔ ¬ GoesOn s (.functor opens result)) := by
  have hconnect := h.flag (by decide)
  have hconnecting : s.loop.connector.connecting_ = false := h.connecting
  have hnone := h.no_connection (by decide)
  have hgoes : GoesOn s (.functor opens result) ↔
      (opens = true ∧ ∀ err, result = some err → err.connecting = true ∨ err.retries = true) := by
    constructor
    · intro hC
      exact hC [] hpc hf hconnect hconnecting
    · intro hC rest hpc' hf' hconnect' hconnecting'
      exact hC
  rw [hgoes]
  unfold ConnectorLoop.functor at hl
  rw [if_pos hpc, hf] at hl
  dsimp only at hl
  obtain rfl := Option.some.inj hl
  unfold Connector.connectInLoop
  rw [if_neg (by rw [hconnect, hconnecting]; decide)]
  cases opens with
  | false =>
      -- `Socket::open` failed, and so does `::connect` on -1
      refine ⟨.lost, At.deliver rfl (h.left rfl rfl hpending), .giveUp, fun _ hC => ?_,
        fun _ => rfl⟩
      cases hC.1
  | true =>
      rw [if_pos rfl]
      cases result with
      | none =>
          -- connected at once
          have hgo : true = true ∧ ∀ err, (none : Option Errno) = some err →
              err.connecting = true ∨ err.retries = true := ⟨rfl, fun _ herr => by cases herr⟩
          dsimp only
          rw [if_pos h.callback]
          refine ⟨.connected, At.deliver_one s.loop.opened rfl ?_, .atOnce,
            ⟨fun hlost => (by cases hlost), fun hC => absurd hgo hC⟩⟩
          have hl := h.left (l := { s.loop with functors := [] }) rfl rfl hpending
          exact
            { connect := hl.connect, queue := hl.queue, connecting := hl.connecting
              connection := rfl, registered := fun hp => by cases hp
              flag := fun _ => hconnect, callback := hl.callback, batch := fun _ => rfl }
      | some err =>
          dsimp only
          cases herr : err.connecting with
          | true =>
              -- in the background, on a new channel
              refine ⟨.connecting, At.deliver rfl ?_, .background,
                ⟨fun hlost => (by cases hlost), fun hC => absurd ⟨rfl, ?_⟩ hC⟩⟩
              · exact
                  { connect := h.connect
                    queue := by
                      show [] ++ s.loop.pendingFunctors_ = _
                      rw [hpending]
                      rfl
                    connecting := rfl
                    connection := by
                      show s.connection_.isSome = _
                      rw [hnone]
                      rfl
                    registered := fun _ => ⟨rfl, rfl⟩
                    flag := fun _ => hconnect
                    callback := h.callback
                    batch := fun _ => rfl }
              · intro err' herr'
                cases herr'
                exact Or.inl herr
          | false =>
              cases hretry : err.retries with
              | true =>
                  -- once more, by the functor that `connectInLoop` queues
                  refine ⟨.queued, At.deliver rfl ?_, .stay _,
                    ⟨fun hlost => (by cases hlost), fun hC => absurd ⟨rfl, ?_⟩ hC⟩⟩
                  · have hl := h.left (l := { s.loop with functors := [] }) rfl rfl hpending
                    exact
                      { connect := hl.connect
                        queue := by
                          show [] ++ (s.loop.pendingFunctors_ ++ [.connectInLoop]) = _
                          rw [hpending]
                          rfl
                        connecting := hl.connecting
                        connection := hl.connection
                        registered := fun hp => by cases hp
                        flag := fun _ => hconnect
                        callback := hl.callback
                        batch := fun _ => rfl }
                  · intro err' herr'
                    cases herr'
                    exact Or.inr hretry
              | false =>
                  -- the socket is closed and nobody is told
                  refine ⟨.lost, At.deliver rfl (h.left rfl rfl hpending), .giveUp,
                    fun _ hC => ?_, fun _ => rfl⟩
                  rcases hC.2 err rfl with hc | hr
                  · rw [herr] at hc
                    cases hc
                  · rw [hretry] at hr
                    cases hr

theorem at_functor (h : At s p n) {opens : Bool} {result : Option Errno} {l : ConnectorLoop}
    (hl : s.loop.functor opens result = some l) :
    ∃ q m, At (s.deliver l) q m ∧ p.Next q
      ∧ (q = .lost → p = .lost ∨ ¬ GoesOn s (.functor opens result))
      ∧ (¬ GoesOn s (.functor opens result) → q = .lost) := by
  have hpc : s.loop.pc = .functors := by
    unfold ConnectorLoop.functor at hl
    split at hl
    · assumption
    · cases hl
  cases hf : s.loop.functors with
  | nil =>
      unfold ConnectorLoop.functor at hl
      rw [if_pos hpc, hf] at hl
      obtain rfl := Option.some.inj hl
      refine ⟨p, n, At.deliver rfl (h.congr rfl ?_ ⟨rfl, rfl, rfl⟩ rfl id fun _ => rfl), .stay p,
        Or.inl, fun hC => absurd ?_ hC⟩
      · unfold TcpClient.queue
        rw [hf]
      · intro rest hpc' hf'
        rw [hf] at hf'
        cases hf'
  | cons f rest =>
      by_cases hhead : f = .connectInLoop
      · subst hhead
        obtain ⟨rfl, rfl, hpending⟩ := h.connectInLoop_head hf
        have hzero : n = 0 := by
          have hqueue := congrArg List.length h.queue
          unfold TcpClient.queue at hqueue
          rw [hf, hpending, if_pos rfl, List.length_append, List.length_append,
            List.length_replicate] at hqueue
          simpa using hqueue.symm
        subst hzero
        obtain ⟨q, hq, hnext, hlost⟩ := at_connectInLoop h hpc hf hpending hl
        exact ⟨q, 0, hq, hnext, fun hq => Or.inr (hlost.mp hq), hlost.mpr⟩
      · -- a `resetChannel` goes, and leaves the phase
        obtain ⟨rfl, m, rfl, hqueue⟩ := h.resetChannel_head hf hhead
        unfold ConnectorLoop.functor at hl
        rw [if_pos hpc, hf] at hl
        obtain rfl := Option.some.inj hl
        refine ⟨p, m, At.deliver rfl ?_, .stay p, Or.inl, fun hC => absurd ?_ hC⟩
        · exact
            { connect := h.connect
              queue := hqueue
              connecting := h.connecting
              connection := h.connection
              registered := fun hp => absurd (h.registered hp).1 (Nat.succ_ne_zero m)
              flag := h.flag
              callback := h.callback
              batch := fun hne => absurd hpc hne }
        · intro rest' hpc' hf'
          rw [hf] at hf'
          cases hf'

/-- **What a step can do**: the client and its connector go on to a phase that
the automaton allows, and to the lost one only from it or by giving up. -/
theorem at_step (h : At s p n) {e : TcpClientEvent} (hstep : step s e = some t) :
    ∃ q m, At t q m ∧ p.Next q ∧ (q = .lost → p = .lost ∨ ¬ GoesOn s e)
      ∧ (¬ GoesOn s e → q = .lost) := by
  cases e with
  | connect =>
      obtain rfl := Option.some.inj hstep
      obtain ⟨q, hq, hnext, hlost⟩ := at_connect h
      exact ⟨q, n, hq, hnext, fun hq => Or.inl (hlost hq), fun hC => absurd trivial hC⟩
  | setRetry retry =>
      obtain rfl := Option.some.inj hstep
      exact ⟨p, n, h.congr rfl rfl ⟨rfl, rfl, rfl⟩ rfl id h.batch, .stay p, Or.inl,
        fun hC => absurd trivial hC⟩
  | onClose connection =>
      change (if _ then _ else _) = some t at hstep
      split at hstep
      · obtain rfl := Option.some.inj hstep
        have h' : At { s with live := s.live.erase connection } p n :=
          h.congr rfl rfl ⟨rfl, rfl, rfl⟩ rfl id h.batch
        obtain ⟨q, hq, hnext, hlost⟩ := at_onClose h' connection
        exact ⟨q, n, hq, hnext, fun hq => Or.inl (hlost hq), fun hC => absurd trivial hC⟩
      · cases hstep
  | poll events =>
      obtain ⟨l, hl, rfl⟩ := Option.map_eq_some_iff.mp hstep
      exact ⟨p, n, at_poll h hl, .stay p, Or.inl, fun hC => absurd trivial hC⟩
  | handle connected =>
      obtain ⟨l, hl, rfl⟩ := Option.map_eq_some_iff.mp hstep
      obtain ⟨q, m, hq, hnext, hlost⟩ := at_handle h hl
      exact ⟨q, m, hq, hnext, fun hq => Or.inl (hlost hq), fun hC => absurd trivial hC⟩
  | functor opens result =>
      obtain ⟨l, hl, rfl⟩ := Option.map_eq_some_iff.mp hstep
      exact at_functor h hl

end Step

/-! ## Runs -/

/-- **The client is wedged exactly by an attempt that is given up.** In every run
of calls of `connect` and `setRetry`, of connections made and closed, and rounds
of the loop with any events and any answers of `::connect` and `SO_ERROR`: when
the loop is about to poll and `connect_` is set, there is a connection, a queued
attempt or a connecting channel that is registered, if and only if no
`connectInLoop` so far has failed with an error it does not try again after. -/
theorem tcpClient_attempts_iff {es : List TcpClientEvent} {t : TcpClient}
    (hrun : run step init es = some t) (hpc : t.loop.pc = .poll) :
    (t.connect_ = true → Attempting t) ↔ Along step GoesOn init es := by
  obtain ⟨q, m, hq⟩ : ∃ q m, At t q m := by
    refine run_inv (I := fun s => ∃ q m, At s q m) ?_ ⟨.idle, 0, at_init⟩ hrun
    rintro s e s' ⟨p, n, h⟩ hs
    obtain ⟨q, m, hq, -⟩ := at_step h hs
    exact ⟨q, m, hq⟩
  constructor
  · intro hatt
    have hlost : q ≠ .lost := by
      rintro rfl
      exact (hq.attempting hpc hq.connect).mp (hatt hq.connect) rfl
    refine along_of_trap (I := fun s => ∃ p n, At s p n) (P := fun s => ∃ n, At s .lost n)
      ?_ ?_ ?_ ⟨.idle, 0, at_init⟩ hrun ?_
    · rintro s e s' ⟨p, n, h⟩ hs
      obtain ⟨q, m, hq, -⟩ := at_step h hs
      exact ⟨q, m, hq⟩
    · rintro s e s' ⟨p, n, h⟩ hbad hs
      obtain ⟨q, m, hq, -, -, hgone⟩ := at_step h hs
      exact ⟨m, hgone hbad ▸ hq⟩
    · rintro s e s' - ⟨n, h⟩ hs
      obtain ⟨q, m, hq, hnext, -⟩ := at_step h hs
      cases hnext with
      | stay => exact ⟨m, hq⟩
    · rintro ⟨n, h⟩
      exact hlost (hq.lost_unique h)
  · intro hC hconnect
    obtain ⟨p, n, hp, hlost⟩ : ∃ p n, At t p n ∧ p ≠ .lost := by
      refine run_inv_along (I := fun s => ∃ p n, At s p n ∧ p ≠ .lost) (C := GoesOn) ?_
        ⟨.idle, 0, at_init, by decide⟩ hC hrun
      rintro s e s' ⟨p, n, h, hne⟩ hgoes hs
      obtain ⟨q, m, hq, -, hlost, -⟩ := at_step h hs
      refine ⟨q, m, hq, fun heq => ?_⟩
      rcases hlost heq with hp | hbad
      · exact hne hp
      · exact hbad hgoes
    exact (hp.attempting hpc hconnect).mpr hlost

/-- A connection in the background, its end, and another one. -/
theorem tcpClient_attempts_retry : ∃ t,
    run step init [.setRetry true, .connect, .poll Events.none, .handle true,
      .functor true (some .EINPROGRESS), .functor true none, .poll ⟨false, false, false, true⟩,
      .handle true, .onClose 0, .handle true, .functor true none, .functor true none,
      .functor true none] = some t
    ∧ t.connection_ = some 1
    ∧ ((t.connect_ = true → Attempting t) ↔ Along step GoesOn init [.setRetry true, .connect,
      .poll Events.none, .handle true, .functor true (some .EINPROGRESS), .functor true none,
      .poll ⟨false, false, false, true⟩, .handle true, .onClose 0, .handle true,
      .functor true none, .functor true none, .functor true none]) := by
  have heval : (run step init [.setRetry true, .connect, .poll Events.none, .handle true,
      .functor true (some .EINPROGRESS), .functor true none, .poll ⟨false, false, false, true⟩,
      .handle true, .onClose 0, .handle true, .functor true none, .functor true none,
      .functor true none]).map (fun t => (t.loop.pc, t.connection_)) = some (.poll, some 1) := by
    decide
  obtain ⟨t, hrun, ht⟩ := Option.map_eq_some_iff.mp heval
  obtain ⟨hpc, hconnection⟩ := Prod.mk.inj ht
  exact ⟨t, hrun, hconnection, tcpClient_attempts_iff hrun hpc⟩

/-- The address cannot be reached: the client is left with `connect_` set and no
attempt. -/
theorem tcpClient_wedged : ¬ ∀ (es : List TcpClientEvent) (t : TcpClient),
    run step init es = some t → t.loop.pc = .poll → t.connect_ = true → Attempting t := by
  intro h
  have heval : (run step init [.connect, .poll Events.none, .handle true,
      .functor true (some (.other 113)), .functor true none]).map (fun t =>
        (t.loop.pc, t.connect_, t.connection_, t.loop.pendingFunctors_,
          t.loop.connector.connecting_))
      = some (.poll, true, none, [], false) := by
    decide
  obtain ⟨t, hrun, ht⟩ := Option.map_eq_some_iff.mp heval
  simp only [Prod.mk.injEq] at ht
  obtain ⟨hpc, hconnect, hconnection, hpending, hconnecting⟩ := ht
  rcases h _ t hrun hpc hconnect with hsome | hmem | ⟨htrue, -⟩
  · exact hsome hconnection
  · rw [hpending] at hmem
    cases hmem
  · rw [hconnecting] at htrue
    cases htrue

/-! ## The descriptors of a client -/

/-- A client never takes its connector through a step that lets go of a
descriptor: its callback is set, it never calls `close`, and while a channel is
connecting no `resetChannel` waits. -/
theorem At.ownsOnce {s : TcpClient} {p : Phase} {n : ℕ} (h : At s p n) (e : ConnectorEvent) :
    s.loop.OwnsOnce e := by
  unfold ConnectorLoop.OwnsOnce
  cases e with
  | functor opens result =>
      dsimp only
      cases hf : s.loop.functors with
      | nil => trivial
      | cons f rest =>
          by_cases hhead : f = .connectInLoop
          · subst hhead
            exact fun _ _ _ _ => h.callback
          · obtain ⟨rfl, m, rfl, -⟩ := h.resetChannel_head hf hhead
            intro hconnecting
            have hp : p = .connecting := by
              have := h.connecting
              rw [hconnecting] at this
              simpa using this.symm
            exact absurd (h.registered hp).1 (Nat.succ_ne_zero m)
  | connect => trivial
  | close => trivial
  | setConnectCallback => trivial
  | push i => trivial
  | poll events => trivial
  | handle connected => trivial

/-- A step of the loop keeps the custody. -/
theorem At.custody {s : TcpClient} {p : Phase} {n : ℕ} (h : At s p n) (hs : s.loop.Custody)
    {e : ConnectorEvent} {l : ConnectorLoop} (hE : s.loop.Enabled e)
    (hl : ConnectorLoop.step s.loop e = some l) : l.Custody := by
  obtain ⟨l', hl', hcustody⟩ := ConnectorLoop.custody_step hs hE (h.ownsOnce e)
  rw [hl, Option.some.injEq] at hl'
  exact hl' ▸ hcustody

theorem deliver_loop (s : TcpClient) (l : ConnectorLoop) : (s.deliver l).loop = l := by
  have hfold : ∀ (fds : List ℕ) (s : TcpClient), (fds.foldl onConnect s).loop = s.loop := by
    intro fds
    induction fds with
    | nil => exact fun _ => rfl
    | cons fd fds ih => exact fun s => ih (s.onConnect fd)
  exact hfold _ _

theorem custody_connectConnector {s t : TcpClient} (h : s.loop.Custody) (hloop : t.loop = s.loop) :
    t.connectConnector.loop.Custody := by
  unfold connectConnector
  rw [hloop]
  exact h.congr (fun _ => Iff.rfl) rfl rfl rfl h.channel h.listed

theorem custody_step {s t : TcpClient} {p : Phase} {n : ℕ} {e : TcpClientEvent} (h : At s p n)
    (hs : s.loop.Custody) (hstep : step s e = some t) : t.loop.Custody := by
  cases e with
  | connect =>
      obtain rfl := Option.some.inj hstep
      unfold TcpClient.connect
      split
      · exact hs
      · exact custody_connectConnector hs rfl
  | setRetry retry =>
      obtain rfl := Option.some.inj hstep
      exact hs
  | onClose connection =>
      change (if _ then _ else _) = some t at hstep
      split at hstep
      · obtain rfl := Option.some.inj hstep
        unfold TcpClient.onClose
        dsimp only
        split
        · exact hs
        · split
          · exact hs
          · split
            · exact custody_connectConnector hs rfl
            · exact hs
      · cases hstep
  | poll events =>
      obtain ⟨l, hl, rfl⟩ := Option.map_eq_some_iff.mp hstep
      rw [deliver_loop]
      refine h.custody hs (e := .poll events) ?_ hl
      unfold ConnectorLoop.poll at hl
      split at hl
      · assumption
      · cases hl
  | handle connected =>
      obtain ⟨l, hl, rfl⟩ := Option.map_eq_some_iff.mp hstep
      rw [deliver_loop]
      refine h.custody hs (e := .handle connected) ?_ hl
      unfold ConnectorLoop.handle at hl
      split at hl
      · assumption
      · cases hl
  | functor opens result =>
      obtain ⟨l, hl, rfl⟩ := Option.map_eq_some_iff.mp hstep
      rw [deliver_loop]
      refine h.custody hs (e := .functor opens result) ?_ hl
      unfold ConnectorLoop.functor at hl
      split at hl
      · assumption
      · cases hl

/-- **The connector of a client owns each of its descriptors exactly once.** In
every state a run of a client reaches, each descriptor its connector has opened
belongs to the connecting channel, or was handed to the client once, or was closed
once. -/
theorem tcpClient_oneOwner {t : TcpClient} (h : Reach step init t) : t.loop.OneOwner := by
  refine (reach_inv (I := fun s : TcpClient => (∃ p n, At s p n) ∧ s.loop.Custody) ?_
    ⟨⟨.idle, 0, at_init⟩, ?_⟩ h).2.one
  · rintro s e s' ⟨⟨p, n, hs⟩, hcustody⟩ hstep
    obtain ⟨q, m, hq, -⟩ := at_step hs hstep
    exact ⟨⟨q, m, hq⟩, custody_step hs hcustody hstep⟩
  · exact ConnectorLoop.custody_init.congr (fun _ => Iff.rfl) rfl rfl rfl
      ConnectorLoop.custody_init.channel (Or.inl rfl)

end TcpClient

end Libiak.Net
