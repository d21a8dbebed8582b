/-
`TcpServer` and `TcpClient` as the owners of what calls them back.

An owner gives a raw `this` to its acceptor or connector and to every connection
it makes, and all of them can outlive it. Its destructor only queues work: it
closes the acceptor or the connector, and asks the connections to close their
channels. Everything happens on one event loop here, but user code runs inside
callbacks, so an owner can be released in the middle of any function of the
library that is on the stack: `Frame` says which, and what it has still to do.

`Pending` are the connections whose close callback can still run. A server that
is released while one of its connections is pending, while a `removeConnection`
of it is queued, or inside of its own accept loop, is called after its
destructor has run (`server_released`). Nothing else calls one: `Releasable` is
the condition that none of these holds, and along every run whose releases meet
it no destroyed owner is called (`owners_quiet`). A client needs less, because
its destructor stops the connector, or there is no attempt left to stop.

Servers, clients and connections are named by numbers. `invoke` is the entry of
a member function; one of a destroyed owner is noted in `dangling`, and nothing
of it is executed.
-/
import Libiak.Acceptor
import Libiak.Connector
import Mathlib.Data.List.AList

set_option autoImplicit false

namespace Libiak.Net

open Libiak.Run

/-- A `TcpServer` or a `TcpClient`. -/
inductive Owner where
  | server (server : ℕ)
  | client (client : ℕ)
  deriving DecidableEq

/-- The functors that are queued on behalf of owners and their connections. -/
inductive OwnerFunctor where
  | acceptor (server : ℕ) (functor : AcceptorFunctor)
  | connector (client : ℕ) (functor : ConnectorFunctor)
  | establishInLoop (connection : ℕ)
  | onClose (connection : ℕ)
  | destroyInLoop (connection : ℕ)
  | removeConnection (server sockFd connection : ℕ)
  deriving DecidableEq

/-- The server a functor calls without holding it. -/
def OwnerFunctor.removes : OwnerFunctor → Option ℕ
  | .removeConnection server _ _ => some server
  | _ => none

/-- A `TcpServer`. `alive` is until its destructor has run. -/
structure OwnerServer where
  alive : Bool
  listen_ : Bool
  acceptor_ : Acceptor
  connections_ : AList fun _ : ℕ => ℕ

/-- A server accepts only while it listens, and so not after its destructor. -/
def OwnerServer.Listening (v : OwnerServer) : Prop :=
  v.acceptor_.accept_ = true → v.listen_ = true ∧ v.alive = true

/-- A `TcpClient`. -/
structure OwnerClient where
  alive : Bool
  connect_ : Bool
  retry_ : Bool
  connection_ : Option ℕ
  connector_ : Connector

/-- A `TcpConnection`: its flags, that of its channel, and the owner its
`closeCallback_` is bound to, with the descriptor. -/
structure OwnedConn where
  owner : Owner
  sockFd_ : ℕ
  establish_ : Bool
  close_ : Bool
  started_ : Bool

/-- The function of the library that is on the stack while user code runs:
the loop of `Acceptor::onRead`, the loop of `TcpConnection::onRead`, or
`TcpConnection::onClose` between its flag and `closeCallback_`. -/
inductive Frame where
  | idle
  | accepting (server : ℕ)
  | reading (connection : ℕ)
  | closing (connection : ℕ)
  deriving DecidableEq

/-- The owners of one event loop, their connections, the user's pointers to
these, and the queue. `dangling` is history: the owners that were called after
their destructor. -/
structure Owners where
  server : ℕ → OwnerServer
  client : ℕ → OwnerClient
  made : ℕ
  conn : ℕ → OwnedConn
  user : ℕ → ℕ
  pendingFunctors_ : List OwnerFunctor
  functors : List OwnerFunctor
  inBatch : Bool
  frame : Frame
  dangling : List Owner

/-- What can happen next. The first eight are user code, which can run at any
moment; then the events of channels and what the functions they call go on to
do, with the answers of the kernel; then the loop. -/
inductive OwnersEvent where
  | listen (server : ℕ)
  | connect (client : ℕ)
  | setRetry (client : ℕ) (retry : Bool)
  | release (owner : Owner)
  | establish (connection : ℕ)
  | close (connection : ℕ)
  | copy (connection : ℕ)
  | drop (connection : ℕ)
  | acceptable (server : ℕ)
  | accept (sockFd : Except Errno ℕ)
  | readable (connection : ℕ)
  | recv
  | again
  | eof
  | hangup (connection : ℕ)
  | closed
  | connected (client : ℕ) (connected : Bool)
  | swap
  | functor (opens : Option ℕ) (result : Option Errno)
  deriving DecidableEq

namespace Owners

/-- Owners nobody has used yet. -/
def init : Owners :=
  { server := fun _ =>
      { alive := true, listen_ := false, connections_ := ∅
        acceptor_ := { Acceptor.make none with acceptCallback_ := true } }
    client := fun _ =>
      { alive := true, connect_ := false, retry_ := false, connection_ := none
        connector_ := { Connector.make with connectCallback_ := true } }
    made := 0
    conn := fun _ =>
      { owner := .server 0, sockFd_ := 0, establish_ := false, close_ := false, started_ := false }
    user := fun _ => 0
    pendingFunctors_ := [], functors := [], inBatch := false, frame := .idle, dangling := [] }

/-- What waits to be run. -/
def queue (s : Owners) : List OwnerFunctor := s.functors ++ s.pendingFunctors_

/-- The destructor of an owner has not run. -/
def Alive (s : Owners) : Owner → Bool
  | .server i => (s.server i).alive
  | .client i => (s.client i).alive

/-! ## The functions of the source -/

/-- The state with another state of server `i`. -/
def setServer (s : Owners) (i : ℕ) (server : OwnerServer) : Owners :=
  { s with server := Function.update s.server i server }

/-- The state with another state of client `i`. -/
def setClient (s : Owners) (i : ℕ) (client : OwnerClient) : Owners :=
  { s with client := Function.update s.client i client }

/-- The state with another state of connection `c`. -/
def setConn (s : Owners) (c : ℕ) (conn : OwnedConn) : Owners :=
  { s with conn := Function.update s.conn c conn }

/-- User code gets one more pointer to `c`. -/
def hold (s : Owners) (c : ℕ) : Owners :=
  { s with user := Function.update s.user c (s.user c + 1) }

/-- `EventLoop::runInLoop`. -/
def runInLoop (s : Owners) (f : OwnerFunctor) : Owners :=
  { s with pendingFunctors_ := s.pendingFunctors_ ++ [f] }

/-- The entry of a member function of an owner. -/
def invoke (s : Owners) (o : Owner) (body : Owners → Owners) : Owners :=
  if s.Alive o then body s else { s with dangling := s.dangling ++ [o] }

/-- `TcpConnection::make` and `setCloseCallback`, with a pointer for the owner's
`connectCallback_`. -/
def make (s : Owners) (o : Owner) (sockFd : ℕ) : Owners :=
  { s.setConn s.made
      { owner := o, sockFd_ := sockFd, establish_ := false, close_ := false, started_ := false }
    with made := s.made + 1 }.hold s.made

/-- `TcpConnection::destroy`. -/
def destroy (s : Owners) (c : ℕ) : Owners := s.runInLoop (.destroyInLoop c)

/-- `TcpServer::listen`. -/
def listen (s : Owners) (i : ℕ) : Owners :=
  let v := s.server i
  if v.listen_ then s
  else
    let r := v.acceptor_.listen
    let s := s.setServer i { v with listen_ := true, acceptor_ := r.1 }
    { s with pendingFunctors_ := s.pendingFunctors_ ++ r.2.toList.map (.acceptor i) }

/-- `TcpServer::onAccept`. -/
def onAccept (s : Owners) (i sockFd : ℕ) : Owners :=
  let v := s.server i
  (s.setServer i { v with connections_ := v.connections_.insert sockFd s.made }).make
    (.server i) sockFd

/-- `TcpServer::removeConnection`. -/
def removeConnection (s : Owners) (i sockFd c : ℕ) : Owners :=
  let v := s.server i
  (s.setServer i { v with connections_ := v.connections_.erase sockFd }).destroy c

/-- The connections of a `std::map`, in the order of its keys. -/
def entries (connections : AList fun _ : ℕ => ℕ) : List ℕ :=
  (connections.entries.mergeSort fun a b => a.1 ≤ b.1).map Sigma.snd

/-- `TcpServer::~TcpServer`. -/
def destroyServer (s : Owners) (i : ℕ) : Owners :=
  let v := s.server i
  let gone := { v with alive := false, connections_ := ∅ }
  if v.listen_ then
    let r := v.acceptor_.close
    let s := s.setServer i { gone with acceptor_ := r.1 }
    (entries v.connections_).foldl destroy
      { s with pendingFunctors_ := s.pendingFunctors_ ++ r.2.toList.map (.acceptor i) }
  else s.setServer i gone

/-- `TcpClient::connect`. -/
def connect (s : Owners) (i : ℕ) : Owners :=
  let v := s.client i
  if v.connect_ then s
  else
    let r := v.connector_.connect
    (s.setClient i { v with connect_ := true, connector_ := r.1 }).runInLoop (.connector i r.2)

/-- `TcpClient::onConnect`. -/
def onConnect (s : Owners) (i sockFd : ℕ) : Owners :=
  let v := s.client i
  (s.setClient i { v with connection_ := some s.made }).make (.client i) sockFd

/-- `TcpClient::onClose`. -/
def clientOnClose (s : Owners) (i c : ℕ) : Owners :=
  let v := s.client i
  if v.connection_ ≠ some c then s
  else
    let s := s.destroy c
    if !v.connect_ then s.setClient i { v with connection_ := none }
    else if v.retry_ then
      let r := v.connector_.connect
      (s.setClient i { v with connection_ := none, connector_ := r.1 }).runInLoop
        (.connector i r.2)
    else s.setClient i { v with connection_ := none, connect_ := false }

/-- `TcpClient::~TcpClient`. -/
def destroyClient (s : Owners) (i : ℕ) : Owners :=
  let v := s.client i
  let gone := { v with alive := false, connection_ := none }
  if v.connect_ then
    match v.connection_ with
    | some c => (s.setClient i gone).destroy c
    | none =>
        let r := v.connector_.close
        (s.setClient i { gone with connector_ := r.1 }).runInLoop (.connector i r.2)
  else s.setClient i gone

/-- The last pointer to an owner goes away. -/
def release (s : Owners) : Owner → Owners
  | .server i => s.destroyServer i
  | .client i => s.destroyClient i

/-- `TcpConnection::establish`. -/
def establish (s : Owners) (c : ℕ) : Owners :=
  if (s.conn c).close_ || (s.conn c).establish_ then s else s.runInLoop (.establishInLoop c)

/-- `TcpConnection::close`. -/
def close (s : Owners) (c : ℕ) : Owners :=
  if (s.conn c).close_ then s else s.runInLoop (.onClose c)

/-- `TcpConnection::establishInLoop`, with a pointer for `connectCallback_`. -/
def establishInLoop (s : Owners) (c : ℕ) : Owners :=
  if (s.conn c).establish_ then s
  else (s.setConn c { s.conn c with establish_ := true, started_ := true }).hold c

/-- `TcpConnection::destroyInLoop`. -/
def destroyInLoop (s : Owners) (c : ℕ) : Owners :=
  s.setConn c { s.conn c with started_ := false }

/-- `TcpConnection::onClose` up to `closeCallback_`, with a pointer for
`disconnectCallback_`. -/
def onClose (s : Owners) (c : ℕ) : Owners :=
  if (s.conn c).close_ then { s with frame := .idle }
  else { (s.setConn c { s.conn c with close_ := true }).hold c with frame := .closing c }

/-- `closeCallback_`: `TcpServer::onClose` or `TcpClient::onClose`. -/
def closeCallback (s : Owners) (c : ℕ) : Owners :=
  match (s.conn c).owner with
  | .server i => s.invoke (.server i) (·.runInLoop (.removeConnection i (s.conn c).sockFd_ c))
  | .client i => s.invoke (.client i) (·.clientOnClose i c)

/-- What a connector does besides changing its own state. -/
def connectorAct (i : ℕ) (s : Owners) : ConnectorAct → Owners
  | .open _ | .close _ => s
  | .callback sockFd => s.invoke (.client i) (·.onConnect i sockFd)
  | .queue f => s.runInLoop (.connector i f)

/-- The connector of client `i` after one of its functions. -/
def connectorActs (s : Owners) (i : ℕ) (r : Connector × List ConnectorAct) : Owners :=
  r.2.foldl (connectorAct i) (s.setClient i { s.client i with connector_ := r.1 })

/-- A functor is run. -/
def exec (s : Owners) (opens : Option ℕ) (result : Option Errno) : OwnerFunctor → Option Owners
  | .acceptor i .listenInLoop =>
      some (s.setServer i { s.server i with acceptor_ := (s.server i).acceptor_.listenInLoop })
  | .acceptor i .closeInLoop =>
      some (s.setServer i { s.server i with acceptor_ := (s.server i).acceptor_.closeInLoop })
  | .connector i .connectInLoop =>
      some (s.connectorActs i ((s.client i).connector_.connectInLoop opens result))
  | .connector i .closeInLoop => (s.client i).connector_.closeInLoop.map (s.connectorActs i)
  | .connector i .resetChannel =>
      some (s.setClient i { s.client i with connector_ := (s.client i).connector_.resetChannel })
  | .establishInLoop c => some (s.establishInLoop c)
  | .onClose c => some (s.onClose c)
  | .destroyInLoop c => some (s.destroyInLoop c)
  | .removeConnection i sockFd c =>
      some (s.invoke (.server i) (·.removeConnection i sockFd c))

/-- The loop is about to handle the next event of a channel. -/
def Handling (s : Owners) : Prop := s.frame = .idle ∧ s.inBatch = false

instance (s : Owners) : Decidable s.Handling := inferInstanceAs (Decidable (_ ∧ _))

/-- The channel of a connector is registered with the poller. -/
def registered (connector : Connector) : Bool :=
  (connector.channel_.map fun channel => channel.2.started_).getD false

def step (s : Owners) : OwnersEvent → Option Owners
  | .listen i => if s.Alive (.server i) then some (s.listen i) else none
  | .connect i => if s.Alive (.client i) then some (s.connect i) else none
  | .setRetry i retry =>
      if s.Alive (.client i) then some (s.setClient i { s.client i with retry_ := retry }) else none
  | .release o => if s.Alive o then some (s.release o) else none
  | .establish c => if 0 < s.user c then some (s.establish c) else none
  | .close c => if 0 < s.user c then some (s.close c) else none
  | .copy c => if 0 < s.user c then some (s.hold c) else none
  | .drop c =>
      if 0 < s.user c then some { s with user := Function.update s.user c (s.user c - 1) } else none
  | .acceptable i =>
      if s.Handling ∧ (s.server i).acceptor_.channel_.started_ = true then
        some (if (s.server i).acceptor_.accept_ then { s with frame := .accepting i } else s)
      else none
  | .accept sockFd =>
      match s.frame with
      | .accepting i =>
          match sockFd with
          | .ok sockFd => some (s.invoke (.server i) (·.onAccept i sockFd))
          | .error .EMFILE | .error .ENFILE => some s
          | .error _ => some { s with frame := .idle }
      | _ => none
  | .readable c =>
      if s.Handling ∧ c < s.made ∧ (s.conn c).started_ = true then
        some { s with frame := .reading c }
      else none
  | .recv => match s.frame with | .reading c => some (s.hold c) | _ => none
  | .again => match s.frame with | .reading _ => some { s with frame := .idle } | _ => none
  | .eof => match s.frame with | .reading c => some (s.onClose c) | _ => none
  | .hangup c =>
      if s.Handling ∧ c < s.made ∧ (s.conn c).started_ = true then some (s.onClose c) else none
  | .closed =>
      match s.frame with
      | .closing c => some ({ s with frame := .idle }.closeCallback c)
      | _ => none
  | .connected i connected =>
      if s.Handling ∧ registered (s.client i).connector_ = true then
        ((s.client i).connector_.onWrite connected).map (s.connectorActs i)
      else none
  | .swap =>
      if s.Handling then
        some { s with functors := s.pendingFunctors_, pendingFunctors_ := [], inBatch := true }
      else none
  | .functor opens result =>
      if s.frame = .idle ∧ s.inBatch = true then
        match s.functors with
        | [] => some { s with inBatch := false }
        | f :: rest => { s with functors := rest }.exec opens result f
      else none

/-! ## The condition -/

/-- The close callback of `c` can still run: it is next in `onClose`, or `c` is
open and somebody can close it. -/
def Pending (s : Owners) (c : ℕ) : Prop :=
  s.frame = .closing c ∨ ((s.conn c).close_ = false
    ∧ (0 < s.user c ∨ (s.conn c).started_ = true ∨ s.frame = .reading c
      ∨ .establishInLoop c ∈ s.queue ∨ .onClose c ∈ s.queue))

instance (s : Owners) (c : ℕ) : Decidable (s.Pending c) :=
  inferInstanceAs (Decidable (_ ∨ (_ ∧ (_ ∨ _ ∨ _ ∨ _ ∨ _))))

/-- None of the connections of an owner is pending. -/
def Settled (s : Owners) (o : Owner) : Prop := ∀ c < s.made, (s.conn c).owner = o → ¬ s.Pending c

instance (s : Owners) (o : Owner) : Decidable (s.Settled o) :=
  inferInstanceAs (Decidable (∀ c < s.made, (s.conn c).owner = o → ¬ s.Pending c))

/-- A server can be released outside of its own accept loop, while no
`removeConnection` of it is queued and none of its connections is pending; a
client while none of its connections is. -/
def Releasable (s : Owners) : Owner → Prop
  | .server i => s.frame ≠ .accepting i ∧ (∀ f ∈ s.queue, f.removes ≠ some i)
      ∧ s.Settled (.server i)
  | .client i => s.Settled (.client i)

instance (s : Owners) : (o : Owner) → Decidable (s.Releasable o)
  | .server i => inferInstanceAs (Decidable (s.frame ≠ .accepting i
      ∧ (∀ f ∈ s.queue, f.removes ≠ some i) ∧ s.Settled (.server i)))
  | .client i => inferInstanceAs (Decidable (s.Settled (.client i)))

/-- An owner is released only where it can be. -/
def ReleasesQuietly (s : Owners) : OwnersEvent → Prop
  | .release o => s.Releasable o
  | _ => True

instance (s : Owners) (e : OwnersEvent) : Decidable (s.ReleasesQuietly e) :=
  match e with
  | .release o => inferInstanceAs (Decidable (s.Releasable o))
  | .listen _ | .connect _ | .setRetry _ _ | .establish _ | .close _ | .copy _ | .drop _
  | .acceptable _ | .accept _ | .readable _ | .recv | .again | .eof | .hangup _ | .closed
  | .connected _ _ | .swap | .functor _ _ => isTrue trivial

/-! ## What the steps change -/

section Fields

variable (s : Owners)

@[simp] theorem queue_runInLoop (f : OwnerFunctor) :
    (s.runInLoop f).queue = s.queue ++ [f] := (List.append_assoc _ _ _).symm

@[simp] theorem server_setServer (i : ℕ) (server : OwnerServer) :
    (s.setServer i server).server i = server := Function.update_self ..

theorem server_setServer_of_ne {i j : ℕ} (server : OwnerServer) (h : j ≠ i) :
    (s.setServer i server).server j = s.server j := Function.update_of_ne h ..

@[simp] theorem client_setClient (i : ℕ) (client : OwnerClient) :
    (s.setClient i client).client i = client := Function.update_self ..

theorem client_setClient_of_ne {i j : ℕ} (client : OwnerClient) (h : j ≠ i) :
    (s.setClient i client).client j = s.client j := Function.update_of_ne h ..

@[simp] theorem conn_setConn (c : ℕ) (conn : OwnedConn) : (s.setConn c conn).conn c = conn :=
  Function.update_self ..

theorem conn_setConn_of_ne {c d : ℕ} (conn : OwnedConn) (h : d ≠ c) :
    (s.setConn c conn).conn d = s.conn d := Function.update_of_ne h ..

theorem user_hold {c d : ℕ} (h : 0 < (s.hold c).user d) : 0 < s.user d ∨ d = c := by
  by_cases hd : d = c
  · exact Or.inr hd
  · have hsame : (s.hold c).user d = s.user d := Function.update_of_ne hd ..
    exact Or.inl (hsame ▸ h)

/-- The connections the destructor of a server goes over are asked in turn to
close their channels. -/
theorem foldl_destroy (cs : List ℕ) : cs.foldl destroy s
    = { s with pendingFunctors_ := s.pendingFunctors_ ++ cs.map .destroyInLoop } := by
  induction cs generalizing s with
  | nil => simp only [List.foldl_nil, List.map_nil, List.append_nil]
  | cons c cs ih =>
      rw [List.foldl_cons, ih]
      simp only [destroy, runInLoop, List.map_cons, List.append_assoc, List.singleton_append]

end Fields

/-! ## The attempt of a client -/

/-- What a client and its connector keep between them, where `queued` attempts
wait in the queue. Only a client that is alive has an attempt that can succeed,
and it has one at most, and none beside a connection. -/
structure Attempt (v : OwnerClient) (queued : ℕ) : Prop where
  armed : v.connector_.connect_ = true → v.connector_.connecting_ = true ∨ 0 < queued →
    v.alive = true
  idle : v.alive = true → v.connect_ = false ∨ v.connection_ ≠ none →
    v.connector_.connecting_ = false ∧ queued = 0
  unconnected : v.alive = true → v.connect_ = false → v.connection_ = none
  once : v.alive = true → v.connector_.connecting_ = true → queued = 0
  le_one : v.alive = true → queued ≤ 1
  callback : v.connector_.connectCallback_ = true

section Attempt

variable {v : OwnerClient} {n : ℕ}

theorem Attempt.mono {m : ℕ} (h : Attempt v n) (hle : m ≤ n) : Attempt v m where
  armed := fun hconnect hor => h.armed hconnect (hor.imp_right fun hpos => lt_of_lt_of_le hpos hle)
  idle := fun halive hor => by
    obtain ⟨hconnecting, hzero⟩ := h.idle halive hor
    exact ⟨hconnecting, by omega⟩
  unconnected := h.unconnected
  once := fun halive hconnecting => by
    have := h.once halive hconnecting
    omega
  le_one := fun halive => le_trans hle (h.le_one halive)
  callback := h.callback

/-- A client that is alive has one attempt in the queue, or a connecting channel,
or a connection. -/
theorem Attempt.of_alive (halive : v.alive = true)
    (hcallback : v.connector_.connectCallback_ = true) (hconnect : v.connect_ = true) (hle : n ≤ 1)
    (hconnecting : v.connector_.connecting_ = true → n = 0 ∧ v.connection_ = none)
    (hconnection : v.connection_ ≠ none → n = 0) : Attempt v n where
  armed := fun _ _ => halive
  idle := fun _ hor => by
    rcases hor with hfalse | hsome
    · rw [hconnect] at hfalse
      cases hfalse
    · refine ⟨?_, hconnection hsome⟩
      by_contra htrue
      exact hsome (hconnecting (by simpa using htrue)).2
  unconnected := fun _ hfalse => by
    rw [hconnect] at hfalse
    cases hfalse
  once := fun _ htrue => (hconnecting htrue).1
  le_one := fun _ => hle
  callback := hcallback

/-- The attempt that is taken from the queue is the only one. -/
theorem Attempt.taken (h : Attempt v (n + 1)) (halive : v.alive = true) :
    v.connect_ = true ∧ v.connection_ = none ∧ v.connector_.connecting_ = false ∧ n = 0 := by
  have hle := h.le_one halive
  have hidle : ¬ (v.connect_ = false ∨ v.connection_ ≠ none) := fun hor => by
    have := (h.idle halive hor).2
    omega
  rw [not_or, Bool.not_eq_false, not_not] at hidle
  refine ⟨hidle.1, hidle.2, ?_, by omega⟩
  by_contra hconnecting
  have := h.once halive (by simpa using hconnecting)
  omega

/-- So is a connecting one. -/
theorem Attempt.under_way (h : Attempt v n) (halive : v.alive = true)
    (hconnecting : v.connector_.connecting_ = true) :
    v.connect_ = true ∧ v.connection_ = none ∧ n = 0 := by
  have hidle : ¬ (v.connect_ = false ∨ v.connection_ ≠ none) := fun hor => by
    rw [(h.idle halive hor).1] at hconnecting
    cases hconnecting
  rw [not_or, Bool.not_eq_false, not_not] at hidle
  exact ⟨hidle.1, hidle.2, h.once halive hconnecting⟩

/-- A client that is gone has no attempt: it had none, or it has stopped its
connector. -/
theorem Attempt.gone {connector : Connector} (h : Attempt v n)
    (hcallback : connector.connectCallback_ = v.connector_.connectCallback_)
    (hstopped : connector.connect_ = false ∨ (connector.connecting_ = false ∧ n = 0)) :
    Attempt { v with alive := false, connection_ := none, connector_ := connector } n where
  armed := fun hconnect hor => by
    rcases hstopped with hfalse | ⟨hconnecting, hzero⟩
    · simp only [hfalse, Bool.false_eq_true] at hconnect
    · simp only [hconnecting, Bool.false_eq_true, hzero, lt_irrefl, or_self] at hor
  idle := fun halive => by cases halive
  unconnected := fun halive => by cases halive
  once := fun halive => by cases halive
  le_one := fun halive => by cases halive
  callback := hcallback.trans h.callback

end Attempt

/-! ## The invariant -/

/-- The attempts of client `i` that wait in the queue. -/
def attempts (s : Owners) (i : ℕ) : ℕ := s.queue.count (.connector i .connectInLoop)

/-- The owner of `c` can be called. -/
def Owned (s : Owners) (c : ℕ) : Prop := c < s.made ∧ s.Alive (s.conn c).owner = true

/-- Everything that can still call an owner has one that is alive. -/
structure Inv (s : Owners) : Prop where
  quiet : s.dangling = []
  conns : ∀ c, s.Pending c → s.Owned c
  accept : ∀ i, (s.server i).Listening
  accepting : ∀ i, s.frame = .accepting i → (s.server i).alive = true
  removing : ∀ f ∈ s.queue, ∀ i, f.removes = some i → (s.server i).alive = true
  attempt : ∀ i, Attempt (s.client i) (s.attempts i)

theorem inv_init : Inv init where
  quiet := rfl
  conns := fun c hp => by
    rcases hp with hframe | ⟨-, huser | hstarted | hframe | hmem | hmem⟩
    · cases hframe
    · exact absurd huser (lt_irrefl 0)
    · cases hstarted
    · cases hframe
    · cases hmem
    · cases hmem
  accept := fun _ haccept => by cases haccept
  accepting := fun _ hframe => by cases hframe
  removing := fun _ hf => absurd hf List.not_mem_nil
  attempt := fun _ =>
    { armed := fun _ _ => rfl
      idle := fun _ _ => ⟨rfl, rfl⟩
      unconnected := fun _ _ => rfl
      once := fun _ _ => rfl
      le_one := fun _ => Nat.zero_le _
      callback := rfl }

section Owned

variable {s : Owners} {c : ℕ}

theorem Inv.owned_of_user (h : Inv s) (huser : 0 < s.user c) (hopen : (s.conn c).close_ = false) :
    s.Owned c := h.conns c (Or.inr ⟨hopen, Or.inl huser⟩)

theorem Inv.owned_of_started (h : Inv s) (hstarted : (s.conn c).started_ = true)
    (hopen : (s.conn c).close_ = false) : s.Owned c :=
  h.conns c (Or.inr ⟨hopen, Or.inr (Or.inl hstarted)⟩)

theorem Inv.owned_of_reading (h : Inv s) (hframe : s.frame = .reading c)
    (hopen : (s.conn c).close_ = false) : s.Owned c :=
  h.conns c (Or.inr ⟨hopen, Or.inr (Or.inr (Or.inl hframe))⟩)

theorem Inv.owned_of_queued (h : Inv s) {f : OwnerFunctor}
    (hf : f = .establishInLoop c ∨ f = .onClose c) (hmem : f ∈ s.queue)
    (hopen : (s.conn c).close_ = false) : s.Owned c := by
  refine h.conns c (Or.inr ⟨hopen, Or.inr (Or.inr (Or.inr ?_))⟩)
  rcases hf with rfl | rfl
  · exact Or.inl hmem
  · exact Or.inr hmem

end Owned

/-! ## Functors that call nobody -/

section Harmless

variable {s s' : Owners} {fs : List OwnerFunctor}

/-- Functors that call no owner, start no attempt, and neither establish nor close
a connection. A destructor queues only such. -/
def Harmless (fs : List OwnerFunctor) : Prop :=
  ∀ f ∈ fs, f.removes = none ∧ (∀ i, f ≠ .connector i .connectInLoop)
    ∧ ∀ c, f ≠ .establishInLoop c ∧ f ≠ .onClose c

theorem Harmless.append {fs gs : List OwnerFunctor} (hfs : Harmless fs) (hgs : Harmless gs) :
    Harmless (fs ++ gs) := by
  intro f hf
  rcases List.mem_append.mp hf with hf | hf
  · exact hfs f hf
  · exact hgs f hf

theorem harmless_acceptor (i : ℕ) (f : Option AcceptorFunctor) :
    Harmless (f.toList.map (.acceptor i)) := by
  intro g hg
  obtain ⟨f, -, rfl⟩ := List.mem_map.mp hg
  exact ⟨rfl, fun _ h => (by cases h), fun _ => ⟨fun h => (by cases h), fun h => by cases h⟩⟩

theorem harmless_destroy (cs : List ℕ) : Harmless (cs.map .destroyInLoop) := by
  intro g hg
  obtain ⟨c, -, rfl⟩ := List.mem_map.mp hg
  exact ⟨rfl, fun _ h => (by cases h), fun _ => ⟨fun h => (by cases h), fun h => by cases h⟩⟩

theorem harmless_connector (i : ℕ) {f : ConnectorFunctor} (hf : f ≠ .connectInLoop) :
    Harmless [.connector i f] := by
  intro g hg
  obtain rfl := List.mem_singleton.mp hg
  refine ⟨rfl, fun _ h => ?_, fun _ => ⟨fun h => (by cases h), fun h => by cases h⟩⟩
  injection h with _ h
  exact hf h

/-- Behind harmless functors as many attempts wait as before. -/
theorem Harmless.attempts (hfs : Harmless fs) (hqueue : s'.queue = s.queue ++ fs) (i : ℕ) :
    s'.attempts i = s.attempts i := by
  have hnot : OwnerFunctor.connector i .connectInLoop ∉ fs := fun hmem => (hfs _ hmem).2.1 i rfl
  rw [Owners.attempts, hqueue, List.count_append, List.count_eq_zero.mpr hnot]
  rfl

/-- And no other connections are pending. -/
theorem Harmless.pending (hfs : Harmless fs) (hqueue : s'.queue = s.queue ++ fs)
    (hframe : s'.frame = s.frame) (hconn : s'.conn = s.conn) (huser : s'.user = s.user) {c : ℕ}
    (hp : s'.Pending c) : s.Pending c := by
  unfold Pending at hp
  rw [hframe, hconn, huser, hqueue, List.mem_append, List.mem_append] at hp
  refine hp.imp_right fun hopen => ⟨hopen.1, ?_⟩
  refine hopen.2.imp_right (Or.imp_right (Or.imp_right (Or.imp ?_ ?_)))
  · exact fun hor => hor.resolve_right fun hmem => ((hfs _ hmem).2.2 c).1 rfl
  · exact fun hor => hor.resolve_right fun hmem => ((hfs _ hmem).2.2 c).2 rfl

end Harmless

/-! ## What keeps it -/

section Keep

variable {s : Owners}

/-- A change that concerns connections only. -/
theorem Inv.of_conns {s' : Owners} (h : Inv s) (hserver : s'.server = s.server)
    (hclient : s'.client = s.client) (hdangling : s'.dangling = s.dangling)
    (hframe : ∀ i, s'.frame = .accepting i → s.frame = .accepting i)
    (hremoves : ∀ f ∈ s'.queue, f.removes = none ∨ f ∈ s.queue)
    (hattempts : ∀ i, s'.attempts i ≤ s.attempts i)
    (hpending : ∀ c, s'.Pending c → s'.Owned c) : Inv s' where
  quiet := hdangling.trans h.quiet
  conns := hpending
  accept := by rw [hserver]; exact h.accept
  accepting := fun i hi => by rw [hserver]; exact h.accepting i (hframe i hi)
  removing := fun f hf i hi => by
    rw [hserver]
    rcases hremoves f hf with hnone | hmem
    · rw [hi] at hnone
      cases hnone
    · exact h.removing f hmem i hi
  attempt := fun i => by
    rw [hclient]
    exact (h.attempt i).mono (hattempts i)

/-- Functors that are gone from the queue. -/
theorem Inv.shrink {functors pending : List OwnerFunctor} (h : Inv s)
    (hsub : (functors ++ pending).Sublist s.queue) (inBatch : Bool) :
    Inv { s with functors := functors, pendingFunctors_ := pending, inBatch := inBatch } := by
  refine h.of_conns rfl rfl rfl (fun _ hi => hi) (fun f hf => Or.inr (hsub.subset hf))
    (fun i => hsub.count_le _) fun c hp => ?_
  refine h.conns c (hp.imp_right fun hopen => ⟨hopen.1, ?_⟩)
  exact hopen.2.imp_right (Or.imp_right (Or.imp_right
    (Or.imp (fun hmem => hsub.subset hmem) fun hmem => hsub.subset hmem)))

/-- A functor is queued. -/
theorem Inv.runInLoop (h : Inv s) (f : OwnerFunctor)
    (hremoves : ∀ i, f.removes = some i → (s.server i).alive = true)
    (hattempt : ∀ i, f = .connector i .connectInLoop →
      Attempt (s.client i) (s.attempts i + 1))
    (hconn : ∀ c, f = .establishInLoop c ∨ f = .onClose c → (s.conn c).close_ = false →
      s.Owned c) : Inv (s.runInLoop f) where
  quiet := h.quiet
  conns := fun c hp => by
    rcases hp with hframe | ⟨hopen, hor⟩
    · exact h.conns c (Or.inl hframe)
    · rw [queue_runInLoop, List.mem_append, List.mem_append, List.mem_singleton,
        List.mem_singleton] at hor
      -- the reasons there were before, and the new functor
      rcases hor with huser | hstarted | hframe | (hmem | heq) | hmem | heq
      · exact h.owned_of_user huser hopen
      · exact h.owned_of_started hstarted hopen
      · exact h.owned_of_reading hframe hopen
      · exact h.owned_of_queued (Or.inl rfl) hmem hopen
      · exact hconn c (Or.inl heq.symm) hopen
      · exact h.owned_of_queued (Or.inr rfl) hmem hopen
      · exact hconn c (Or.inr heq.symm) hopen
  accept := h.accept
  accepting := h.accepting
  removing := fun g hg i hi => by
    rw [queue_runInLoop, List.mem_append, List.mem_singleton] at hg
    rcases hg with hg | rfl
    · exact h.removing g hg i hi
    · exact hremoves i hi
  attempt := fun i => by
    have hcount : (s.runInLoop f).attempts i
        = s.attempts i + if f = .connector i .connectInLoop then 1 else 0 := by
      rw [attempts, queue_runInLoop, List.count_append, List.count_singleton, attempts]
      simp only [beq_iff_eq]
    rw [hcount]
    by_cases hf : f = .connector i .connectInLoop
    · rw [if_pos hf]
      exact hattempt i hf
    · rw [if_neg hf]
      exact h.attempt i

/-- Harmless functors are queued. -/
theorem Inv.queueHarmless {fs : List OwnerFunctor} (h : Inv s) (hfs : Harmless fs) :
    Inv { s with pendingFunctors_ := s.pendingFunctors_ ++ fs } := by
  have hqueue : Owners.queue { s with pendingFunctors_ := s.pendingFunctors_ ++ fs }
      = s.queue ++ fs := (List.append_assoc _ _ _).symm
  refine h.of_conns rfl rfl rfl (fun _ hi => hi) (fun f hf => ?_)
    (fun i => le_of_eq (hfs.attempts hqueue i)) fun c hp => ?_
  · rw [hqueue, List.mem_append] at hf
    exact hf.symm.imp_left fun hmem => (hfs f hmem).1
  · exact h.conns c (hfs.pending hqueue rfl rfl rfl hp)

theorem Inv.destroy (h : Inv s) (c : ℕ) : Inv (s.destroy c) :=
  h.queueHarmless (harmless_destroy [c])

/-- A server that is as alive as before, and listens while it accepts. -/
theorem Inv.setServer (h : Inv s) {i : ℕ} {server : OwnerServer}
    (halive : server.alive = (s.server i).alive) (hlisten : server.Listening) :
    Inv (s.setServer i server) := by
  have hsame : ∀ j, ((s.setServer i server).server j).alive = (s.server j).alive := by
    intro j
    by_cases hj : j = i
    · rw [hj, server_setServer, halive]
    · rw [server_setServer_of_ne s server hj]
  have hAlive : ∀ o, (s.setServer i server).Alive o = s.Alive o := by
    intro o
    cases o with
    | server j => exact hsame j
    | client j => rfl
  exact
    { quiet := h.quiet
      conns := fun c hp => by
        obtain ⟨hlt, halive'⟩ := h.conns c hp
        exact ⟨hlt, (hAlive _).trans halive'⟩
      accept := fun j => by
        by_cases hj : j = i
        · rw [hj, server_setServer]
          exact hlisten
        · rw [server_setServer_of_ne s server hj]
          exact h.accept j
      accepting := fun j hj => (hsame j).trans (h.accepting j hj)
      removing := fun f hf j hj => (hsame j).trans (h.removing f hf j hj)
      attempt := h.attempt }

/-- A client that is as alive as before, and keeps to its attempt. -/
theorem Inv.setClient (h : Inv s) {i : ℕ} {client : OwnerClient}
    (halive : client.alive = (s.client i).alive) (hattempt : Attempt client (s.attempts i)) :
    Inv (s.setClient i client) := by
  have hAlive : ∀ o, (s.setClient i client).Alive o = s.Alive o := by
    intro o
    cases o with
    | server j => rfl
    | client j =>
        by_cases hj : j = i
        · rw [Alive, Alive, hj, client_setClient, halive]
        · rw [Alive, Alive, client_setClient_of_ne s client hj]
  exact
    { quiet := h.quiet
      conns := fun c hp => by
        obtain ⟨hlt, halive'⟩ := h.conns c hp
        exact ⟨hlt, (hAlive _).trans halive'⟩
      accept := h.accept
      accepting := h.accepting
      removing := h.removing
      attempt := fun j => by
        by_cases hj : j = i
        · rw [hj, client_setClient]
          exact hattempt
        · rw [client_setClient_of_ne s client hj]
          exact h.attempt j }

/-- User code gets a pointer to a connection whose owner can be called. -/
theorem Inv.hold (h : Inv s) {c : ℕ} (hc : (s.conn c).close_ = false → s.Owned c) :
    Inv (s.hold c) := by
  refine h.of_conns rfl rfl rfl (fun _ hi => hi) (fun _ hf => Or.inr hf) (fun _ => le_refl _) ?_
  intro d hp
  rcases hp with hframe | ⟨hopen, huser | hor⟩
  · exact h.conns d (Or.inl hframe)
  · rcases user_hold s huser with huser | rfl
    · exact h.owned_of_user huser hopen
    · exact hc hopen
  · exact h.conns d (Or.inr ⟨hopen, Or.inr hor⟩)

/-- A function of the library goes on the stack, or comes off it. -/
theorem Inv.setFrame (h : Inv s) {frame : Frame}
    (haccepting : ∀ i, frame = .accepting i → (s.server i).alive = true)
    (hreading : ∀ c, frame = .reading c → (s.conn c).close_ = false → s.Owned c)
    (hclosing : ∀ c, frame = .closing c → s.Owned c) : Inv { s with frame := frame } where
  quiet := h.quiet
  conns := fun c hp => by
    rcases hp with hframe | ⟨hopen, huser | hstarted | hframe | hor⟩
    · exact hclosing c hframe
    · exact h.owned_of_user huser hopen
    · exact h.owned_of_started hstarted hopen
    · exact hreading c hframe hopen
    · exact h.conns c (Or.inr ⟨hopen, Or.inr (Or.inr (Or.inr hor))⟩)
  accept := h.accept
  accepting := haccepting
  removing := h.removing
  attempt := h.attempt

theorem Inv.idle (h : Inv s) : Inv { s with frame := .idle } :=
  h.setFrame (fun _ hi => by cases hi) (fun _ hi => by cases hi) fun _ hi => by cases hi

/-- A connection keeps its owner. -/
theorem Owned.setConn {c d : ℕ} {conn : OwnedConn} (hd : s.Owned d)
    (howner : conn.owner = (s.conn c).owner) : (s.setConn c conn).Owned d := by
  refine ⟨hd.1, ?_⟩
  by_cases hdc : d = c
  · subst hdc
    rw [conn_setConn, howner]
    exact hd.2
  · rw [conn_setConn_of_ne s conn hdc]
    exact hd.2

/-- A connection of the same owner, which is open only if it was, and whose
channel is open only where the owner can be called. -/
theorem Inv.setConn (h : Inv s) {c : ℕ} {conn : OwnedConn} (howner : conn.owner = (s.conn c).owner)
    (hclose : conn.close_ = false → (s.conn c).close_ = false)
    (hstarted : conn.close_ = false → conn.started_ = true → s.Owned c) :
    Inv (s.setConn c conn) := by
  refine h.of_conns rfl rfl rfl (fun _ hi => hi) (fun _ hf => Or.inr hf) (fun _ => le_refl _) ?_
  intro d hp
  refine Owned.setConn ?_ howner
  by_cases hdc : d = c
  · -- of the reasons to be pending only the flags of the connection are new
    subst hdc
    rcases hp with hframe | ⟨hopen, hor⟩
    · exact h.conns d (Or.inl hframe)
    · rw [conn_setConn] at hopen hor
      rcases hor with huser | hstart | hor
      · exact h.owned_of_user huser (hclose hopen)
      · exact hstarted hopen hstart
      · exact h.conns d (Or.inr ⟨hclose hopen, Or.inr (Or.inr hor)⟩)
  · unfold Pending at hp
    rw [conn_setConn_of_ne s conn hdc] at hp
    exact h.conns d hp

/-- A connection is made by an owner that is alive. -/
theorem Inv.make (h : Inv s) {o : Owner} (ho : s.Alive o = true) (sockFd : ℕ) :
    Inv (s.make o sockFd) := by
  refine h.of_conns rfl rfl rfl (fun _ hi => hi) (fun _ hf => Or.inr hf) (fun _ => le_refl _) ?_
  intro c hp
  by_cases hc : c = s.made
  · -- the new connection is the owner's, whatever it was before
    subst hc
    refine ⟨Nat.lt_succ_self _, ?_⟩
    have howner : ((s.make o sockFd).conn s.made).owner = o := by
      rw [Owners.make, Owners.hold]
      simp only [conn_setConn]
    rw [howner]
    exact ho
  · have hconn : (s.make o sockFd).conn c = s.conn c := Function.update_of_ne hc ..
    have huser : (s.make o sockFd).user c = s.user c := Function.update_of_ne hc ..
    have hp' : s.Pending c := by
      unfold Pending at hp
      rw [hconn, huser] at hp
      exact hp
    obtain ⟨hlt, halive⟩ := h.conns c hp'
    refine ⟨Nat.lt_succ_of_lt hlt, ?_⟩
    rw [hconn]
    exact halive

/-- An owner that is alive is called. -/
theorem Inv.invoke (h : Inv s) {o : Owner} {body : Owners → Owners} (ho : s.Alive o = true)
    (hbody : Inv s → Inv (body s)) : Inv (s.invoke o body) := by
  unfold Owners.invoke
  rw [if_pos ho]
  exact hbody h

/-- A client queues an attempt. -/
theorem Inv.queueAttempt (h : Inv s) {i : ℕ} {client : OwnerClient}
    (halive : client.alive = (s.client i).alive) (hattempt : Attempt client (s.attempts i + 1)) :
    Inv ((s.setClient i client).runInLoop (.connector i .connectInLoop)) := by
  refine Inv.runInLoop (h.setClient halive (hattempt.mono (Nat.le_succ _))) _
    (fun _ hi => by cases hi) (fun j hj => ?_)
    fun _ hi => by rcases hi with hi | hi <;> cases hi
  obtain rfl : i = j := by injection hj
  rw [client_setClient]
  exact hattempt

end Keep

/-! ## The functions -/

section Functions

variable {s : Owners} {i c : ℕ}

theorem Inv.listen (h : Inv s) (halive : (s.server i).alive = true) : Inv (s.listen i) := by
  unfold Owners.listen
  by_cases hlisten : (s.server i).listen_ = true
  · rw [if_pos hlisten]
    exact h
  · rw [if_neg hlisten]
    refine Inv.queueHarmless (h.setServer ?_ fun _ => ⟨rfl, ?_⟩) (harmless_acceptor i _)
    · rfl
    · exact halive

theorem Inv.onAccept (h : Inv s) (halive : (s.server i).alive = true) (sockFd : ℕ) :
    Inv (s.onAccept i sockFd) := by
  refine Inv.make (h.setServer ?_ ?_) ?_ sockFd
  · rfl
  · exact h.accept i
  · rw [Alive, server_setServer]
    exact halive

theorem Inv.removeConnection (h : Inv s) (sockFd : ℕ) : Inv (s.removeConnection i sockFd c) := by
  refine Inv.destroy (h.setServer ?_ ?_) c
  · rfl
  · exact h.accept i

theorem Inv.connect (h : Inv s) (halive : (s.client i).alive = true) : Inv (s.connect i) := by
  unfold Owners.connect
  have hattempt := h.attempt i
  by_cases hconnect : (s.client i).connect_ = true
  · rw [if_pos hconnect]
    exact h
  · rw [if_neg hconnect]
    have hfalse : (s.client i).connect_ = false := by simpa using hconnect
    have hnone := hattempt.unconnected halive hfalse
    obtain ⟨hconnecting, hzero⟩ := hattempt.idle halive (Or.inl hfalse)
    refine h.queueAttempt ?_ (Attempt.of_alive ?_ ?_ ?_ ?_ ?_ ?_)
    · rfl
    · exact halive
    · exact hattempt.callback
    · rfl
    · omega
    · exact fun htrue => absurd (hconnecting.symm.trans htrue) Bool.false_ne_true
    · exact fun hsome => absurd hnone hsome

/-- A client gets a connection in place of its attempt. -/
theorem Inv.onConnect (h : Inv s) (halive : (s.client i).alive = true)
    (hconnect : (s.client i).connect_ = true)
    (hconnecting : (s.client i).connector_.connecting_ = false) (hzero : s.attempts i = 0)
    (sockFd : ℕ) : Inv (s.onConnect i sockFd) := by
  refine Inv.make (h.setClient ?_ (Attempt.of_alive ?_ ?_ ?_ ?_ ?_ ?_)) ?_ sockFd
  · rfl
  · exact halive
  · exact (h.attempt i).callback
  · exact hconnect
  · omega
  · exact fun htrue => absurd (hconnecting.symm.trans htrue) Bool.false_ne_true
  · exact fun _ => hzero
  · rw [Alive, client_setClient]
    exact halive

theorem Inv.clientOnClose (h : Inv s) (halive : (s.client i).alive = true) :
    Inv (s.clientOnClose i c) := by
  unfold Owners.clientOnClose
  have hattempt := h.attempt i
  by_cases hsome : (s.client i).connection_ ≠ some c
  · rw [if_pos hsome]
    exact h
  · rw [if_neg hsome]
    have hne : (s.client i).connection_ ≠ none := by
      rw [not_not.mp hsome]
      exact Option.some_ne_none c
    obtain ⟨hconnecting, hzero⟩ := hattempt.idle halive (Or.inr hne)
    have hconnect : (s.client i).connect_ = true := by
      by_contra hfalse
      exact hne (hattempt.unconnected halive (by simpa using hfalse))
    have hd := h.destroy c
    -- the client had no attempt beside the connection, and has none now
    have hzero' : (s.destroy c).attempts i = 0 :=
      ((harmless_destroy [c]).attempts (queue_runInLoop _ _) i).trans hzero
    rw [hconnect, if_neg (by decide)]
    by_cases hretry : (s.client i).retry_ = true
    · -- the connection is made again
      rw [if_pos hretry]
      refine hd.queueAttempt ?_ (Attempt.of_alive ?_ ?_ ?_ ?_ ?_ ?_)
      · rfl
      · exact halive
      · exact hattempt.callback
      · rfl
      · omega
      · exact fun htrue => absurd (hconnecting.symm.trans htrue) Bool.false_ne_true
      · exact fun hnot => absurd rfl hnot
    · rw [if_neg hretry]
      refine hd.setClient rfl ?_
      rw [hzero']
      exact
        { armed := fun _ _ => halive
          idle := fun _ _ => ⟨hconnecting, rfl⟩
          unconnected := fun _ _ => rfl
          once := fun _ _ => rfl
          le_one := fun _ => Nat.zero_le 1
          callback := hattempt.callback }

/-- The functors of a connection are queued by somebody with a pointer to it. -/
theorem Inv.queueConn (h : Inv s) {f : OwnerFunctor} (hf : f = .establishInLoop c ∨ f = .onClose c)
    (huser : 0 < s.user c) : Inv (s.runInLoop f) := by
  refine h.runInLoop f (fun _ hi => ?_) (fun _ hi => ?_) fun d hd hopen => ?_
  · rcases hf with rfl | rfl <;> cases hi
  · rcases hf with rfl | rfl <;> cases hi
  · obtain rfl : d = c := by
      rcases hf with rfl | rfl <;> rcases hd with hd | hd <;> cases hd <;> rfl
    exact h.owned_of_user huser hopen

theorem Inv.establish (h : Inv s) (huser : 0 < s.user c) : Inv (s.establish c) := by
  unfold Owners.establish
  split
  · exact h
  · exact h.queueConn (Or.inl rfl) huser

theorem Inv.close (h : Inv s) (huser : 0 < s.user c) : Inv (s.close c) := by
  unfold Owners.close
  split
  · exact h
  · exact h.queueConn (Or.inr rfl) huser

theorem Inv.establishInLoop (h : Inv s) (hc : (s.conn c).close_ = false → s.Owned c) :
    Inv (s.establishInLoop c) := by
  unfold Owners.establishInLoop
  split
  · exact h
  · refine Inv.hold (h.setConn ?_ ?_ ?_) fun hopen => ?_
    · rfl
    · exact fun hopen => hopen
    · exact fun hopen _ => hc hopen
    · rw [conn_setConn] at hopen
      exact (hc hopen).setConn rfl

theorem Inv.destroyInLoop (h : Inv s) : Inv (s.destroyInLoop c) := by
  refine h.setConn ?_ ?_ ?_
  · rfl
  · exact fun hopen => hopen
  · exact fun _ hstarted => by cases hstarted

theorem Inv.onClose (h : Inv s) (hc : (s.conn c).close_ = false → s.Owned c) :
    Inv (s.onClose c) := by
  unfold Owners.onClose
  by_cases hclose : (s.conn c).close_ = true
  · rw [if_pos hclose]
    exact h.idle
  · rw [if_neg hclose]
    have howned := hc (by simpa using hclose)
    -- the connection is closed from here on, and its callback is next
    have hset : Inv (s.setConn c { s.conn c with close_ := true }) := by
      refine h.setConn ?_ ?_ ?_
      · rfl
      · exact fun hopen => by cases hopen
      · exact fun hopen => by cases hopen
    have hclosed : ((s.setConn c { s.conn c with close_ := true }).conn c).close_ = true := by
      rw [conn_setConn]
    refine Inv.setFrame (hset.hold fun hopen =>
      absurd (hopen.symm.trans hclosed) Bool.false_ne_true) ?_ ?_ ?_
    · exact fun _ hi => by cases hi
    · exact fun _ hd => by cases hd
    · intro d hd
      obtain rfl : c = d := by injection hd
      show (s.setConn c { s.conn c with close_ := true }).Owned c
      exact howned.setConn rfl

theorem Inv.closeCallback (h : Inv s) (hc : s.Owned c) : Inv (s.closeCallback c) := by
  obtain ⟨-, halive⟩ := hc
  unfold Owners.closeCallback
  cases howner : (s.conn c).owner with
  | server i =>
      -- the removal is bound to the server, which has to be alive to queue it
      rw [howner] at halive
      refine h.invoke halive fun h => h.runInLoop _ (fun j hj => ?_) (fun _ hj => by cases hj)
        fun _ hj => by rcases hj with hj | hj <;> cases hj
      obtain rfl : i = j := by injection hj
      exact halive
  | client i =>
      rw [howner] at halive
      exact h.invoke halive fun h => h.clientOnClose halive

/-- The connector of a client that is attempting hands over a descriptor. -/
theorem Inv.callback (h : Inv s) (halive : (s.client i).alive = true)
    (hconnect : (s.client i).connect_ = true)
    (hconnecting : (s.client i).connector_.connecting_ = false) (hzero : s.attempts i = 0)
    (sockFd : ℕ) : Inv (connectorAct i s (.callback sockFd)) := by
  show Inv (s.invoke (.client i) (·.onConnect i sockFd))
  exact h.invoke halive fun h => h.onConnect halive hconnect hconnecting hzero sockFd

/-- A connector with the same flags. -/
theorem Inv.setConnector (h : Inv s) {connector : Connector}
    (hconnect : connector.connect_ = (s.client i).connector_.connect_)
    (hconnecting : connector.connecting_ = (s.client i).connector_.connecting_)
    (hcallback : connector.connectCallback_ = (s.client i).connector_.connectCallback_) :
    Inv (s.setClient i { s.client i with connector_ := connector }) := by
  have hattempt := h.attempt i
  refine h.setClient rfl ?_
  exact
    { armed := by rw [hconnect, hconnecting]; exact hattempt.armed
      idle := by rw [hconnecting]; exact hattempt.idle
      unconnected := hattempt.unconnected
      once := by rw [hconnecting]; exact hattempt.once
      le_one := hattempt.le_one
      callback := hcallback.trans hattempt.callback }

/-- `connectInLoop`, where an attempt that can succeed was the one of its
client. -/
theorem Inv.connectInLoop (h : Inv s)
    (hrun : (s.client i).connector_.connect_ = true → (s.client i).alive = true
      ∧ (s.client i).connect_ = true ∧ (s.client i).connection_ = none ∧ s.attempts i = 0)
    (sockFd : Option ℕ) (result : Option Errno) :
    Inv (s.connectorActs i ((s.client i).connector_.connectInLoop sockFd result)) := by
  have hcallback := (h.attempt i).callback
  have hsame : Inv (s.setClient i { s.client i with connector_ := (s.client i).connector_ }) :=
    h.setConnector rfl rfl rfl
  rcases (s.client i).connector_.connectInLoop_cases sockFd result with
    heq | ⟨hconnect, hconnecting, fd, heq | ⟨channel, heq⟩ | heq | heq⟩
  · rw [heq]
    exact hsame
  · -- connected at once
    obtain ⟨halive, hset, -, hzero⟩ := hrun hconnect
    rw [heq, hcallback]
    refine hsame.callback ?_ ?_ ?_ hzero fd
    · rw [client_setClient]
      exact halive
    · rw [client_setClient]
      exact hset
    · rw [client_setClient]
      exact hconnecting
  · -- the attempt goes on in the background
    obtain ⟨halive, hset, hnone, hzero⟩ := hrun hconnect
    rw [heq]
    refine h.setClient ?_ (Attempt.of_alive ?_ ?_ ?_ ?_ ?_ ?_)
    · rfl
    · exact halive
    · exact hcallback
    · exact hset
    · omega
    · exact fun _ => ⟨hzero, hnone⟩
    · exact fun hsome => absurd hnone hsome
  · rw [heq]
    exact hsame
  · -- the attempt is queued again
    obtain ⟨halive, hset, hnone, hzero⟩ := hrun hconnect
    rw [heq]
    refine h.queueAttempt ?_ (Attempt.of_alive ?_ ?_ ?_ ?_ ?_ ?_)
    · rfl
    · exact halive
    · exact hcallback
    · exact hset
    · omega
    · exact fun htrue => absurd (hconnecting.symm.trans htrue) Bool.false_ne_true
    · exact fun hsome => absurd hnone hsome

/-- `Connector::onWrite`. -/
theorem Inv.onWrite (h : Inv s) {connected : Bool} {r : Connector × List ConnectorAct}
    (hr : (s.client i).connector_.onWrite connected = some r) : Inv (s.connectorActs i r) := by
  have hattempt := h.attempt i
  rcases Connector.onWrite_cases hr with rfl | ⟨hconnect, hconnecting, channel, fd, rfl⟩
  · exact h.setConnector rfl rfl rfl
  · -- the connecting channel was the attempt of its client
    have halive := hattempt.armed hconnect (Or.inl hconnecting)
    obtain ⟨hset, hnone, hzero⟩ := hattempt.under_way halive hconnecting
    obtain ⟨v, hv⟩ : ∃ v : OwnerClient, v = { s.client i with connector_ :=
        { (s.client i).connector_ with channel_ := channel, connecting_ := false } } := ⟨_, rfl⟩
    have hconnecting' : v.connector_.connecting_ = false := by rw [hv]
    have hdone : ∀ n, n ≤ 1 → Attempt v n := by
      intro n hn
      refine Attempt.of_alive ?_ ?_ ?_ hn (fun htrue => ?_) fun hsome => absurd ?_ hsome
      · rw [hv]
        exact halive
      · rw [hv]
        exact hattempt.callback
      · rw [hv]
        exact hset
      · exact absurd (hconnecting'.symm.trans htrue) Bool.false_ne_true
      · rw [hv]
        exact hnone
    -- `t` is the state before the callback, or before the next attempt is queued
    obtain ⟨t, ht⟩ : ∃ t, t = (s.setClient i v).runInLoop (.connector i .resetChannel) := ⟨_, rfl⟩
    have hclient : t.client i = v := by
      rw [ht]
      exact client_setClient s i v
    have hreset : Harmless [.connector i .resetChannel] := harmless_connector i (by decide)
    have hnum : t.attempts i = 0 := by
      rw [ht, hreset.attempts (queue_runInLoop _ _)]
      exact hzero
    have hinv : Inv t := by
      have hclient' : Inv (s.setClient i v) := by
        refine h.setClient ?_ ?_
        · rw [hv]
        · rw [hzero]
          exact hdone 0 (Nat.zero_le 1)
      rw [ht]
      exact hclient'.queueHarmless hreset
    rw [connectorActs, List.foldl_cons, ← hv]
    show Inv (List.foldl (connectorAct i) ((s.setClient i v).runInLoop _) _)
    rw [← ht]
    cases connected with
    | true =>
        -- the client gets the descriptor
        rw [hattempt.callback]
        refine hinv.callback ?_ ?_ ?_ hnum fd
        · rw [hclient, hv]
          exact halive
        · rw [hclient, hv]
          exact hset
        · rw [hclient]
          exact hconnecting'
    | false =>
        -- the client tries again
        refine hinv.runInLoop (.connector i .connectInLoop) (fun _ hi => by cases hi)
          (fun j hj => ?_) fun _ hi => by rcases hi with hi | hi <;> cases hi
        obtain rfl : i = j := by injection hj
        rw [hclient, hnum]
        exact hdone 1 (le_refl 1)

end Functions

/-! ## The destructors -/

section Destructors

variable {s : Owners} {i : ℕ}

/-- A destructor changes its own owner, and adds to the queue. -/
structure Leaves (s s' : Owners) (o : Owner) (fs : List OwnerFunctor) : Prop where
  dangling_eq : s'.dangling = s.dangling
  made_eq : s'.made = s.made
  conn_eq : s'.conn = s.conn
  user_eq : s'.user = s.user
  frame_eq : s'.frame = s.frame
  queue_eq : s'.queue = s.queue ++ fs
  server_eq : ∀ i, o ≠ .server i → s'.server i = s.server i
  client_eq : ∀ i, o ≠ .client i → s'.client i = s.client i

theorem leaves_server (s : Owners) (i : ℕ) (server : OwnerServer) (fs : List OwnerFunctor) :
    Leaves s { s.setServer i server with pendingFunctors_ := s.pendingFunctors_ ++ fs }
      (.server i) fs where
  dangling_eq := rfl
  made_eq := rfl
  conn_eq := rfl
  user_eq := rfl
  frame_eq := rfl
  queue_eq := (List.append_assoc _ _ _).symm
  server_eq := fun j hj => server_setServer_of_ne s server fun heq => hj (by rw [heq])
  client_eq := fun _ _ => rfl

theorem leaves_client (s : Owners) (i : ℕ) (client : OwnerClient) (fs : List OwnerFunctor) :
    Leaves s { s.setClient i client with pendingFunctors_ := s.pendingFunctors_ ++ fs }
      (.client i) fs where
  dangling_eq := rfl
  made_eq := rfl
  conn_eq := rfl
  user_eq := rfl
  frame_eq := rfl
  queue_eq := (List.append_assoc _ _ _).symm
  server_eq := fun _ _ => rfl
  client_eq := fun j hj => client_setClient_of_ne s client fun heq => hj (by rw [heq])

/-- An owner is gone, with nothing left that can call it. -/
theorem Inv.gone {s' : Owners} {o : Owner} {fs : List OwnerFunctor} (h : Inv s)
    (hr : s.Releasable o) (hs : Leaves s s' o fs) (hfs : Harmless fs)
    (hstopped : ∀ i, o = .server i → (s'.server i).acceptor_.accept_ = false)
    (hgone : ∀ i, o = .client i → Attempt (s'.client i) (s.attempts i)) : Inv s' := by
  obtain ⟨hdangling, hmade, hconn, huser, hframe, hqueue, hserver, hclient⟩ := hs
  have hAlive : ∀ p, p ≠ o → s'.Alive p = s.Alive p := by
    intro p hp
    cases p with
    | server j => exact congrArg OwnerServer.alive (hserver j hp.symm)
    | client j => exact congrArg OwnerClient.alive (hclient j hp.symm)
  have hsettled : s.Settled o := by
    cases o with
    | server j => exact hr.2.2
    | client j => exact hr
  exact
    { quiet := hdangling.trans h.quiet
      conns := fun c hp => by
        have hp' : s.Pending c := hfs.pending hqueue hframe hconn huser hp
        -- no connection of the owner that goes is pending
        obtain ⟨hlt, halive⟩ := h.conns c hp'
        have hne : (s.conn c).owner ≠ o := fun heq => hsettled c hlt heq hp'
        refine ⟨hmade ▸ hlt, ?_⟩
        rw [hconn, hAlive _ hne]
        exact halive
      accept := fun j => by
        by_cases hj : o = .server j
        · exact fun haccept => absurd ((hstopped j hj).symm.trans haccept) Bool.false_ne_true
        · rw [hserver j hj]
          exact h.accept j
      accepting := fun j hj => by
        rw [hframe] at hj
        have hne : o ≠ .server j := fun heq => by
          subst heq
          exact hr.1 hj
        rw [hserver j hne]
        exact h.accepting j hj
      removing := fun f hf j hj => by
        rw [hqueue, List.mem_append] at hf
        rcases hf with hf | hf
        · have hne : o ≠ .server j := fun heq => by
            subst heq
            exact hr.2.1 f hf hj
          rw [hserver j hne]
          exact h.removing f hf j hj
        · rw [(hfs f hf).1] at hj
          cases hj
      attempt := fun j => by
        rw [hfs.attempts hqueue j]
        by_cases hj : o = .client j
        · exact hgone j hj
        · rw [hclient j hj]
          exact h.attempt j }

/-- `TcpServer::~TcpServer` stops the acceptor, if it was ever started. -/
theorem Inv.destroyServer (h : Inv s) (hr : s.Releasable (.server i)) :
    Inv (s.destroyServer i) := by
  unfold Owners.destroyServer
  by_cases hlisten : (s.server i).listen_ = true
  · rw [if_pos hlisten]
    simp only [foldl_destroy]
    have hclose : (s.server i).acceptor_.close.1.accept_ = false := by
      unfold Acceptor.close
      by_cases haccept : (!(s.server i).acceptor_.accept_) = true
      · rw [if_pos haccept]
        simpa using haccept
      · rw [if_neg haccept]
    have hleaves := leaves_server s i { s.server i with
        alive := false, connections_ := ∅, acceptor_ := (s.server i).acceptor_.close.1 }
      ((s.server i).acceptor_.close.2.toList.map (.acceptor i)
        ++ (entries (s.server i).connections_).map .destroyInLoop)
    rw [← List.append_assoc] at hleaves
    refine h.gone hr hleaves ((harmless_acceptor i _).append (harmless_destroy _))
      (fun j hj => ?_) fun _ hj => by cases hj
    obtain rfl : i = j := by injection hj
    show (Function.update s.server i _ i).acceptor_.accept_ = false
    rw [Function.update_self]
    exact hclose
  · rw [if_neg hlisten]
    have hleaves := leaves_server s i { s.server i with alive := false, connections_ := ∅ } []
    rw [List.append_nil] at hleaves
    refine h.gone hr hleaves (fun _ hf => absurd hf List.not_mem_nil) (fun j hj => ?_)
      fun _ hj => by cases hj
    obtain rfl : i = j := by injection hj
    -- a server that does not listen does not accept
    rw [server_setServer]
    by_contra haccept
    exact hlisten (h.accept i (by simpa using haccept)).1

/-- `TcpClient::~TcpClient` stops the connector, or there was no attempt. -/
theorem Inv.destroyClient (h : Inv s) (halive : (s.client i).alive = true)
    (hr : s.Releasable (.client i)) : Inv (s.destroyClient i) := by
  have hattempt := h.attempt i
  -- what a client leaves behind, with the functors it queues
  have hgone : ∀ (connector : Connector) (fs : List OwnerFunctor), Harmless fs →
      connector.connectCallback_ = (s.client i).connector_.connectCallback_ →
      (connector.connect_ = false ∨ (connector.connecting_ = false ∧ s.attempts i = 0)) →
      Inv { s.setClient i { s.client i with
          alive := false, connection_ := none, connector_ := connector } with
        pendingFunctors_ := s.pendingFunctors_ ++ fs } := by
    intro connector fs hfs hcallback hstopped
    refine h.gone hr (leaves_client s i _ fs) hfs (fun _ hj => by cases hj) fun j hj => ?_
    obtain rfl : i = j := by injection hj
    refine (congrArg (Attempt · (s.attempts i)) (client_setClient s i _)).mpr ?_
    exact hattempt.gone hcallback hstopped
  unfold Owners.destroyClient
  by_cases hconnect : (s.client i).connect_ = true
  · rw [if_pos hconnect]
    cases hsome : (s.client i).connection_ with
    | some c =>
        -- beside a connection there is no attempt
        obtain ⟨hconnecting, hzero⟩ := hattempt.idle halive
          (Or.inr (by rw [hsome]; exact Option.some_ne_none c))
        exact hgone _ _ (harmless_destroy [c]) rfl (Or.inr ⟨hconnecting, hzero⟩)
    | none =>
        exact hgone (s.client i).connector_.close.1 [.connector i .closeInLoop]
          (harmless_connector i (by decide)) rfl (Or.inl rfl)
  · -- nor before the first one
    rw [if_neg hconnect]
    obtain ⟨hconnecting, hzero⟩ := hattempt.idle halive (Or.inl (by simpa using hconnect))
    have hleft := hgone (s.client i).connector_ [] (fun _ hf => absurd hf List.not_mem_nil) rfl
      (Or.inr ⟨hconnecting, hzero⟩)
    rw [List.append_nil] at hleft
    exact hleft

end Destructors

/-! ## Runs -/

section Runs

variable {s s' : Owners} {e : OwnersEvent}

/-- A functor that is run was in the queue, which is shorter by it. -/
theorem Inv.exec {f : OwnerFunctor} {rest : List OwnerFunctor} (h : Inv s)
    (hf : s.functors = f :: rest) (opens : Option ℕ) (result : Option Errno)
    (hs : Owners.exec { s with functors := rest } opens result f = some s') : Inv s' := by
  have hmem : f ∈ s.queue := by
    rw [queue, hf]
    exact List.mem_cons_self ..
  have hsub : (rest ++ s.pendingFunctors_).Sublist s.queue := by
    rw [queue, hf]
    exact List.sublist_cons_self ..
  have hpop := h.shrink hsub s.inBatch
  cases f with
  | acceptor i f =>
      cases f with
      | listenInLoop =>
          obtain rfl := Option.some.inj hs
          refine hpop.setServer rfl fun haccept => h.accept i ?_
          rwa [(Acceptor.listenInLoop_cases _).1] at haccept
      | closeInLoop =>
          obtain rfl := Option.some.inj hs
          refine hpop.setServer rfl fun haccept => h.accept i ?_
          rwa [(Acceptor.closeInLoop_cases _).1] at haccept
  | connector i f =>
      cases f with
      | connectInLoop =>
          obtain rfl := Option.some.inj hs
          refine hpop.connectInLoop (fun hconnect => ?_) opens result
          -- the attempt was in the queue, so it is the one of a client that is alive
          have hcount : s.attempts i = attempts { s with functors := rest } i + 1 := by
            rw [attempts, queue, hf, List.cons_append, List.count_cons_self]
            rfl
          have hattempt := h.attempt i
          rw [hcount] at hattempt
          have halive := hattempt.armed hconnect (Or.inr (Nat.succ_pos _))
          obtain ⟨hset, hnone, -, hzero⟩ := hattempt.taken halive
          exact ⟨halive, hset, hnone, hzero⟩
      | closeInLoop =>
          obtain ⟨r, hr, rfl⟩ := Option.map_eq_some_iff.mp hs
          unfold Connector.closeInLoop at hr
          split at hr
          · obtain rfl := Option.some.inj hr
            exact hpop.setConnector rfl rfl rfl
          · obtain ⟨channel, -, rfl⟩ := Option.map_eq_some_iff.mp hr
            exact hpop.setConnector rfl rfl rfl
      | resetChannel =>
          obtain rfl := Option.some.inj hs
          exact hpop.setConnector rfl rfl rfl
  | establishInLoop c =>
      obtain rfl := Option.some.inj hs
      exact hpop.establishInLoop fun hopen => h.owned_of_queued (Or.inl rfl) hmem hopen
  | onClose c =>
      obtain rfl := Option.some.inj hs
      exact hpop.onClose fun hopen => h.owned_of_queued (Or.inr rfl) hmem hopen
  | destroyInLoop c =>
      obtain rfl := Option.some.inj hs
      exact hpop.destroyInLoop
  | removeConnection i sockFd c =>
      obtain rfl := Option.some.inj hs
      have halive := h.removing _ hmem i rfl
      exact hpop.invoke halive fun hpop => hpop.removeConnection sockFd

/-- Every event but a release keeps the invariant, and so does a release of an
owner that can be released. -/
theorem inv_step (h : Inv s) (hC : s.ReleasesQuietly e) (hs : step s e = some s') : Inv s' := by
  cases e with
  | listen i =>
      obtain ⟨halive, rfl⟩ := Option.ite_some_none_eq_some.mp hs
      exact h.listen halive
  | connect i =>
      obtain ⟨halive, rfl⟩ := Option.ite_some_none_eq_some.mp hs
      exact h.connect halive
  | setRetry i retry =>
      obtain ⟨-, rfl⟩ := Option.ite_some_none_eq_some.mp hs
      obtain ⟨harmed, hidle, hunconnected, honce, hle, hcallback⟩ := h.attempt i
      exact h.setClient rfl ⟨harmed, hidle, hunconnected, honce, hle, hcallback⟩
  | release o =>
      obtain ⟨halive, rfl⟩ := Option.ite_some_none_eq_some.mp hs
      cases o with
      | server i => exact h.destroyServer hC
      | client i => exact h.destroyClient halive hC
  | establish c =>
      obtain ⟨huser, rfl⟩ := Option.ite_some_none_eq_some.mp hs
      exact h.establish huser
  | close c =>
      obtain ⟨huser, rfl⟩ := Option.ite_some_none_eq_some.mp hs
      exact h.close huser
  | copy c =>
      obtain ⟨huser, rfl⟩ := Option.ite_some_none_eq_some.mp hs
      exact h.hold fun hopen => h.owned_of_user huser hopen
  | drop c =>
      obtain ⟨huser, rfl⟩ := Option.ite_some_none_eq_some.mp hs
      refine h.of_conns rfl rfl rfl (fun _ hi => hi) (fun _ hf => Or.inr hf)
        (fun _ => le_refl _) fun d hp => ?_
      refine h.conns d (hp.imp_right fun hopen => ⟨hopen.1, hopen.2.imp_left fun hd => ?_⟩)
      -- with fewer pointers there are no more connections that can be closed
      by_cases hdc : d = c
      · exact hdc ▸ huser
      · simpa only [Function.update_of_ne hdc] using hd
  | acceptable i =>
      obtain ⟨-, rfl⟩ := Option.ite_some_none_eq_some.mp hs
      split
      case isTrue haccept =>
        refine h.setFrame (fun j hj => ?_) (fun _ hj => by cases hj) fun _ hj => by cases hj
        obtain rfl : i = j := by injection hj
        exact (h.accept i haccept).2
      case isFalse => exact h
  | accept sockFd =>
      simp only [step] at hs
      split at hs
      case h_2 => cases hs
      case h_1 i hframe =>
        have halive := h.accepting i hframe
        split at hs
        · obtain rfl := Option.some.inj hs
          exact h.invoke (o := .server i) halive fun h => h.onAccept halive _
        · -- without a descriptor to spare the loop goes on; any other error ends it
          exact Option.some.inj hs ▸ h
        · exact Option.some.inj hs ▸ h
        · exact Option.some.inj hs ▸ h.idle
  | readable c =>
      obtain ⟨⟨-, -, hstarted⟩, rfl⟩ := Option.ite_some_none_eq_some.mp hs
      refine h.setFrame (fun _ hi => by cases hi) (fun d hd hopen => ?_) fun _ hd => by cases hd
      obtain rfl : c = d := by injection hd
      exact h.owned_of_started hstarted hopen
  | recv =>
      simp only [step] at hs
      split at hs
      case h_2 => cases hs
      case h_1 c hframe =>
        obtain rfl := Option.some.inj hs
        exact h.hold fun hopen => h.owned_of_reading hframe hopen
  | again =>
      simp only [step] at hs
      split at hs
      case h_2 => cases hs
      case h_1 => exact Option.some.inj hs ▸ h.idle
  | eof =>
      simp only [step] at hs
      split at hs
      case h_2 => cases hs
      case h_1 c hframe =>
        obtain rfl := Option.some.inj hs
        exact h.onClose fun hopen => h.owned_of_reading hframe hopen
  | hangup c =>
      obtain ⟨⟨-, -, hstarted⟩, rfl⟩ := Option.ite_some_none_eq_some.mp hs
      exact h.onClose fun hopen => h.owned_of_started hstarted hopen
  | closed =>
      simp only [step] at hs
      split at hs
      case h_2 => cases hs
      case h_1 c hframe =>
        obtain rfl := Option.some.inj hs
        exact h.idle.closeCallback (h.conns c (Or.inl hframe))
  | connected i connected =>
      obtain ⟨-, hs⟩ := Option.ite_none_right_eq_some.mp hs
      obtain ⟨r, hr, rfl⟩ := Option.map_eq_some_iff.mp hs
      exact h.onWrite hr
  | swap =>
      obtain ⟨-, rfl⟩ := Option.ite_some_none_eq_some.mp hs
      refine h.shrink ?_ true
      rw [List.append_nil]
      exact List.sublist_append_right _ _
  | functor opens result =>
      obtain ⟨-, hs⟩ := Option.ite_none_right_eq_some.mp hs
      split at hs
      · obtain rfl := Option.some.inj hs
        exact h.shrink (List.Sublist.refl _) false
      case h_2 f rest hfunctors => exact h.exec hfunctors opens result hs

/-- **No callback reaches a destroyed owner** along a run in which every owner
is released where it can be: a server outside of its own accept loop, while no
`removeConnection` of it is queued and none of its connections can run its close
callback any more, and a client while none of its connections can. -/
theorem owners_quiet {es : List OwnersEvent} (hC : Along step ReleasesQuietly init es) :
    Throughout step (fun s => s.dangling = []) init es :=
  throughout_of_along (fun _ h => h.quiet) (fun _ _ _ h hC hs => inv_step h hC hs) hC inv_init

/-- A connection of a server is established, closed by its peer and removed,
and the server is released when that is done. -/
theorem owners_quiet_removed :
    Throughout step (fun s => s.dangling = []) init
      [.listen 0, .swap, .functor none none, .functor none none, .acceptable 0, .accept (.ok 5),
        .accept (.error .EAGAIN), .establish 0, .swap, .functor none none, .functor none none,
        .hangup 0, .closed, .swap, .functor none none, .release (.server 0)] :=
  owners_quiet (by decide +kernel)

/-- A server is released in its own connect callback while a connection is still
to be accepted; and another while the user has a pointer to a connection of it,
which is closed afterwards. -/
theorem server_released :
    ¬ Throughout step (fun s => s.dangling = []) init
        [.listen 0, .swap, .functor none none, .functor none none, .acceptable 0, .accept (.ok 5),
          .release (.server 0), .accept (.ok 6)]
      ∧ ¬ Throughout step (fun s => s.dangling = []) init
        [.listen 0, .swap, .functor none none, .functor none none, .acceptable 0, .accept (.ok 5),
          .accept (.error .EAGAIN), .release (.server 0), .close 0, .swap, .functor none none,
          .functor none none, .functor none none, .closed] := by
  have hlast : ∀ es, (run step init es).map Owners.dangling = some [.server 0] →
      ¬ Throughout step (fun s => s.dangling = []) init es := by
    intro es heval h
    obtain ⟨s, hrun, hs⟩ := Option.map_eq_some_iff.mp heval
    have hnil := throughout_last step h hrun
    rw [hnil] at hs
    cases hs
  exact ⟨hlast _ (by decide +kernel), hlast _ (by decide +kernel)⟩

end Runs

end Owners

end Libiak.Net
