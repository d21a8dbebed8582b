/-
Who holds a `TcpConnection`: `net/TcpConnection.cpp` with its owners
`net/TcpServer.cpp` and `net/TcpClient.cpp`, over any number of event loops.

A connection lives as long as somebody holds a strong pointer to it. The holders
are the user's `TcpConnectionPtr`s, the entry of `TcpServer::connections_` or the
field `TcpClient::connection_`, and the functors that capture
`shared_from_this()` or the pointer itself: in a queue, in the vector of the
batch a loop is running, where the ones that have run stay until the batch is
over, or in the hands of a thread that has not pushed yet. `Held` is the
disjunction of these. The functor of `sendPack` binds `this` and holds nothing.

Every event is one thread's doing between two points where others can see it. A
call of a public function is two: its tests of `close_` and `establish_`, and
its push. `TcpConnection::onClose` is one: between the store to `close_` and the
push of the close callback nothing reads `close_` but to do nothing.

Connections are named by how many were made before; descriptors are the kernel's
numbers, which come back once they are closed.
-/
import Libiak.Run
import Mathlib.Data.Fintype.Basic
import Mathlib.Data.List.AList
import Mathlib.Tactic.Tauto

set_option autoImplicit false

namespace Libiak.Net

open Libiak.Run

/-- The functors that name a connection. -/
inductive RefFunctor where
  | establishInLoop (connection : ℕ)
  | shutdownInLoop (connection : ℕ)
  | onClose (connection : ℕ)
  | destroyInLoop (connection : ℕ)
  | send (connection : ℕ)
  | removeConnection (sockFd connection : ℕ)
  deriving DecidableEq

/-- What `closeCallback_` is: `TcpServer::onClose` with the descriptor it was
bound to, or `TcpClient::onClose`. -/
inductive CloseCallback where
  | ofServer (sockFd : ℕ)
  | ofClient
  deriving DecidableEq

/-- A `TcpConnection`, as far as its life depends on it. `started_` is its
channel's. -/
structure RefConn (ι : Type*) where
  loop_ : ι
  sockFd_ : ℕ
  establish_ : Bool
  close_ : Bool
  started_ : Bool
  closeCallback_ : CloseCallback

/-- The queue of an `EventLoop`, and the vector of `doPendingFunctors`: `ran` is
the part of it that the `for` is past. -/
structure RefLoop where
  pendingFunctors_ : List RefFunctor
  functors : List RefFunctor
  ran : List RefFunctor
  inBatch : Bool

/-- A server, the clients, and the connections. `connection_ c` says that the
client of connection `c` has it in its field, `user c` counts the user's
pointers to `c`, and `callers` are the calls past their tests, each with the
pointer its thread called through. `closeCallbacks` is history: how often
`closeCallback_` was run. -/
structure ConnRefs (ι : Type*) where
  loopThreadPool_ : Option (List ι)
  indexLoop_ : ℕ
  connections_ : AList fun _ : ℕ => ℕ
  connection_ : ℕ → Bool
  made : ℕ
  conn : ℕ → RefConn ι
  user : ℕ → ℕ
  callers : List RefFunctor
  loops : ι → RefLoop
  closeCallbacks : ℕ → ℕ

/-- What can happen next. `hangup` is the end of a connection as its loop sees
it, a hang-up or a read of length zero; `callback` is any of the other callbacks
that hand a pointer to the user. -/
inductive RefEvent (ι : Type*) where
  | setEventLoopThreadPool (pool : Option (List ι))
  | accept (sockFd : ℕ)
  | connect (loop : ι) (sockFd : ℕ)
  | copy (connection : ℕ)
  | drop (connection : ℕ)
  | callback (connection : ℕ)
  | hangup (connection : ℕ)
  | call (functor : RefFunctor)
  | push (caller : ℕ)
  | swap (loop : ι)
  | run (loop : ι)
  deriving DecidableEq

namespace RefFunctor

/-- The connection a functor is about. -/
def conn : RefFunctor → ℕ
  | .establishInLoop c | .shutdownInLoop c | .onClose c | .destroyInLoop c | .send c
  | .removeConnection _ c => c

/-- The connection a functor holds. -/
def holds : RefFunctor → Option ℕ
  | .send _ => none
  | f => some f.conn

theorem holds_conn {f : RefFunctor} {c : ℕ} (h : f.holds = some c) : f.conn = c := by
  cases f with
  | send _ => exact absurd h (by simp [holds])
  | _ => exact Option.some.inj h

end RefFunctor

namespace RefLoop

/-- Outside of `doPendingFunctors` there is no vector. -/
def Idle (loop : RefLoop) : Prop := loop.inBatch = false → loop.functors = [] ∧ loop.ran = []

theorem Idle.pop {loop : RefLoop} (h : loop.Idle) {f : RefFunctor} {rest ran : List RefFunctor}
    (hfunctors : loop.functors = f :: rest) :
    Idle { loop with functors := rest, ran := ran } := by
  intro hbatch
  have hnil := (h hbatch).1
  rw [hfunctors] at hnil
  cases hnil

end RefLoop

namespace ConnRefs

variable {ι : Type*}

/-- A server on `loop` without connections. -/
def init (loop : ι) : ConnRefs ι :=
  { loopThreadPool_ := none, indexLoop_ := 0, connections_ := ∅, connection_ := fun _ => false
    made := 0
    conn := fun _ =>
      { loop_ := loop, sockFd_ := 0, establish_ := false, close_ := false, started_ := false
        closeCallback_ := .ofClient }
    user := fun _ => 0, callers := []
    loops := fun _ => { pendingFunctors_ := [], functors := [], ran := [], inBatch := false }
    closeCallbacks := fun _ => 0 }

/-- What waits on a loop to be run. -/
def waiting (s : ConnRefs ι) (l : ι) : List RefFunctor :=
  (s.loops l).functors ++ (s.loops l).pendingFunctors_

/-! ## Strong pointers -/

/-- A thread has a pointer to `c`, as the user's or to call through. -/
def UserHeld (s : ConnRefs ι) (c : ℕ) : Prop := 0 < s.user c ∨ ∃ f ∈ s.callers, f.conn = c

/-- The owner has a pointer to `c`, in its map or in its field. -/
def OwnerHeld (s : ConnRefs ι) (c : ℕ) : Prop :=
  (∃ entry ∈ s.connections_.entries, entry.2 = c) ∨ s.connection_ c = true

/-- A functor on one of the loops has a pointer to `c`. -/
def LoopHeld (s : ConnRefs ι) (c : ℕ) : Prop :=
  ∃ l, ∃ f ∈ s.waiting l ++ (s.loops l).ran, f.holds = some c

/-- Somebody has a pointer to `c`: it has not been destroyed. -/
def Held (s : ConnRefs ι) (c : ℕ) : Prop := s.UserHeld c ∨ s.OwnerHeld c ∨ s.LoopHeld c

instance (s : ConnRefs ι) (c : ℕ) : Decidable (s.UserHeld c) :=
  inferInstanceAs (Decidable (_ ∨ ∃ f ∈ s.callers, f.conn = c))

instance (s : ConnRefs ι) (c : ℕ) : Decidable (s.OwnerHeld c) :=
  inferInstanceAs (Decidable ((∃ entry ∈ s.connections_.entries, entry.2 = c) ∨ _))

instance [Fintype ι] (s : ConnRefs ι) (c : ℕ) : Decidable (s.LoopHeld c) :=
  inferInstanceAs (Decidable (∃ l, ∃ f ∈ s.waiting l ++ (s.loops l).ran, f.holds = some c))

instance [Fintype ι] (s : ConnRefs ι) (c : ℕ) : Decidable (s.Held c) :=
  inferInstanceAs (Decidable (_ ∨ _ ∨ _))

/-- An entry of the map is an owner's pointer. -/
theorem held_of_lookup {s : ConnRefs ι} {fd c : ℕ} (h : s.connections_.lookup fd = some c) :
    s.Held c :=
  Or.inr (Or.inl (Or.inl ⟨⟨fd, c⟩, AList.mem_lookup_iff.mp h, rfl⟩))

/-! ## The functions of the source -/

variable [DecidableEq ι]

/-- The state with another state of loop `l`. -/
def setLoop (s : ConnRefs ι) (l : ι) (loop : RefLoop) : ConnRefs ι :=
  { s with loops := Function.update s.loops l loop }

/-- The state with another state of connection `c`. -/
def setConn (s : ConnRefs ι) (c : ℕ) (conn : RefConn ι) : ConnRefs ι :=
  { s with conn := Function.update s.conn c conn }

/-- The user gets one more pointer to `c`. -/
def hold (s : ConnRefs ι) (c : ℕ) : ConnRefs ι :=
  { s with user := Function.update s.user c (s.user c + 1) }

/-- The user gives up a pointer to `c`. -/
def release (s : ConnRefs ι) (c : ℕ) : ConnRefs ι :=
  { s with user := Function.update s.user c (s.user c - 1) }

/-- `EventLoop::runInLoop`. -/
def runInLoop (s : ConnRefs ι) (l : ι) (f : RefFunctor) : ConnRefs ι :=
  s.setLoop l { s.loops l with pendingFunctors_ := (s.loops l).pendingFunctors_ ++ [f] }

/-- `TcpConnection::destroy`. -/
def destroy (s : ConnRefs ι) (c : ℕ) : ConnRefs ι :=
  s.runInLoop (s.conn c).loop_ (.destroyInLoop c)

/-- `TcpConnection::make` and `setCloseCallback`, with a pointer for the owner's
connect callback. -/
def make (s : ConnRefs ι) (l : ι) (sockFd : ℕ) (callback : CloseCallback) : ConnRefs ι :=
  { s.setConn s.made
      { loop_ := l, sockFd_ := sockFd, establish_ := false, close_ := false, started_ := false
        closeCallback_ := callback } with
    made := s.made + 1 }.hold s.made

/-- The loop of the next connection, and the new `indexLoop_`; without a value for
a pool of no loops, where `%=` divides by zero. -/
def nextLoop (base : ι) (s : ConnRefs ι) : Option (ι × ℕ) :=
  match s.loopThreadPool_ with
  | none => some (base, s.indexLoop_)
  | some loops =>
      let index := (s.indexLoop_ + 1) % loops.length
      loops[index]?.map fun l => (l, index)

/-- `TcpServer::onAccept`, on the loop `base` of the server. -/
def onAccept (base : ι) (s : ConnRefs ι) (sockFd : ℕ) : Option (ConnRefs ι) :=
  (s.nextLoop base).map fun (l, index) =>
    { { s with indexLoop_ := index }.make l sockFd (.ofServer sockFd) with
      connections_ := s.connections_.insert sockFd s.made }

/-- `TcpClient::onConnect`. -/
def onConnect (s : ConnRefs ι) (l : ι) (sockFd : ℕ) : ConnRefs ι :=
  { s.make l sockFd .ofClient with connection_ := Function.update s.connection_ s.made true }

/-- `TcpServer::onClose`. -/
def serverOnClose (base : ι) (s : ConnRefs ι) (sockFd c : ℕ) : ConnRefs ι :=
  s.runInLoop base (.removeConnection sockFd c)

/-- `TcpClient::onClose`, as far as the connection is concerned. -/
def clientOnClose (s : ConnRefs ι) (c : ℕ) : ConnRefs ι :=
  if s.connection_ c then
    { s.destroy c with connection_ := Function.update s.connection_ c false }
  else s

/-- `TcpServer::removeConnection`. -/
def removeConnection (s : ConnRefs ι) (sockFd c : ℕ) : ConnRefs ι :=
  { s with connections_ := s.connections_.erase sockFd }.destroy c

/-- `TcpConnection::closeCallback_`. -/
def closeCallback (base : ι) (s : ConnRefs ι) (c : ℕ) : ConnRefs ι :=
  match (s.conn c).closeCallback_ with
  | .ofServer sockFd => s.serverOnClose base sockFd c
  | .ofClient => s.clientOnClose c

/-- `TcpConnection::onClose` up to the close callback: the flag, and a pointer for
`disconnectCallback_`. -/
def closing (s : ConnRefs ι) (c : ℕ) : ConnRefs ι :=
  { (s.setConn c { s.conn c with close_ := true }).hold c with
    closeCallbacks := Function.update s.closeCallbacks c (s.closeCallbacks c + 1) }

/-- `TcpConnection::onClose`. -/
def onClose (base : ι) (s : ConnRefs ι) (c : ℕ) : ConnRefs ι :=
  if (s.conn c).close_ then s else (s.closing c).closeCallback base c

/-- `TcpConnection::establishInLoop`, with a pointer for `connectCallback_`. -/
def establishInLoop (s : ConnRefs ι) (c : ℕ) : ConnRefs ι :=
  if (s.conn c).establish_ then s
  else (s.setConn c { s.conn c with establish_ := true, started_ := true }).hold c

/-- `TcpConnection::destroyInLoop`. -/
def destroyInLoop (s : ConnRefs ι) (c : ℕ) : ConnRefs ι :=
  s.setConn c { s.conn c with started_ := false }

/-- The public functions of a connection by the functor they queue, and their
tests. -/
def admits (s : ConnRefs ι) : RefFunctor → Bool
  | .establishInLoop c => !(s.conn c).close_ && !(s.conn c).establish_
  | .shutdownInLoop c | .onClose c | .send c => !(s.conn c).close_
  | .destroyInLoop _ | .removeConnection _ _ => false

/-! ## What the steps change -/

section Fields

variable (s : ConnRefs ι)

@[simp] theorem loops_setLoop (l : ι) (loop : RefLoop) : (s.setLoop l loop).loops l = loop := by
  simp only [setLoop, Function.update_self]

theorem loops_setLoop_of_ne {l l' : ι} (loop : RefLoop) (h : l' ≠ l) :
    (s.setLoop l loop).loops l' = s.loops l' := by
  simp only [setLoop, Function.update_of_ne h]

@[simp] theorem waiting_setLoop (l : ι) (loop : RefLoop) :
    (s.setLoop l loop).waiting l = loop.functors ++ loop.pendingFunctors_ := by
  unfold waiting
  rw [loops_setLoop]

theorem waiting_setLoop_of_ne {l l' : ι} (loop : RefLoop) (h : l' ≠ l) :
    (s.setLoop l loop).waiting l' = s.waiting l' := by
  unfold waiting
  rw [loops_setLoop_of_ne s loop h]

/-- A push adds its functor to the end of one queue. -/
theorem pending_runInLoop {l l' : ι} {f g : RefFunctor}
    (h : g ∈ ((s.runInLoop l f).loops l').pendingFunctors_) :
    g ∈ (s.loops l').pendingFunctors_ ∨ (l' = l ∧ g = f) := by
  unfold runInLoop at h
  by_cases hl : l' = l
  · subst hl
    rw [loops_setLoop] at h
    exact (List.mem_append.mp h).imp_right fun hg => ⟨rfl, List.mem_singleton.mp hg⟩
  · rw [loops_setLoop_of_ne s _ hl] at h
    exact Or.inl h

@[simp] theorem functors_runInLoop (l l' : ι) (f : RefFunctor) :
    ((s.runInLoop l f).loops l').functors = (s.loops l').functors := by
  unfold runInLoop
  by_cases hl : l' = l
  · rw [hl, loops_setLoop]
  · rw [loops_setLoop_of_ne s _ hl]

omit [DecidableEq ι] in
@[simp] theorem conn_setConn (c : ℕ) (conn : RefConn ι) : (s.setConn c conn).conn c = conn := by
  simp only [setConn, Function.update_self]

omit [DecidableEq ι] in
theorem conn_setConn_of_ne {c c' : ℕ} (conn : RefConn ι) (h : c' ≠ c) :
    (s.setConn c conn).conn c' = s.conn c' := by
  simp only [setConn, Function.update_of_ne h]

omit [DecidableEq ι] in
/-- What a new state of `c` agrees in with the old one, it leaves as it is for
all connections. -/
theorem setConn_keeps {β : Type*} (get : RefConn ι → β) {c : ℕ} (conn : RefConn ι)
    (h : get conn = get (s.conn c)) (c' : ℕ) :
    get ((s.setConn c conn).conn c') = get (s.conn c') := by
  by_cases hc : c' = c
  · rw [hc, conn_setConn, h]
  · rw [conn_setConn_of_ne s conn hc]

omit [DecidableEq ι] in
theorem conn_closing (c : ℕ) : (s.closing c).conn c = { s.conn c with close_ := true } :=
  s.conn_setConn c _

omit [DecidableEq ι] in
theorem conn_closing_of_ne {c c' : ℕ} (h : c' ≠ c) : (s.closing c).conn c' = s.conn c' :=
  s.conn_setConn_of_ne _ h

/-- What `onClose` comes to. -/
theorem onClose_cases (base : ι) (c : ℕ) :
    s.onClose base c = s
      ∨ ((s.conn c).close_ = false
        ∧ ((∃ fd, (s.conn c).closeCallback_ = .ofServer fd
            ∧ s.onClose base c = (s.closing c).serverOnClose base fd c)
          ∨ ((s.conn c).closeCallback_ = .ofClient
            ∧ s.onClose base c = (s.closing c).clientOnClose c))) := by
  unfold onClose
  split
  case isTrue => exact Or.inl rfl
  case isFalse hopen =>
    -- the callback is that of the state before the flag was set
    refine Or.inr ⟨by simpa using hopen, ?_⟩
    have hcallback : ((s.closing c).conn c).closeCallback_ = (s.conn c).closeCallback_ := by
      rw [conn_closing]
    unfold closeCallback
    rw [hcallback]
    cases hcb : (s.conn c).closeCallback_ with
    | ofServer fd => exact Or.inl ⟨fd, rfl, rfl⟩
    | ofClient => exact Or.inr ⟨rfl, rfl⟩

end Fields

/-! ## Steps -/

variable [Fintype ι]

/-- A functor is run. That of a destroyed connection is undefined behaviour; only
`send` can be one. -/
def exec (base : ι) (s : ConnRefs ι) : RefFunctor → Option (ConnRefs ι)
  | .establishInLoop c => some (s.establishInLoop c)
  | .shutdownInLoop _ => some s
  | .onClose c => some (s.onClose base c)
  | .destroyInLoop c => some (s.destroyInLoop c)
  | .send c => if s.Held c then some s else none
  | .removeConnection sockFd c => some (s.removeConnection sockFd c)

/-- The loop of `c` handles the events of its channel. The poller reports none of
a channel that is not registered, and none of a descriptor that is closed. -/
def Handling (s : ConnRefs ι) (c : ℕ) : Prop :=
  c < s.made ∧ (s.conn c).started_ = true ∧ (s.loops (s.conn c).loop_).inBatch = false ∧ s.Held c

instance (s : ConnRefs ι) (c : ℕ) : Decidable (s.Handling c) :=
  inferInstanceAs (Decidable (_ ∧ _ ∧ _ ∧ _))

def step (base : ι) (s : ConnRefs ι) : RefEvent ι → Option (ConnRefs ι)
  | .setEventLoopThreadPool pool => some { s with loopThreadPool_ := pool }
  | .accept sockFd => if (s.loops base).inBatch then none else s.onAccept base sockFd
  | .connect l sockFd => some (s.onConnect l sockFd)
  | .copy c => if 0 < s.user c then some (s.hold c) else none
  | .drop c => if 0 < s.user c then some (s.release c) else none
  | .callback c => if s.Handling c then some (s.hold c) else none
  | .hangup c => if s.Handling c then some (s.onClose base c) else none
  | .call f =>
      if 0 < s.user f.conn ∧ s.admits f = true then
        some { s.release f.conn with callers := s.callers ++ [f] }
      else none
  | .push i =>
      s.callers[i]?.map fun f =>
        ({ s with callers := s.callers.eraseIdx i }.hold f.conn).runInLoop (s.conn f.conn).loop_ f
  | .swap l =>
      let loop := s.loops l
      if loop.inBatch then none
      else some (s.setLoop l
        { pendingFunctors_ := [], functors := loop.pendingFunctors_, ran := [], inBatch := true })
  | .run l =>
      let loop := s.loops l
      if loop.inBatch then
        match loop.functors with
        | f :: rest =>
            exec base (s.setLoop l { loop with functors := rest, ran := loop.ran ++ [f] }) f
        | [] => some (s.setLoop l { loop with ran := [], inBatch := false })
      else none

/-- What a step comes to, with what its test has found. -/
inductive Move (base : ι) (s : ConnRefs ι) : RefEvent ι → ConnRefs ι → Prop
  | setEventLoopThreadPool (pool : Option (List ι)) :
      Move base s (.setEventLoopThreadPool pool) { s with loopThreadPool_ := pool }
  | accept {fd : ℕ} {t : ConnRefs ι} (h : s.onAccept base fd = some t) :
      Move base s (.accept fd) t
  | connect (l : ι) (fd : ℕ) : Move base s (.connect l fd) (s.onConnect l fd)
  | copy {c : ℕ} (h : 0 < s.user c) : Move base s (.copy c) (s.hold c)
  | drop {c : ℕ} (h : 0 < s.user c) : Move base s (.drop c) (s.release c)
  | callback {c : ℕ} (h : s.Handling c) : Move base s (.callback c) (s.hold c)
  | hangup {c : ℕ} (h : s.Handling c) : Move base s (.hangup c) (s.onClose base c)
  | call {f : RefFunctor} (h : 0 < s.user f.conn) (hadmits : s.admits f = true) :
      Move base s (.call f) { s.release f.conn with callers := s.callers ++ [f] }
  | push {i : ℕ} {f : RefFunctor} (h : s.callers[i]? = some f) :
      Move base s (.push i)
        (({ s with callers := s.callers.eraseIdx i }.hold f.conn).runInLoop
          (s.conn f.conn).loop_ f)
  | swap {l : ι} (h : (s.loops l).inBatch = false) :
      Move base s (.swap l) (s.setLoop l
        { pendingFunctors_ := [], functors := (s.loops l).pendingFunctors_, ran := []
          inBatch := true })
  | run {l : ι} {f : RefFunctor} {rest : List RefFunctor} {t : ConnRefs ι}
      (h : (s.loops l).functors = f :: rest)
      (hexec : (s.setLoop l { s.loops l with
        functors := rest, ran := (s.loops l).ran ++ [f] }).exec base f = some t) :
      Move base s (.run l) t
  | finish {l : ι} (h : (s.loops l).functors = []) :
      Move base s (.run l) (s.setLoop l
        { s.loops l with functors := [], ran := [], inBatch := false })

theorem move_of_step {base : ι} {s t : ConnRefs ι} {e : RefEvent ι}
    (hs : step base s e = some t) : Move base s e t := by
  cases e with
  | setEventLoopThreadPool pool => exact Option.some.inj hs ▸ .setEventLoopThreadPool pool
  | accept fd =>
      change (if _ then _ else _) = some t at hs
      split at hs
      · cases hs
      · exact .accept hs
  | connect l fd => exact Option.some.inj hs ▸ .connect l fd
  | copy c =>
      obtain ⟨h, ht⟩ := Option.ite_none_right_eq_some.mp hs
      exact Option.some.inj ht ▸ .copy h
  | drop c =>
      obtain ⟨h, ht⟩ := Option.ite_none_right_eq_some.mp hs
      exact Option.some.inj ht ▸ .drop h
  | callback c =>
      obtain ⟨h, ht⟩ := Option.ite_none_right_eq_some.mp hs
      exact Option.some.inj ht ▸ .callback h
  | hangup c =>
      obtain ⟨h, ht⟩ := Option.ite_none_right_eq_some.mp hs
      exact Option.some.inj ht ▸ .hangup h
  | call f =>
      obtain ⟨h, ht⟩ := Option.ite_none_right_eq_some.mp hs
      exact Option.some.inj ht ▸ .call h.1 h.2
  | push i =>
      obtain ⟨f, hf, rfl⟩ := Option.map_eq_some_iff.mp hs
      exact .push hf
  | swap l =>
      obtain ⟨h, ht⟩ := Option.ite_none_left_eq_some.mp hs
      exact Option.some.inj ht ▸ .swap (by simpa using h)
  | run l =>
      obtain ⟨-, hrun⟩ := Option.ite_none_right_eq_some.mp hs
      cases hfunctors : (s.loops l).functors with
      | nil =>
          rw [hfunctors] at hrun
          exact Option.some.inj hrun ▸ .finish hfunctors
      | cons f rest =>
          rw [hfunctors] at hrun
          exact .run hfunctors hrun

/-- What is assumed of the kernel: a new descriptor is none of a connection that
has not been destroyed, which is what closes it. -/
def Kernel (s : ConnRefs ι) : RefEvent ι → Prop
  | .accept sockFd | .connect _ sockFd => ∀ c < s.made, s.Held c → (s.conn c).sockFd_ ≠ sockFd
  | _ => True

instance (s : ConnRefs ι) : (e : RefEvent ι) → Decidable (Kernel s e)
  | .accept sockFd => inferInstanceAs (Decidable (∀ c < s.made, s.Held c → _ ≠ sockFd))
  | .connect _ sockFd => inferInstanceAs (Decidable (∀ c < s.made, s.Held c → _ ≠ sockFd))
  | .setEventLoopThreadPool _ | .copy _ | .drop _ | .callback _ | .hangup _ | .call _ | .push _
  | .swap _ | .run _ => isTrue trivial

/-! ## Destroyed for good -/

section Destroyed

variable {base : ι} {s t : ConnRefs ι} {c : ℕ}

omit [Fintype ι]

theorem LoopHeld.of_setLoop {l : ι} {loop : RefLoop} (h : (s.setLoop l loop).LoopHeld c) :
    s.LoopHeld c
      ∨ ∃ f ∈ loop.functors ++ loop.pendingFunctors_ ++ loop.ran, f.holds = some c := by
  obtain ⟨l', f, hf, hc⟩ := h
  by_cases hl : l' = l
  · rw [hl, waiting_setLoop, loops_setLoop] at hf
    exact Or.inr ⟨f, hf, hc⟩
  · rw [waiting_setLoop_of_ne s loop hl, loops_setLoop_of_ne s loop hl] at hf
    exact Or.inl ⟨l', f, hf, hc⟩

/-- A loop whose functors hold what they held before. -/
theorem Held.of_setLoop {l : ι} {loop : RefLoop} (h : (s.setLoop l loop).Held c)
    (hsub : ∀ f ∈ loop.functors ++ loop.pendingFunctors_ ++ loop.ran,
      f ∈ s.waiting l ++ (s.loops l).ran) : s.Held c := by
  refine h.imp_right (Or.imp_right fun hloop => ?_)
  rcases hloop.of_setLoop with hold | ⟨f, hf, hc⟩
  · exact hold
  · exact ⟨l, f, hsub f hf, hc⟩

theorem Held.of_runInLoop {l : ι} {f : RefFunctor} (h : (s.runInLoop l f).Held c)
    (hf : f.holds = some c → s.Held c) : s.Held c := by
  rcases h with huser | howner | hloop
  · exact Or.inl huser
  · exact Or.inr (Or.inl howner)
  · rcases hloop.of_setLoop with hold | ⟨g, hg, hc⟩
    · exact Or.inr (Or.inr hold)
    · simp only [List.mem_append, List.mem_singleton] at hg
      rcases hg with (hfun | hpend | rfl) | hran
      · exact Or.inr (Or.inr ⟨l, g, by simp [waiting, hfun], hc⟩)
      · exact Or.inr (Or.inr ⟨l, g, by simp [waiting, hpend], hc⟩)
      · exact hf hc
      · exact Or.inr (Or.inr ⟨l, g, by simp [hran], hc⟩)

omit [DecidableEq ι]

theorem Held.of_hold {c' : ℕ} (h : (s.hold c').Held c) (hc' : c = c' → s.Held c) : s.Held c := by
  by_cases heq : c = c'
  · exact hc' heq
  · refine h.imp_left (Or.imp_left fun hpos => ?_)
    have hpos : 0 < Function.update s.user c' (s.user c' + 1) c := hpos
    rwa [Function.update_of_ne heq] at hpos

theorem Held.of_release {c' : ℕ} (h : (s.release c').Held c) : s.Held c := by
  refine h.imp_left (Or.imp_left fun hpos => ?_)
  have hpos : 0 < Function.update s.user c' (s.user c' - 1) c := hpos
  by_cases heq : c = c'
  · rw [heq, Function.update_self] at hpos
    exact heq ▸ Nat.lt_of_lt_of_le hpos (Nat.sub_le _ 1)
  · rwa [Function.update_of_ne heq] at hpos

/-- The owners have no other connections than before. -/
theorem Held.of_owner {map : AList fun _ : ℕ => ℕ} {field : ℕ → Bool}
    (h : ({ s with connections_ := map, connection_ := field } : ConnRefs ι).Held c)
    (hmap : ∀ fd, map.lookup fd = some c → s.connections_.lookup fd = some c)
    (hfield : field c = true → s.connection_ c = true) : s.Held c := by
  refine h.imp_right (Or.imp_left fun howner => ?_)
  rcases howner with ⟨⟨fd, c'⟩, hentry, rfl⟩ | hc
  · exact Or.inl ⟨_, AList.mem_lookup_iff.mp (hmap fd (AList.mem_lookup_iff.mpr hentry)), rfl⟩
  · exact Or.inr (hfield hc)

theorem Held.of_make {l : ι} {fd : ℕ} {callback : CloseCallback} {map : AList fun _ : ℕ => ℕ}
    {field : ℕ → Bool} (hc : c < s.made)
    (h : ({ s.make l fd callback with
      connections_ := map, connection_ := field } : ConnRefs ι).Held c)
    (hmap : ∀ fd, map.lookup fd = some c → s.connections_.lookup fd = some c)
    (hfield : field c = true → s.connection_ c = true) : s.Held c := by
  have hmake : (s.make l fd callback).Held c := h.of_owner hmap hfield
  exact hmake.of_hold fun heq => absurd heq (Nat.ne_of_lt hc)

variable [DecidableEq ι]

omit [DecidableEq ι] in
theorem Held.of_closing {c' : ℕ} (h : (s.closing c').Held c) (hc' : c = c' → s.Held c) :
    s.Held c := by
  have hhold : ((s.setConn c' { s.conn c' with close_ := true }).hold c').Held c := h
  exact hhold.of_hold hc'

/-- A close passes on the pointer it was called through. -/
theorem Held.of_onClose {c' : ℕ} (h : (s.onClose base c').Held c) (hc' : s.Held c') : s.Held c := by
  have hown : c = c' → s.Held c := by
    rintro rfl
    exact hc'
  rcases s.onClose_cases base c' with heq | ⟨-, ⟨fd, -, heq⟩ | ⟨-, heq⟩⟩
  · rwa [heq] at h
  · -- the functor that is pushed holds `c'`, and nothing else is new
    rw [heq] at h
    by_cases hc : c = c'
    · exact hown hc
    · exact (h.of_runInLoop fun hf => absurd (Option.some.inj hf).symm hc).of_closing hown
  · -- the client's field goes, and its functor holds `c'` in its place
    rw [heq] at h
    by_cases hc : c = c'
    · exact hown hc
    · unfold clientOnClose at h
      split at h
      · have hdestroy : ((s.closing c').destroy c').Held c := by
          apply h.of_owner (fun _ hlookup => hlookup)
          intro hfield
          rwa [Function.update_of_ne hc] at hfield
        exact (hdestroy.of_runInLoop fun hf => absurd (Option.some.inj hf).symm hc).of_closing hown
      · exact h.of_closing hown

theorem Held.of_removeConnection {fd c' : ℕ} (h : (s.removeConnection fd c').Held c)
    (hc' : s.Held c') : s.Held c := by
  have hdestroy : (s.destroy c').Held c := by
    have howner : ({ s.destroy c' with
        connections_ := s.connections_.erase fd
        connection_ := s.connection_ } : ConnRefs ι).Held c := h
    refine howner.of_owner (fun fd' hlookup => ?_) id
    by_cases hfd : fd' = fd
    · rw [hfd, AList.lookup_erase] at hlookup
      cases hlookup
    · exact (AList.lookup_erase_ne hfd).symm.trans hlookup
  exact hdestroy.of_runInLoop fun hf => Option.some.inj hf ▸ hc'

variable [Fintype ι]

/-- What the functor at the head of a batch is about is held once it is out of
the queue, if the functor holds it. -/
theorem Held.of_exec {l : ι} {f : RefFunctor} {rest : List RefFunctor}
    (hfunctors : (s.loops l).functors = f :: rest)
    (hs : (s.setLoop l { s.loops l with
      functors := rest, ran := (s.loops l).ran ++ [f] }).exec base f = some t)
    (h : t.Held c) : s.Held c := by
  set u := s.setLoop l { s.loops l with functors := rest, ran := (s.loops l).ran ++ [f] } with hu
  -- the functor has only moved, from those to run to those that have
  have hheld : ∀ {c}, u.Held c → s.Held c := by
    intro c hc
    refine hc.of_setLoop fun g hg => ?_
    unfold waiting
    rw [hfunctors]
    simp only [List.mem_append, List.mem_cons, List.not_mem_nil, or_false] at hg ⊢
    tauto
  have hown : f.holds = some f.conn → u.Held f.conn := by
    intro hf
    refine Or.inr (Or.inr ⟨l, f, ?_, hf⟩)
    rw [hu, loops_setLoop]
    simp
  apply hheld
  cases f with
  | establishInLoop c' =>
      obtain rfl := Option.some.inj hs
      unfold establishInLoop at h
      split at h
      · exact h
      · exact h.of_hold fun heq => heq ▸ hown rfl
  | shutdownInLoop c' => exact Option.some.inj hs ▸ h
  | onClose c' => exact (Option.some.inj hs ▸ h).of_onClose (hown rfl)
  | destroyInLoop c' =>
      obtain rfl := Option.some.inj hs
      exact h
  | send c' =>
      change (if _ then _ else _) = some t at hs
      split at hs
      · exact Option.some.inj hs ▸ h
      · cases hs
  | removeConnection fd c' => exact (Option.some.inj hs ▸ h).of_removeConnection (hown rfl)

/-- **A connection is destroyed for good.** No step of any thread comes to a
pointer to a connection that nobody holds. -/
theorem held_of_step {e : RefEvent ι} (hc : c < s.made) (hs : step base s e = some t)
    (h : t.Held c) : s.Held c := by
  have hold : ∀ {c'}, s.Held c' → (s.hold c').Held c → s.Held c :=
    fun hc' ht => ht.of_hold fun heq => heq ▸ hc'
  cases move_of_step hs with
  | setEventLoopThreadPool pool => exact h
  | @accept fd _ haccept =>
      obtain ⟨⟨l, index⟩, -, rfl⟩ := Option.map_eq_some_iff.mp haccept
      refine Held.of_make (s := { s with indexLoop_ := index }) hc h ?_ id
      intro fd' hlookup
      by_cases hfd : fd' = fd
      · rw [hfd, AList.lookup_insert] at hlookup
        exact absurd (Option.some.inj hlookup).symm (Nat.ne_of_lt hc)
      · rwa [AList.lookup_insert_ne hfd] at hlookup
  | connect l fd =>
      refine Held.of_make hc h (fun _ hlookup => hlookup) ?_
      intro hfield
      rwa [Function.update_of_ne (Nat.ne_of_lt hc)] at hfield
  | copy hpos => exact hold (Or.inl (Or.inl hpos)) h
  | drop _ => exact h.of_release
  | callback hhandling => exact hold hhandling.2.2.2 h
  | hangup hhandling => exact h.of_onClose hhandling.2.2.2
  | call hpos _ =>
      -- the pointer of the call was the user's
      rcases h with (huser | ⟨g, hg, hcg⟩) | howner | hloop
      · exact Held.of_release (Or.inl (Or.inl huser))
      · rcases List.mem_append.mp hg with hcaller | hnew
        · exact Or.inl (Or.inr ⟨g, hcaller, hcg⟩)
        · rw [List.mem_singleton.mp hnew] at hcg
          exact Or.inl (Or.inl (hcg ▸ hpos))
      · exact Or.inr (Or.inl howner)
      · exact Or.inr (Or.inr hloop)
  | @push i f hf =>
      -- the caller whose functor is pushed held it before, whatever it holds now
      by_cases heq : c = f.conn
      · exact Or.inl (Or.inr ⟨f, List.mem_of_getElem? hf, heq.symm⟩)
      · have hhold := h.of_runInLoop fun hc' => absurd (RefFunctor.holds_conn hc').symm heq
        refine (hhold.of_hold fun hc' => absurd hc' heq).imp_left (Or.imp_right ?_)
        rintro ⟨g, hg, hcg⟩
        exact ⟨g, List.mem_of_mem_eraseIdx hg, hcg⟩
  | swap _ =>
      -- the batch holds what the queue held
      apply h.of_setLoop
      intro f hf
      rw [List.append_nil, List.append_nil] at hf
      exact List.mem_append_left _ (List.mem_append_right _ hf)
  | run hfunctors hexec => exact Held.of_exec hfunctors hexec h
  | finish _ =>
      apply h.of_setLoop
      intro f hf
      rw [List.append_nil, List.nil_append] at hf
      exact List.mem_append_left _ (List.mem_append_right _ hf)

end Destroyed

end ConnRefs

end Libiak.Net
