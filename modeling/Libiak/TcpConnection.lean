/-
`net/TcpConnection.cpp` on its event loop: a connection, the functors queued
for it, and the loop that polls, dispatches its channel and runs the functors.

The state of the machine `Conn` is the connection object, what its loop keeps of
it (the entries of the active list that are its channel, the two queues of
functors), where the loop is, and a history of what the outside has seen. Any
thread may call the public functions at any time: a call tests its flags and,
in a later step, pushes its functor, so that two calls and the loop interleave
in every way. The kernel chooses the events of a poll and the result of every
`write`, `readv` and `writev`.

`onRead` and `onWrite` are loops around a system call; one step of the machine
is one turn, and `Pc.reading` and `Pc.writing` are the points before the call.
The buffers exist from `establishInLoop` on (`io`); a step that would read
their fields before is one of those that are undefined, and has no successor.
-/
import Libiak.Channel
import Libiak.WritePath
import Libiak.Run

set_option autoImplicit false

namespace Libiak.Net

variable {α : Type*}

/-! ## The object -/

/-- `class TcpConnection`. The buffer fields are `io`, which `establishInLoop`
sets up out of `bufferPool_`. -/
structure TcpConnection (α : Type*) where
  establish_ : Bool
  close_ : Bool
  channel_ : Channel
  bufferPool_ : BufferPool α
  io : Option (IoBuffers α)

/-- The functors the member functions queue in the loop of the connection. -/
inductive Functor (α : Type*) where
  | establishInLoop
  | shutdownInLoop
  | onClose
  | destroyInLoop
  | send (data : List α)
  deriving DecidableEq

/-- The invocations of the callbacks of the user. A callback that is not set is
one whose body is empty. -/
inductive Callback where
  | connect
  | recv (size : ℕ)
  | send (size : ℕ)
  | disconnect
  deriving DecidableEq

namespace TcpConnection

/-- `TcpConnection::TcpConnection`. -/
def make (capacity : Capacity) (storage : ℕ → ℕ → α) : TcpConnection α :=
  { establish_ := false, close_ := false, channel_ := Channel.make.enableAll
    bufferPool_ := BufferPool.make capacity storage, io := none }

/-- `TcpConnection::establish`: the functor it queues, if it does. -/
def establish (c : TcpConnection α) : Option (Functor α) :=
  if c.close_ || c.establish_ then none else some .establishInLoop

/-- `TcpConnection::shutdown`. -/
def shutdown (c : TcpConnection α) : Option (Functor α) :=
  if c.close_ then none else some .shutdownInLoop

/-- `TcpConnection::close`. -/
def close (c : TcpConnection α) : Option (Functor α) :=
  if c.close_ then none else some .onClose

/-- `TcpConnection::destroy`, which tests nothing. -/
def destroy (_ : TcpConnection α) : Option (Functor α) := some .destroyInLoop

/-- `TcpConnection::sendPack`. -/
def sendPack (c : TcpConnection α) (data : List α) : Option (Functor α) :=
  if c.close_ then none else some (.send data)

/-- `TcpConnection::establishInLoop`. -/
def establishInLoop (c : TcpConnection α) : TcpConnection α × List Callback :=
  if c.establish_ then (c, [])
  else
    ({ c with
        establish_ := true
        io := some (IoBuffers.establish c.bufferPool_)
        channel_ := c.channel_.open }, [.connect])

/-- `TcpConnection::destroyInLoop`. -/
def destroyInLoop (c : TcpConnection α) : TcpConnection α :=
  { c with channel_ := c.channel_.close }

/-- `TcpConnection::onClose`. The `closeCallback_` of the owner leads to a call
of `destroy`, which the machine allows at any time. -/
def onClose (c : TcpConnection α) : TcpConnection α × List Callback :=
  if c.close_ then (c, [])
  else ({ c with close_ := true, channel_ := c.channel_.disableAll }, [.disconnect])

/-- `writeData` on the buffers, which must have been set up unless its guard
turns the data away. -/
def buffered (c : TcpConnection α) (data : List α) : Option (TcpConnection α) :=
  match c.io with
  | none => if data.length = 0 then some c else none
  | some io => (writeData io true data).map fun r => { c with io := some r.2 }

/-- `TcpConnection::send`. `result` is what `::write` returned, `none` for an
error; it is at most the size of the data. -/
def send (c : TcpConnection α) (data : List α) : Option ℕ → Option (TcpConnection α)
  | none => c.buffered data
  | some writesize =>
      if writesize > data.length then none
      -- the comparison is of the size truncated to 32 bits
      else if u32 writesize < data.length then c.buffered (data.drop writesize)
      else some c

/-- What one turn of `onRead` or `onWrite` does to the connection, what callbacks
it invokes, and whether the loop of the function goes round again. -/
structure Turn (α : Type*) where
  conn : TcpConnection α
  callbacks : List Callback
  again : Bool

/-- One turn of the loop of `TcpConnection::onRead`. -/
def onRead (c : TcpConnection α) (result : Readv α) : Option (Turn α) := do
  let io ← c.io
  let r ← onRead.turn io result
  let c := { c with io := some r.1 }
  match r.2 with
  | .error | .overlong => some ⟨{ c with channel_ := c.channel_.disableReadable }, [], false⟩
  | .eof => some ⟨c.onClose.1, c.onClose.2, false⟩
  | .short readsize =>
      some ⟨{ c with channel_ := c.channel_.disableReadable }, [.recv (u32 readsize)], false⟩
  -- the whole offer was filled, so the socket may have more
  | .full readsize => some ⟨c, [.recv (u32 readsize)], true⟩

/-- One turn of the loop of `TcpConnection::onWrite`. -/
def onWrite (c : TcpConnection α) (result : Option ℕ) : Option (Turn α) := do
  let io ← c.io
  let r ← onWrite.turn io result
  let c := { c with io := some r.1 }
  match r.2 with
  | .error | .overlong => some ⟨{ c with channel_ := c.channel_.disableWriteable }, [], false⟩
  | .short writesize =>
      some ⟨{ c with channel_ := c.channel_.disableWriteable }, [.send (u32 writesize)], false⟩
  -- the whole offer was taken, so the socket may take more
  | .full writesize => some ⟨c, [.send (u32 writesize)], true⟩

end TcpConnection

/-! ## The machine -/

/-- A call of one of the public functions, or of `destroy` by the owner. -/
inductive Call (α : Type*) where
  | establish
  | shutdown
  | close
  | destroy
  | sendPack (data : List α)

/-- The functor a call queues, if its tests let it. -/
def Call.functor (c : TcpConnection α) : Call α → Option (Functor α)
  | .establish => c.establish
  | .shutdown => c.shutdown
  | .close => c.close
  | .destroy => c.destroy
  | .sendPack data => c.sendPack data

/-- Where the loop is. `dispatch` is the loop of `handleActivedChannels`;
`onClose`, `onError`, `onRead` and `onWrite` are the four tests of
`Channel::handleEvents`, and `reading` and `writing` the system calls in the
loops of the connection's `onRead` and `onWrite`. -/
inductive Pc where
  | poll
  | dispatch
  | onClose
  | onError
  | onRead
  | reading
  | onWrite
  | writing
  | functors
  deriving DecidableEq

/-- A system call of the loop for the connection, with its answer: the events of
`epoll_wait`, and how many bytes `readv`, `write` (of `size` bytes) and `writev`
returned, `none` for an error. -/
inductive SysCall where
  | epollWait (events : Events)
  | readv (result : Option ℕ)
  | write (size : ℕ) (result : Option ℕ)
  | writev (result : Option ℕ)
  | shutdownWrite
  deriving DecidableEq

/-- What `readv` returned. -/
def Readv.result : Readv α → Option ℕ
  | .error => none
  | .data bytes => some bytes.length

/-- A connection on its loop. Of the active list only the entries of its own
channel are kept. `callers` are the calls that have passed their tests and not
pushed yet. The history: the callbacks invoked, the bytes of the payloads
pushed, the bytes the kernel accepted, and the system calls. -/
structure Conn (α : Type*) where
  conn : TcpConnection α
  activedChannels_ : List Unit
  callers : List (Functor α)
  pendingFunctors_ : List (Functor α)
  functors : List (Functor α)
  pc : Pc
  callbacks : List Callback
  pushed : List α
  stream : List α
  calls : List SysCall

/-- What can happen next. -/
inductive Event (α : Type*) where
  | call (c : Call α)
  | push (i : ℕ)
  | peekData (data : Bool) (size : ℕ)
  | readData (data : Bool) (size : ℕ)
  | poll (events : Events)
  | handle
  | readv (result : Readv α)
  | writev (result : Option ℕ)
  | functor (result : Option ℕ)

/-- The payload of a functor. -/
def Functor.payload : Functor α → List α
  | .send data => data
  | _ => []

namespace Conn

/-- A connection that has just been made. -/
def init (capacity : Capacity) (storage : ℕ → ℕ → α) : Conn α :=
  { conn := TcpConnection.make capacity storage
    activedChannels_ := [], callers := [], pendingFunctors_ := [], functors := [], pc := .poll
    callbacks := [], pushed := [], stream := [], calls := [] }

/-- The bytes the next `writev` offers. -/
def offer (s : Conn α) : List α := (s.conn.io.bind onWrite.offer).getD []

/-- `PeekData` by the user. Its guard reads no buffer field where the first two
of its tests turn the call away. -/
def peekData (s : Conn α) (data : Bool) (size : ℕ) : Option (Conn α) :=
  match s.conn.io with
  | none => if !data || size = 0 then some s else none
  | some io => (PeekData io data size).map fun _ => s

/-- `ReadData` by the user. -/
def readData (s : Conn α) (data : Bool) (size : ℕ) : Option (Conn α) :=
  match s.conn.io with
  | none => if !data || size = 0 then some s else none
  | some io => (ReadData io data size).map fun r =>
      { s with conn := { s.conn with io := some r.2.2 } }

/-- A `poll`: only a registered channel has events reported. -/
def poll (s : Conn α) (events : Events) : Option (Conn α) :=
  if s.pc = .poll ∧ (s.conn.channel_.started_ = true ∨ events = Events.none) then
    let r := Channel.poll () events (s.conn.channel_, s.activedChannels_)
    some { s with
      conn := { s.conn with channel_ := r.1 }, activedChannels_ := r.2, pc := .dispatch
      calls := s.calls ++ [.epollWait events] }
  else none

/-- The next channel of the active list, or the swap of `doPendingFunctors`
when there is none. -/
def dispatch (s : Conn α) : Conn α :=
  match s.activedChannels_ with
  | [] => { s with functors := s.pendingFunctors_, pendingFunctors_ := [], pc := .functors }
  | _ :: rest =>
      { s with
        conn := { s.conn with channel_ := { s.conn.channel_ with actived_ := false } }
        activedChannels_ := rest, pc := .onClose }

/-- The test of `rclose_`. -/
def handleClose (s : Conn α) : Conn α :=
  if s.conn.channel_.rclose_ then
    let c := { s.conn with channel_ := { s.conn.channel_ with rclose_ := false } }
    { s with conn := c.onClose.1, callbacks := s.callbacks ++ c.onClose.2, pc := .onError }
  else { s with pc := .onError }

/-- The test of `rerror_`; no error callback is set. -/
def handleError (s : Conn α) : Conn α :=
  { s with
    conn := { s.conn with channel_ := { s.conn.channel_ with rerror_ := false } }, pc := .onRead }

/-- The test of `rread_`, and that of `isReadable` in `onRead`. -/
def handleRead (s : Conn α) : Conn α :=
  if s.conn.channel_.rread_ then
    { s with
      conn := { s.conn with channel_ := { s.conn.channel_ with rread_ := false } }
      pc := if s.conn.channel_.readable_ then .reading else .onWrite }
  else { s with pc := .onWrite }

/-- The test of `rwrite_`, and those of `isWriteable` and `writeSize_` in
`onWrite`. -/
def handleWrite (s : Conn α) : Option (Conn α) :=
  if s.conn.channel_.rwrite_ then
    let c := { s.conn with channel_ := { s.conn.channel_ with rwrite_ := false } }
    if s.conn.channel_.writeable_ then
      s.conn.io.map fun io =>
        { s with conn := c, pc := if io.writeSize_ = 0 then .dispatch else .writing }
    else some { s with conn := c, pc := .dispatch }
  else some { s with pc := .dispatch }

/-- The step of the loop at a point where it makes no system call. -/
def handle (s : Conn α) : Option (Conn α) :=
  match s.pc with
  | .dispatch => some s.dispatch
  | .onClose => some s.handleClose
  | .onError => some s.handleError
  | .onRead => some s.handleRead
  | .onWrite => s.handleWrite
  | _ => none

/-- A turn of `onRead`. -/
def readv (s : Conn α) (result : Readv α) : Option (Conn α) :=
  if s.pc = .reading then do
    let r ← s.conn.onRead result
    some { s with
      conn := r.conn, callbacks := s.callbacks ++ r.callbacks
      calls := s.calls ++ [.readv result.result]
      pc := if r.again then .reading else .onWrite }
  else none

/-- A turn of `onWrite`. -/
def writev (s : Conn α) (result : Option ℕ) : Option (Conn α) :=
  if s.pc = .writing then do
    let r ← s.conn.onWrite result
    some { s with
      conn := r.conn, callbacks := s.callbacks ++ r.callbacks
      stream := s.stream ++ s.offer.take (result.getD 0)
      calls := s.calls ++ [.writev result]
      pc := if r.again then .writing else .dispatch }
  else none

/-- The next functor of the batch, or the way back to `poll`. -/
def functor (s : Conn α) (result : Option ℕ) : Option (Conn α) :=
  if s.pc = .functors then
    match s.functors with
    | [] => some { s with pc := .poll }
    | .establishInLoop :: rest =>
        some { s with
          conn := s.conn.establishInLoop.1
          callbacks := s.callbacks ++ s.conn.establishInLoop.2, functors := rest }
    | .shutdownInLoop :: rest =>
        some { s with functors := rest, calls := s.calls ++ [.shutdownWrite] }
    | .onClose :: rest =>
        some { s with
          conn := s.conn.onClose.1
          callbacks := s.callbacks ++ s.conn.onClose.2, functors := rest }
    | .destroyInLoop :: rest => some { s with conn := s.conn.destroyInLoop, functors := rest }
    | .send data :: rest => do
        let c ← s.conn.send data result
        some { s with
          conn := c, functors := rest
          stream := s.stream ++ data.take (result.getD 0)
          calls := s.calls ++ [.write data.length result] }
  else none

def step (s : Conn α) : Event α → Option (Conn α)
  | .call c =>
      some { s with callers := s.callers ++ (c.functor s.conn).toList }
  | .push i =>
      match s.callers[i]? with
      | none => none
      | some f =>
          some { s with
            callers := s.callers.eraseIdx i
            pendingFunctors_ := s.pendingFunctors_ ++ [f], pushed := s.pushed ++ f.payload }
  | .peekData data size => s.peekData data size
  | .readData data size => s.readData data size
  | .poll events => s.poll events
  | .handle => s.handle
  | .readv result => s.readv result
  | .writev result => s.writev result
  | .functor result => s.functor result

end Conn

/-! ## What a turn can do -/

/-- The turns of `onRead` and `onWrite` that report a size to the user. -/
def ReadOutcome.counts : ReadOutcome → Bool
  | .short _ | .full _ => true
  | _ => false

def WriteOutcome.counts : WriteOutcome → Bool
  | .short _ | .full _ => true
  | _ => false

namespace TcpConnection

@[simp] theorem onClose_io (c : TcpConnection α) : c.onClose.1.io = c.io := by
  rw [onClose]
  split <;> rfl

@[simp] theorem onClose_bufferPool (c : TcpConnection α) :
    c.onClose.1.bufferPool_ = c.bufferPool_ := by
  rw [onClose]
  split <;> rfl

@[simp] theorem onClose_establish (c : TcpConnection α) :
    c.onClose.1.establish_ = c.establish_ := by
  rw [onClose]
  split <;> rfl

variable {c : TcpConnection α} {t : Turn α}

/-- A turn of `onRead` ends the loop with the gate shut, ends it with the
connection closed, or goes round again. -/
theorem onRead_cases {result : Readv α} (h : c.onRead result = some t) :
    ∃ io r, c.io = some io ∧ onRead.turn io result = some r
      ∧ (((r.2.counts = false ∧ r.2 ≠ .eof)
            ∧ t = ⟨{ c with io := some r.1, channel_ := c.channel_.disableReadable }, [], false⟩)
        ∨ (r.2 = .eof
            ∧ t = ⟨(onClose { c with io := some r.1 }).1, (onClose { c with io := some r.1 }).2,
                false⟩)
        ∨ (r.2.counts = true ∧ ∃ n,
            t = ⟨{ c with io := some r.1, channel_ := c.channel_.disableReadable }, [.recv n],
              false⟩)
        ∨ (r.2.counts = true ∧ ∃ n, t = ⟨{ c with io := some r.1 }, [.recv n], true⟩)) := by
  obtain ⟨io, hio, h⟩ := Option.bind_eq_some_iff.mp h
  obtain ⟨⟨io', outcome⟩, hturn, h⟩ := Option.bind_eq_some_iff.mp h
  refine ⟨io, (io', outcome), hio, hturn, ?_⟩
  cases outcome with
  | error => exact Or.inl ⟨⟨rfl, ReadOutcome.noConfusion⟩, (Option.some.inj h).symm⟩
  | overlong => exact Or.inl ⟨⟨rfl, ReadOutcome.noConfusion⟩, (Option.some.inj h).symm⟩
  | eof => exact Or.inr (Or.inl ⟨rfl, (Option.some.inj h).symm⟩)
  | short n => exact Or.inr (Or.inr (Or.inl ⟨rfl, _, (Option.some.inj h).symm⟩))
  | full n => exact Or.inr (Or.inr (Or.inr ⟨rfl, _, (Option.some.inj h).symm⟩))

/-- A turn of `onWrite` ends the loop with the gate shut, or goes round
again. -/
theorem onWrite_cases {result : Option ℕ} (h : c.onWrite result = some t) :
    ∃ io r, c.io = some io ∧ onWrite.turn io result = some r
      ∧ ((r.2.counts = false
            ∧ t = ⟨{ c with io := some r.1, channel_ := c.channel_.disableWriteable }, [], false⟩)
        ∨ (r.2.counts = true ∧ ∃ n,
            t = ⟨{ c with io := some r.1, channel_ := c.channel_.disableWriteable }, [.send n],
              false⟩)
        ∨ (r.2.counts = true ∧ ∃ n, t = ⟨{ c with io := some r.1 }, [.send n], true⟩)) := by
  obtain ⟨io, hio, h⟩ := Option.bind_eq_some_iff.mp h
  obtain ⟨⟨io', outcome⟩, hturn, h⟩ := Option.bind_eq_some_iff.mp h
  refine ⟨io, (io', outcome), hio, hturn, ?_⟩
  cases outcome with
  | error => exact Or.inl ⟨rfl, (Option.some.inj h).symm⟩
  | overlong => exact Or.inl ⟨rfl, (Option.some.inj h).symm⟩
  | short n => exact Or.inr (Or.inl ⟨rfl, _, (Option.some.inj h).symm⟩)
  | full n => exact Or.inr (Or.inr ⟨rfl, _, (Option.some.inj h).symm⟩)

/-- `buffered` does nothing without data. -/
theorem buffered_cases {c' : TcpConnection α} {data : List α} (h : c.buffered data = some c') :
    (data = [] ∧ c' = c) ∨ (data ≠ [] ∧ ∃ io r, c.io = some io
      ∧ writeData io true data = some r ∧ c' = { c with io := some r.2 }) := by
  rw [buffered] at h
  split at h
  · rename_i hio
    by_cases h0 : data.length = 0
    · rw [if_pos h0] at h
      exact Or.inl ⟨List.eq_nil_of_length_eq_zero h0, (Option.some.inj h).symm⟩
    · rw [if_neg h0] at h
      cases h
  · rename_i io hio
    obtain ⟨r, hr, rfl⟩ := Option.map_eq_some_iff.mp h
    cases data with
    | nil =>
        have hguard : writeData io true ([] : List α) = some (false, io) := by simp [writeData]
        obtain rfl := Option.some.inj (hguard.symm.trans hr)
        exact Or.inl ⟨rfl, by rw [← hio]⟩
    | cons x xs => exact Or.inr ⟨List.cons_ne_nil _ _, io, r, hio, hr, rfl⟩

/-- `send` writes all of the data, or buffers what is left of it. -/
theorem send_cases {c' : TcpConnection α} {data : List α} {result : Option ℕ}
    (h : c.send data result = some c') :
    result.getD 0 ≤ data.length
      ∧ ((data.length ≤ result.getD 0 ∧ c' = c)
        ∨ (result.getD 0 < data.length ∧ ∃ io r, c.io = some io
          ∧ writeData io true (data.drop (result.getD 0)) = some r
          ∧ c' = { c with io := some r.2 })) := by
  have hdrop : ∀ w, c.buffered (data.drop w) = some c' →
      (data.length ≤ w ∧ c' = c) ∨ (w < data.length ∧ ∃ io r, c.io = some io
        ∧ writeData io true (data.drop w) = some r ∧ c' = { c with io := some r.2 }) := by
    intro w hbuf
    have hnil : data.drop w = [] ↔ data.length ≤ w := List.drop_eq_nil_iff
    rcases buffered_cases hbuf with ⟨h0, heq⟩ | ⟨hne, hrest⟩
    · exact Or.inl ⟨hnil.mp h0, heq⟩
    · exact Or.inr ⟨not_le.mp (hne ∘ hnil.mpr), hrest⟩
  cases result with
  | none => exact ⟨Nat.zero_le _, hdrop 0 h⟩
  | some w =>
      simp only [send] at h
      by_cases hgt : w > data.length
      · rw [if_pos hgt] at h
        cases h
      · rw [if_neg hgt] at h
        refine ⟨not_lt.mp hgt, ?_⟩
        by_cases hlt : u32 w < data.length
        · rw [if_pos hlt] at h
          exact hdrop w h
        · rw [if_neg hlt] at h
          have hle := u32_le w
          exact Or.inl ⟨by simp only [Option.getD_some]; omega, (Option.some.inj h).symm⟩

end TcpConnection

/-! ## What a step can do -/

namespace Conn

/-- The steps of the machine, one constructor for each way through its
functions. Every invariant of the machine is proved by cases on this. -/
inductive Moves (s : Conn α) : Event α → Conn α → Prop where
  | call (c : Call α) :
      Moves s (.call c) { s with callers := s.callers ++ (c.functor s.conn).toList }
  | push (i : ℕ) (f : Functor α) (hf : s.callers[i]? = some f) :
      Moves s (.push i) { s with
        callers := s.callers.eraseIdx i
        pendingFunctors_ := s.pendingFunctors_ ++ [f], pushed := s.pushed ++ f.payload }
  | peekData (data : Bool) (size : ℕ) : Moves s (.peekData data size) s
  | readRefused (data : Bool) (size : ℕ) : Moves s (.readData data size) s
  | readData (data : Bool) (size : ℕ) (io io' : IoBuffers α) (hio : s.conn.io = some io)
      (hside : WriteSide io io') :
      Moves s (.readData data size) { s with conn := { s.conn with io := some io' } }
  | poll (events : Events) (t : Channel × List Unit) (hpc : s.pc = .poll)
      (hreg : s.conn.channel_.started_ = true ∨ t = (s.conn.channel_, s.activedChannels_))
      (hpolled : Channel.Polled () (s.conn.channel_, s.activedChannels_) t)
      (hpoll : t = Channel.poll () events (s.conn.channel_, s.activedChannels_)) :
      Moves s (.poll events) { s with
        conn := { s.conn with channel_ := t.1 }, activedChannels_ := t.2, pc := .dispatch
        calls := s.calls ++ [.epollWait events] }
  | swap (hpc : s.pc = .dispatch) (hlist : s.activedChannels_ = []) :
      Moves s .handle { s with
        functors := s.pendingFunctors_, pendingFunctors_ := [], pc := .functors }
  | enter (u : Unit) (rest : List Unit) (hpc : s.pc = .dispatch)
      (hlist : s.activedChannels_ = u :: rest) :
      Moves s .handle { s with
        conn := { s.conn with channel_ := { s.conn.channel_ with actived_ := false } }
        activedChannels_ := rest, pc := .onClose }
  | closePending (c : TcpConnection α) (hpc : s.pc = .onClose)
      (hc : c = { s.conn with channel_ := { s.conn.channel_ with rclose_ := false } })
      (hclose : s.conn.channel_.rclose_ = true) :
      Moves s .handle { s with
        conn := c.onClose.1, callbacks := s.callbacks ++ c.onClose.2, pc := .onError }
  | closeIdle (hpc : s.pc = .onClose) (hclose : s.conn.channel_.rclose_ = false) :
      Moves s .handle { s with pc := .onError }
  | error (hpc : s.pc = .onError) :
      Moves s .handle { s with
        conn := { s.conn with channel_ := { s.conn.channel_ with rerror_ := false } }
        pc := .onRead }
  | readPending (hpc : s.pc = .onRead) (hread : s.conn.channel_.rread_ = true) (pc : Pc)
      (hpc' : pc = .reading ∨ pc = .onWrite)
      (hshut : pc = .onWrite → s.conn.channel_.readable_ = false) :
      Moves s .handle { s with
        conn := { s.conn with channel_ := { s.conn.channel_ with rread_ := false } }, pc := pc }
  | readIdle (hpc : s.pc = .onRead) (hread : s.conn.channel_.rread_ = false) :
      Moves s .handle { s with pc := .onWrite }
  | writeIdle (hpc : s.pc = .onWrite) (hwrite : s.conn.channel_.rwrite_ = false) :
      Moves s .handle { s with pc := .dispatch }
  | writeNothing (hpc : s.pc = .onWrite) (hwrite : s.conn.channel_.rwrite_ = true)
      (hshut : s.conn.channel_.writeable_ = false
        ∨ ∃ io, s.conn.io = some io ∧ io.writeSize_ = 0) :
      Moves s .handle { s with
        conn := { s.conn with channel_ := { s.conn.channel_ with rwrite_ := false } }
        pc := .dispatch }
  | writeEnter (hpc : s.pc = .onWrite) (hwrite : s.conn.channel_.rwrite_ = true)
      (io : IoBuffers α) (hio : s.conn.io = some io) (hsize : io.writeSize_ ≠ 0) :
      Moves s .handle { s with
        conn := { s.conn with channel_ := { s.conn.channel_ with rwrite_ := false } }
        pc := .writing }
  | readv (result : Readv α) (hpc : s.pc = .reading) (r : TcpConnection.Turn α)
      (hr : s.conn.onRead result = some r) :
      Moves s (.readv result) { s with
        conn := r.conn, callbacks := s.callbacks ++ r.callbacks
        calls := s.calls ++ [.readv result.result]
        pc := if r.again then .reading else .onWrite }
  | writev (result : Option ℕ) (hpc : s.pc = .writing) (r : TcpConnection.Turn α)
      (hr : s.conn.onWrite result = some r) :
      Moves s (.writev result) { s with
        conn := r.conn, callbacks := s.callbacks ++ r.callbacks
        stream := s.stream ++ s.offer.take (result.getD 0)
        calls := s.calls ++ [.writev result]
        pc := if r.again then .writing else .dispatch }
  | batchDone (result : Option ℕ) (hpc : s.pc = .functors) (hnil : s.functors = []) :
      Moves s (.functor result) { s with pc := .poll }
  | establishInLoop (result : Option ℕ) (rest : List (Functor α)) (hpc : s.pc = .functors)
      (hf : s.functors = .establishInLoop :: rest) :
      Moves s (.functor result) { s with
        conn := s.conn.establishInLoop.1
        callbacks := s.callbacks ++ s.conn.establishInLoop.2, functors := rest }
  | shutdownInLoop (result : Option ℕ) (rest : List (Functor α)) (hpc : s.pc = .functors)
      (hf : s.functors = .shutdownInLoop :: rest) :
      Moves s (.functor result) { s with
        functors := rest, calls := s.calls ++ [.shutdownWrite] }
  | onClose (result : Option ℕ) (rest : List (Functor α)) (hpc : s.pc = .functors)
      (hf : s.functors = .onClose :: rest) :
      Moves s (.functor result) { s with
        conn := s.conn.onClose.1
        callbacks := s.callbacks ++ s.conn.onClose.2, functors := rest }
  | destroyInLoop (result : Option ℕ) (rest : List (Functor α)) (hpc : s.pc = .functors)
      (hf : s.functors = .destroyInLoop :: rest) :
      Moves s (.functor result) { s with conn := s.conn.destroyInLoop, functors := rest }
  | send (result : Option ℕ) (data : List α) (rest : List (Functor α)) (hpc : s.pc = .functors)
      (hf : s.functors = .send data :: rest) (c : TcpConnection α)
      (hc : s.conn.send data result = some c) :
      Moves s (.functor result) { s with
        conn := c, functors := rest, stream := s.stream ++ data.take (result.getD 0)
        calls := s.calls ++ [.write data.length result] }

section Cases

variable {s t : Conn α}

theorem handle_moves (h : s.handle = some t) : Moves s .handle t := by
  rw [handle] at h
  split at h
  · rename_i hpc
    obtain rfl := Option.some.inj h
    rw [dispatch]
    split
    · rename_i hlist
      exact .swap hpc hlist
    · rename_i u rest hlist
      exact .enter u rest hpc hlist
  · rename_i hpc
    obtain rfl := Option.some.inj h
    rw [handleClose]
    split
    · rename_i hclose
      exact .closePending _ hpc rfl hclose
    · rename_i hclose
      exact .closeIdle hpc (Bool.eq_false_iff.mpr hclose)
  · rename_i hpc
    exact (Option.some.inj h) ▸ .error hpc
  · rename_i hpc
    obtain rfl := Option.some.inj h
    rw [handleRead]
    split
    · rename_i hread
      refine .readPending hpc hread _ ?_ ?_
      · cases s.conn.channel_.readable_
        · exact Or.inr rfl
        · exact Or.inl rfl
      · cases s.conn.channel_.readable_
        · exact fun _ => rfl
        · exact fun h => by cases h
    · rename_i hread
      exact .readIdle hpc (Bool.eq_false_iff.mpr hread)
  · rename_i hpc
    rw [handleWrite] at h
    split at h
    · rename_i hwrite
      simp only at h
      split at h
      · obtain ⟨io, hio, rfl⟩ := Option.map_eq_some_iff.mp h
        by_cases h0 : io.writeSize_ = 0
        · simp only [if_pos h0]
          exact .writeNothing hpc hwrite (Or.inr ⟨io, hio, h0⟩)
        · simp only [if_neg h0]
          exact .writeEnter hpc hwrite io hio h0
      · rename_i hwriteable
        exact (Option.some.inj h) ▸
          .writeNothing hpc hwrite (Or.inl (Bool.eq_false_iff.mpr hwriteable))
    · rename_i hwrite
      exact (Option.some.inj h) ▸ .writeIdle hpc (Bool.eq_false_iff.mpr hwrite)
  · cases h

theorem functor_moves {result : Option ℕ} (h : s.functor result = some t) :
    Moves s (.functor result) t := by
  rw [functor] at h
  split at h
  · rename_i hpc
    split at h
    · rename_i hnil
      exact (Option.some.inj h) ▸ .batchDone result hpc hnil
    · rename_i rest hf
      exact (Option.some.inj h) ▸ .establishInLoop result rest hpc hf
    · rename_i rest hf
      exact (Option.some.inj h) ▸ .shutdownInLoop result rest hpc hf
    · rename_i rest hf
      exact (Option.some.inj h) ▸ .onClose result rest hpc hf
    · rename_i rest hf
      exact (Option.some.inj h) ▸ .destroyInLoop result rest hpc hf
    · rename_i data rest hf
      obtain ⟨c, hc, h⟩ := Option.bind_eq_some_iff.mp h
      exact (Option.some.inj h) ▸ .send result data rest hpc hf c hc
  · cases h

theorem readData_moves {data : Bool} {size : ℕ} (h : s.readData data size = some t) :
    Moves s (.readData data size) t := by
  rw [readData] at h
  split at h
  · split at h
    · exact (Option.some.inj h) ▸ .readRefused data size
    · cases h
  · rename_i io hio
    obtain ⟨r, hr, rfl⟩ := Option.map_eq_some_iff.mp h
    exact .readData data size io r.2.2 hio (ReadData_writeSide hr)

theorem poll_moves {events : Events} (h : s.poll events = some t) : Moves s (.poll events) t := by
  rw [poll] at h
  split at h
  · rename_i hguard
    obtain rfl := Option.some.inj h
    refine .poll events _ hguard.1 (hguard.2.imp_right fun hev => ?_)
      (Channel.polled_poll () events _) rfl
    rw [hev, Channel.poll_none]
  · cases h

/-- **What a step can do.** -/
theorem step_moves {e : Event α} (h : step s e = some t) : Moves s e t := by
  cases e with
  | call c => exact (Option.some.inj h) ▸ .call c
  | push i =>
      rw [step] at h
      split at h
      · cases h
      · rename_i f hf
        exact (Option.some.inj h) ▸ .push i f hf
  | peekData data size =>
      have heq : s = t := by
        simp only [step, peekData] at h
        split at h
        · split at h
          · exact Option.some.inj h
          · cases h
        · obtain ⟨r, -, heq⟩ := Option.map_eq_some_iff.mp h
          exact heq
      exact heq ▸ .peekData data size
  | readData data size => exact readData_moves h
  | poll events => exact poll_moves h
  | handle => exact handle_moves h
  | readv result =>
      simp only [step, readv] at h
      split at h
      · rename_i hpc
        obtain ⟨r, hr, h⟩ := Option.bind_eq_some_iff.mp h
        exact (Option.some.inj h) ▸ .readv result hpc r hr
      · cases h
  | writev result =>
      simp only [step, writev] at h
      split at h
      · rename_i hpc
        obtain ⟨r, hr, h⟩ := Option.bind_eq_some_iff.mp h
        exact (Option.some.inj h) ▸ .writev result hpc r hr
      · cases h
  | functor result => exact functor_moves h

end Cases

/-- The system call a step makes, if it makes one. -/
def syscall (s : Conn α) : Event α → Option SysCall
  | .poll events => some (.epollWait events)
  | .readv result => some (.readv result.result)
  | .writev result => some (.writev result)
  | .functor result =>
      if s.pc = .functors then
        match s.functors with
        | .send data :: _ => some (.write data.length result)
        | .shutdownInLoop :: _ => some .shutdownWrite
        | _ => none
      else none
  | .call _ | .push _ | .peekData _ _ | .readData _ _ | .handle => none

/-- The history has every system call. -/
theorem calls_step {s t : Conn α} {e : Event α} (h : step s e = some t) :
    t.calls = s.calls ++ (s.syscall e).toList := by
  cases step_moves h with
  | poll events u hpc hreg hpolled => rfl
  | readv result hpc r hr => rfl
  | writev result hpc r hr => rfl
  | batchDone result hpc hnil => simp [syscall, hnil]
  | establishInLoop result rest hpc hf => simp [syscall, hf]
  | shutdownInLoop result rest hpc hf => simp [syscall, hpc, hf]
  | onClose result rest hpc hf => simp [syscall, hf]
  | destroyInLoop result rest hpc hf => simp [syscall, hf]
  | send result data rest hpc hf c hc => simp [syscall, hpc, hf]
  | _ => exact (List.append_nil _).symm

end Conn

end Libiak.Net
