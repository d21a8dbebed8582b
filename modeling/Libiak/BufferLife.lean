/-
From which point on the buffer fields of a `TcpConnection` may be read.

The constructor leaves `readHead_`, `readTail_`, `readSize_`, `writeHead_`,
`writeTail_` and `writeSize_` as they are; `establishInLoop` assigns them, and
`establish()` is a call the user makes or does not make. `Conn` is the connection
on its loop, and its buffers are `none` until then. What it does not have is the
end of the connection: `Lifetime` adds the strong pointers of the user, of the
owner and of the functors, and the destructor, which runs when the last of them
is gone.

The channel is registered by `establishInLoop`, so that nothing of it can happen
before: `SetUp` is the invariant, and with it `onRead` and `onWrite` read only
fields that have been assigned. The destructor and `send` have nothing of the
kind. They read what was never assigned exactly where they come to it before
`establishInLoop` has run (`reads_set_iff`).
-/
import Libiak.ConnLife
import Libiak.ConnRefs
import Libiak.IoBounds

set_option autoImplicit false

namespace Libiak.Net

open Libiak.Run

variable {α : Type*}

/-! ## The fields a step reads -/

/-- The fields that the constructor does not assign. -/
inductive BufferField where
  | readHead_
  | readTail_
  | readSize_
  | writeHead_
  | writeTail_
  | writeSize_
  deriving DecidableEq

/-- The fields a turn of the loop of `onRead` reads. It comes to `readSize_` only
with bytes. -/
def onRead.reads : Readv α → List BufferField
  | .data (_ :: _) => [.readTail_, .readSize_]
  | _ => [.readTail_]

/-- The fields a turn of the loop of `onWrite` reads. -/
def onWrite.reads : Option ℕ → List BufferField
  | some _ => [.writeHead_, .writeSize_]
  | none => [.writeHead_]

namespace TcpConnection

/-- Whether a field has been assigned: `establishInLoop` assigns all of them. -/
def isSet (c : TcpConnection α) : BufferField → Bool
  | .readHead_ | .readTail_ | .readSize_ | .writeHead_ | .writeTail_ | .writeSize_ => c.io.isSome

/-- The bytes `send` has left when `::write` has returned `result`. -/
def left (data : List α) : Option ℕ → List α
  | none => data
  | some writesize => if u32 writesize < data.length then data.drop writesize else []

variable {c : TcpConnection α}

/-- `send` comes to the fields only with bytes that are left. -/
theorem send_eq_none {data : List α} {result : Option ℕ} (hio : c.io = none)
    (hleft : left data result ≠ []) : c.send data result = none := by
  have hbuffered : ∀ xs : List α, xs ≠ [] → c.buffered xs = none := by
    intro xs hxs
    have hlen : xs.length ≠ 0 := fun h0 => hxs (List.eq_nil_of_length_eq_zero h0)
    simp only [buffered, hio, if_neg hlen]
  cases result with
  | none => exact hbuffered data hleft
  | some writesize =>
      simp only [left] at hleft
      split at hleft
      · rename_i hlt
        simp only [send, if_pos hlt, hbuffered _ hleft, ite_self]
      · exact absurd rfl hleft

end TcpConnection

namespace Conn

/-- The buffer fields a step reads. -/
def reads (s : Conn α) : Event α → List BufferField
  | .handle =>
      if s.pc = .onWrite ∧ s.conn.channel_.rwrite_ = true ∧ s.conn.channel_.writeable_ = true then
        [.writeSize_]
      else []
  | .readv result => if s.pc = .reading then onRead.reads result else []
  | .writev result => if s.pc = .writing then onWrite.reads result else []
  | .functor result =>
      match s.functors with
      | .send data :: _ =>
          if s.pc = .functors ∧ 0 < (TcpConnection.left data result).length then
            [.writeTail_, .writeSize_]
          else []
      | _ => []
  | _ => []

/-- A step that would read a field before it is assigned has no successor. -/
theorem step_eq_none {s : Conn α} {e : Event α} (hio : s.conn.io = none) (hreads : s.reads e ≠ []) :
    step s e = none := by
  cases e with
  | handle =>
      obtain ⟨⟨hpc, hwrite, hopen⟩, -⟩ :=
        Decidable.not_imp_iff_and_not.mp fun h => hreads (if_neg h)
      simp [step, handle, hpc, handleWrite, hwrite, hopen, hio]
  | readv result =>
      by_cases hpc : s.pc = .reading
      · simp [step, readv, hpc, TcpConnection.onRead, hio]
      · exact absurd (if_neg hpc) hreads
  | writev result =>
      by_cases hpc : s.pc = .writing
      · simp [step, writev, hpc, TcpConnection.onWrite, hio]
      · exact absurd (if_neg hpc) hreads
  | functor result =>
      simp only [reads] at hreads
      split at hreads
      · rename_i data rest hf
        split at hreads
        · rename_i h
          have hleft : TcpConnection.left data result ≠ [] := List.ne_nil_of_length_pos h.2
          simp [step, functor, h.1, hf, TcpConnection.send_eq_none hio hleft]
        · exact absurd rfl hreads
      · exact absurd rfl hreads
  | call c => exact absurd rfl hreads
  | push i => exact absurd rfl hreads
  | peekData data size => exact absurd rfl hreads
  | readData data size => exact absurd rfl hreads
  | poll events => exact absurd rfl hreads

/-! ## Where the buffers are -/

/-- The buffers of an established connection have been set up, and the loop has
events of no other connection. -/
structure SetUp (s : Conn α) : Prop where
  io_set : s.conn.establish_ = true → s.conn.io.isSome = true
  busy : Busy s → s.conn.establish_ = true

theorem setUp_init (capacity : Capacity) (storage : ℕ → ℕ → α) : SetUp (init capacity storage) where
  io_set := fun h => by cases h
  busy := (life_init capacity storage).busy

section Step

variable {s t : Conn α} {e : Event α}

theorem SetUp.isSet_iff (h : SetUp s) : s.conn.io.isSome = true ↔ s.conn.establish_ = true := by
  refine ⟨fun hio => h.busy ?_, h.io_set⟩
  obtain ⟨io, hio⟩ := Option.isSome_iff_exists.mp hio
  exact busy_of_io hio

/-- A step that leaves the flag and takes no buffers away. -/
theorem SetUp.congr (h : SetUp s) (hbusy : Busy t → t.conn.establish_ = true)
    (hest : t.conn.establish_ = s.conn.establish_)
    (hio : s.conn.io.isSome = true → t.conn.io.isSome = true) : SetUp t where
  io_set := fun htrue => hio (h.io_set (hest.symm.trans htrue))
  busy := hbusy

/-- **Every step keeps `SetUp`.** -/
theorem setUp_step (h : SetUp s) (hstep : step s e = some t) : SetUp t := by
  have hbusy := busy_step h.busy hstep
  cases step_moves hstep with
  | call c => exact h.congr hbusy rfl id
  | push i f hf => exact h.congr hbusy rfl id
  | peekData data size => exact h
  | readRefused data size => exact h
  | readData data size io io' hio hside => exact h.congr hbusy rfl fun _ => rfl
  | poll events u hpc hreg hpolled => exact h.congr hbusy rfl id
  | swap hpc hlist => exact h.congr hbusy rfl id
  | enter u rest hpc hlist => exact h.congr hbusy rfl id
  | closePending c hpc hc =>
      apply h.congr hbusy
      · simp only [TcpConnection.onClose_establish, hc]
      · simp only [TcpConnection.onClose_io, hc]
        exact id
  | closeIdle hpc => exact h.congr hbusy rfl id
  | error hpc => exact h.congr hbusy rfl id
  | readPending hpc hread pc hpc' hshut => exact h.congr hbusy rfl id
  | readIdle hpc hread => exact h.congr hbusy rfl id
  | writeIdle hpc hwrite => exact h.congr hbusy rfl id
  | writeNothing hpc hwrite hshut => exact h.congr hbusy rfl id
  | writeEnter hpc hwrite io hio hsize => exact h.congr hbusy rfl id
  | readv result hpc r hr =>
      obtain ⟨io, u, -, -, ⟨-, rfl⟩ | ⟨-, rfl⟩ | ⟨-, n, rfl⟩ | ⟨-, n, rfl⟩⟩ :=
        TcpConnection.onRead_cases hr
      · exact h.congr hbusy rfl fun _ => rfl
      · apply h.congr hbusy
        · simp only [TcpConnection.onClose_establish]
        · simp only [TcpConnection.onClose_io, Option.isSome_some, implies_true]
      · exact h.congr hbusy rfl fun _ => rfl
      · exact h.congr hbusy rfl fun _ => rfl
  | writev result hpc r hr =>
      obtain ⟨io, u, -, -, ⟨-, rfl⟩ | ⟨-, n, rfl⟩ | ⟨-, n, rfl⟩⟩ :=
        TcpConnection.onWrite_cases hr
      · exact h.congr hbusy rfl fun _ => rfl
      · exact h.congr hbusy rfl fun _ => rfl
      · exact h.congr hbusy rfl fun _ => rfl
  | batchDone result hpc hnil => exact h.congr hbusy rfl id
  | establishInLoop result rest hpc hf =>
      -- the flag and the buffers are set together
      refine ⟨fun _ => ?_, hbusy⟩
      rw [TcpConnection.establishInLoop]
      cases hest : s.conn.establish_ with
      | true => exact h.io_set hest
      | false => rfl
  | shutdownInLoop result rest hpc hf => exact h.congr hbusy rfl id
  | onClose result rest hpc hf =>
      apply h.congr hbusy
      · simp only [TcpConnection.onClose_establish]
      · simp only [TcpConnection.onClose_io]
        exact id
  | destroyInLoop result rest hpc hf => exact h.congr hbusy rfl id
  | send result data rest hpc hf c hc =>
      obtain ⟨-, ⟨-, rfl⟩ | ⟨-, io, r, hio, -, rfl⟩⟩ := TcpConnection.send_cases hc
      · exact h.congr hbusy rfl id
      · exact h.congr hbusy rfl fun _ => rfl

/-- **The handlers of the channel** read the fields of no connection that is not
established. -/
theorem SetUp.of_reads (h : SetUp s) (hreads : s.reads e ≠ [])
    (hfunctor : ∀ result, e ≠ .functor result) : s.conn.establish_ = true := by
  apply h.busy
  apply busy_of_handler
  cases e with
  | handle =>
      obtain ⟨⟨hpc, -, -⟩, -⟩ := Decidable.not_imp_iff_and_not.mp fun h => hreads (if_neg h)
      rw [hpc]
      rfl
  | readv result =>
      have hpc : s.pc = .reading := by
        by_contra hpc
        exact hreads (if_neg hpc)
      rw [hpc]
      rfl
  | writev result =>
      have hpc : s.pc = .writing := by
        by_contra hpc
        exact hreads (if_neg hpc)
      rw [hpc]
      rfl
  | functor result => exact absurd rfl (hfunctor result)
  | call c => exact absurd rfl hreads
  | push i => exact absurd rfl hreads
  | peekData data size => exact absurd rfl hreads
  | readData data size => exact absurd rfl hreads
  | poll events => exact absurd rfl hreads

/-- Of the functors only a `send` with bytes left reads the fields. -/
theorem reads_functor {result : Option ℕ} : s.reads (.functor result) ≠ []
    ↔ ∃ data rest, s.pc = .functors ∧ s.functors = .send data :: rest
      ∧ TcpConnection.left data result ≠ [] := by
  constructor
  · intro hreads
    simp only [reads] at hreads
    split at hreads
    · rename_i data rest hf
      split at hreads
      · rename_i h
        exact ⟨data, rest, h.1, hf, List.ne_nil_of_length_pos h.2⟩
      · exact absurd rfl hreads
    · exact absurd rfl hreads
  · rintro ⟨data, rest, hpc, hf, hleft⟩
    have hlen := List.length_pos_of_ne_nil hleft
    simp only [reads, hf, if_pos (And.intro hpc hlen)]
    exact List.cons_ne_nil _ _

end Step

end Conn

/-! ## The whole life of a connection -/

/-- The functor holds the connection. That of `sendPack` binds `this`. -/
def Functor.holds : Functor α → Bool
  | .send _ => false
  | _ => true

/-- A connection with those who hold it. `owned` says that it is in
`TcpServer::connections_` or in `TcpClient::connection_`; `user` are the user's
pointers, through which the calls in `conn.callers` are made; `removals` are the
functors `removeConnection` in the server's queue and `removed` those that have
run in the batch its loop is in; `ran` are the functors that have run in the
batch of the connection's own loop. -/
structure Lifetime (α : Type*) where
  conn : Conn α
  closeCallback_ : CloseCallback
  owned : Bool
  user : ℕ
  removals : ℕ
  removed : ℕ
  ran : List (Functor α)
  destroyed : Bool

/-- What can happen next: what happens to a connection on its loop, what the user
does with its pointers, the owner going away, the server's loop running a
`removeConnection` and coming to the end of its batch, and the destructor. -/
inductive LifetimeEvent (α : Type*) where
  | conn (e : Event α)
  | copy
  | drop
  | release
  | removeConnection
  | batchDone
  | destructor

namespace Lifetime

/-- A connection `TcpServer::onAccept` or `TcpClient::onConnect` has just made,
with the pointer it has for `connectCallback_`. -/
def init (capacity : Capacity) (storage : ℕ → ℕ → α) (callback : CloseCallback) : Lifetime α :=
  { conn := Conn.init capacity storage, closeCallback_ := callback, owned := true, user := 1
    removals := 0, removed := 0, ran := [], destroyed := false }

/-- Somebody has a pointer to the connection. -/
def Held (s : Lifetime α) : Prop :=
  s.owned = true ∨ 0 < s.user ∨ 0 < s.removals + s.removed
    ∨ ∃ f ∈ s.conn.pendingFunctors_ ++ s.conn.functors ++ s.ran, f.holds = true

instance (s : Lifetime α) : Decidable s.Held :=
  inferInstanceAs (Decidable (_ ∨ _ ∨ _ ∨ ∃ f ∈ _, Functor.holds f = true))

/-- `TcpConnection::destroy`, which is called by the owner alone. -/
def destroy (s : Lifetime α) : Lifetime α :=
  { s with conn := { s.conn with
      pendingFunctors_ := s.conn.pendingFunctors_ ++ [.destroyInLoop] } }

/-- `TcpConnection::closeCallback_`: `TcpServer::onClose` or `TcpClient::onClose`,
as far as the connection is concerned. -/
def closeCallback (s : Lifetime α) : Lifetime α :=
  match s.closeCallback_ with
  | .ofServer _ => { s with removals := s.removals + 1 }
  | .ofClient => if s.owned then { s.destroy with owned := false } else s

/-- `TcpServer::removeConnection`. -/
def removeConnection (s : Lifetime α) : Option (Lifetime α) :=
  if 0 < s.removals then
    some { s.destroy with owned := false, removals := s.removals - 1, removed := s.removed + 1 }
  else none

/-- `TcpServer::~TcpServer` or `TcpClient::~TcpClient`. -/
def release (s : Lifetime α) : Option (Lifetime α) :=
  if s.owned then some { s.destroy with owned := false } else none

/-- `TcpConnection::~TcpConnection`. -/
def destructor (s : Lifetime α) : Option (Lifetime α) :=
  s.conn.conn.io.bind fun io => io.destroy.map fun _ => { s with destroyed := true }

/-- What the user calls it calls through a pointer no other call is made through,
and `destroy` it cannot call. -/
def Permits (s : Lifetime α) : Event α → Prop
  | .call .destroy => False
  | .call _ | .peekData _ _ | .readData _ _ => s.conn.callers.length < s.user
  | _ => True

instance (s : Lifetime α) : (e : Event α) → Decidable (s.Permits e)
  | .call .destroy => isFalse id
  | .call .establish | .call .shutdown | .call .close | .call (.sendPack _) | .peekData _ _
  | .readData _ _ => inferInstanceAs (Decidable (s.conn.callers.length < s.user))
  | .push _ | .poll _ | .handle | .readv _ | .writev _ | .functor _ => isTrue trivial

/-- The functors that have run in the batch, after an event. -/
def ranAfter (s : Lifetime α) : Event α → List (Functor α)
  | .functor _ => match s.conn.functors with | [] => [] | f :: _ => s.ran ++ [f]
  | _ => s.ran

/-- A step of the connection on its loop. Every callback hands the user a
pointer, and an `onClose` that was not a second one has called
`closeCallback_`. -/
def onLoop (s : Lifetime α) (e : Event α) : Option (Lifetime α) :=
  if s.Permits e then
    (Conn.step s.conn e).map fun conn =>
      let t := { s with
        conn := conn, ran := s.ranAfter e
        user := s.user + (conn.callbacks.length - s.conn.callbacks.length) }
      if !s.conn.conn.close_ && conn.conn.close_ then t.closeCallback else t
  else none

/-- Until the last pointer is gone anything can happen but the destructor, and
then the destructor and nothing else. -/
def step (s : Lifetime α) : LifetimeEvent α → Option (Lifetime α)
  | .destructor => if s.destroyed = false ∧ ¬ s.Held then s.destructor else none
  | .conn e => if s.Held then s.onLoop e else none
  | .copy => if 0 < s.user then some { s with user := s.user + 1 } else none
  | .drop =>
      if s.conn.callers.length < s.user then some { s with user := s.user - 1 } else none
  | .release => s.release
  | .removeConnection => s.removeConnection
  | .batchDone => some { s with removed := 0 }

/-- The buffer fields a step reads. -/
def reads (s : Lifetime α) : LifetimeEvent α → List BufferField
  | .conn e => if s.Held then s.conn.reads e else []
  | .destructor => if s.destroyed = false ∧ ¬ s.Held then [.readHead_, .writeHead_] else []
  | _ => []

/-- Every field a step reads has been assigned. -/
def ReadsSet (s : Lifetime α) (e : LifetimeEvent α) : Prop :=
  ∀ f ∈ s.reads e, s.conn.conn.isSet f = true

instance (s : Lifetime α) (e : LifetimeEvent α) : Decidable (s.ReadsSet e) :=
  inferInstanceAs (Decidable (∀ f ∈ s.reads e, _))

/-- `establishInLoop` has run where the destructor does, and where a `send` has
bytes left after its `::write`. -/
def Established (s : Lifetime α) : LifetimeEvent α → Prop
  | .destructor => s.destroyed = false → ¬ s.Held → s.conn.conn.establish_ = true
  | .conn (.functor result) => ∀ data rest, s.Held → s.conn.pc = .functors →
      s.conn.functors = .send data :: rest → TcpConnection.left data result ≠ [] →
      s.conn.conn.establish_ = true
  | _ => True

section Step

variable {s t : Lifetime α} {e : LifetimeEvent α}

theorem isSet_iff {c : TcpConnection α} (f : BufferField) :
    c.isSet f = true ↔ c.io.isSome = true := by
  cases f <;> exact Iff.rfl

/-- Once a connection is set up, all that is asked is that a step that reads
anything at all finds it established. -/
theorem readsSet_iff (h : s.conn.SetUp) :
    s.ReadsSet e ↔ (s.reads e ≠ [] → s.conn.conn.establish_ = true) := by
  unfold ReadsSet
  constructor
  · intro hset hne
    obtain ⟨f, hf⟩ := List.exists_mem_of_ne_nil _ hne
    exact h.isSet_iff.mp ((isSet_iff f).mp (hset f hf))
  · intro hest f hf
    exact (isSet_iff f).mpr (h.io_set (hest (List.ne_nil_of_mem hf)))

/-- In a state of a run a step reads assigned fields alone exactly when it meets
the condition. -/
theorem readsSet_iff_established (h : s.conn.SetUp) : s.ReadsSet e ↔ s.Established e := by
  rw [readsSet_iff h]
  cases e with
  | conn e =>
      by_cases hfunctor : ∃ result, e = .functor result
      · obtain ⟨result, rfl⟩ := hfunctor
        constructor
        · intro hest data rest hheld hpc hf hleft
          apply hest
          simp only [reads, if_pos hheld]
          exact Conn.reads_functor.mpr ⟨data, rest, hpc, hf, hleft⟩
        · intro hest hreads
          by_cases hheld : s.Held
          · simp only [reads, if_pos hheld] at hreads
            obtain ⟨data, rest, hpc, hf, hleft⟩ := Conn.reads_functor.mp hreads
            exact hest data rest hheld hpc hf hleft
          · exact absurd (if_neg hheld) hreads
      · -- the channel is registered by `establishInLoop`, and nothing else reads
        have hreads : s.reads (.conn e) ≠ [] → s.conn.conn.establish_ = true := by
          intro hreads
          by_cases hheld : s.Held
          · simp only [reads, if_pos hheld] at hreads
            exact h.of_reads hreads fun result heq => hfunctor ⟨result, heq⟩
          · exact absurd (if_neg hheld) hreads
        refine iff_of_true hreads ?_
        cases e with
        | functor result => exact absurd ⟨result, rfl⟩ hfunctor
        | _ => trivial
  | destructor =>
      constructor
      · intro hest halive hheld
        apply hest
        simp only [reads, if_pos (And.intro halive hheld)]
        exact List.cons_ne_nil _ _
      · intro hest hreads
        by_cases hgone : s.destroyed = false ∧ ¬ s.Held
        · exact hest hgone.1 hgone.2
        · exact absurd (if_neg hgone) hreads
  | copy => exact iff_of_true (fun hreads => absurd rfl hreads) trivial
  | drop => exact iff_of_true (fun hreads => absurd rfl hreads) trivial
  | release => exact iff_of_true (fun hreads => absurd rfl hreads) trivial
  | removeConnection => exact iff_of_true (fun hreads => absurd rfl hreads) trivial
  | batchDone => exact iff_of_true (fun hreads => absurd rfl hreads) trivial

theorem setUp_destroy (h : s.conn.SetUp) : s.destroy.conn.SetUp := h.congr h.busy rfl id

theorem setUp_closeCallback (h : s.conn.SetUp) : s.closeCallback.conn.SetUp := by
  unfold closeCallback
  split
  · exact h
  · split
    · exact setUp_destroy h
    · exact h

/-- What the owner and the user do is nothing to the buffers. -/
theorem setUp_step (h : s.conn.SetUp) (hs : step s e = some t) : t.conn.SetUp := by
  cases e with
  | conn e =>
      obtain ⟨-, hloop⟩ := Option.ite_none_right_eq_some.mp hs
      obtain ⟨-, hloop⟩ := Option.ite_none_right_eq_some.mp hloop
      obtain ⟨conn, hconn, rfl⟩ := Option.map_eq_some_iff.mp hloop
      have hnext := Conn.setUp_step h hconn
      simp only
      split
      · exact setUp_closeCallback hnext
      · exact hnext
  | copy =>
      obtain ⟨-, ht⟩ := Option.ite_none_right_eq_some.mp hs
      exact Option.some.inj ht ▸ h
  | drop =>
      obtain ⟨-, ht⟩ := Option.ite_none_right_eq_some.mp hs
      exact Option.some.inj ht ▸ h
  | release =>
      obtain ⟨-, ht⟩ := Option.ite_none_right_eq_some.mp hs
      exact Option.some.inj ht ▸ setUp_destroy h
  | removeConnection =>
      obtain ⟨-, ht⟩ := Option.ite_none_right_eq_some.mp hs
      exact Option.some.inj ht ▸ setUp_destroy h
  | batchDone => exact Option.some.inj hs ▸ h
  | destructor =>
      obtain ⟨-, ht⟩ := Option.ite_none_right_eq_some.mp hs
      obtain ⟨io, -, ht⟩ := Option.bind_eq_some_iff.mp ht
      obtain ⟨pool, -, rfl⟩ := Option.map_eq_some_iff.mp ht
      exact h

end Step

/-- **The buffer fields are read assigned exactly as far as the destructor and the
short sends come after `establishInLoop`.** In every run of a connection of a
server or of a client, of any calls and pointers of the user, any queue and any
events and answers of the kernel, from its making up to its destruction: no step
reads a field that has not been assigned if and only if `establishInLoop` has run
wherever the destructor does and wherever a `send` has bytes left after its
`::write`. In particular `onRead` and `onWrite` never do. -/
theorem reads_set_iff (capacity : Capacity) (storage : ℕ → ℕ → α) (callback : CloseCallback)
    (es : List (LifetimeEvent α)) :
    Along step ReadsSet (init capacity storage callback) es
      ↔ Along step Established (init capacity storage callback) es :=
  along_iff_of_inv (I := fun s => s.conn.SetUp) (fun _ _ h => readsSet_iff_established h)
    (fun _ _ _ h hs => setUp_step h hs) (Conn.setUp_init capacity storage)

/-- A connection of a server nobody calls `establish` on: the user lets go of it,
and the server of the last pointer. -/
def dropped : List (LifetimeEvent ℕ) :=
  [.drop, .release, .conn (.poll Events.none), .conn .handle, .conn (.functor none),
    .conn (.functor none), .destructor]

/-- A `sendPack` before any `establish`, whose `::write` fails. -/
def unsent : List (LifetimeEvent ℕ) :=
  [.conn (.call (.sendPack [7])), .conn (.push 0), .conn (.poll Events.none), .conn .handle,
    .conn (.functor none)]

/-- The destructor of the first and the `send` of the second read what has never
been assigned. -/
theorem reads_unset :
    ¬ Along step ReadsSet (init BufferPool.eventLoopCapacity (fun _ _ => 0) (.ofServer 5)) dropped
      ∧ ¬ Along step ReadsSet
        (init BufferPool.eventLoopCapacity (fun _ _ => 0) (.ofServer 5)) unsent := by
  decide

end Lifetime

end Libiak.Net
