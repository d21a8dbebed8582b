/-
The read gate of a connection, over whole runs.

`Channel::onRead` discards an `EPOLLIN` edge while `readable_` or `rread_` is set.
An edge that passes sets both; the dispatch clears `rread_` before it calls
`TcpConnection::onRead`, and that function clears `readable_` when it stops. Here
nothing can go wrong as it does with the write gate: every way out of the loop of
`onRead` clears `readable_` or closes the connection, and the function is entered
for every edge that passed.

`InputGate` says so for every state: `readable_` is set only on the way to
`onRead`, or inside of it.
-/
import Libiak.ConnGate

set_option autoImplicit false

namespace Libiak.Net

open Libiak.Run

variable {α : Type*}

/-! ## Where a turn of `onRead` stops -/

/-- What a turn of `onRead` takes to be the room it offers: `size`, by the count of
the tail ring. -/
def onRead.size (io : IoBuffers α) : ℕ :=
  match onRead.prepare io with
  | some t => u32 (u32Sub t.readTail.capacity t.readTail.count + t.next.capacity)
  | none => 0

/-- The results of `readv` that end the loop: an error, the end of the stream, a
count over `size`, and a short one. -/
def Readv.Stops (size : ℕ) : Readv α → Prop
  | .error => True
  | .data bytes => bytes.length = 0 ∨ size < bytes.length ∨ bytes.length < size

section Turn

variable {io : IoBuffers α} {rings rings' : List (Buffer α)}

/-- What the kernel stores does not change how much the rings count. -/
theorem fillIovec_counts {v : Iovec} {xs : List α} (h : fillIovec v xs rings = some rings') :
    rings'.map (fun b => (b.capacity, b.count)) = rings.map fun b => (b.capacity, b.count) := by
  induction rings generalizing rings' with
  | nil => cases h
  | cons b rings ih =>
      rw [fillIovec] at h
      split at h
      · split at h
        · exact (Option.some.inj h) ▸ rfl
        · cases h
      · obtain ⟨rest, hrest, rfl⟩ := Option.map_eq_some_iff.mp h
        rw [List.map_cons, List.map_cons, ih hrest]

theorem readv_counts {iov : List Iovec} {xs : List α} (h : readv iov xs rings = some rings') :
    rings'.map (fun b => (b.capacity, b.count)) = rings.map fun b => (b.capacity, b.count) := by
  induction iov generalizing xs rings with
  | nil =>
      rw [readv] at h
      split at h
      · exact (Option.some.inj h) ▸ rfl
      · cases h
  | cons v iov ih =>
      obtain ⟨rings'', hfill, h⟩ := Option.bind_eq_some_iff.mp h
      rw [ih h, fillIovec_counts hfill]

/-- A turn that brings bytes in or finds the end, as its last part has it. -/
theorem onRead.turn_finish {bytes : List α} {r : IoBuffers α × ReadOutcome}
    (h : onRead.turn io (.data bytes) = some r) :
    ∃ t readTail next, r = onRead.finish io t readTail next bytes.length
      ∧ u32 (u32Sub readTail.capacity readTail.count + next.capacity) = onRead.size io := by
  obtain ⟨turn, hprep, h⟩ := Option.bind_eq_some_iff.mp h
  obtain ⟨stored, hstored, h⟩ := Option.bind_eq_some_iff.mp h
  have hcounts := readv_counts hstored
  unfold onRead.size
  rw [hprep]
  dsimp only at h ⊢
  split at h
  · rename_i readTail next
    simp only [List.map_cons, List.cons.injEq, Prod.mk.injEq] at hcounts
    obtain ⟨⟨htcap, htcount⟩, ⟨hncap, -⟩, -⟩ := hcounts
    refine ⟨turn, readTail, next, (Option.some.inj h).symm, ?_⟩
    rw [htcap, htcount, hncap]
  · cases h

/-- **The loop stops for these results only.** -/
theorem onRead_stops {c : TcpConnection α} {result : Readv α} {t : TcpConnection.Turn α}
    (hio : c.io = some io) (h : c.onRead result = some t) (hstop : t.again = false) :
    result.Stops (onRead.size io) := by
  cases result with
  | error => trivial
  | data bytes =>
      rw [TcpConnection.onRead, hio, Option.bind_eq_bind, Option.bind_some] at h
      obtain ⟨⟨io', outcome⟩, hturn, h⟩ := Option.bind_eq_some_iff.mp h
      obtain ⟨turn, readTail, next, hfinish, hsize⟩ := onRead.turn_finish hturn
      unfold Readv.Stops
      rw [← hsize]
      unfold onRead.finish at hfinish
      by_cases heof : bytes.length = 0
      · exact Or.inl heof
      · right
        by_contra hfull
        rw [not_or, Nat.not_lt, Nat.not_lt] at hfull
        rw [if_neg heof, if_neg (Nat.not_lt_of_le hfull.1), if_neg (Nat.not_lt_of_le hfull.2)]
          at hfinish
        obtain ⟨-, rfl⟩ := Prod.mk.inj hfinish
        rw [← Option.some.inj h] at hstop
        cases hstop

end Turn

namespace Conn

/-! ## The gate -/

/-- On an unclosed connection the gate is set only on the way to `onRead`, or inside
of it; an edge on its way has set it; and input is wanted. -/
structure InputGate (s : Conn α) : Prop where
  gate : s.conn.close_ = false → s.conn.channel_.readable_ = true →
    s.conn.channel_.rread_ = true ∨ s.pc = .reading
  pending : s.conn.channel_.rread_ = true → s.conn.channel_.readable_ = true
  interest : s.conn.close_ = false → s.conn.channel_.read_ = true

theorem inputGate_init (capacity : Capacity) (storage : ℕ → ℕ → α) :
    InputGate (init capacity storage) where
  gate := fun _ h => by cases h
  pending := fun h => by cases h
  interest := fun _ => rfl

/-- What the gate looks at, and that a connection is not opened again. -/
structure SameInput (c c' : TcpConnection α) : Prop where
  close : c'.close_ = false → c.close_ = false
  readable : c'.channel_.readable_ = c.channel_.readable_
  rread : c'.channel_.rread_ = c.channel_.rread_
  read : c'.channel_.read_ = c.channel_.read_

variable {s t : Conn α} {e : Event α}

/-- A step that leaves the gate alone and keeps out of `onRead`, or stays in it. -/
theorem InputGate.frame (h : InputGate s) (hsame : SameInput s.conn t.conn)
    (hpc : s.pc = .reading → t.pc = .reading) : InputGate t where
  gate := by
    intro hopen hreadable
    rw [hsame.readable] at hreadable
    rw [hsame.rread]
    exact (h.gate (hsame.close hopen) hreadable).imp_right hpc
  pending := by
    rw [hsame.rread, hsame.readable]
    exact h.pending
  interest := by
    intro hopen
    rw [hsame.read]
    exact h.interest (hsame.close hopen)

/-- Where the loop is elsewhere, it does not leave `onRead`. -/
theorem InputGate.moved (h : InputGate s) (hsame : SameInput s.conn t.conn) {pc : Pc}
    (hpc : s.pc = pc) (hne : pc ≠ .reading) : InputGate t :=
  h.frame hsame fun hreading => absurd (hpc.symm.trans hreading) hne

/-- Nothing is asked of a closed connection but that an edge sets both flags. -/
theorem inputGate_closed (hclose : t.conn.close_ = true)
    (hpending : t.conn.channel_.rread_ = true → t.conn.channel_.readable_ = true) :
    InputGate t where
  gate := fun hopen => by rw [hclose] at hopen; cases hopen
  pending := hpending
  interest := fun hopen => by rw [hclose] at hopen; cases hopen

/-- Where both flags are clear, input has to be wanted. -/
theorem inputGate_cleared (hreadable : t.conn.channel_.readable_ = false)
    (hrread : t.conn.channel_.rread_ = false)
    (hinterest : t.conn.close_ = false → t.conn.channel_.read_ = true) : InputGate t where
  gate := fun _ h => by rw [hreadable] at h; cases h
  pending := fun h => by rw [hrread] at h; cases h
  interest := hinterest

/-- `onClose` leaves the two flags. -/
theorem onClose_flags (c : TcpConnection α) :
    c.onClose.1.channel_.rread_ = c.channel_.rread_
      ∧ c.onClose.1.channel_.readable_ = c.channel_.readable_ := by
  rw [TcpConnection.onClose]
  split <;> exact ⟨rfl, rfl⟩

theorem sameInput_establishInLoop (c : TcpConnection α) : SameInput c c.establishInLoop.1 := by
  rw [TcpConnection.establishInLoop]
  split <;> exact ⟨id, rfl, rfl, rfl⟩

theorem sameInput_send {c c' : TcpConnection α} {data : List α} {result : Option ℕ}
    (h : c.send data result = some c') : SameInput c c' := by
  rcases (TcpConnection.send_cases h).2 with ⟨-, rfl⟩ | ⟨-, io, r, -, -, rfl⟩
  · exact ⟨id, rfl, rfl, rfl⟩
  · exact ⟨id, rfl, rfl, rfl⟩

theorem sameInput_onWrite {c : TcpConnection α} {result : Option ℕ} {r : TcpConnection.Turn α}
    (h : c.onWrite result = some r) : SameInput c r.conn := by
  obtain ⟨io, u, -, -, ⟨-, rfl⟩ | ⟨-, n, rfl⟩ | ⟨-, n, rfl⟩⟩ := TcpConnection.onWrite_cases h
  · exact ⟨id, rfl, rfl, rfl⟩
  · exact ⟨id, rfl, rfl, rfl⟩
  · exact ⟨id, rfl, rfl, rfl⟩

/-- A turn of `onRead` clears the gate, closes the connection, or is not the last. -/
theorem inputGate_readv {result : Readv α} {r : TcpConnection.Turn α} (h : InputGate s)
    (hrread : s.conn.channel_.rread_ = false) (hr : s.conn.onRead result = some r)
    (hconn : t.conn = r.conn) (hpc : t.pc = if r.again then .reading else .onWrite) :
    InputGate t := by
  obtain ⟨io, u, -, -, ⟨-, rfl⟩ | ⟨-, rfl⟩ | ⟨-, n, rfl⟩ | ⟨-, n, rfl⟩⟩ :=
    TcpConnection.onRead_cases hr
  · apply inputGate_cleared
    · rw [hconn]
      rfl
    · rw [hconn]
      exact hrread
    · rw [hconn]
      exact h.interest
  · obtain ⟨hread, -⟩ := onClose_flags { s.conn with io := some u.1 }
    apply inputGate_closed
    · rw [hconn]
      exact onClose_close _
    · intro hpending
      rw [hconn, hread] at hpending
      exact absurd hpending (by rw [Bool.not_eq_true]; exact hrread)
  · apply inputGate_cleared
    · rw [hconn]
      rfl
    · rw [hconn]
      exact hrread
    · rw [hconn]
      exact h.interest
  · refine ⟨fun _ _ => Or.inr hpc, ?_, ?_⟩
    · rw [hconn]
      exact h.pending
    · rw [hconn]
      exact h.interest

/-- Every step keeps the gate. -/
theorem inputGate_step (hphase : Phase s) (h : InputGate s) (hstep : step s e = some t) :
    InputGate t := by
  cases step_moves hstep with
  | call c => exact h.frame ⟨id, rfl, rfl, rfl⟩ id
  | push i f hf => exact h.frame ⟨id, rfl, rfl, rfl⟩ id
  | peekData data size => exact h
  | readRefused data size => exact h
  | readData data size io io' hio hside => exact h.frame ⟨id, rfl, rfl, rfl⟩ id
  | poll events u hpc hreg hpolled =>
      refine ⟨?_, ?_, ?_⟩
      · intro hopen hreadable
        left
        rcases hpolled.read_gate with ⟨hsame, hsame'⟩ | ⟨-, -, hread, -⟩
        · refine hsame'.trans ((h.gate hopen (hsame.symm.trans hreadable)).resolve_right ?_)
          intro hreading
          rw [hpc] at hreading
          cases hreading
        · exact hread
      · intro hread
        rcases hpolled.read_gate with ⟨hsame, hsame'⟩ | ⟨-, hreadable, -, -⟩
        · exact hsame.trans (h.pending (hsame'.symm.trans hread))
        · exact hreadable
      · intro hopen
        exact hpolled.read_eq.trans (h.interest hopen)
  | swap hpc hlist => exact h.moved ⟨id, rfl, rfl, rfl⟩ hpc (by decide)
  | enter u rest hpc hlist => exact h.moved ⟨id, rfl, rfl, rfl⟩ hpc (by decide)
  | closePending c hpc hc =>
      obtain ⟨hread, hreadable⟩ := onClose_flags c
      apply inputGate_closed (onClose_close c)
      rw [hread, hreadable, hc]
      exact h.pending
  | closeIdle hpc => exact h.moved ⟨id, rfl, rfl, rfl⟩ hpc (by decide)
  | error hpc => exact h.moved ⟨id, rfl, rfl, rfl⟩ hpc (by decide)
  | readPending hpc hread pc hpc' hshut =>
      -- the edge is on its way no more: the gate is set, and this is the way into `onRead`
      refine ⟨fun _ _ => Or.inr ?_, fun hread' => absurd hread' Bool.false_ne_true, h.interest⟩
      apply hpc'.resolve_right
      intro hskip
      have hreadable := hshut hskip
      rw [h.pending hread] at hreadable
      cases hreadable
  | readIdle hpc hread => exact h.moved ⟨id, rfl, rfl, rfl⟩ hpc (by decide)
  | writeIdle hpc hwrite => exact h.moved ⟨id, rfl, rfl, rfl⟩ hpc (by decide)
  | writeNothing hpc hwrite hshut => exact h.moved ⟨id, rfl, rfl, rfl⟩ hpc (by decide)
  | writeEnter hpc hwrite io hio hsize => exact h.moved ⟨id, rfl, rfl, rfl⟩ hpc (by decide)
  | readv result hpc r hr =>
      have hrread := hphase.read_done (hphase.idle (by rw [hpc]; decide)).1 (by rw [hpc]; rfl)
      exact inputGate_readv h hrread hr rfl rfl
  | writev result hpc r hr => exact h.moved (sameInput_onWrite hr) hpc (by decide)
  | batchDone result hpc hnil => exact h.moved ⟨id, rfl, rfl, rfl⟩ hpc (by decide)
  | establishInLoop result rest hpc hf => exact h.frame (sameInput_establishInLoop s.conn) id
  | shutdownInLoop result rest hpc hf => exact h.frame ⟨id, rfl, rfl, rfl⟩ id
  | onClose result rest hpc hf =>
      obtain ⟨hread, hreadable⟩ := onClose_flags s.conn
      apply inputGate_closed (onClose_close s.conn)
      rw [hread, hreadable]
      exact h.pending
  | destroyInLoop result rest hpc hf => exact h.frame ⟨id, rfl, rfl, rfl⟩ id
  | send result data rest hpc hf c hc => exact h.frame (sameInput_send hc) id

/-! ## Runs -/

theorem inputGate_run (capacity : Capacity) (storage : ℕ → ℕ → α) {es : List (Event α)}
    (hrun : run step (init capacity storage) es = some t) : Phase t ∧ InputGate t :=
  run_inv (I := fun s => Phase s ∧ InputGate s)
    (fun _ _ _ h hstep => ⟨phase_step h.1 hstep, inputGate_step h.1 h.2 hstep⟩)
    ⟨phase_init capacity storage, inputGate_init capacity storage⟩ hrun

/-- No edge is lost at `s`: where the loop is about to poll, both flags are clear,
and input that is reported sets them and puts the channel on the list; an edge on
its way leads into the loop of `onRead`; and that loop goes on without an end but
an error, the end of the stream, an over-long count or a short one. -/
structure KeepsEdges (s : Conn α) : Prop where
  clear : s.pc = .poll → s.conn.channel_.readable_ = false ∧ s.conn.channel_.rread_ = false
  accepts : ∀ events t, events.input = true → step s (.poll events) = some t →
    t.conn.channel_.rread_ = true ∧ t.conn.channel_.readable_ = true
      ∧ t.activedChannels_ = [()] ∧ t.pc = .dispatch
  enters : s.pc = .onRead → s.conn.channel_.rread_ = true →
    ∃ t, step s .handle = some t ∧ t.pc = .reading
  stops : ∀ result t, step s (.readv result) = some t → t.pc ≠ .reading →
    ∃ io, s.conn.io = some io ∧ result.Stops (onRead.size io)

/-- **Input edges are never lost.** In every run, whatever the events, the results
of the system calls and the calls of the user, every state of an unclosed
connection keeps its input edges. -/
theorem conn_keepsEdges (capacity : Capacity) (storage : ℕ → ℕ → α) {es : List (Event α)}
    {s : Conn α} (hrun : run step (init capacity storage) es = some s)
    (hopen : s.conn.close_ = false) : KeepsEdges s := by
  obtain ⟨hphase, hgate⟩ := inputGate_run capacity storage hrun
  have hclear : s.pc = .poll →
      s.conn.channel_.readable_ = false ∧ s.conn.channel_.rread_ = false := by
    intro hpc
    have hread := hphase.read_done (hphase.idle (by rw [hpc]; decide)).1 (by rw [hpc]; rfl)
    refine ⟨?_, hread⟩
    rw [← Bool.not_eq_true]
    intro hreadable
    rcases hgate.gate hopen hreadable with h | h
    · rw [hread] at h
      cases h
    · rw [hpc] at h
      cases h
  refine ⟨hclear, ?_, ?_, ?_⟩
  · intro events t hinput hstep
    have hpoll := hstep
    rw [step, poll] at hpoll
    split at hpoll
    · rename_i hguard
      have hraised := Channel.poll_input ()
        (s := (s.conn.channel_, s.activedChannels_)) hinput (hgate.interest hopen)
        (hclear hguard.1).1
      rw [← Option.some.inj hpoll] at hstep ⊢
      have hgate' := inputGate_step hphase hgate hstep
      have hphase' := phase_step hphase hstep
      refine ⟨hraised, hgate'.pending hraised, ?_, rfl⟩
      rcases hphase'.listed with ⟨-, hlist, -⟩ | ⟨hact, -⟩
      · exact hlist
      · rcases hphase'.read_pending hraised with h | h
        · rw [hact] at h
          cases h
        · cases h
    · cases hpoll
  · intro hpc hread
    refine ⟨_, by rw [step, handle, hpc], ?_⟩
    rw [handleRead, if_pos hread, if_pos (hgate.pending hread)]
  · intro result t hstep hstop
    rw [step, readv] at hstep
    split at hstep
    · obtain ⟨r, hr, hstep⟩ := Option.bind_eq_some_iff.mp hstep
      obtain rfl := Option.some.inj hstep
      have hagain : r.again = false := by
        rw [← Bool.not_eq_true]
        intro hagain
        exact hstop (if_pos hagain)
      obtain ⟨io, u, hio, -⟩ := TcpConnection.onRead_cases hr
      exact ⟨io, hio, onRead_stops hio hr hagain⟩
    · cases hstep

/-- Input is reported, and a `readv` returns three bytes, which is short. -/
def receiving : List (Event ℕ) :=
  establishing ++ [.poll ⟨false, false, true, false⟩, .handle, .handle, .handle, .handle,
    .readv (.data [7, 8, 9]), .handle, .handle, .functor none]

/-- The next input is reported, and the loop is about to read it. -/
def receivingAgain : List (Event ℕ) :=
  receiving ++ [.poll ⟨false, false, true, false⟩, .handle, .handle, .handle, .handle]

/-- The connection keeps the edge of the next input, before that has been reported and
after. -/
theorem conn_keepsEdges_receiving :
    (∃ s, run step fresh receiving = some s ∧ s.callbacks = [.connect, .recv 3]
        ∧ s.pc = .poll ∧ KeepsEdges s)
      ∧ ∃ s, run step fresh receivingAgain = some s ∧ s.pc = .reading ∧ KeepsEdges s := by
  have hfirst : (run step fresh receiving).map (fun s => (s.callbacks, s.pc, s.conn.close_))
      = some ([.connect, .recv 3], .poll, false) := by
    decide
  have hsecond : (run step fresh receivingAgain).map (fun s => (s.pc, s.conn.close_))
      = some (.reading, false) := by
    decide
  obtain ⟨s, hs, heq⟩ := Option.map_eq_some_iff.mp hfirst
  obtain ⟨t, ht, heq'⟩ := Option.map_eq_some_iff.mp hsecond
  simp only [Prod.mk.injEq] at heq heq'
  exact ⟨⟨s, hs, heq.1, heq.2.1,
      conn_keepsEdges BufferPool.eventLoopCapacity (fun _ _ => 0) hs heq.2.2⟩,
    t, ht, heq'.1, conn_keepsEdges BufferPool.eventLoopCapacity (fun _ _ => 0) ht heq'.2⟩

end Conn

end Libiak.Net
