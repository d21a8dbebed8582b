/-
The bytes a connection sends, over whole runs.

`send` writes straight to the socket and buffers what the kernel does not take;
`onWrite` drains the buffers. `send` does not look at `writeSize_` first, so a
payload can reach the socket while the rest of an earlier one is still in the
write chain. When exactly that happens is a matter of what the kernel answered
before, and the answers are in the history of system calls: `leftOver` adds up
what `::write` did not take of each payload, and takes off what `::writev` took
since. So payloads go out in order if and only if each is passed to `::write` when
nothing is left over of those before it (`conn_order_iff`).

Two more defects of the write path have to be kept out of the account
(`Undisturbed`): `writev` may be offered the stale bytes of a drained head ring, and
a payload of `2 ^ 32` bytes is not counted right.
-/
import Libiak.ConnGate
import Libiak.WriteStream

set_option autoImplicit false

namespace Libiak.Net

open Libiak.Run

variable {α : Type*}

/-! ## What the answers leave over -/

/-- What is left over after a call, when `n` bytes were before: `::write` leaves what it
does not take of its payload, and `::writev` takes. -/
def SysCall.book (n : ℕ) : SysCall → ℕ
  | .write size result => n + (size - result.getD 0)
  | .writev result => n - result.getD 0
  | .epollWait _ | .readv _ | .shutdownWrite => n

/-- What `::write` did not take and `::writev` has not taken since, by what the two
answered. -/
def leftOver (calls : List SysCall) : ℕ := calls.foldl SysCall.book 0

theorem leftOver_append (calls : List SysCall) (c : SysCall) :
    leftOver (calls ++ [c]) = c.book (leftOver calls) := by
  rw [leftOver, List.foldl_append]
  rfl

/-- A payload is passed to `::write` when nothing is left over of those before. -/
def SysCall.InTurn (before : List SysCall) : SysCall → Prop
  | .write size _ => size ≠ 0 → leftOver before = 0
  | .epollWait _ | .readv _ | .writev _ | .shutdownWrite => True

instance (before : List SysCall) : (c : SysCall) → Decidable (c.InTurn before)
  | .write size _ => inferInstanceAs (Decidable (size ≠ 0 → leftOver before = 0))
  | .epollWait _ | .readv _ | .writev _ | .shutdownWrite => isTrue trivial

namespace Conn

/-! ## The write chain -/

/-- What every run keeps: the write chain is right, and `writeSize_` is no less than
what is in it. -/
structure Sent (s : Conn α) : Prop where
  unset : Unset s
  pool : ∃ capacity storage, s.conn.bufferPool_ = BufferPool.make capacity storage
  chain : ∀ io, s.conn.io = some io →
    WriteShape io ∧ (content io.writeHead_).length ≤ io.writeSize_

theorem sent_init (capacity : Capacity) (storage : ℕ → ℕ → α) :
    Sent (init capacity storage) where
  unset := fun _ => rfl
  pool := ⟨capacity, storage, rfl⟩
  chain := fun io hio => by cases hio

/-- The write chain of a connection, before the buffers exist nothing. -/
def buffered (s : Conn α) : List α := (s.conn.io.map fun io => content io.writeHead_).getD []

theorem buffered_of_some {s : Conn α} {io : IoBuffers α} (h : s.conn.io = some io) :
    s.buffered = content io.writeHead_ := by
  rw [buffered, h]
  rfl

theorem Sent.length_buffered {s : Conn α} (h : Sent s) : s.buffered.length ≤ s.writeSize := by
  cases hio : s.conn.io with
  | none =>
      rw [buffered, hio]
      exact Nat.zero_le _
  | some io =>
      rw [buffered_of_some hio, writeSize_of_some hio]
      exact (h.chain io hio).2

/-- The answers account for `writeSize_`. -/
def Booked (s : Conn α) : Prop := s.writeSize = leftOver s.calls

/-- The payloads of a queue, in order. -/
def payloads (functors : List (Functor α)) : List α := functors.flatMap Functor.payload

/-- The bytes of the socket, of the write chain and of the payloads still
queued are those pushed, in order. -/
structure Stream (s : Conn α) : Prop where
  order : s.stream ++ s.buffered ++ payloads s.functors ++ payloads s.pendingFunctors_ = s.pushed
  batch : s.pc ≠ .functors → s.functors = []

/-- A `send` passes bytes to `::write` only while nothing is buffered. -/
def InOrder (s : Conn α) : Event α → Prop
  | .functor _ => ∀ data rest, s.pc = .functors → s.functors = .send data :: rest → data ≠ [] →
      s.writeSize = 0 ∧ s.buffered = []
  | _ => True

/-- What a step passes to `::write` is in turn. -/
def InTurn (s : Conn α) (e : Event α) : Prop := ∀ c ∈ s.syscall e, c.InTurn s.calls

instance (s : Conn α) (e : Event α) : Decidable (s.InTurn e) :=
  inferInstanceAs (Decidable (∀ c ∈ s.syscall e, c.InTurn s.calls))

theorem inTurn_of_none {s : Conn α} {e : Event α} (h : s.syscall e = none) : s.InTurn e := by
  intro c hc
  rw [h] at hc
  cases hc

/-- `writev` takes no bytes while the head ring is drained, and a payload is counted
in 32 bits. -/
def Undisturbed (s : Conn α) : Event α → Prop
  | .writev result => ∀ io, s.conn.io = some io → result.getD 0 = 0 ∨ WriteSound io
  | .functor _ => ∀ data rest, s.functors = .send data :: rest → data.length < 2 ^ 32
  | _ => True

/-- A condition on the payload of the next `send` can be evaluated. -/
instance decidableNextSend (functors : List (Functor α)) (P : List α → Prop)
    [∀ data, Decidable (P data)] :
    Decidable (∀ data rest, functors = .send data :: rest → P data) :=
  match functors with
  | .send data :: _ => decidable_of_iff (P data)
      ⟨fun h _ _ heq => by cases heq; exact h, fun h => h data _ rfl⟩
  | [] => isTrue fun _ _ heq => by cases heq
  | .establishInLoop :: _ => isTrue fun _ _ heq => by cases heq
  | .shutdownInLoop :: _ => isTrue fun _ _ heq => by cases heq
  | .onClose :: _ => isTrue fun _ _ heq => by cases heq
  | .destroyInLoop :: _ => isTrue fun _ _ heq => by cases heq

instance (s : Conn α) : (e : Event α) → Decidable (s.Undisturbed e)
  | .functor _ => decidableNextSend s.functors fun data => data.length < 2 ^ 32
  | .writev result => inferInstanceAs
      (Decidable (∀ io, s.conn.io = some io → result.getD 0 = 0 ∨ WriteSound io))
  | .call _ | .push _ | .peekData _ _ | .readData _ _ | .poll _ | .handle | .readv _ =>
      isTrue trivial

section Step

variable {s t : Conn α} {e : Event α}

/-- A step that leaves the buffers alone. -/
theorem Sent.congr (h : Sent s) (hunset : Unset t) (hpool : t.conn.bufferPool_ = s.conn.bufferPool_)
    (hio : t.conn.io = s.conn.io) : Sent t where
  unset := hunset
  pool := by rw [hpool]; exact h.pool
  chain := by rw [hio]; exact h.chain

/-- A step that works on the read path. -/
theorem Sent.of_side (h : Sent s) {io io' : IoBuffers α} (hunset : Unset t)
    (hpool : t.conn.bufferPool_ = s.conn.bufferPool_) (hio : s.conn.io = some io)
    (hio' : t.conn.io = some io') (hside : WriteSide io io') : Sent t where
  unset := hunset
  pool := by rw [hpool]; exact h.pool
  chain := fun u hu => by
    obtain rfl := Option.some.inj (hio'.symm.trans hu)
    obtain ⟨hshape, hlen⟩ := h.chain io hio
    exact ⟨hshape.of_side hside, by rw [hside.head_eq, hside.size_eq]; exact hlen⟩

/-- The buffers after a turn of `onRead`. -/
theorem onRead_io {c : TcpConnection α} {result : Readv α} {u : TcpConnection.Turn α}
    (h : c.onRead result = some u) : ∃ io io', c.io = some io ∧ u.conn.io = some io'
      ∧ WriteSide io io' ∧ u.conn.bufferPool_ = c.bufferPool_ := by
  obtain ⟨io, r, hio, hturn, hcases⟩ := TcpConnection.onRead_cases h
  have hside := onRead.turn_writeSide hturn
  rcases hcases with ⟨-, rfl⟩ | ⟨-, rfl⟩ | ⟨-, n, rfl⟩ | ⟨-, n, rfl⟩
  · exact ⟨io, r.1, hio, rfl, hside, rfl⟩
  · exact ⟨io, r.1, hio, TcpConnection.onClose_io _, hside, TcpConnection.onClose_bufferPool _⟩
  · exact ⟨io, r.1, hio, rfl, hside, rfl⟩
  · exact ⟨io, r.1, hio, rfl, hside, rfl⟩

/-- The buffers after a turn of `onWrite`: the `n` bytes it counts are gone, and
they are all the kernel took unless it took more than there were. -/
theorem onWrite_io {c : TcpConnection α} {result : Option ℕ} {u : TcpConnection.Turn α}
    {io : IoBuffers α} (hio : c.io = some io) (hshape : WriteShape io)
    (h : c.onWrite result = some u) :
    ∃ io' bytes n, u.conn.io = some io' ∧ u.conn.bufferPool_ = c.bufferPool_ ∧ WriteShape io'
      ∧ content io'.writeHead_ = (content io.writeHead_).drop n
      ∧ io'.writeSize_ = sizeSub io.writeSize_ n ∧ n ≤ (onWrite.pending io).length
      ∧ onWrite.offer io = some bytes ∧ result.getD 0 ≤ bytes.length
      ∧ (n = result.getD 0 ∨ (onWrite.pending io).length < result.getD 0) := by
  obtain ⟨io₀, hio₀, h⟩ := Option.bind_eq_some_iff.mp h
  obtain rfl := Option.some.inj (hio.symm.trans hio₀)
  obtain ⟨⟨io', outcome⟩, hturn, h⟩ := Option.bind_eq_some_iff.mp h
  obtain ⟨bytes, hoffer, hle, hcases⟩ := onWrite.turn_cases hshape hturn
  rcases hcases with ⟨heq, h0⟩ | ⟨heq, hgt⟩ | ⟨hcnt, hout, hshape', hcontent, hsize⟩
  · obtain ⟨rfl, rfl⟩ := Prod.mk.inj heq
    obtain rfl := Option.some.inj h
    exact ⟨io', bytes, 0, rfl, rfl, hshape, rfl, rfl, Nat.zero_le _, hoffer, hle, Or.inl h0.symm⟩
  · obtain ⟨rfl, rfl⟩ := Prod.mk.inj heq
    obtain rfl := Option.some.inj h
    exact ⟨io', bytes, 0, rfl, rfl, hshape, rfl, rfl, Nat.zero_le _, hoffer, hle, Or.inr hgt⟩
  · have hu : u.conn.io = some io' ∧ u.conn.bufferPool_ = c.bufferPool_ := by
      rcases hout with rfl | rfl
      · exact (Option.some.inj h) ▸ ⟨rfl, rfl⟩
      · exact (Option.some.inj h) ▸ ⟨rfl, rfl⟩
    exact ⟨io', bytes, result.getD 0, hu.1, hu.2, hshape', hcontent, hsize, hcnt, hoffer, hle,
      Or.inl rfl⟩

/-- The buffers after a `send` that did not write all of its data. -/
theorem send_io {c c' : TcpConnection α} {data : List α} {result : Option ℕ}
    (hchain : ∀ io, c.io = some io →
      WriteShape io ∧ (content io.writeHead_).length ≤ io.writeSize_)
    (h : c.send data result = some c') :
    (data.length ≤ result.getD 0 ∧ c' = c)
      ∨ (result.getD 0 < data.length ∧ ∃ io io', c.io = some io ∧ c' = { c with io := some io' }
        ∧ WriteShape io' ∧ (content io'.writeHead_).length ≤ io'.writeSize_
        ∧ io'.writeSize_ = io.writeSize_ + (data.length - result.getD 0)
        ∧ (data.length < 2 ^ 32 → content io'.writeHead_
            = content io.writeHead_ ++ data.drop (result.getD 0))) := by
  obtain ⟨-, hall | ⟨hlt, io, r, hio, hdata, rfl⟩⟩ := TcpConnection.send_cases h
  · exact Or.inl hall
  · obtain ⟨hshape, hlen⟩ := hchain io hio
    have hrest : (data.drop (result.getD 0)).length = data.length - result.getD 0 :=
      List.length_drop
    have hpos : 0 < (data.drop (result.getD 0)).length := by omega
    obtain ⟨io', k, hdata', hshape', hk, hfits, hcontent, hsize⟩ := writeData_spec hshape hpos
    obtain rfl := Option.some.inj (hdata'.symm.trans hdata)
    rw [hrest] at hk hfits hsize
    refine Or.inr ⟨hlt, io, io', hio, rfl, hshape', ?_, hsize, fun hsmall => ?_⟩
    · rw [hcontent, List.length_append, List.length_take, hrest, hsize]
      omega
    · rw [hcontent, hfits (by omega), List.take_of_length_le (by omega)]

/-- Every step keeps the chain. -/
theorem sent_step (h : Sent s) (hstep : step s e = some t) : Sent t := by
  have hunset := unset_step h.unset hstep
  cases step_moves hstep with
  | readData data size io io' hio hside => exact h.of_side hunset rfl hio rfl hside
  | closePending c hpc hc =>
      have hio := c.onClose_io
      have hpool := c.onClose_bufferPool
      rw [hc] at hio hpool
      exact h.congr hunset (hc ▸ hpool) (hc ▸ hio)
  | readv result hpc r hr =>
      obtain ⟨io, io', hio, hio', hside, hpool⟩ := onRead_io hr
      exact h.of_side hunset hpool hio hio' hside
  | writev result hpc r hr =>
      obtain ⟨io, -, hio, -, -⟩ := TcpConnection.onWrite_cases hr
      obtain ⟨hshape, hlen⟩ := h.chain io hio
      obtain ⟨io', bytes, n, hio', hpool, hshape', hcontent, hsize, hcnt, -⟩ :=
        onWrite_io hio hshape hr
      -- what was counted is no more than what was pending, so the subtraction does not wrap
      have hpending := (WriteRun.pending_prefix io).length_le
      refine ⟨hunset, by rw [hpool]; exact h.pool, fun u hu => ?_⟩
      obtain rfl := Option.some.inj (hio'.symm.trans hu)
      refine ⟨hshape', ?_⟩
      rw [hcontent, List.length_drop, hsize, sizeSub, if_pos (by omega)]
      omega
  | establishInLoop result rest hpc hf =>
      cases hest : s.conn.establish_ with
      | true =>
          rw [TcpConnection.establishInLoop, if_pos hest]
          exact h.congr h.unset rfl rfl
      | false =>
          -- the buffers are the first that the pool gives, both empty
          obtain ⟨capacity, storage, hpool⟩ := h.pool
          refine ⟨hunset, ⟨capacity, storage, ?_⟩, fun io hio => ?_⟩
          · rw [TcpConnection.establishInLoop, hest]
            exact hpool
          · simp only [TcpConnection.establishInLoop, hest, hpool] at hio
            obtain rfl := Option.some.inj hio
            exact ⟨writeShape_establish capacity storage, Nat.zero_le _⟩
  | onClose result rest hpc hf => exact h.congr hunset s.conn.onClose_bufferPool s.conn.onClose_io
  | send result data rest hpc hf c hc =>
      rcases send_io h.chain hc with ⟨-, rfl⟩ | ⟨-, io, io', hio, rfl, hshape, hlen, -⟩
      · exact h.congr hunset rfl rfl
      · refine ⟨hunset, h.pool, fun u hu => ?_⟩
        obtain rfl := Option.some.inj hu
        exact ⟨hshape, hlen⟩
  | _ => exact h.congr hunset rfl rfl

/-- `writeSize_` and the write chain are those of the buffers. -/
theorem writeSize_congr (hio : t.conn.io = s.conn.io) :
    t.writeSize = s.writeSize ∧ t.buffered = s.buffered := by
  rw [writeSize, writeSize, buffered, buffered, hio]
  exact ⟨rfl, rfl⟩

theorem writeSize_of_side {io io' : IoBuffers α} (hio : s.conn.io = some io)
    (hio' : t.conn.io = some io') (hside : WriteSide io io') :
    t.writeSize = s.writeSize ∧ t.buffered = s.buffered := by
  rw [writeSize_of_some hio, writeSize_of_some hio', buffered_of_some hio, buffered_of_some hio',
    hside.size_eq, hside.head_eq]
  exact ⟨rfl, rfl⟩

/-- **The answers account for `writeSize_`** as long as nothing is taken off a
drained ring. -/
theorem booked_step (hsent : Sent s) (h : Booked s) (hU : s.Undisturbed e)
    (hstep : step s e = some t) : Booked t := by
  -- a step that keeps the size and makes no call that counts
  have hkeep : t.writeSize = s.writeSize ∧ t.buffered = s.buffered →
      (∀ c ∈ s.syscall e, ∀ n, c.book n = n) → Booked t := by
    intro hsize hcalls
    rw [Booked, hsize.1, calls_step hstep]
    cases hc : s.syscall e with
    | none => rw [Option.toList_none, List.append_nil, h]
    | some c => rw [Option.toList_some, leftOver_append, hcalls c hc, h]
  cases step_moves hstep with
  | readData data size io io' hio hside =>
      exact hkeep (writeSize_of_side hio rfl hside) (by simp [syscall])
  | poll events u hpc hreg hpolled =>
      exact hkeep (writeSize_congr rfl) (by simp [syscall, SysCall.book])
  | closePending c hpc hc =>
      have hio := c.onClose_io
      rw [hc] at hio
      exact hkeep (writeSize_congr (hc ▸ hio)) (by simp [syscall])
  | readv result hpc r hr =>
      obtain ⟨io, io', hio, hio', hside, -⟩ := onRead_io hr
      exact hkeep (writeSize_of_side hio hio' hside) (by simp [syscall, SysCall.book])
  | writev result hpc r hr =>
      obtain ⟨io, -, hio, -, -⟩ := TcpConnection.onWrite_cases hr
      obtain ⟨hshape, hlen⟩ := hsent.chain io hio
      obtain ⟨io', bytes, n, hio', -, -, -, hsize, hcnt, hoffer, hle, hcounted⟩ :=
        onWrite_io hio hshape hr
      have hn : n = result.getD 0 := by
        rcases hU io hio with h0 | hsound
        · omega
        · -- the offer is what is pending
          have hpending := (onWrite.offer_eq_iff hshape).mpr hsound
          obtain rfl := Option.some.inj (hoffer.symm.trans hpending)
          omega
      have hpending := (WriteRun.pending_prefix io).length_le
      rw [Booked, writeSize_of_some hio] at h
      rw [Booked, leftOver_append, ← h, writeSize_of_some hio', hsize, hn, sizeSub,
        if_pos (by omega)]
      rfl
  | batchDone result hpc hnil => exact hkeep (writeSize_congr rfl) (by simp [syscall, hnil])
  | establishInLoop result rest hpc hf =>
      refine hkeep ?_ (by simp [syscall, hf])
      cases hest : s.conn.establish_ with
      | true =>
          refine writeSize_congr ?_
          rw [TcpConnection.establishInLoop, if_pos hest]
      | false =>
          -- there were no buffers, and there is nothing in the new ones
          simp only [TcpConnection.establishInLoop, hest, writeSize, buffered, hsent.unset hest]
          exact ⟨rfl, rfl⟩
  | shutdownInLoop result rest hpc hf =>
      exact hkeep (writeSize_congr rfl) (by simp [syscall, hpc, hf, SysCall.book])
  | onClose result rest hpc hf =>
      exact hkeep (writeSize_congr s.conn.onClose_io) (by simp [syscall, hf])
  | destroyInLoop result rest hpc hf => exact hkeep (writeSize_congr rfl) (by simp [syscall, hf])
  | send result data rest hpc hf c hc =>
      rw [Booked, leftOver_append, SysCall.book, ← h]
      rcases send_io hsent.chain hc with ⟨hle, rfl⟩ | ⟨hlt, io, io', hio, rfl, -, -, hsize, -⟩
      · exact (Nat.sub_eq_zero_of_le hle).symm ▸ rfl
      · rw [writeSize_of_some hio]
        exact hsize
  | _ => exact hkeep (writeSize_congr rfl) (by simp [syscall])

/-! ## Where the bytes of the payloads go -/

/-- The bytes of the payloads that are queued. -/
def queued (s : Conn α) : List α := payloads s.functors ++ payloads s.pendingFunctors_

/-- What a step does to the bytes: nothing, a payload is pushed, `writev` takes
bytes from the front of the chain, or a `send` passes on the front of a payload
and buffers the rest. -/
inductive Flow (s : Conn α) : Event α → Conn α → Prop
  | still {e : Event α} {t : Conn α} (hstream : t.stream = s.stream)
      (hbuf : t.buffered = s.buffered) (hqueued : queued t = queued s)
      (hpushed : t.pushed = s.pushed) : Flow s e t
  | push {e : Event α} {t : Conn α} (payload : List α) (hstream : t.stream = s.stream)
      (hbuf : t.buffered = s.buffered) (hqueued : queued t = queued s ++ payload)
      (hpushed : t.pushed = s.pushed ++ payload) : Flow s e t
  | drain {e : Event α} {t : Conn α} (taken : List α) (hstream : t.stream = s.stream ++ taken)
      (hbuf : s.buffered = taken ++ t.buffered) (hqueued : queued t = queued s)
      (hpushed : t.pushed = s.pushed) : Flow s e t
  | send {t : Conn α} (result : Option ℕ) (taken rest : List α) (later : List (Functor α))
      (hpc : s.pc = .functors) (hf : s.functors = .send (taken ++ rest) :: later)
      (hstream : t.stream = s.stream ++ taken) (hbuf : t.buffered = s.buffered ++ rest)
      (hqueued : queued s = taken ++ rest ++ queued t) (hpushed : t.pushed = s.pushed) :
      Flow s (.functor result) t

/-- The buffers a step works on hold what they held. -/
theorem buffered_congr {io io' : IoBuffers α} (hio : s.conn.io = some io)
    (hio' : t.conn.io = some io') (hhead : io'.writeHead_ = io.writeHead_) :
    t.buffered = s.buffered := by
  rw [buffered_of_some hio, buffered_of_some hio', hhead]

/-- A functor that sends nothing. -/
theorem Flow.functor {f : Functor α} {rest : List (Functor α)} (hf : s.functors = f :: rest)
    (hpayload : f.payload = []) (hstream : t.stream = s.stream) (hbuf : t.buffered = s.buffered)
    (hrest : t.functors = rest) (hp : t.pendingFunctors_ = s.pendingFunctors_)
    (hpushed : t.pushed = s.pushed) : Flow s e t := by
  refine .still hstream hbuf ?_ hpushed
  rw [queued, queued, hf, hrest, hp]
  simp only [payloads, List.flatMap_cons, hpayload, List.nil_append]

/-- The batch is empty while no functors are run. -/
theorem batch_step (h : s.pc ≠ .functors → s.functors = []) (hstep : step s e = some t) :
    t.pc ≠ .functors → t.functors = [] := by
  intro hne
  cases step_moves hstep with
  | call c => exact h hne
  | push i f hf => exact h hne
  | peekData data size => exact h hne
  | readRefused data size => exact h hne
  | readData data size io io' hio hside => exact h hne
  | poll events u hpc hreg hpolled => exact h (by rw [hpc]; decide)
  | swap hpc hlist => exact absurd rfl hne
  | enter u rest hpc hlist => exact h (by rw [hpc]; decide)
  | closePending c hpc hc => exact h (by rw [hpc]; decide)
  | closeIdle hpc => exact h (by rw [hpc]; decide)
  | error hpc => exact h (by rw [hpc]; decide)
  | readPending hpc hread pc hpc' hshut => exact h (by rw [hpc]; decide)
  | readIdle hpc hread => exact h (by rw [hpc]; decide)
  | writeIdle hpc hwrite => exact h (by rw [hpc]; decide)
  | writeNothing hpc hwrite hshut => exact h (by rw [hpc]; decide)
  | writeEnter hpc hwrite io hio hsize => exact h (by rw [hpc]; decide)
  | readv result hpc r hr => exact h (by rw [hpc]; decide)
  | writev result hpc r hr => exact h (by rw [hpc]; decide)
  | batchDone result hpc hnil => exact hnil
  | establishInLoop result rest hpc hf => exact absurd hpc hne
  | shutdownInLoop result rest hpc hf => exact absurd hpc hne
  | onClose result rest hpc hf => exact absurd hpc hne
  | destroyInLoop result rest hpc hf => exact absurd hpc hne
  | send result data rest hpc hf c hc => exact absurd hpc hne

/-- **Where a step moves bytes**, as long as every `writev` is made with a sound
head ring and payloads are counted in 32 bits. -/
theorem flow_step (hsent : Sent s) (hbatch : s.pc ≠ .functors → s.functors = [])
    (hU : s.Undisturbed e) (hstep : step s e = some t) : Flow s e t := by
  cases step_moves hstep with
  | call c => exact .still rfl rfl rfl rfl
  | push i f hf =>
      refine .push f.payload rfl rfl ?_ rfl
      simp only [queued, payloads, List.flatMap_append, List.flatMap_cons, List.flatMap_nil,
        List.append_nil, List.append_assoc]
  | peekData data size => exact .still rfl rfl rfl rfl
  | readRefused data size => exact .still rfl rfl rfl rfl
  | readData data size io io' hio hside =>
      exact .still rfl (buffered_congr hio rfl hside.head_eq) rfl rfl
  | poll events u hpc hreg hpolled => exact .still rfl rfl rfl rfl
  | swap hpc hlist =>
      -- the queue becomes the batch, which was empty
      refine .still rfl rfl ?_ rfl
      rw [queued, queued, hbatch (by rw [hpc]; decide)]
      exact List.append_nil _
  | enter u rest hpc hlist => exact .still rfl rfl rfl rfl
  | closePending c hpc hc =>
      have hio := c.onClose_io
      rw [hc] at hio
      refine .still rfl ?_ rfl rfl
      simp only [buffered, hc, hio]
  | closeIdle hpc => exact .still rfl rfl rfl rfl
  | error hpc => exact .still rfl rfl rfl rfl
  | readPending hpc hread pc hpc' hshut => exact .still rfl rfl rfl rfl
  | readIdle hpc hread => exact .still rfl rfl rfl rfl
  | writeIdle hpc hwrite => exact .still rfl rfl rfl rfl
  | writeNothing hpc hwrite hshut => exact .still rfl rfl rfl rfl
  | writeEnter hpc hwrite io hio hsize => exact .still rfl rfl rfl rfl
  | readv result hpc r hr =>
      obtain ⟨io, io', hio, hio', hside, -⟩ := onRead_io hr
      exact .still rfl (buffered_congr hio hio' hside.head_eq) rfl rfl
  | writev result hpc r hr =>
      obtain ⟨io, -, hio, -, -⟩ := TcpConnection.onWrite_cases hr
      obtain ⟨hshape, -⟩ := hsent.chain io hio
      obtain ⟨io', bytes, n, hio', -, -, hcontent, -, hcnt, hoffer, hle, hcounted⟩ :=
        onWrite_io hio hshape hr
      -- what was taken, if anything, was pending, and is what was counted
      have htaken : n = result.getD 0
          ∧ bytes.take (result.getD 0) = (onWrite.pending io).take (result.getD 0) := by
        rcases hU io hio with h0 | hsound
        · rw [h0]
          exact ⟨by omega, rfl⟩
        · have hpending := (onWrite.offer_eq_iff hshape).mpr hsound
          obtain rfl := Option.some.inj (hoffer.symm.trans hpending)
          exact ⟨by omega, rfl⟩
      -- what was taken was the start of the chain, and what is left is its end
      obtain ⟨y, hy⟩ := WriteRun.pending_prefix io
      refine .drain (s.offer.take (result.getD 0)) rfl ?_ rfl rfl
      simp only [buffered, hio', Option.map_some, Option.getD_some]
      rw [hio, Option.map_some, Option.getD_some, offer, hio, Option.bind_some, hoffer,
        Option.getD_some, hcontent, htaken.2, ← htaken.1, ← hy, List.drop_append_of_le_length hcnt,
        ← List.append_assoc, List.take_append_drop]
  | batchDone result hpc hnil => exact .still rfl rfl rfl rfl
  | establishInLoop result rest hpc hf =>
      refine .functor hf rfl rfl ?_ rfl rfl rfl
      cases hest : s.conn.establish_ with
      | true => rw [TcpConnection.establishInLoop, if_pos hest]; rfl
      | false =>
          rw [TcpConnection.establishInLoop, hest, buffered, buffered, hsent.unset hest]
          rfl
  | shutdownInLoop result rest hpc hf => exact .functor hf rfl rfl rfl rfl rfl rfl
  | onClose result rest hpc hf =>
      refine .functor hf rfl rfl ?_ rfl rfl rfl
      simp only [buffered, TcpConnection.onClose_io]
  | destroyInLoop result rest hpc hf => exact .functor hf rfl rfl rfl rfl rfl rfl
  | send result data rest hpc hf c hc =>
      have hqueued : queued s = data ++ (payloads rest ++ payloads s.pendingFunctors_) := by
        rw [queued, hf, payloads, List.flatMap_cons, List.append_assoc]
        rfl
      rcases send_io hsent.chain hc with ⟨hle, rfl⟩ | ⟨hlt, io, io', hio, rfl, -, -, -, hfits⟩
      · refine .send result data [] rest hpc (by rw [List.append_nil]; exact hf) ?_
          (List.append_nil _).symm ?_ rfl
        · rw [List.take_of_length_le hle]
        · rw [List.append_nil]
          exact hqueued
      -- the rest of it joins the chain
      · have hsmall := hU data rest hf
        refine .send result (data.take (result.getD 0)) (data.drop (result.getD 0)) rest hpc ?_
          rfl ?_ ?_ rfl
        · rw [List.take_append_drop]
          exact hf
        · rw [buffered_of_some hio, ← hfits hsmall]
          rfl
        · rw [List.take_append_drop]
          exact hqueued

theorem Stream.order' (h : Stream s) : s.stream ++ s.buffered ++ queued s = s.pushed := by
  rw [queued, ← List.append_assoc]
  exact h.order

/-- By the account a `send` is in turn exactly when nothing is buffered. -/
theorem inOrder_iff (hsent : Sent s) (h : Booked s) (e : Event α) : s.InOrder e ↔ s.InTurn e := by
  have hlen := hsent.length_buffered
  rw [h] at hlen
  cases e with
  | functor result =>
      by_cases hpc : s.pc = .functors
      · cases hf : s.functors with
        | nil => simp [InOrder, InTurn, syscall, hf]
        | cons f rest =>
            cases f with
            | send data =>
                have hturn : s.InTurn (.functor result)
                    ↔ (data.length ≠ 0 → leftOver s.calls = 0) := by
                  simp [InTurn, syscall, hpc, hf, SysCall.InTurn]
                rw [hturn]
                constructor
                · intro hin hne
                  have hzero := (hin data rest hpc hf fun hnil => hne (by rw [hnil]; rfl)).1
                  rwa [h] at hzero
                · intro hin data' rest' _ hf' hne
                  obtain ⟨rfl, rfl⟩ : data = data' ∧ rest = rest' := by
                    simpa using hf.symm.trans hf'
                  have hzero := hin fun hnil => hne (List.eq_nil_of_length_eq_zero hnil)
                  exact ⟨h.trans hzero, List.eq_nil_of_length_eq_zero (by omega)⟩
            | shutdownInLoop => simp [InOrder, InTurn, syscall, hpc, hf, SysCall.InTurn]
            | _ => simp [InOrder, InTurn, syscall, hf]
      · simp [InOrder, InTurn, syscall, hpc]
  | _ => simp [InOrder, InTurn, syscall, SysCall.InTurn]

/-- A step that meets the conditions keeps the stream. -/
theorem stream_step (hsent : Sent s) (hbooked : Booked s) (h : Stream s) (hT : s.InTurn e)
    (hU : s.Undisturbed e) (hstep : step s e = some t) : Stream t := by
  have horder := h.order'
  refine ⟨?_, batch_step h.batch hstep⟩
  rw [List.append_assoc, ← queued]
  cases flow_step hsent h.batch hU hstep with
  | still hstream hbuf hqueued hpushed => rw [hstream, hbuf, hqueued, hpushed, horder]
  | push payload hstream hbuf hqueued hpushed =>
      -- the payload goes to the end of the queue, as it goes to the end of what was pushed
      rw [hstream, hbuf, hqueued, hpushed, ← List.append_assoc, horder]
  | drain taken hstream hbuf hqueued hpushed =>
      rw [hbuf] at horder
      rw [hstream, hqueued, hpushed, ← horder]
      simp only [List.append_assoc]
  | send result taken rest later hpc hf hstream hbuf hqueued hpushed =>
      -- by the condition a `send` of data finds the chain empty
      have hswap : s.buffered ++ taken = taken ++ s.buffered := by
        by_cases hne : taken ++ rest = []
        · rw [(List.append_eq_nil_iff.mp hne).1, List.append_nil, List.nil_append]
        · have hempty := (inOrder_iff hsent hbooked (.functor result)).mpr hT _ later hpc hf hne
          rw [hempty.2, List.nil_append, List.append_nil]
      rw [hqueued] at horder
      rw [hstream, hbuf, hpushed, ← horder]
      simp only [List.append_assoc]
      rw [← List.append_assoc taken, ← hswap, List.append_assoc]

end Step

/-! ## Runs -/

/-- What the write path keeps in an undisturbed run. -/
theorem sent_run {s t : Conn α} {e : Event α} (h : Sent s ∧ Booked s) (hU : s.Undisturbed e)
    (hstep : step s e = some t) : Sent t ∧ Booked t :=
  ⟨sent_step h.1 hstep, booked_step h.1 h.2 hU hstep⟩

/-- **Payloads go out in order exactly while each waits for what is left over.** In every
run of a connection in which nothing is taken off a drained ring and payloads have fewer
than `2 ^ 32` bytes: no `send` passes bytes to `::write` while bytes are in the write
chain, and the stream of the socket followed by the write chain and the queued payloads is
in every state what was pushed, in order, if and only if, by the answers of the kernel,
each payload is passed to `::write` when `::writev` has taken what `::write` left over of
those before. -/
theorem conn_order_iff (capacity : Capacity) (storage : ℕ → ℕ → α) {es : List (Event α)}
    {t : Conn α} (hrun : run step (init capacity storage) es = some t)
    (hU : Along step Undisturbed (init capacity storage) es) :
    (Along step InOrder (init capacity storage) es
        ∧ Throughout step Stream (init capacity storage) es)
      ↔ EachAfter SysCall.InTurn [] t.calls := by
  have hinit : Sent (init capacity storage) ∧ Booked (init capacity storage) :=
    ⟨sent_init capacity storage, rfl⟩
  rw [eachAfter_run step Conn.calls syscall (fun _ _ _ => calls_step) hrun]
  constructor
  · rintro ⟨horder, -⟩
    refine ⟨trivial, along_of_inv (I := fun s => Sent s ∧ Booked s) (fun s e hI hC => ?_)
      (fun s e s' hI hC hs => ?_) hinit (along_and step horder hU)⟩
    · exact (inOrder_iff hI.1 hI.2 e).mp hC.1
    · exact sent_run hI hC.2 hs
  · rintro ⟨-, hturn⟩
    have hC := along_and step (C := InTurn) hturn hU
    constructor
    · exact along_of_inv (I := fun s => Sent s ∧ Booked s)
        (fun s e hI hC => (inOrder_iff hI.1 hI.2 e).mpr hC.1)
        (fun s e s' hI hC hs => sent_run hI hC.2 hs) hinit hC
    · refine throughout_of_along (I := fun s => (Sent s ∧ Booked s) ∧ Stream s) (fun s h => h.2) ?_
        hC ⟨hinit, rfl, fun _ => rfl⟩
      rintro s e s' ⟨hI, hstream⟩ ⟨hT, hU⟩ hs
      exact ⟨sent_run hI hU hs, stream_step hI.1 hI.2 hstream hT hU hs⟩

/-- Of two bytes sent the kernel takes the first; the other is taken by a `writev`,
whose next turn finds the socket full; then a third is sent. -/
def refilled : List (Event ℕ) :=
  establishing ++ sending [1, 2] (some 1)
    ++ [.poll ⟨false, false, false, true⟩, .handle, .handle, .handle, .handle, .handle,
      .writev (some 1), .writev none, .handle, .functor none]
    ++ sending [3] (some 1)

theorem conn_order_two : ∃ t, run step fresh refilled = some t ∧ t.stream = [1, 2, 3]
    ∧ Along step InOrder fresh refilled ∧ Throughout step Stream fresh refilled := by
  have heval : (run step fresh refilled).map (fun t =>
      (t.stream, decide (EachAfter SysCall.InTurn [] t.calls))) = some ([1, 2, 3], true) := by
    decide +kernel
  obtain ⟨t, hrun, ht⟩ := Option.map_eq_some_iff.mp heval
  simp only [Prod.mk.injEq, decide_eq_true_eq] at ht
  exact ⟨t, hrun, ht.1,
    (conn_order_iff BufferPool.eventLoopCapacity (fun _ _ => 0) hrun (by decide +kernel)).mpr ht.2⟩

/-- The run that shows the condition is needed: the kernel takes the first of
two bytes, and then the whole of the next payload. -/
theorem conn_not_inOrder :
    ¬ Along step InOrder fresh (establishing ++ sending [1, 2] (some 1) ++ sending [3] (some 1))
      ∧ ∃ s, run step fresh (establishing ++ sending [1, 2] (some 1) ++ sending [3] (some 1))
          = some s ∧ s.pushed = [1, 2, 3] ∧ s.stream = [1, 3] ∧ s.buffered = [2] := by
  constructor
  · intro h
    have heval : (run step fresh (establishing ++ sending [1, 2] (some 1)
        ++ [.call (.sendPack [3]), .push 0, .poll Events.none, .handle])).map
          (fun s => (s.pc, s.functors, s.writeSize)) = some (.functors, [.send [3]], 1) := by
      decide
    obtain ⟨s, hrun, hs⟩ := Option.map_eq_some_iff.mp heval
    simp only [Prod.mk.injEq] at hs
    obtain ⟨hpc, hf, hsize⟩ := hs
    have hsplit : Along step InOrder fresh ((establishing ++ sending [1, 2] (some 1)
        ++ [.call (.sendPack [3]), .push 0, .poll Events.none, .handle])
          ++ .functor (some 1) :: [.functor none]) := h
    have hzero := (along_mid step hsplit hrun [3] [] hpc hf (by decide)).1
    omega
  · have heval : (run step fresh
        (establishing ++ sending [1, 2] (some 1) ++ sending [3] (some 1))).map
          (fun s => (s.pushed, s.stream, s.buffered)) = some ([1, 2, 3], [1, 3], [2]) := by
      decide
    obtain ⟨s, hrun, hs⟩ := Option.map_eq_some_iff.mp heval
    simp only [Prod.mk.injEq] at hs
    exact ⟨s, hrun, hs⟩

end Conn

end Libiak.Net
