/-
A connection with the history of what it read.

The machine of `TcpConnection.lean` keeps the bytes it sent; an `Endpoint` also
keeps those `readv` brought in and those `ReadData` copied out, so that what the
user has been given can be compared with what the peer pushed.

The read chain is moved by `onRead` and by `ReadData` and by nothing else:
`establishInLoop` sets it up, and every other step leaves it as it is
(`readFrame_step`). So the bytes copied out, followed by those in the read
chain, are the bytes that came in, as long as reads end on rings and fewer than
`2 ^ 32` bytes are held (`intake_step`).
-/
import Libiak.ConnStream
import Libiak.IoBounds

set_option autoImplicit false

namespace Libiak.Net

open Libiak.Run Libiak.Window

variable {α : Type*}

/-! ## A turn of `onRead`, whatever `readv` returned -/

/-- The bytes `readv` brought in. -/
def Readv.bytes : Readv α → List α
  | .error => []
  | .data bytes => bytes

/-- The outcomes of a turn that brought `bytes` in. -/
def ReadOutcome.Reports (bytes : List α) : ReadOutcome → Prop
  | .error | .eof => bytes = []
  | .overlong => False
  | .short readsize | .full readsize => bytes ≠ [] ∧ readsize = bytes.length

section Turn

variable {io io' : IoBuffers α} {front spare : List (Buffer α)} {tail : Buffer α}

/-- An `iovec` that is given nothing leaves the rings as they are. -/
theorem fillIovec_nil {v : Iovec} {rings rings' : List (Buffer α)}
    (h : fillIovec v [] rings = some rings') : rings' = rings := by
  induction rings generalizing rings' with
  | nil => cases h
  | cons b rings ih =>
      rw [fillIovec] at h
      split at h
      · split at h
        · rw [← Option.some.inj h, patch_nil]
        · cases h
      · obtain ⟨rest, hrest, rfl⟩ := Option.map_eq_some_iff.mp h
        rw [ih hrest]

/-- `readv` returns no more than it was offered room for, and at the end of the
stream it stores nothing. -/
theorem readv_fits {iov : List Iovec} {xs : List α} {rings rings' : List (Buffer α)}
    (h : readv iov xs rings = some rings') :
    xs.length ≤ offered iov ∧ (xs = [] → rings' = rings) := by
  induction iov generalizing xs rings with
  | nil =>
      rw [readv] at h
      split at h
      · rename_i hnil
        rw [List.isEmpty_iff.mp hnil]
        exact ⟨Nat.zero_le _, fun _ => (Option.some.inj h).symm⟩
      · cases h
  | cons v iov ih =>
      obtain ⟨rings'', hfill, h⟩ := Option.bind_eq_some_iff.mp h
      obtain ⟨hle, hnil⟩ := ih h
      constructor
      · rw [List.length_drop] at hle
        simp only [offered, List.map_cons, List.sum_cons] at hle ⊢
        omega
      · rintro rfl
        rw [hnil List.drop_nil]
        rw [List.take_nil] at hfill
        exact fillIovec_nil hfill

/-- The chain when a turn has only linked the ring behind the tail. -/
theorem ReadShape.of_prepare {next : Buffer α} {pool : BufferPool α}
    (h : ReadShape io front tail spare) (hn : next.Spare io.bufferPool_.capacity_.bytes)
    (hpool : pool.capacity_ = io.bufferPool_.capacity_)
    (howns : pool.Owns (front ++ tail :: [next] ++ io.writeHead_)) :
    ReadShape { io with bufferPool_ := pool, readHead_ := front ++ tail :: [next] }
      front tail [next] where
  chain := rfl
  tail_addr := h.tail_addr
  wf := fun b hb => by
    rw [hpool]
    exact h.wf b hb
  behind := h.behind
  spare_len := Nat.le_refl 1
  spare_wf := fun b hb => by
    rw [hpool]
    exact List.mem_singleton.mp hb ▸ hn
  size_eq := h.size_eq
  owned := howns

/-- **A turn of `onRead`**, with whatever `readv` returned, appends what came in
to the content, and reports how much it was. -/
theorem onRead.turn_intake (h : ReadInv io) {result : Readv α} {r : IoBuffers α × ReadOutcome}
    (hturn : onRead.turn io result = some r) :
    ReadInv r.1 ∧ readContent r.1 = readContent io ++ result.bytes
      ∧ r.2.Reports result.bytes := by
  obtain ⟨front, tail, spare, hshape⟩ := h
  obtain ⟨next, pool, hprep, hn, hpool, howns⟩ := onRead.prepare_spec hshape
  have hidle := hshape.of_prepare hn hpool howns
  have hlinked : ReadInv { io with bufferPool_ := pool, readHead_ := front ++ tail :: [next] }
      ∧ readContent { io with bufferPool_ := pool, readHead_ := front ++ tail :: [next] }
        = readContent io ++ [] := by
    refine ⟨⟨front, tail, [next], hidle⟩, ?_⟩
    rw [hidle.content_eq, hshape.content_eq, List.append_nil]
  cases result with
  | error =>
      rw [onRead.turn, hprep] at hturn
      exact (Option.some.inj hturn) ▸ ⟨hlinked.1, hlinked.2, rfl⟩
  | data bytes =>
      have hread := hturn
      rw [onRead.turn, hprep] at hread
      simp only [Option.bind_eq_bind, Option.bind_some] at hread
      obtain ⟨rings, hrings, hread⟩ := Option.bind_eq_some_iff.mp hread
      obtain ⟨hfits, hnil⟩ := readv_fits hrings
      by_cases h0 : bytes = []
      · -- the end of the stream: the rings are as they were
        obtain rfl := hnil h0
        subst h0
        exact (Option.some.inj hread) ▸ ⟨hlinked.1, hlinked.2, rfl⟩
      · have hroom := offered_iov (hshape.wf tail (by simp)) hn io.bufferPool_.capacity_.lt
        rw [hroom] at hfits
        obtain ⟨io', hturn', hinv, hcontent⟩ :=
          onRead.turn_spec hshape (List.length_pos_iff.mpr h0) hfits
        obtain rfl := Option.some.inj (hturn'.symm.trans hturn)
        refine ⟨hinv, hcontent, ?_⟩
        split
        · exact ⟨h0, rfl⟩
        · exact ⟨h0, rfl⟩

/-- The read chain after an operation on the write path. -/
theorem ReadInv.of_side (h : ReadInv io) (hside : ReadSide io io') (howned : io'.Owned) :
    ReadInv io' ∧ readContent io' = readContent io := by
  obtain ⟨front, tail, spare, hb⟩ := h
  refine ⟨⟨front, tail, spare, ?_⟩, ?_⟩
  · exact
      { chain := hside.head_eq.trans hb.chain
        tail_addr := hside.tail_eq.trans hb.tail_addr
        wf := by rw [hside.capacity_eq]; exact hb.wf
        behind := hb.behind
        spare_len := hb.spare_len
        spare_wf := by rw [hside.capacity_eq]; exact hb.spare_wf
        size_eq := hside.size_eq.trans hb.size_eq
        owned := howned }
  · rw [readContent, readContent, hside.head_eq, hside.tail_eq]

theorem ReadInv.length_content (h : ReadInv io) : io.readSize_ = (readContent io).length := by
  obtain ⟨front, tail, spare, hb⟩ := h
  exact hb.length_content

end Turn

/-- The steps that move the read chain. -/
def Event.reads : Event α → Bool
  | .readData _ _ | .readv _ => true
  | _ => false

/-- The bytes a step brings in. -/
def Event.arrived : Event α → List α
  | .readv result => result.bytes
  | _ => []

namespace Conn

/-! ## What a step does to the read chain -/

/-- The read chain of a connection, before the buffers exist nothing. -/
def unread (s : Conn α) : List α := (s.conn.io.map readContent).getD []

theorem unread_of_some {s : Conn α} {io : IoBuffers α} (h : s.conn.io = some io) :
    s.unread = readContent io := by
  rw [unread, h]
  rfl

/-- The steps that are not `onRead` and not `ReadData` leave the read chain as
it is, or set it up. -/
inductive ReadFrame (c c' : TcpConnection α) : Prop
  | same (h : c'.io = c.io)
  | fresh (capacity : Capacity) (storage : ℕ → ℕ → α) (h : c.io = none)
      (h' : c'.io = some (IoBuffers.establish (BufferPool.make capacity storage)))
  | side (io io' : IoBuffers α) (h : c.io = some io) (h' : c'.io = some io')
      (hside : ReadSide io io') (howned : io'.Owned)

section Step

variable {s t : Conn α} {e : Event α}

theorem readFrame_step (hsent : Sent s) (hstep : step s e = some t) (hreads : e.reads = false) :
    ReadFrame s.conn t.conn := by
  cases step_moves hstep with
  | call c => exact .same rfl
  | push i f hf => exact .same rfl
  | peekData data size => exact .same rfl
  | readRefused data size => exact .same rfl
  | readData data size io io' hio hside => cases hreads
  | poll events u hpc hreg hpolled => exact .same rfl
  | swap hpc hlist => exact .same rfl
  | enter u rest hpc hlist => exact .same rfl
  | closePending c hpc hc =>
      have hio := c.onClose_io
      rw [hc] at hio
      exact .same (hc ▸ hio)
  | closeIdle hpc => exact .same rfl
  | error hpc => exact .same rfl
  | readPending hpc hread pc hpc' hshut => exact .same rfl
  | readIdle hpc hread => exact .same rfl
  | writeIdle hpc hwrite => exact .same rfl
  | writeNothing hpc hwrite hshut => exact .same rfl
  | writeEnter hpc hwrite io hio hsize => exact .same rfl
  | readv result hpc r hr => cases hreads
  | writev result hpc r hr =>
      obtain ⟨io, r', hio, hturn, -⟩ := TcpConnection.onWrite_cases hr
      obtain ⟨hshape, -⟩ := hsent.chain io hio
      obtain ⟨io', bytes, n, hio', -, hshape', -⟩ := onWrite_io hio hshape hr
      have hside : ReadSide io io' := by
        obtain ⟨io₀, u, hio₀, hturn', hcases⟩ := TcpConnection.onWrite_cases hr
        obtain rfl := Option.some.inj (hio.symm.trans hio₀)
        have hside := onWrite.turn_readSide hturn'
        rcases hcases with ⟨-, rfl⟩ | ⟨-, n, rfl⟩ | ⟨-, n, rfl⟩
        · exact (Option.some.inj hio') ▸ hside
        · exact (Option.some.inj hio') ▸ hside
        · exact (Option.some.inj hio') ▸ hside
      exact .side io io' hio hio' hside hshape'.owned
  | batchDone result hpc hnil => exact .same rfl
  | establishInLoop result rest hpc hf =>
      cases hest : s.conn.establish_ with
      | true =>
          refine .same ?_
          rw [TcpConnection.establishInLoop, if_pos hest]
      | false =>
          obtain ⟨capacity, storage, hpool⟩ := hsent.pool
          refine .fresh capacity storage (hsent.unset hest) ?_
          simp only [TcpConnection.establishInLoop, hest, hpool]
          rfl
  | shutdownInLoop result rest hpc hf => exact .same rfl
  | onClose result rest hpc hf => exact .same s.conn.onClose_io
  | destroyInLoop result rest hpc hf => exact .same rfl
  | send result data rest hpc hf c hc =>
      rcases send_io hsent.chain hc with ⟨-, rfl⟩ | ⟨hlt, io, io', hio, rfl, hshape, -⟩
      · exact .same rfl
      · obtain ⟨-, hall | ⟨-, io₀, r, hio₀, hdata, hc'⟩⟩ := TcpConnection.send_cases hc
        · omega
        · obtain rfl := Option.some.inj (hio.symm.trans hio₀)
          have hside := writeData_readSide hdata
          obtain rfl : io' = r.2 := by
            have := congrArg TcpConnection.io hc'
            exact Option.some.inj this
          exact .side io r.2 hio rfl hside hshape.owned

end Step

/-! ## What the write chain counts -/

section Step

variable {s t : Conn α} {e : Event α}

/-- **`writeSize_` is the length of the write chain**, as long as payloads are
counted in 32 bits. -/
theorem size_step (hsent : Sent s) (h : s.writeSize = s.buffered.length) (hU : s.Undisturbed e)
    (hstep : step s e = some t) : t.writeSize = t.buffered.length := by
  -- a step that keeps both, or both of the buffers
  have hkeep : t.writeSize = s.writeSize ∧ t.buffered = s.buffered →
      t.writeSize = t.buffered.length := fun heq => by rw [heq.1, heq.2, h]
  cases step_moves hstep with
  | readData data size io io' hio hside => exact hkeep (writeSize_of_side hio rfl hside)
  | closePending c hpc hc =>
      have hio := c.onClose_io
      rw [hc] at hio
      exact hkeep (writeSize_congr (hc ▸ hio))
  | readv result hpc r hr =>
      obtain ⟨io, io', hio, hio', hside, -⟩ := onRead_io hr
      exact hkeep (writeSize_of_side hio hio' hside)
  | writev result hpc r hr =>
      obtain ⟨io, -, hio, -, -⟩ := TcpConnection.onWrite_cases hr
      obtain ⟨hshape, -⟩ := hsent.chain io hio
      obtain ⟨io', bytes, n, hio', -, -, hcontent, hsize, hcnt, -⟩ := onWrite_io hio hshape hr
      have hpre := (WriteRun.pending_prefix io).length_le
      rw [writeSize_of_some hio, buffered_of_some hio] at h
      simp only [writeSize, buffered, hio', Option.map_some, Option.getD_some]
      rw [hsize, hcontent, List.length_drop, h, sizeSub, if_pos (by omega)]
  | establishInLoop result rest hpc hf =>
      cases hest : s.conn.establish_ with
      | true =>
          refine hkeep (writeSize_congr ?_)
          rw [TcpConnection.establishInLoop, if_pos hest]
      | false =>
          -- both rings are new
          simp only [TcpConnection.establishInLoop, hest, writeSize, buffered, Bool.false_eq_true,
            if_false, Option.map_some, Option.getD_some]
          rfl
  | onClose result rest hpc hf => exact hkeep (writeSize_congr s.conn.onClose_io)
  | send result data rest hpc hf c hc =>
      rcases send_io hsent.chain hc with ⟨-, rfl⟩ | ⟨hlt, io, io', hio, rfl, -, -, hsize, hfits⟩
      · exact hkeep (writeSize_congr rfl)
      · have hsmall := hU data rest hf
        rw [writeSize_of_some hio, buffered_of_some hio] at h
        simp only [writeSize, buffered, Option.map_some, Option.getD_some]
        rw [hsize, hfits hsmall, List.length_append, List.length_drop, h]
  | _ => exact h

end Step

/-! ## What a step reads -/

/-- The bytes a step copies out to the user. -/
def copied (s : Conn α) : Event α → List α
  | .readData data size =>
      ((s.conn.io.bind fun io => ReadData io data size).map fun r => r.2.1).getD []
  | _ => []

/-- A `ReadData` ends on a ring, and `readv` brings in fewer than `2 ^ 32` bytes
with those there are. -/
def Orderly (s : Conn α) : Event α → Prop
  | .readData data size => ∀ io, s.conn.io = some io →
      data = true → 0 < size → size ≤ io.readSize_ → ¬ StopsBehindHead io size
  | .readv result => ∀ io, s.conn.io = some io → io.readSize_ + result.bytes.length < 2 ^ 32
  | _ => True

instance (s : Conn α) : (e : Event α) → Decidable (s.Orderly e)
  | .readData data size => inferInstanceAs (Decidable (∀ io, s.conn.io = some io →
      data = true → 0 < size → size ≤ io.readSize_ → ¬ StopsBehindHead io size))
  | .readv result => inferInstanceAs (Decidable (∀ io, s.conn.io = some io →
      io.readSize_ + result.bytes.length < 2 ^ 32))
  | .call _ | .push _ | .peekData _ _ | .poll _ | .handle | .writev _ | .functor _ =>
      isTrue trivial

/-- The conditions on one step: those of the write path and that of the read
path. -/
def Fair (s : Conn α) (e : Event α) : Prop := s.InTurn e ∧ s.Undisturbed e ∧ s.Orderly e

instance (s : Conn α) (e : Event α) : Decidable (s.Fair e) :=
  inferInstanceAs (Decidable (_ ∧ _ ∧ _))

/-- The read chain is right, and is counted in 32 bits. -/
structure Reads (s : Conn α) : Prop where
  chain : ∀ io, s.conn.io = some io → ReadInv io
  small : s.unread.length < 2 ^ 32

section Step

variable {s t : Conn α} {e : Event α}

theorem reads_init (capacity : Capacity) (storage : ℕ → ℕ → α) :
    Reads (init capacity storage) where
  chain := fun io hio => by cases hio
  small := (by decide : 0 < 2 ^ 32)

/-- Buffers with a right read chain that is not too long. -/
theorem Reads.of_io {io : IoBuffers α} (hio : t.conn.io = some io) (hinv : ReadInv io)
    (hsmall : (readContent io).length < 2 ^ 32) : Reads t where
  chain := fun u hu => (Option.some.inj (hio.symm.trans hu)) ▸ hinv
  small := by rw [unread_of_some hio]; exact hsmall

/-- The read chain after a step that does not move it. -/
theorem Reads.of_frame (h : Reads s) (hframe : ReadFrame s.conn t.conn) :
    Reads t ∧ t.unread = s.unread := by
  cases hframe with
  | same hio =>
      have hunread : t.unread = s.unread := by rw [unread, unread, hio]
      exact ⟨⟨by rw [hio]; exact h.chain, by rw [hunread]; exact h.small⟩, hunread⟩
  | fresh capacity storage hio hio' =>
      have hinv := readInv_establish capacity storage
      have hnil : readContent (IoBuffers.establish (BufferPool.make capacity storage)) = [] :=
        List.eq_nil_of_length_eq_zero hinv.length_content.symm
      refine ⟨.of_io hio' hinv (by rw [hnil]; exact Nat.two_pow_pos 32), ?_⟩
      rw [unread_of_some hio', hnil, unread, hio]
      rfl
  | side io io' hio hio' hside howned =>
      obtain ⟨hinv, hcontent⟩ := (h.chain io hio).of_side hside howned
      have hsmall := h.small
      rw [unread_of_some hio, ← hcontent] at hsmall
      exact ⟨.of_io hio' hinv hsmall, by rw [unread_of_some hio', unread_of_some hio, hcontent]⟩

/-- The buffers after a turn of `onRead` are those the turn leaves. -/
theorem onRead_turn {c : TcpConnection α} {result : Readv α} {u : TcpConnection.Turn α}
    (h : c.onRead result = some u) :
    ∃ io r, c.io = some io ∧ onRead.turn io result = some r ∧ u.conn.io = some r.1 := by
  obtain ⟨io, r, hio, hturn, hcases⟩ := TcpConnection.onRead_cases h
  refine ⟨io, r, hio, hturn, ?_⟩
  rcases hcases with ⟨-, rfl⟩ | ⟨-, rfl⟩ | ⟨-, n, rfl⟩ | ⟨-, n, rfl⟩
  · rfl
  · exact TcpConnection.onClose_io _
  · rfl
  · rfl

/-- **`ReadData`** hands out the front of the read chain. -/
theorem readData_reads {data : Bool} {size : ℕ} (h : Reads s) (hO : s.Orderly (.readData data size))
    (hstep : step s (.readData data size) = some t) :
    Reads t ∧ s.copied (.readData data size) ++ t.unread = s.unread := by
  simp only [step, readData] at hstep
  split at hstep
  · -- before the buffers exist the guard must turn the call away
    rename_i hio
    split at hstep
    · obtain rfl := Option.some.inj hstep
      refine ⟨h, ?_⟩
      rw [copied, hio]
      rfl
    · cases hstep
  · rename_i io hio
    obtain ⟨r, hr, rfl⟩ := Option.map_eq_some_iff.mp hstep
    have hinv := h.chain io hio
    have hcopied : s.copied (.readData data size) = r.2.1 := by
      rw [copied, hio, Option.bind_some, hr]
      rfl
    have hsmall := h.small
    rw [unread_of_some hio] at hsmall
    rw [hcopied, unread_of_some hio]
    by_cases hok : data = true ∧ 0 < size ∧ size ≤ io.readSize_
    · obtain ⟨front, tail, spare, hshape⟩ := id hinv
      rw [hok.1] at hr
      obtain ⟨io', hread, hgood, -⟩ :=
        ReadData_spec hshape hok.2.1 hok.2.2 (by rw [hinv.length_content]; exact hsmall)
      obtain rfl := Option.some.inj (hread.symm.trans hr)
      obtain ⟨hinv', hcontent⟩ := hgood (hO io hio hok.1 hok.2.1 hok.2.2)
      refine ⟨.of_io rfl hinv' ?_, ?_⟩
      · rw [hcontent, List.length_drop]
        omega
      · rw [unread_of_some rfl, hcontent, List.take_append_drop]
    · rw [ReadData_refused hok] at hr
      obtain rfl := Option.some.inj hr
      exact ⟨.of_io rfl hinv hsmall, by rw [unread_of_some rfl, List.nil_append]⟩

/-- **What a step reads**: the bytes it copies out, followed by the read chain
after it, are the read chain before it followed by the bytes it brings in. -/
theorem reads_step (hsent : Sent s) (h : Reads s) (hO : s.Orderly e)
    (hstep : step s e = some t) :
    Reads t ∧ s.copied e ++ t.unread = s.unread ++ e.arrived := by
  have hframe : e.reads = false → s.copied e = [] → e.arrived = [] →
      Reads t ∧ s.copied e ++ t.unread = s.unread ++ e.arrived := by
    intro hreads hcopied harrived
    obtain ⟨hr, hunread⟩ := h.of_frame (readFrame_step hsent hstep hreads)
    exact ⟨hr, by rw [hcopied, harrived, hunread, List.nil_append, List.append_nil]⟩
  cases e with
  | call c => exact hframe rfl rfl rfl
  | push i => exact hframe rfl rfl rfl
  | peekData data size => exact hframe rfl rfl rfl
  | poll events => exact hframe rfl rfl rfl
  | handle => exact hframe rfl rfl rfl
  | writev result => exact hframe rfl rfl rfl
  | functor result => exact hframe rfl rfl rfl
  | readData data size =>
      obtain ⟨hr, horder⟩ := readData_reads h hO hstep
      exact ⟨hr, by rw [horder]; exact (List.append_nil _).symm⟩
  | readv result =>
      cases step_moves hstep with
      | readv _ hpc u hu =>
          obtain ⟨io, r, hio, hturn, hio'⟩ := onRead_turn hu
          obtain ⟨hinv, hcontent, -⟩ := onRead.turn_intake (h.chain io hio) hturn
          have hbound := hO io hio
          rw [(h.chain io hio).length_content] at hbound
          refine ⟨.of_io hio' hinv ?_, ?_⟩
          · rw [hcontent, List.length_append]
            exact hbound
          · rw [show _ = readContent r.1 from unread_of_some hio', unread_of_some hio, hcontent]
            rfl

end Step

end Conn

/-! ## The history of the read path -/

/-- A connection, the bytes `readv` brought in so far, and those `ReadData`
copied out. -/
structure Endpoint (α : Type*) where
  machine : Conn α
  received : List α
  delivered : List α

namespace Endpoint

def init (capacity : Capacity) (storage : ℕ → ℕ → α) : Endpoint α :=
  { machine := Conn.init capacity storage, received := [], delivered := [] }

def step (p : Endpoint α) (e : Event α) : Option (Endpoint α) :=
  (Conn.step p.machine e).map fun s =>
    { machine := s, received := p.received ++ e.arrived
      delivered := p.delivered ++ p.machine.copied e }

/-- What a run keeps: the bytes of both paths are all there, in order. -/
structure Kept (p : Endpoint α) : Prop where
  sent : Conn.Sent p.machine
  booked : Conn.Booked p.machine
  stream : Conn.Stream p.machine
  reads : Conn.Reads p.machine
  size : p.machine.writeSize = p.machine.buffered.length
  order : p.delivered ++ p.machine.unread = p.received

theorem kept_init (capacity : Capacity) (storage : ℕ → ℕ → α) : Kept (init capacity storage) where
  sent := Conn.sent_init capacity storage
  booked := rfl
  stream := ⟨rfl, fun _ => rfl⟩
  reads := Conn.reads_init capacity storage
  size := rfl
  order := rfl

/-- A step that meets the conditions of both paths keeps both in order. -/
theorem kept_step {p q : Endpoint α} {e : Event α} (h : Kept p) (hF : p.machine.Fair e)
    (hstep : step p e = some q) : Kept q := by
  obtain ⟨hT, hU, hO⟩ := hF
  obtain ⟨s, hs, rfl⟩ := Option.map_eq_some_iff.mp hstep
  obtain ⟨hreads, hbalance⟩ := Conn.reads_step h.sent h.reads hO hs
  refine ⟨Conn.sent_step h.sent hs, Conn.booked_step h.sent h.booked hU hs,
    Conn.stream_step h.sent h.booked h.stream hT hU hs, hreads,
    Conn.size_step h.sent h.size hU hs, ?_⟩
  rw [List.append_assoc, hbalance, ← List.append_assoc, h.order]

end Endpoint

end Libiak.Net
