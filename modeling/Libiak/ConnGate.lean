/-
The write gate of a connection, over whole runs.

`Channel::onWrite` discards an `EPOLLOUT` edge while `writeable_` is set, and
`writeable_` is cleared in one place only, the loop of `TcpConnection::onWrite`.
That function returns without clearing it when there is nothing to write, which
is what the first edge of a connection finds. From then on a `send` that leaves
bytes in the buffers leaves them for an edge that will be discarded.

Two invariants meet here. `Phase` says where in its cycle the loop can be with
which flags of the channel pending; no condition is needed for it. `Gate` says
that bytes are buffered only while the gate is shut, or while a call of `onWrite`
is on its way; every step keeps it but a `send` that buffers bytes through an
open gate. After such a step the connection is `Stranded`, and nothing but its
closing gets it out of there, so the condition is exact (`conn_gate_iff`).
-/
import Libiak.TcpConnection

set_option autoImplicit false

namespace Libiak.Net

open Libiak.Run

variable {α : Type*}

namespace Conn

/-- `writeSize_`, before the buffers exist `0`. -/
def writeSize (s : Conn α) : ℕ := (s.conn.io.map IoBuffers.writeSize_).getD 0

/-! ## Where a flag can be pending -/

/-- The places of the loop at which `rread_` can still be set. -/
def beforeRead : Pc → Bool
  | .onClose | .onError | .onRead => true
  | _ => false

/-- The places of the loop at which `rwrite_` can still be set. -/
def beforeWrite : Pc → Bool
  | .onClose | .onError | .onRead | .reading | .onWrite => true
  | _ => false

/-- What the active list, the flags of the channel and the place of the loop
have to do with each other. -/
structure Phase (s : Conn α) : Prop where
  listed : (s.conn.channel_.actived_ = true ∧ s.activedChannels_ = [()] ∧ s.pc = .dispatch)
    ∨ (s.conn.channel_.actived_ = false ∧ s.activedChannels_ = [])
  read_pending : s.conn.channel_.rread_ = true →
    s.conn.channel_.actived_ = true ∨ beforeRead s.pc = true
  write_pending : s.conn.channel_.rwrite_ = true →
    s.conn.channel_.actived_ = true ∨ beforeWrite s.pc = true

theorem phase_init (capacity : Capacity) (storage : ℕ → ℕ → α) :
    Phase (init capacity storage) where
  listed := Or.inr ⟨rfl, rfl⟩
  read_pending := fun h => by cases h
  write_pending := fun h => by cases h

/-- `Phase` looks at four flags, the list and the place. -/
theorem Phase.congr {s t : Conn α} (h : Phase s)
    (hact : t.conn.channel_.actived_ = s.conn.channel_.actived_)
    (hread : t.conn.channel_.rread_ = s.conn.channel_.rread_)
    (hwrite : t.conn.channel_.rwrite_ = s.conn.channel_.rwrite_)
    (hlist : t.activedChannels_ = s.activedChannels_) (hpc : t.pc = s.pc) : Phase t where
  listed := by rw [hact, hlist, hpc]; exact h.listed
  read_pending := by rw [hact, hread, hpc]; exact h.read_pending
  write_pending := by rw [hact, hwrite, hpc]; exact h.write_pending

/-- Outside the dispatch the channel is not on the list. -/
theorem Phase.idle {s : Conn α} (h : Phase s) (hpc : s.pc ≠ .dispatch) :
    s.conn.channel_.actived_ = false ∧ s.activedChannels_ = [] := by
  rcases h.listed with ⟨-, -, h⟩ | h
  · exact absurd h hpc
  · exact h

/-- Off the list and past `onRead`, no read is pending. -/
theorem Phase.read_done {s : Conn α} (h : Phase s) (hact : s.conn.channel_.actived_ = false)
    (hpast : beforeRead s.pc = false) : s.conn.channel_.rread_ = false := by
  by_contra hread
  rcases h.read_pending (by simpa using hread) with h1 | h1
  · rw [hact] at h1
    cases h1
  · rw [hpast] at h1
    cases h1

/-- Off the list and past `onWrite`, no write is pending. -/
theorem Phase.write_done {s : Conn α} (h : Phase s) (hact : s.conn.channel_.actived_ = false)
    (hpast : beforeWrite s.pc = false) : s.conn.channel_.rwrite_ = false := by
  by_contra hwrite
  rcases h.write_pending (by simpa using hwrite) with h1 | h1
  · rw [hact] at h1
    cases h1
  · rw [hpast] at h1
    cases h1

section Channel

variable {c c' : TcpConnection α}

/-- What the functions of the connection leave of the flags `Phase` looks at. -/
structure SameFlags (c c' : TcpConnection α) : Prop where
  actived : c'.channel_.actived_ = c.channel_.actived_
  rread : c'.channel_.rread_ = c.channel_.rread_
  rwrite : c'.channel_.rwrite_ = c.channel_.rwrite_

theorem sameFlags_establishInLoop (c : TcpConnection α) : SameFlags c c.establishInLoop.1 := by
  rw [TcpConnection.establishInLoop]
  split <;> exact ⟨rfl, rfl, rfl⟩

theorem sameFlags_onClose (c : TcpConnection α) : SameFlags c c.onClose.1 := by
  rw [TcpConnection.onClose]
  split <;> exact ⟨rfl, rfl, rfl⟩

theorem sameFlags_send {data : List α} {result : Option ℕ} (h : c.send data result = some c') :
    SameFlags c c' := by
  rcases (TcpConnection.send_cases h).2 with ⟨-, rfl⟩ | ⟨-, io, r, -, -, rfl⟩
  · exact ⟨rfl, rfl, rfl⟩
  · exact ⟨rfl, rfl, rfl⟩

theorem sameFlags_onRead {result : Readv α} {t : TcpConnection.Turn α}
    (h : c.onRead result = some t) : SameFlags c t.conn := by
  obtain ⟨io, r, -, -, ⟨-, rfl⟩ | ⟨-, rfl⟩ | ⟨-, n, rfl⟩ | ⟨-, n, rfl⟩⟩ :=
    TcpConnection.onRead_cases h
  · exact ⟨rfl, rfl, rfl⟩
  · have hflags := sameFlags_onClose { c with io := some r.1 }
    exact ⟨hflags.1, hflags.2, hflags.3⟩
  · exact ⟨rfl, rfl, rfl⟩
  · exact ⟨rfl, rfl, rfl⟩

theorem sameFlags_onWrite {result : Option ℕ} {t : TcpConnection.Turn α}
    (h : c.onWrite result = some t) : SameFlags c t.conn := by
  obtain ⟨io, r, -, -, ⟨-, rfl⟩ | ⟨-, n, rfl⟩ | ⟨-, n, rfl⟩⟩ := TcpConnection.onWrite_cases h
  · exact ⟨rfl, rfl, rfl⟩
  · exact ⟨rfl, rfl, rfl⟩
  · exact ⟨rfl, rfl, rfl⟩

end Channel

/-- The loop moves on to a place where the flags that are pending may still be. -/
theorem Phase.moved {s t : Conn α} (h : Phase s) (hpc : s.pc ≠ .dispatch)
    (hflags : SameFlags s.conn t.conn) (hlist : t.activedChannels_ = s.activedChannels_)
    (hread : s.conn.channel_.rread_ = true → beforeRead t.pc = true)
    (hwrite : s.conn.channel_.rwrite_ = true →
      beforeWrite t.pc = true) : Phase t where
  listed := Or.inr ⟨hflags.actived.trans (h.idle hpc).1, hlist.trans (h.idle hpc).2⟩
  read_pending := fun hr => Or.inr (hread (hflags.rread ▸ hr))
  write_pending := fun hw => Or.inr (hwrite (hflags.rwrite ▸ hw))

/-- Every step keeps `Phase`. -/
theorem phase_step {s t : Conn α} {e : Event α} (h : Phase s) (hstep : step s e = some t) :
    Phase t := by
  -- a pending read is settled at the first place past `onRead`, a pending write
  -- past `onWrite`, and every place before them leaves the flags as they are
  cases step_moves hstep with
  | call c => exact h.congr rfl rfl rfl rfl rfl
  | push i f hf => exact h.congr rfl rfl rfl rfl rfl
  | peekData data size => exact h
  | readRefused data size => exact h
  | readData data size io io' hio hside => exact h.congr rfl rfl rfl rfl rfl
  | poll events t hpc hreg hpolled =>
      obtain ⟨hact, hlist⟩ := h.idle (by rw [hpc]; decide)
      have hr0 := h.read_done hact (by rw [hpc]; rfl)
      have hw0 := h.write_done hact (by rw [hpc]; rfl)
      refine ⟨?_, fun hread => Or.inl ?_, fun hwrite => Or.inl ?_⟩
      · rcases hpolled.listed with ⟨h1, h2⟩ | ⟨-, h1, h2⟩
        · exact Or.inr ⟨h1.trans hact, h2.trans hlist⟩
        · exact Or.inl ⟨h1, by rw [h2, hlist]; rfl, rfl⟩
      · rcases hpolled.read_gate with ⟨-, h1⟩ | ⟨-, -, -, h1⟩
        · rw [h1, hr0] at hread
          cases hread
        · exact h1
      · rcases hpolled.write_gate with ⟨-, h1⟩ | ⟨-, -, -, h1⟩
        · rw [h1, hw0] at hwrite
          cases hwrite
        · exact h1
  | swap hpc hlist =>
      have hact : s.conn.channel_.actived_ = false := by
        rcases h.listed with ⟨-, h1, -⟩ | h1
        · rw [hlist] at h1
          cases h1
        · exact h1.1
      refine ⟨Or.inr ⟨hact, hlist⟩, fun hread => ?_, fun hwrite => ?_⟩
      · exact absurd hread (by simp [h.read_done hact (by rw [hpc]; rfl)])
      · exact absurd hwrite (by simp [h.write_done hact (by rw [hpc]; rfl)])
  | enter u rest hpc hlist =>
      refine ⟨Or.inr ⟨rfl, ?_⟩, fun _ => Or.inr rfl, fun _ => Or.inr rfl⟩
      rcases h.listed with ⟨-, h1, -⟩ | ⟨-, h1⟩
      · rw [hlist] at h1
        exact (List.cons.inj h1).2
      · rw [hlist] at h1
        cases h1
  | closePending c hpc hc =>
      have hflags := sameFlags_onClose c
      rw [hc] at hflags
      exact h.moved (by rw [hpc]; decide) (hc ▸ ⟨hflags.1, hflags.2, hflags.3⟩) rfl
        (fun _ => rfl) (fun _ => rfl)
  | closeIdle hpc =>
      exact h.moved (by rw [hpc]; decide) ⟨rfl, rfl, rfl⟩ rfl (fun _ => rfl)
        (fun _ => rfl)
  | error hpc =>
      exact h.moved (by rw [hpc]; decide) ⟨rfl, rfl, rfl⟩ rfl (fun _ => rfl)
        (fun _ => rfl)
  | readPending hpc hread pc hpc' hshut =>
      obtain ⟨hact, hlist⟩ := h.idle (by rw [hpc]; decide)
      refine ⟨Or.inr ⟨hact, hlist⟩, fun hread => absurd hread Bool.false_ne_true,
        fun _ => Or.inr ?_⟩
      rcases hpc' with rfl | rfl
      · rfl
      · rfl
  | readIdle hpc hread =>
      exact h.moved (by rw [hpc]; decide) ⟨rfl, rfl, rfl⟩ rfl
        (fun hr => by rw [hread] at hr; cases hr) (fun _ => rfl)
  | writeIdle hpc hwrite =>
      have hr := h.read_done (h.idle (by rw [hpc]; decide)).1 (by rw [hpc]; rfl)
      exact h.moved (by rw [hpc]; decide) ⟨rfl, rfl, rfl⟩ rfl
        (fun hread => by rw [hr] at hread; cases hread)
        (fun hw => by rw [hwrite] at hw; cases hw)
  | writeNothing hpc hwrite hshut =>
      obtain ⟨hact, hlist⟩ := h.idle (by rw [hpc]; decide)
      have hr := h.read_done hact (by rw [hpc]; rfl)
      refine ⟨Or.inr ⟨hact, hlist⟩, fun hread => ?_,
        fun hwrite => absurd hwrite Bool.false_ne_true⟩
      rw [hr] at hread
      cases hread
  | writeEnter hpc hwrite io hio hsize =>
      obtain ⟨hact, hlist⟩ := h.idle (by rw [hpc]; decide)
      have hr := h.read_done hact (by rw [hpc]; rfl)
      refine ⟨Or.inr ⟨hact, hlist⟩, fun hread => ?_,
        fun hwrite => absurd hwrite Bool.false_ne_true⟩
      rw [hr] at hread
      cases hread
  | readv result hpc r hr' =>
      have hr := h.read_done (h.idle (by rw [hpc]; decide)).1 (by rw [hpc]; rfl)
      refine h.moved (by rw [hpc]; decide) (sameFlags_onRead hr') rfl
        (fun hread => by rw [hr] at hread; cases hread) (fun _ => ?_)
      -- the loop stays in `onRead` or goes to `onWrite`
      cases r.again
      · rfl
      · rfl
  | writev result hpc r hr' =>
      have hact := (h.idle (by rw [hpc]; decide)).1
      have hr := h.read_done hact (by rw [hpc]; rfl)
      have hw := h.write_done hact (by rw [hpc]; rfl)
      exact h.moved (by rw [hpc]; decide) (sameFlags_onWrite hr') rfl
        (fun hread => by rw [hr] at hread; cases hread)
        (fun hwrite => by rw [hw] at hwrite; cases hwrite)
  | batchDone result hpc hnil =>
      have hact := (h.idle (by rw [hpc]; decide)).1
      have hr := h.read_done hact (by rw [hpc]; rfl)
      have hw := h.write_done hact (by rw [hpc]; rfl)
      exact h.moved (by rw [hpc]; decide) ⟨rfl, rfl, rfl⟩ rfl
        (fun hread => by rw [hr] at hread; cases hread)
        (fun hwrite => by rw [hw] at hwrite; cases hwrite)
  | establishInLoop result rest hpc hf =>
      have hflags := sameFlags_establishInLoop s.conn
      exact h.congr hflags.1 hflags.2 hflags.3 rfl rfl
  | shutdownInLoop result rest hpc hf => exact h.congr rfl rfl rfl rfl rfl
  | onClose result rest hpc hf =>
      have hflags := sameFlags_onClose s.conn
      exact h.congr hflags.1 hflags.2 hflags.3 rfl rfl
  | destroyInLoop result rest hpc hf => exact h.congr rfl rfl rfl rfl rfl
  | send result data rest hpc hf c hc =>
      have hflags := sameFlags_send hc
      exact h.congr hflags.1 hflags.2 hflags.3 rfl rfl

/-! ## The gate -/

/-- Bytes are buffered only while the gate is shut, or while a call of `onWrite`
is on its way. -/
def Gate (s : Conn α) : Prop :=
  s.conn.close_ = true ∨ s.writeSize = 0 ∨ s.conn.channel_.writeable_ = false
    ∨ s.conn.channel_.rwrite_ = true ∨ s.pc = .writing

/-- Bytes are buffered, the gate is open, and no call of `onWrite` is on its
way. -/
structure Stranded (s : Conn α) : Prop where
  buffered : 0 < s.writeSize
  writeable : s.conn.channel_.writeable_ = true
  rwrite : s.conn.channel_.rwrite_ = false
  pc : s.pc ≠ .writing

/-- A `send` on an unclosed connection that leaves bytes in the buffers runs
while the gate is shut. -/
def SendsShut (s : Conn α) : Event α → Prop
  | .functor result => ∀ data rest, s.pc = .functors → s.functors = .send data :: rest →
      s.conn.close_ = false → result.getD 0 < data.length → s.conn.channel_.writeable_ = false
  | _ => True

theorem writeSize_of_some {s : Conn α} {io : IoBuffers α} (h : s.conn.io = some io) :
    s.writeSize = io.writeSize_ := by
  rw [writeSize, h]
  rfl

/-- What the gate and its trap look at: a step that keeps these keeps both. -/
structure SameGate (s t : Conn α) : Prop where
  close_eq : t.conn.close_ = s.conn.close_
  size_eq : t.writeSize = s.writeSize
  writeable_eq : t.conn.channel_.writeable_ = s.conn.channel_.writeable_
  rwrite_eq : t.conn.channel_.rwrite_ = s.conn.channel_.rwrite_

/-- What a step owes the gate: it keeps it, if it is not a `send` that buffers
bytes through it, and it keeps the connection in the trap or closes it. -/
structure Kept (s : Conn α) (e : Event α) (t : Conn α) : Prop where
  gate : Gate s → SendsShut s e → Gate t
  trap : Stranded s → t.conn.close_ = true ∨ Stranded t

section Step

variable {s t : Conn α} {e : Event α}

theorem SameGate.kept (h : SameGate s t) (hpc : t.pc = .writing ↔ s.pc = .writing) :
    Kept s e t where
  gate := fun hg _ => by
    rw [Gate, h.close_eq, h.size_eq, h.writeable_eq, h.rwrite_eq, hpc]
    exact hg
  trap := fun hs => Or.inr
    { buffered := h.size_eq.symm ▸ hs.buffered
      writeable := h.writeable_eq.trans hs.writeable
      rwrite := h.rwrite_eq.trans hs.rwrite
      pc := fun hw => hs.pc (hpc.mp hw) }

/-- The loop goes from one place where it is not writing to another. -/
theorem SameGate.moved (h : SameGate s t) (hs : s.pc ≠ .writing) (ht : t.pc ≠ .writing) :
    Kept s e t :=
  h.kept ⟨fun hw => absurd hw ht, fun hw => absurd hw hs⟩

theorem kept_of_closed (h : t.conn.close_ = true) : Kept s e t :=
  ⟨fun _ _ => Or.inl h, fun _ => Or.inl h⟩

theorem onClose_close (c : TcpConnection α) : c.onClose.1.close_ = true := by
  rw [TcpConnection.onClose]
  split
  · assumption
  · rfl

/-- The buffers exist only once the connection is established. -/
def Unset (s : Conn α) : Prop := s.conn.establish_ = false → s.conn.io = none

theorem unset_onClose {c : TcpConnection α} (h : c.establish_ = false → c.io = none) :
    c.onClose.1.establish_ = false → c.onClose.1.io = none := by
  rw [c.onClose_establish, c.onClose_io]
  exact h

theorem unset_step (h : Unset s) (hstep : step s e = some t) : Unset t := by
  -- where there are buffers the connection is established
  have hset : ∀ io, s.conn.io = some io → s.conn.establish_ ≠ false := by
    intro io hio hest
    rw [h hest] at hio
    cases hio
  cases step_moves hstep with
  | call c => exact h
  | push i f hf => exact h
  | peekData data size => exact h
  | readRefused data size => exact h
  | readData data size io io' hio hside => exact fun hest => absurd hest (hset io hio)
  | poll events u hpc hreg hpolled => exact h
  | swap hpc hlist => exact h
  | enter u rest hpc hlist => exact h
  | closePending c hpc hc => exact unset_onClose (hc ▸ h)
  | closeIdle hpc => exact h
  | error hpc => exact h
  | readPending hpc hread pc hpc' hshut => exact h
  | readIdle hpc hread => exact h
  | writeIdle hpc hwrite => exact h
  | writeNothing hpc hwrite hshut => exact h
  | writeEnter hpc hwrite io hio hsize => exact h
  | readv result hpc r hr =>
      obtain ⟨io, u, hio, -, ⟨-, rfl⟩ | ⟨-, rfl⟩ | ⟨-, n, rfl⟩ | ⟨-, n, rfl⟩⟩ :=
        TcpConnection.onRead_cases hr
      · exact fun hest => absurd hest (hset io hio)
      · exact unset_onClose fun hest => absurd hest (hset io hio)
      · exact fun hest => absurd hest (hset io hio)
      · exact fun hest => absurd hest (hset io hio)
  | writev result hpc r hr =>
      obtain ⟨io, u, hio, -, ⟨-, rfl⟩ | ⟨-, n, rfl⟩ | ⟨-, n, rfl⟩⟩ :=
        TcpConnection.onWrite_cases hr
      · exact fun hest => absurd hest (hset io hio)
      · exact fun hest => absurd hest (hset io hio)
      · exact fun hest => absurd hest (hset io hio)
  | batchDone result hpc hnil => exact h
  | establishInLoop result rest hpc hf =>
      rw [TcpConnection.establishInLoop]
      split
      · exact h
      · exact fun hest => absurd hest.symm Bool.false_ne_true
  | shutdownInLoop result rest hpc hf => exact h
  | onClose result rest hpc hf => exact unset_onClose h
  | destroyInLoop result rest hpc hf => exact h
  | send result data rest hpc hf c hc =>
      obtain ⟨-, ⟨-, rfl⟩ | ⟨-, io, r, hio, -, rfl⟩⟩ := TcpConnection.send_cases hc
      · exact h
      · exact fun hest => absurd hest (hset io hio)

/-- Every step does what it owes the gate. -/
theorem kept_step (hunset : Unset s) (hstep : step s e = some t) : Kept s e t := by
  cases step_moves hstep with
  | call c => exact SameGate.kept ⟨rfl, rfl, rfl, rfl⟩ Iff.rfl
  | push i f hf => exact SameGate.kept ⟨rfl, rfl, rfl, rfl⟩ Iff.rfl
  | peekData data size => exact SameGate.kept ⟨rfl, rfl, rfl, rfl⟩ Iff.rfl
  | readRefused data size => exact SameGate.kept ⟨rfl, rfl, rfl, rfl⟩ Iff.rfl
  | readData data size io io' hio hside =>
      refine SameGate.kept ⟨rfl, ?_, rfl, rfl⟩ Iff.rfl
      rw [writeSize_of_some hio, ← hside.size_eq]
      rfl
  | poll events u hpc hreg hpolled =>
      rcases hpolled.write_gate with ⟨h1, h2⟩ | ⟨h0, -, h2, -⟩
      · exact SameGate.moved ⟨rfl, rfl, h1, h2⟩ (by simp [hpc]) (by simp)
      · refine ⟨fun _ _ => Or.inr (Or.inr (Or.inr (Or.inl h2))), fun hs => ?_⟩
        rw [hs.writeable] at h0
        cases h0
  | swap hpc hlist => exact SameGate.moved ⟨rfl, rfl, rfl, rfl⟩ (by simp [hpc]) (by simp)
  | enter u rest hpc hlist => exact SameGate.moved ⟨rfl, rfl, rfl, rfl⟩ (by simp [hpc]) (by simp)
  | closePending c hpc hc => exact kept_of_closed (onClose_close c)
  | closeIdle hpc => exact SameGate.moved ⟨rfl, rfl, rfl, rfl⟩ (by simp [hpc]) (by simp)
  | error hpc => exact SameGate.moved ⟨rfl, rfl, rfl, rfl⟩ (by simp [hpc]) (by simp)
  | readPending hpc hread pc hpc' hshut =>
      refine SameGate.moved ⟨rfl, rfl, rfl, rfl⟩ (by simp [hpc]) ?_
      rcases hpc' with rfl | rfl
      · simp
      · simp
  | readIdle hpc hread => exact SameGate.moved ⟨rfl, rfl, rfl, rfl⟩ (by simp [hpc]) (by simp)
  | writeIdle hpc hwrite => exact SameGate.moved ⟨rfl, rfl, rfl, rfl⟩ (by simp [hpc]) (by simp)
  | writeNothing hpc hwrite hshut =>
      refine ⟨fun _ _ => ?_, fun hs => ?_⟩
      · rcases hshut with h0 | ⟨io, hio, h0⟩
        · exact Or.inr (Or.inr (Or.inl h0))
        · exact Or.inr (Or.inl ((writeSize_of_some hio).trans h0))
      · rw [hs.rwrite] at hwrite
        cases hwrite
  | writeEnter hpc hwrite io hio hsize =>
      refine ⟨fun _ _ => Or.inr (Or.inr (Or.inr (Or.inr rfl))), fun hs => ?_⟩
      rw [hs.rwrite] at hwrite
      cases hwrite
  | readv result hpc r hr =>
      obtain ⟨io, u, hio, hturn, hcases⟩ := TcpConnection.onRead_cases hr
      have hsize : s.writeSize = u.1.writeSize_ :=
        (writeSize_of_some hio).trans (onRead.turn_writeSide hturn).size_eq.symm
      rcases hcases with ⟨-, rfl⟩ | ⟨-, rfl⟩ | ⟨-, n, rfl⟩ | ⟨-, n, rfl⟩
      · exact SameGate.moved ⟨rfl, hsize.symm, rfl, rfl⟩ (by simp [hpc]) (by simp)
      · exact kept_of_closed (onClose_close _)
      · exact SameGate.moved ⟨rfl, hsize.symm, rfl, rfl⟩ (by simp [hpc]) (by simp)
      · exact SameGate.moved ⟨rfl, hsize.symm, rfl, rfl⟩ (by simp [hpc]) (by simp)
  | writev result hpc r hr =>
      refine ⟨fun _ _ => ?_, fun hs => absurd hpc hs.pc⟩
      obtain ⟨io, u, -, -, ⟨-, rfl⟩ | ⟨-, n, rfl⟩ | ⟨-, n, rfl⟩⟩ :=
        TcpConnection.onWrite_cases hr
      · exact Or.inr (Or.inr (Or.inl rfl))
      · exact Or.inr (Or.inr (Or.inl rfl))
      · exact Or.inr (Or.inr (Or.inr (Or.inr rfl)))
  | batchDone result hpc hnil => exact SameGate.moved ⟨rfl, rfl, rfl, rfl⟩ (by simp [hpc]) (by simp)
  | establishInLoop result rest hpc hf =>
      rw [TcpConnection.establishInLoop]
      cases hest : s.conn.establish_ with
      | true => exact SameGate.kept ⟨rfl, rfl, rfl, rfl⟩ Iff.rfl
      | false =>
          -- the buffers are new and empty, and there were none to hold bytes before
          refine ⟨fun _ _ => Or.inr (Or.inl rfl), fun hs => ?_⟩
          have hpos := hs.buffered
          rw [writeSize, hunset hest] at hpos
          exact absurd hpos (lt_irrefl 0)
  | shutdownInLoop result rest hpc hf => exact SameGate.kept ⟨rfl, rfl, rfl, rfl⟩ Iff.rfl
  | onClose result rest hpc hf => exact kept_of_closed (onClose_close s.conn)
  | destroyInLoop result rest hpc hf => exact SameGate.kept ⟨rfl, rfl, rfl, rfl⟩ Iff.rfl
  | send result data rest hpc hf c hc =>
      obtain ⟨hle, ⟨-, rfl⟩ | ⟨hlt, io, r, hio, hdata, rfl⟩⟩ := TcpConnection.send_cases hc
      · exact SameGate.kept ⟨rfl, rfl, rfl, rfl⟩ Iff.rfl
      · -- the rest of the data is buffered, and the flags stay as they are
        have hsize := writeSize_of_some hio
        refine ⟨fun hg hsend => ?_, fun hs => Or.inr ⟨?_, hs.writeable, hs.rwrite, hs.pc⟩⟩
        · by_cases hclose : s.conn.close_ = true
          · exact Or.inl hclose
          · exact Or.inr (Or.inr (Or.inl
              (hsend data rest hpc hf (Bool.eq_false_iff.mpr hclose) hlt)))
        · have hpos := hs.buffered
          have hgrown := writeData_size hdata
          simp only [writeSize, Option.map_some, Option.getD_some]
          omega

/-- A closed connection stays closed. -/
theorem close_step (h : s.conn.close_ = true) (hstep : step s e = some t) :
    t.conn.close_ = true := by
  cases step_moves hstep with
  | call c => exact h
  | push i f hf => exact h
  | peekData data size => exact h
  | readRefused data size => exact h
  | readData data size io io' hio hside => exact h
  | poll events u hpc hreg hpolled => exact h
  | swap hpc hlist => exact h
  | enter u rest hpc hlist => exact h
  | closePending c hpc hc => exact onClose_close c
  | closeIdle hpc => exact h
  | error hpc => exact h
  | readPending hpc hread pc hpc' hshut => exact h
  | readIdle hpc hread => exact h
  | writeIdle hpc hwrite => exact h
  | writeNothing hpc hwrite hshut => exact h
  | writeEnter hpc hwrite io hio hsize => exact h
  | readv result hpc r hr =>
      obtain ⟨io, u, -, -, ⟨-, rfl⟩ | ⟨-, rfl⟩ | ⟨-, n, rfl⟩ | ⟨-, n, rfl⟩⟩ :=
        TcpConnection.onRead_cases hr
      · exact h
      · exact onClose_close _
      · exact h
      · exact h
  | writev result hpc r hr =>
      obtain ⟨io, u, -, -, ⟨-, rfl⟩ | ⟨-, n, rfl⟩ | ⟨-, n, rfl⟩⟩ :=
        TcpConnection.onWrite_cases hr
      · exact h
      · exact h
      · exact h
  | batchDone result hpc hnil => exact h
  | establishInLoop result rest hpc hf =>
      rw [TcpConnection.establishInLoop]
      split
      · exact h
      · exact h
  | shutdownInLoop result rest hpc hf => exact h
  | onClose result rest hpc hf => exact onClose_close _
  | destroyInLoop result rest hpc hf => exact h
  | send result data rest hpc hf c hc =>
      obtain ⟨-, ⟨-, rfl⟩ | ⟨-, io, r, -, -, rfl⟩⟩ := TcpConnection.send_cases hc
      · exact h
      · exact h

/-- A `send` that buffers bytes through an open gate springs the trap. -/
theorem stranded_of_send (h : Phase s) (hbad : ¬ s.SendsShut e) (hstep : step s e = some t) :
    Stranded t := by
  cases e with
  | functor result =>
      simp only [SendsShut, Classical.not_forall] at hbad
      obtain ⟨data, rest, hpc, hf, -, hlt, hopen⟩ := hbad
      cases step_moves hstep with
      | send _ data' rest' _ hf' c hc =>
          obtain ⟨rfl, rfl⟩ : data' = data ∧ rest' = rest := by simpa using hf'.symm.trans hf
          have hidle := (h.idle (by rw [hpc]; decide)).1
          have hrwrite := h.write_done hidle (by rw [hpc]; rfl)
          obtain ⟨-, ⟨hle, -⟩ | ⟨-, io, r, hio, hdata, rfl⟩⟩ := TcpConnection.send_cases hc
          · omega
          · refine ⟨?_, by simpa using hopen, hrwrite, by simp [hpc]⟩
            have hgrown := writeData_size hdata
            rw [List.length_drop] at hgrown
            simp only [writeSize, Option.map_some, Option.getD_some]
            omega
      | batchDone _ _ hnil => rw [hf] at hnil; cases hnil
      | establishInLoop _ _ _ hf' => rw [hf] at hf'; cases hf'
      | shutdownInLoop _ _ _ hf' => rw [hf] at hf'; cases hf'
      | onClose _ _ _ hf' => rw [hf] at hf'; cases hf'
      | destroyInLoop _ _ _ hf' => rw [hf] at hf'; cases hf'
  | call c => exact absurd trivial hbad
  | push i => exact absurd trivial hbad
  | peekData data size => exact absurd trivial hbad
  | readData data size => exact absurd trivial hbad
  | poll events => exact absurd trivial hbad
  | handle => exact absurd trivial hbad
  | readv result => exact absurd trivial hbad
  | writev result => exact absurd trivial hbad

end Step

/-! ## Runs -/

/-- Bytes that are buffered find the gate shut. -/
def NotStranded (s : Conn α) : Prop := 0 < s.writeSize → s.conn.channel_.writeable_ = false

/-- What the gate needs of the loop. -/
structure GateInv (s : Conn α) : Prop where
  phase : Phase s
  unset : Unset s
  gate : Gate s

theorem gateInv_init (capacity : Capacity) (storage : ℕ → ℕ → α) :
    GateInv (init capacity storage) :=
  ⟨phase_init capacity storage, fun _ => rfl, Or.inr (Or.inl rfl)⟩

theorem gateInv_step {s t : Conn α} {e : Event α} (h : GateInv s) (hC : s.SendsShut e)
    (hstep : step s e = some t) : GateInv t :=
  ⟨phase_step h.phase hstep, unset_step h.unset hstep,
    (kept_step h.unset hstep).gate h.gate hC⟩

/-- Where the loop is about to poll an unclosed connection, the gate is what it
should be. -/
theorem GateInv.notStranded {s : Conn α} (h : GateInv s) (hpc : s.pc = .poll)
    (hopen : s.conn.close_ = false) : NotStranded s := by
  have hidle := (h.phase.idle (by rw [hpc]; decide)).1
  have hw := h.phase.write_pending
  rw [hidle, hpc] at hw
  intro hpos
  rcases h.gate with h1 | h1 | h1 | h1 | h1
  · rw [hopen] at h1
    cases h1
  · omega
  · exact h1
  · exact absurd (hw h1) (by decide)
  · rw [hpc] at h1
    cases h1

/-- **Buffered output is not stranded exactly while sends that buffer find the
gate shut.** In every run of a connection that has come to a point where the
loop is about to poll and the connection is not closed: that buffered bytes
find `writeable_` cleared, so that the next `EPOLLOUT` is not discarded, holds
if and only if no `send` of the run left bytes in the buffers while
`writeable_` was set. -/
theorem conn_notStranded_iff (capacity : Capacity) (storage : ℕ → ℕ → α) {es : List (Event α)}
    {t : Conn α} (hrun : run step (init capacity storage) es = some t) (hpc : t.pc = .poll)
    (hopen : t.conn.close_ = false) :
    NotStranded t ↔ Along step SendsShut (init capacity storage) es := by
  constructor
  · intro hgood
    refine along_of_trap (P := fun s => s.conn.close_ = true ∨ Stranded s)
      (I := fun s => Phase s ∧ Unset s) ?_ ?_ ?_ ⟨phase_init capacity storage, fun _ => rfl⟩ hrun ?_
    · exact fun s e s' hI hstep => ⟨phase_step hI.1 hstep, unset_step hI.2 hstep⟩
    · exact fun s e s' hI hbad hstep => Or.inr (stranded_of_send hI.1 hbad hstep)
    · intro s e s' hI hs hstep
      rcases hs with hclose | hs
      · exact Or.inl (close_step hclose hstep)
      · exact (kept_step hI.2 hstep).trap hs
    · rintro (hclose | hs)
      · rw [hopen] at hclose
        cases hclose
      · have hshut := hgood hs.buffered
        rw [hs.writeable] at hshut
        cases hshut
  · intro hC
    exact (run_inv_along (fun s e s' hI hC hs => gateInv_step hI hC hs)
      (gateInv_init capacity storage) hC hrun).notStranded hpc hopen

/-- The events that establish a connection. -/
def establishing : List (Event ℕ) :=
  [.call .establish, .push 0, .poll Events.none, .handle, .functor none, .functor none]

/-- The events of one `sendPack`, whose `::write` returns `result`. -/
def sending (data : List ℕ) (result : Option ℕ) : List (Event ℕ) :=
  [.call (.sendPack data), .push 0, .poll Events.none, .handle, .functor result, .functor none]

/-- The events of a round in which the descriptor becomes writeable and nothing
is buffered. -/
def writeableRound : List (Event ℕ) :=
  [.poll ⟨false, false, false, true⟩, .handle, .handle, .handle, .handle, .handle, .handle,
    .functor none]

/-- A connection on a loop whose rings have `1024 * 4` bytes. -/
def fresh : Conn ℕ := init BufferPool.eventLoopCapacity fun _ _ => 0

/-- The kernel takes one byte of two before the descriptor has ever been
reported writeable, and the other byte waits behind a gate that is shut. -/
theorem conn_notStranded_two :
    NotStranded ((run step fresh (establishing ++ sending [1, 2] (some 1))).get (by decide))
      ↔ Along step SendsShut fresh (establishing ++ sending [1, 2] (some 1)) :=
  conn_notStranded_iff BufferPool.eventLoopCapacity (fun _ _ => 0)
    (Option.some_get _).symm (by decide) (by decide)

/-- The run that shows the condition is needed: the descriptor is reported
writeable before there is anything to write, and of the two bytes sent then one
is left behind a gate that is open. -/
theorem conn_stranded_two :
    ∃ t, run step fresh (establishing ++ writeableRound ++ sending [1, 2] (some 1)) = some t
      ∧ t.pc = .poll ∧ t.conn.close_ = false ∧ t.conn.establish_ = true ∧ ¬ NotStranded t := by
  have heval : (run step fresh
      (establishing ++ writeableRound ++ sending [1, 2] (some 1))).map (fun t =>
        (t.pc, t.conn.close_, t.conn.establish_, t.writeSize, t.conn.channel_.writeable_))
      = some (.poll, false, true, 1, true) := by
    decide
  obtain ⟨t, hrun, ht⟩ := Option.map_eq_some_iff.mp heval
  simp only [Prod.mk.injEq] at ht
  obtain ⟨hpc, hclose, hest, hsize, hopen⟩ := ht
  refine ⟨t, hrun, hpc, hclose, hest, fun h => ?_⟩
  rw [h (by omega)] at hopen
  cases hopen

end Conn

end Libiak.Net
