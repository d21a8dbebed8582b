/-
The buffers of a connection over whole runs: both chains, and the pool between
them.

A run mixes turns of `onRead` and `onWrite`, with any results of `readv` and
`writev`, and calls of `PeekData`, `ReadData` and `writeData`, in any order and
with any sizes. What is undefined in C++ is `none` in the model: a copy outside
the storage of a ring, a null pointer followed, a second release. So "the run
goes through" is most of what there is to say (`io_sound`); the rest is
`IoSound`, which every state of the run has.

The two halves of the invariant are those of the two paths, `ReadSafe` and
`WriteShape`. Each path leaves the other's chain alone, `WriteSide` and
`ReadSide`, and that is all the step lemma has to add.
-/
import Libiak.ReadBounds
import Libiak.WriteStream

set_option autoImplicit false

namespace Libiak.Net

open Libiak.Run

variable {α : Type*}

/-! ## What the write path leaves alone -/

/-- The read chain as it was, beside a pool of the same capacity. -/
structure ReadSide (io io' : IoBuffers α) : Prop where
  head_eq : io'.readHead_ = io.readHead_
  tail_eq : io'.readTail_ = io.readTail_
  size_eq : io'.readSize_ = io.readSize_
  capacity_eq : io'.bufferPool_.capacity_ = io.bufferPool_.capacity_

theorem ReadSide.refl (io : IoBuffers α) : ReadSide io io := ⟨rfl, rfl, rfl, rfl⟩

section Frame

variable {io io' : IoBuffers α}

theorem writeData.fill_capacity (pool : BufferPool α) (buffer : List α) {rearsize : ℕ}
    {r : List (Buffer α) × BufferPool α} (h : writeData.fill pool buffer rearsize = some r) :
    r.2.capacity_ = pool.capacity_ := by
  induction rearsize using Nat.strong_induction_on generalizing pool buffer r with
  | _ rearsize ih =>
      rw [writeData.fill] at h
      split at h
      · have hpos : 0 < pool.take.1.capacity := pool.capacity_.pos
        simp only at h
        split at h
        · obtain ⟨x, -, h⟩ := Option.bind_eq_some_iff.mp h
          obtain ⟨ring, -, h⟩ := Option.bind_eq_some_iff.mp h
          obtain ⟨r', hfill, h⟩ := Option.bind_eq_some_iff.mp h
          -- a ring full, and the loop again with what is left
          have hrest := ih (rearsize - pool.take.1.capacity) (by omega) pool.take.2 _ hfill
          exact (Option.some.inj h) ▸ hrest
        · obtain ⟨x, -, h⟩ := Option.bind_eq_some_iff.mp h
          obtain ⟨ring, -, h⟩ := Option.bind_eq_some_iff.mp h
          exact (Option.some.inj h) ▸ rfl
      · exact (Option.some.inj h) ▸ rfl

/-- **`writeData`** leaves the read chain alone, in every state. -/
theorem writeData_readSide {data : Bool} {xs : List α} {r : Bool × IoBuffers α}
    (h : writeData io data xs = some r) : ReadSide io r.2 := by
  rw [writeData] at h
  split at h
  · exact (Option.some.inj h) ▸ ReadSide.refl io
  · obtain ⟨⟨front, tail, behind⟩, -, h⟩ := Option.bind_eq_some_iff.mp h
    simp only at h
    split at h
    · obtain ⟨ring, -, h⟩ := Option.bind_eq_some_iff.mp h
      exact (Option.some.inj h) ▸ ⟨rfl, rfl, rfl, rfl⟩
    · obtain ⟨ring, -, h⟩ := Option.bind_eq_some_iff.mp h
      obtain ⟨u, hfill, h⟩ := Option.bind_eq_some_iff.mp h
      exact (Option.some.inj h) ▸ ⟨rfl, rfl, rfl, writeData.fill_capacity _ _ hfill⟩

theorem onWrite.advance_capacity {pool : BufferPool α} {head : Buffer α} {rest : List (Buffer α)}
    {writesize : ℕ} {r : List (Buffer α) × BufferPool α}
    (h : onWrite.advance pool head rest writesize = some r) : r.2.capacity_ = pool.capacity_ := by
  have hput : ∀ {chain : List (Buffer α)} {r : List (Buffer α) × BufferPool α},
      pool.putNext (head :: chain) = some r → r.2.capacity_ = pool.capacity_ := by
    intro chain r h
    obtain ⟨pool', hput, rfl⟩ := Option.map_eq_some_iff.mp h
    have hside : PoolSide pool pool' [head] [] := poolSide_put hput
    exact hside.capacity_eq
  simp only [onWrite.advance] at h
  split at h
  · exact (Option.some.inj h) ▸ rfl
  · split at h
    · cases rest with
      | nil => cases h
      | cons next rest => exact hput h
    · cases rest with
      | nil => exact (Option.some.inj h) ▸ rfl
      | cons next rest => exact hput h

/-- **A turn of `onWrite`** leaves the read chain alone, in every state. -/
theorem onWrite.turn_readSide {result : Option ℕ} {r : IoBuffers α × WriteOutcome}
    (h : onWrite.turn io result = some r) : ReadSide io r.1 := by
  obtain ⟨bytes, -, h⟩ := Option.bind_eq_some_iff.mp h
  cases hchain : io.writeHead_ with
  | nil =>
      rw [hchain] at h
      cases h
  | cons head rest =>
      rw [hchain] at h
      cases result with
      | none => exact (Option.some.inj h) ▸ ReadSide.refl io
      | some w =>
          simp only at h
          split at h
          · cases h
          · split at h
            · exact (Option.some.inj h) ▸ ReadSide.refl io
            · obtain ⟨u, hadv, h⟩ := Option.bind_eq_some_iff.mp h
              exact (Option.some.inj h) ▸ ⟨rfl, rfl, rfl, onWrite.advance_capacity hadv⟩

/-- The read chain after an operation on the write path. -/
theorem ReadSafe.of_side (h : ReadSafe io) (hside : ReadSide io io') (howned : io'.Owned) :
    ReadSafe io' := by
  obtain ⟨front, tail, spare, hb⟩ := h
  refine ⟨front, tail, spare, ?_⟩
  exact
    { chain := hside.head_eq.trans hb.chain
      tail_addr := hside.tail_eq.trans hb.tail_addr
      bounded := by rw [hside.capacity_eq]; exact hb.bounded
      behind := by rw [hside.capacity_eq]; exact hb.behind
      size_le := by rw [hside.size_eq]; exact hb.size_le
      ahead := by rw [hside.capacity_eq, hside.size_eq]; exact hb.ahead
      spare_len := hb.spare_len
      spare_wf := by rw [hside.capacity_eq]; exact hb.spare_wf
      owned := howned }

end Frame

/-! ## The destructor -/

/-- A loop of the destructor: `putNext` until the head pointer is null. -/
def BufferPool.release (pool : BufferPool α) : List (Buffer α) → Option (BufferPool α)
  | [] => some pool
  | b :: next => (pool.put b).bind fun pool => release pool next

/-- The two loops of `TcpConnection::~TcpConnection`. -/
def IoBuffers.destroy (io : IoBuffers α) : Option (BufferPool α) :=
  (io.bufferPool_.release io.readHead_).bind fun pool => pool.release io.writeHead_

/-- Releasing a chain that is owned succeeds, and leaves the others owned. -/
theorem BufferPool.Owns.release {pool : BufferPool α} {chain others : List (Buffer α)}
    (h : pool.Owns (chain ++ others)) :
    ∃ pool', pool.release chain = some pool' ∧ pool'.Owns others := by
  induction chain generalizing pool with
  | nil => exact ⟨pool, rfl, h⟩
  | cons b chain ih =>
      obtain ⟨hput, howns⟩ := BufferPool.Owns.put h
      obtain ⟨pool', hrel, howns'⟩ := ih howns
      refine ⟨pool', ?_, howns'⟩
      rw [BufferPool.release, hput]
      exact hrel

/-- **The destructor** releases every ring that was taken and not released
before, so that each has been released once. -/
theorem IoBuffers.destroy_spec {io : IoBuffers α} (h : io.Owned) :
    ∃ pool, io.destroy = some pool ∧ pool.freed.Perm (List.range pool.taken) := by
  obtain ⟨pool, hread, howns⟩ := BufferPool.Owns.release h
  have hrest : pool.Owns (io.writeHead_ ++ []) := by rwa [List.append_nil]
  obtain ⟨pool', hwrite, howns'⟩ := hrest.release
  refine ⟨pool', ?_, ?_⟩
  · rw [IoBuffers.destroy, hread]
    exact hwrite
  · rw [BufferPool.Owns, addrs_nil, List.append_nil] at howns'
    exact howns'

/-! ## Runs -/

/-- One operation on the buffers: a call of the user, or a turn of one of the
two loops with what the kernel answers. -/
inductive IoEvent (α : Type*) where
  | peekData (data : Bool) (size : ℕ)
  | readData (data : Bool) (size : ℕ)
  | writeData (data : Bool) (xs : List α)
  | onRead (result : Readv α)
  | onWrite (result : Option ℕ)

namespace IoBuffers

def step (io : IoBuffers α) : IoEvent α → Option (IoBuffers α)
  | .peekData data size => (PeekData io data size).map fun _ => io
  | .readData data size => (ReadData io data size).map fun r => r.2.2
  | .writeData data xs => (writeData io data xs).map Prod.snd
  | .onRead result => (onRead.turn io result).map Prod.fst
  | .onWrite result => (onWrite.turn io result).map Prod.fst

/-- What the kernel promises: `readv` returns no more than the `iovec`s have
room for, and `writev` no more than they hold. -/
def Kernel (io : IoBuffers α) : IoEvent α → Prop
  | .onRead result => result.Fits (onRead.room io)
  | .onWrite result => ∀ w ∈ result, ∀ bytes ∈ onWrite.offer io, w ≤ bytes.length
  | _ => True

instance (io : IoBuffers α) : (e : IoEvent α) → Decidable (io.Kernel e)
  | .peekData _ _ => isTrue trivial
  | .readData _ _ => isTrue trivial
  | .writeData _ _ => isTrue trivial
  | .onRead result => inferInstanceAs (Decidable (result.Fits (onRead.room io)))
  | .onWrite result =>
      inferInstanceAs (Decidable (∀ w ∈ result, ∀ bytes ∈ onWrite.offer io, w ≤ bytes.length))

/-- The invariant: that of the read path and that of the write path. -/
structure Safe (io : IoBuffers α) : Prop where
  read : ReadSafe io
  write : WriteShape io

theorem safe_establish (capacity : Capacity) (storage : ℕ → ℕ → α) :
    Safe (establish (BufferPool.make capacity storage)) :=
  ⟨readSafe_establish capacity storage, writeShape_establish capacity storage⟩

/-- **Every step goes through** and keeps the invariant. -/
theorem safe_step {io : IoBuffers α} {e : IoEvent α} (h : Safe io) (hK : io.Kernel e) :
    ∃ io', step io e = some io' ∧ Safe io' := by
  obtain ⟨⟨front, tail, spare, hread⟩, hwrite⟩ := h
  cases e with
  | peekData data size =>
      refine ⟨io, ?_, ⟨front, tail, spare, hread⟩, hwrite⟩
      by_cases hok : data = true ∧ 0 < size ∧ size ≤ io.readSize_
      · obtain ⟨rfl, h0, hle⟩ := hok
        obtain ⟨x, io', hpeek, -⟩ := ReadData_bounds hread h0 hle
        rw [step, hpeek]
        rfl
      · rw [step, PeekData_refused hok]
        rfl
  | readData data size =>
      by_cases hok : data = true ∧ 0 < size ∧ size ≤ io.readSize_
      · obtain ⟨rfl, h0, hle⟩ := hok
        obtain ⟨x, io', -, hdata, -, hsafe, -⟩ := ReadData_bounds hread h0 hle
        refine ⟨io', ?_, hsafe, hwrite.of_side (ReadData_writeSide hdata)⟩
        rw [step, hdata]
        rfl
      · refine ⟨io, ?_, ⟨front, tail, spare, hread⟩, hwrite⟩
        rw [step, ReadData_refused hok]
        rfl
  | writeData data xs =>
      -- the write path keeps its own half, and leaves the read chain to the other
      by_cases hok : data = true ∧ 0 < xs.length
      · obtain ⟨rfl, h0⟩ := hok
        obtain ⟨io', k, hdata, hshape, -⟩ := writeData_spec hwrite h0
        have hsafe : ReadSafe io := ⟨front, tail, spare, hread⟩
        refine ⟨io', ?_, hsafe.of_side (writeData_readSide hdata) hshape.owned, hshape⟩
        rw [step, hdata]
        rfl
      · refine ⟨io, ?_, ⟨front, tail, spare, hread⟩, hwrite⟩
        rw [step, writeData_refused hok]
        rfl
  | onRead result =>
      obtain ⟨r, hturn, hsafe⟩ := onRead.turn_bounds hread hK
      refine ⟨r.1, ?_, hsafe, hwrite.of_side (onRead.turn_writeSide hturn)⟩
      rw [step, hturn]
      rfl
  | onWrite result =>
      obtain ⟨r, hturn, hshape⟩ : ∃ r, onWrite.turn io result = some r ∧ WriteShape r.1 := by
        cases result with
        | none => exact ⟨_, onWrite.turn_error hwrite, hwrite⟩
        | some w =>
            obtain ⟨head, rest, x, -, hoffer, -⟩ := onWrite.offer_spec hwrite
            obtain ⟨hcounted, hover⟩ :=
              onWrite.turn_spec hwrite hoffer (hK w rfl _ hoffer)
            -- a result of more than is counted is not booked at all
            rcases Nat.lt_or_ge (onWrite.pending io).length w with hgt | hle
            · exact ⟨_, hover hgt, hwrite⟩
            · obtain ⟨io', hturn, hshape, -⟩ := hcounted hle
              exact ⟨_, hturn, hshape⟩
      have hsafe : ReadSafe io := ⟨front, tail, spare, hread⟩
      refine ⟨r.1, ?_, hsafe.of_side (onWrite.turn_readSide hturn) hshape.owned, hshape⟩
      rw [step, hturn]
      rfl

/-- What the memory of a connection looks like between two operations. Every
ring of the two chains is one that was taken and has not been released, none is
there twice, and all have the capacity of the pool; the tail pointers point to
rings of their chains; the next `readv` is given ranges inside two live rings,
and the next `writev` too; and the destructor releases what is left, so that
every ring ever taken is released once. -/
structure Sound (io : IoBuffers α) : Prop where
  owned : io.Owned
  capacity_eq : ∀ b ∈ io.readHead_ ++ io.writeHead_, b.capacity = io.bufferPool_.capacity_.bytes
  read_tail : io.readTail_ ∈ addrs io.readHead_
  write_tail : io.writeTail_ ∈ addrs io.writeHead_
  readv : ∃ t, onRead.prepare io = some t
    ∧ ∀ v ∈ onRead.iov t.readTail t.next, v.Inside [t.readTail, t.next]
  writev : ∃ bytes, onWrite.offer io = some bytes
  released : ∃ pool, io.destroy = some pool ∧ pool.freed.Perm (List.range pool.taken)

theorem Safe.sound {io : IoBuffers α} (h : Safe io) : Sound io := by
  obtain ⟨⟨front, tail, spare, hread⟩, hwrite⟩ := h
  obtain ⟨head, rest, x, -, hoffer, -⟩ := onWrite.offer_spec hwrite
  exact
    { owned := hread.owned
      capacity_eq := fun b hb => by
        rcases List.mem_append.mp hb with hb | hb
        · rw [hread.chain, List.append_cons] at hb
          rcases List.mem_append.mp hb with hb | hb
          · exact (hread.bounded b hb).capacity_eq
          · exact (hread.spare_wf b hb).capacity_eq
        · exact (hwrite.wf b hb).capacity_eq
      read_tail := by
        rw [hread.tail_addr, hread.chain, addrs_append, addrs_cons]
        exact List.mem_append_right _ (List.mem_cons_self ..)
      write_tail := List.mem_of_getLast? hwrite.last
      readv := onRead.prepare_inside hread
      writev := ⟨_, hoffer⟩
      released := destroy_spec hread.owned }

/-- **Buffer accesses stay in bounds, and ownership is exact.** Every run from
the established state, of turns of `onRead` and `onWrite` with any results of
`readv` and `writev` and of `PeekData`, `ReadData` and `writeData` calls of any
size in any order, goes through, and every state it passes is sound. -/
theorem io_sound (capacity : Capacity) (storage : ℕ → ℕ → α) (es : List (IoEvent α))
    (hK : Along step Kernel (establish (BufferPool.make capacity storage)) es) :
    Always step Sound (establish (BufferPool.make capacity storage)) es :=
  always_of_along (fun _ h => h.sound) (fun _ _ h hK => safe_step h hK)
    (safe_establish capacity storage) hK

/-- Two rings are filled, a read stops inside the second of them, another reads
on, and the spare ring behind them is filled while three bytes are written and
taken. -/
theorem io_sound_split :
    Always step Sound (establish (BufferPool.make ⟨4, by decide, by decide⟩ fun _ _ => 0))
      [.onRead (.data [1, 2, 3, 4, 5, 6, 7]), .readData true 5, .readData true 1,
        .writeData true [1, 2, 3], .onRead (.data [8, 9, 10, 11, 12]), .onWrite (some 3)] :=
  io_sound ⟨4, by decide, by decide⟩ (fun _ _ => 0)
    [.onRead (.data [1, 2, 3, 4, 5, 6, 7]), .readData true 5, .readData true 1,
      .writeData true [1, 2, 3], .onRead (.data [8, 9, 10, 11, 12]), .onWrite (some 3)]
    (by decide +kernel)

/-! ## `PeekData` and `ReadData` in the states of a run -/

/-- **`PeekData` and `ReadData` agree.** In every state of a run, and for every
size below `2 ^ 32`, the two succeed together, which is where as many bytes are
counted; and they copy the same bytes, as many as were asked for. -/
theorem peekData_readData (capacity : Capacity) (storage : ℕ → ℕ → α) (es : List (IoEvent α))
    (hK : Along step Kernel (establish (BufferPool.make capacity storage)) es)
    {io : IoBuffers α} (hrun : run step (establish (BufferPool.make capacity storage)) es = some io)
    (data : Bool) {size : ℕ} (h32 : size < 2 ^ 32) :
    ∃ ok x io', PeekData io data size = some (ok, x) ∧ ReadData io data size = some (ok, x, io')
      ∧ (ok = true ↔ data = true ∧ 0 < size ∧ size ≤ io.readSize_)
      ∧ (ok = true → x.length = size) := by
  have hkeep : ∀ (s : IoBuffers α) (e : IoEvent α), Safe s → s.Kernel e →
      ∃ s', step s e = some s' ∧ Safe s' := fun _ _ h hK => safe_step h hK
  have hsafe : Safe io := run_inv_along (fun _ _ _ h hK hs => inv_of_progress hkeep h hK hs)
    (safe_establish capacity storage) hK hrun
  by_cases hok : data = true ∧ 0 < size ∧ size ≤ io.readSize_
  · obtain ⟨front, tail, spare, hread⟩ := hsafe.read
    obtain ⟨head, rings, hrings, hhead, -⟩ := hread.exists_head
    have hcount := hhead.count_le
    have hcap := io.bufferPool_.capacity_.lt
    obtain ⟨x, io', hpeek, hdata, hlen, -⟩ := ReadData_bounds hread hok.2.1 hok.2.2
    refine ⟨true, x, io', hok.1 ▸ hpeek, hok.1 ▸ hdata, by simp only [hok, and_self], fun _ => ?_⟩
    rw [hlen head (by rw [hread.chain_cons hrings]; rfl), ReadData.copied]
    by_cases hle : size ≤ head.count
    · rw [if_pos hle]
    · -- a size below `2 ^ 32` loses nothing in 32 bits
      have hsub := (u32Sub_u32 (le_of_lt (not_le.mp hle)) (by omega)).2.mpr (by omega)
      rw [if_neg hle, hsub]
      omega
  · exact ⟨false, [], io, PeekData_refused hok, ReadData_refused hok,
      by simp only [hok, Bool.false_eq_true], fun h => absurd h Bool.false_ne_true⟩

/-- After a read that has stopped inside the second ring, whose count is too
large now, two more bytes are read. -/
theorem peekData_readData_split :
    ∃ io, run step (establish (BufferPool.make ⟨4, by decide, by decide⟩ fun _ _ => 0))
        [.onRead (.data [1, 2, 3, 4, 5, 6, 7]), .readData true 5] = some io
      ∧ ∃ ok x io', PeekData io true 2 = some (ok, x) ∧ ReadData io true 2 = some (ok, x, io')
        ∧ (ok = true ↔ true = true ∧ 0 < 2 ∧ 2 ≤ io.readSize_) ∧ (ok = true → x.length = 2) := by
  obtain ⟨io, hrun⟩ := Option.isSome_iff_exists.mp
    (show (run step (establish (BufferPool.make ⟨4, by decide, by decide⟩ fun _ _ => 0))
        [.onRead (.data [1, 2, 3, 4, 5, 6, 7]), .readData true 5]).isSome = true by decide +kernel)
  exact ⟨io, hrun, peekData_readData ⟨4, by decide, by decide⟩ (fun _ _ => 0)
    [.onRead (.data [1, 2, 3, 4, 5, 6, 7]), .readData true 5] (by decide +kernel) hrun true
    (by decide)⟩

end IoBuffers

end Libiak.Net
