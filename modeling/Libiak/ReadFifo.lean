/-
The read path as a FIFO, over whole runs.

The two ends of the read chain are moved by different functions, and what each
may assume of the rings is what the other left behind: `ReadShape`. A turn of
`onRead` appends what came in (`onRead.turn_spec`), `PeekData` changes nothing,
and `ReadData` takes from the front (`ReadData_spec`) unless the read ends
strictly inside a ring behind the head (`StopsBehindHead`). After such a read
the chain goes on counting bytes that have been handed out, so `readSize_` is
smaller than the content.

That makes the condition exact: along a run, what was delivered followed by the
content is what was received in every state if and only if no successful
`ReadData` of the run stops inside a ring behind the head
(`readRun_fifo_iff`).
-/
import Libiak.ReadPath
import Libiak.Run

set_option autoImplicit false

namespace Libiak.Net

open Libiak.Window Libiak.Run

variable {α : Type*}

/-! ## The read chain -/

/-- The chain up to the ring a tail pointer points to, that ring included. -/
def upTo (addr : ℕ) : List (Buffer α) → List (Buffer α)
  | [] => []
  | b :: chain => if b.addr = addr then [b] else b :: upTo addr chain

theorem upTo_append {front : List (Buffer α)} {b : Buffer α} {rest : List (Buffer α)}
    (h : b.addr ∉ addrs front) : upTo b.addr (front ++ b :: rest) = front ++ [b] := by
  induction front with
  | nil => simp [upTo]
  | cons c front ih =>
      simp only [addrs_cons, List.mem_cons, not_or] at h
      rw [List.cons_append, upTo, if_neg (Ne.symm h.1), ih h.2, List.cons_append]

/-- The content of the read chain: the live bytes of the rings from
`readHead_` to `readTail_`. -/
def readContent (io : IoBuffers α) : List α := content (upTo io.readTail_ io.readHead_)

/-- A read of `n` bytes ends strictly inside one of the rings behind the
first. -/
def StopsBehind : List (Buffer α) → ℕ → Prop
  | [], _ => False
  | b :: rings, n => b.count < n ∧ SplitsRing rings (n - b.count)

instance StopsBehind.decidable : (rings : List (Buffer α)) → (n : ℕ) →
    Decidable (StopsBehind rings n)
  | [], _ => inferInstanceAs (Decidable False)
  | b :: rings, n => inferInstanceAs (Decidable (b.count < n ∧ SplitsRing rings (n - b.count)))

/-- A `ReadData` of `size` bytes ends strictly inside a ring behind the
head. -/
def StopsBehindHead (io : IoBuffers α) (size : ℕ) : Prop :=
  StopsBehind (upTo io.readTail_ io.readHead_) size

instance (io : IoBuffers α) (size : ℕ) : Decidable (StopsBehindHead io size) :=
  StopsBehind.decidable _ _

/-- The state of the read chain between two operations: the rings in use are
`front` and then `tail`, of which only the first may have been read from, and
at most one spare ring follows. `readSize_` is the sum of the counts. -/
structure ReadShape (io : IoBuffers α) (front : List (Buffer α)) (tail : Buffer α)
    (spare : List (Buffer α)) : Prop where
  chain : io.readHead_ = front ++ tail :: spare
  tail_addr : io.readTail_ = tail.addr
  wf : ∀ b ∈ front ++ [tail], b.WfRead io.bufferPool_.capacity_.bytes
  behind : ∀ b ∈ (front ++ [tail]).tail, b.pop = 0
  spare_len : spare.length ≤ 1
  spare_wf : ∀ b ∈ spare, b.Spare io.bufferPool_.capacity_.bytes
  size_eq : io.readSize_ = total (front ++ [tail])
  owned : io.Owned

/-- The invariant of the read path. -/
def ReadInv (io : IoBuffers α) : Prop := ∃ front tail spare, ReadShape io front tail spare

namespace ReadShape

variable {io : IoBuffers α} {front spare : List (Buffer α)} {tail : Buffer α}

theorem owns (h : ReadShape io front tail spare) :
    io.bufferPool_.Owns (front ++ tail :: spare ++ io.writeHead_) := by
  have := h.owned
  rwa [IoBuffers.Owned, h.chain] at this

theorem upTo_eq (h : ReadShape io front tail spare) :
    upTo io.readTail_ io.readHead_ = front ++ [tail] := by
  have howns := h.owns
  rw [List.append_assoc, List.cons_append] at howns
  rw [h.chain, h.tail_addr, upTo_append howns.addr_notMem]

theorem content_eq (h : ReadShape io front tail spare) :
    readContent io = content (front ++ [tail]) := by
  rw [readContent, h.upTo_eq]

/-- **`readSize_` is the length of the content.** -/
theorem length_content (h : ReadShape io front tail spare) :
    io.readSize_ = (readContent io).length := by
  rw [h.content_eq, Net.length_content, h.size_eq]

/-- The rings behind the head. -/
theorem behind_wf (h : ReadShape io front tail spare) {head : Buffer α}
    {rings : List (Buffer α)} (hrings : front ++ [tail] = head :: rings) :
    ∀ b ∈ rings, b.Behind io.bufferPool_.capacity_.bytes := by
  intro b hb
  refine ⟨h.wf b (by rw [hrings]; exact List.mem_cons_of_mem _ hb), h.behind b ?_⟩
  rw [hrings]
  exact hb

/-- The chain, from its first ring on. -/
theorem chain_cons (h : ReadShape io front tail spare) {head : Buffer α}
    {rings : List (Buffer α)} (hrings : front ++ [tail] = head :: rings) :
    io.readHead_ = head :: (rings ++ spare) := by
  rw [h.chain, List.append_cons, hrings, List.cons_append]

end ReadShape

/-- The chain `establishInLoop` makes is one empty ring. -/
theorem readInv_establish (capacity : Capacity) (storage : ℕ → ℕ → α) :
    ReadInv (IoBuffers.establish (BufferPool.make capacity storage)) := by
  refine ⟨[], (BufferPool.make capacity storage).take.1, [], ?_⟩
  have hspare := (BufferPool.make capacity storage).take_spare
  exact
    { chain := rfl
      tail_addr := rfl
      wf := fun b hb => by
        rw [List.nil_append, List.mem_singleton] at hb
        exact hb ▸ hspare.wfRead capacity.pos
      behind := fun b hb => by simp at hb
      spare_len := Nat.zero_le _
      spare_wf := fun b hb => absurd hb List.not_mem_nil
      size_eq := rfl
      owned := IoBuffers.owned_establish capacity storage }

/-! ## `PeekData` and `ReadData` -/

section Data

variable {io : IoBuffers α} {front spare : List (Buffer α)} {tail : Buffer α} {size : ℕ}

/-- **`PeekData`** copies the first `size` bytes of the content, whenever there
are that many. -/
theorem PeekData_spec (h : ReadShape io front tail spare) (h0 : 0 < size)
    (hsize : size ≤ io.readSize_) (h32 : io.readSize_ < 2 ^ 32) :
    PeekData io true size = some (true, (readContent io).take size) := by
  have hcap : io.bufferPool_.capacity_.bytes < 2 ^ 31 := io.bufferPool_.capacity_.lt
  have hne : size ≠ 0 := by omega
  obtain ⟨head, rings, hrings⟩ : ∃ b rings, front ++ [tail] = b :: rings :=
    List.exists_cons_of_ne_nil (by simp)
  have hhead := h.wf head (by rw [hrings]; exact List.mem_cons_self ..)
  have htotal : io.readSize_ = head.count + total rings := by
    rw [h.size_eq, hrings, total_cons]
  rw [PeekData, if_neg (by simp [hne]; omega), h.chain_cons hrings, h.content_eq, hrings,
    take_content_cons]
  simp only
  by_cases hlt : size < head.count
  · rw [if_pos hlt, copyHead_spec hhead.toWf (le_of_lt hlt), Nat.sub_eq_zero_of_le (by omega),
      List.take_zero, List.append_nil]
    rfl
  · rw [if_neg hlt, copyHead_spec hhead.toWf (le_refl _), take_live_of_ge head (le_refl _),
      take_live_of_ge head (by omega)]
    simp only [Option.bind_eq_bind, Option.bind_some]
    by_cases hgt : size > head.count
    · rw [if_pos hgt, u32_of_lt (by omega), u32Sub_of_le (by omega),
        PeekData.loop_spec spare (h.behind_wf hrings) (by omega) (by omega) (by omega)]
      rfl
    · rw [if_neg hgt, Nat.sub_eq_zero_of_le (by omega), List.take_zero, List.append_nil]

/-- A `PeekData` the guard turns away copies nothing. -/
theorem PeekData_refused {data : Bool} (h : ¬ (data = true ∧ 0 < size ∧ size ≤ io.readSize_)) :
    PeekData io data size = some (false, []) := by
  rw [PeekData, if_pos]
  simp only [Bool.or_eq_true, Bool.not_eq_true', decide_eq_true_eq]
  by_contra hcon
  push Not at hcon
  exact h ⟨by simpa using hcon.1.1, by omega, by omega⟩

/-- A `ReadData` the guard turns away changes nothing. -/
theorem ReadData_refused {data : Bool} (h : ¬ (data = true ∧ 0 < size ∧ size ≤ io.readSize_)) :
    ReadData io data size = some (false, [], io) := by
  rw [ReadData, if_pos]
  simp only [Bool.or_eq_true, Bool.not_eq_true', decide_eq_true_eq]
  by_contra hcon
  push Not at hcon
  exact h ⟨by simpa using hcon.1.1, by omega, by omega⟩

theorem stopsBehindHead_iff (h : ReadShape io front tail spare) {head : Buffer α}
    {rings : List (Buffer α)} (hrings : front ++ [tail] = head :: rings) :
    StopsBehindHead io size ↔ head.count < size ∧ SplitsRing rings (size - head.count) := by
  rw [StopsBehindHead, h.upTo_eq, hrings, StopsBehind]

/-- The buffers after a read that has gone on to the rings behind the head. -/
theorem ReadShape.content_of_walk {n m : ℕ} {rings front' : List (Buffer α)} {tail' : Buffer α}
    {pool pool' : BufferPool α} (h : ReadShape io front tail spare)
    (hres : WalkResult io.bufferPool_.capacity_.bytes n rings tail spare io.writeHead_ pool
      front' tail' pool') :
    readContent { io with
      readHead_ := front' ++ tail' :: spare, bufferPool_ := pool', readSize_ := m }
      = content (front' ++ [tail']) := by
  have howns := hres.owns
  rw [List.append_assoc, List.cons_append] at howns
  rw [readContent, h.tail_addr, ← hres.tail_addr, upTo_append howns.addr_notMem]

theorem ReadShape.of_walk {n m : ℕ} {rings front' : List (Buffer α)} {tail' : Buffer α}
    {pool pool' : BufferPool α} (h : ReadShape io front tail spare)
    (hres : WalkResult io.bufferPool_.capacity_.bytes n rings tail spare io.writeHead_ pool
      front' tail' pool')
    (hpool : pool.capacity_ = io.bufferPool_.capacity_) (hsplit : ¬ SplitsRing rings n)
    (hm : m = total (front' ++ [tail'])) :
    ReadShape { io with
      readHead_ := front' ++ tail' :: spare, bufferPool_ := pool', readSize_ := m }
      front' tail' spare := by
  have hcap : pool'.capacity_ = io.bufferPool_.capacity_ := hres.capacity_eq.trans hpool
  have hbehind := hres.behind hsplit
  exact
    { chain := rfl
      tail_addr := by rw [h.tail_addr, hres.tail_addr]
      wf := fun b hb => by
        rw [hcap]
        exact (hbehind b hb).1
      behind := fun b hb => (hbehind b (List.mem_of_mem_tail hb)).2
      spare_len := h.spare_len
      spare_wf := fun b hb => by
        rw [hcap]
        exact h.spare_wf b hb
      size_eq := hm
      owned := hres.owns }

/-- A read inside the head ring leaves the chain with another head. -/
theorem ReadShape.of_head {head head' : Buffer α} {rings : List (Buffer α)}
    (h : ReadShape io front tail spare) (hrings : front ++ [tail] = head :: rings)
    (haddr : head'.addr = head.addr) (hwf : head'.WfRead io.bufferPool_.capacity_.bytes)
    (hcount : head'.count = head.count - size) (hsize : size ≤ head.count) :
    ∃ front' tail', ReadShape { io with
        readHead_ := head' :: (rings ++ spare), readSize_ := io.readSize_ - size }
        front' tail' spare ∧ front' ++ [tail'] = head' :: rings := by
  obtain ⟨front', tail', heq, htail, hfront⟩ := replace_head hrings head' haddr
  refine ⟨front', tail', ?_, heq.symm⟩
  have hchain : head' :: (rings ++ spare) = front' ++ tail' :: spare := by
    rw [List.append_cons, ← heq, List.cons_append]
  exact
    { chain := hchain
      tail_addr := by rw [h.tail_addr, htail]
      wf := fun b hb => by
        rw [← heq] at hb
        rcases List.mem_cons.mp hb with rfl | hb
        · exact hwf
        · exact h.wf b (by rw [hrings]; exact List.mem_cons_of_mem _ hb)
      behind := fun b hb => by
        rw [← heq] at hb
        exact (h.behind_wf hrings b hb).2
      spare_len := h.spare_len
      spare_wf := h.spare_wf
      size_eq := by
        simp only [h.size_eq, ← heq, hrings, total_cons, hcount]
        omega
      owned := by
        have howned := h.owned
        rw [IoBuffers.Owned, h.chain_cons hrings] at howned
        exact howned.perm (List.Perm.of_eq (by
          simp only [List.cons_append, addrs_cons, addrs_append, haddr])) }

/-- **`ReadData`** hands out the first `size` bytes of the content, whenever
there are that many. Unless it stops inside a ring behind the head it leaves
the rest of them; if it does, the chain counts more bytes than `readSize_`. -/
theorem ReadData_spec (h : ReadShape io front tail spare) (h0 : 0 < size)
    (hsize : size ≤ io.readSize_) (h32 : io.readSize_ < 2 ^ 32) :
    ∃ io', ReadData io true size = some (true, (readContent io).take size, io')
      ∧ (¬ StopsBehindHead io size →
          ReadInv io' ∧ readContent io' = (readContent io).drop size)
      ∧ (StopsBehindHead io size → io'.readSize_ < (readContent io').length) := by
  have hcap : io.bufferPool_.capacity_.bytes < 2 ^ 31 := io.bufferPool_.capacity_.lt
  have hne : size ≠ 0 := by omega
  obtain ⟨head, rings, hrings⟩ : ∃ b rings, front ++ [tail] = b :: rings :=
    List.exists_cons_of_ne_nil (by simp)
  have hhead := h.wf head (by rw [hrings]; exact List.mem_cons_self ..)
  have htotal : io.readSize_ = head.count + total rings := by
    rw [h.size_eq, hrings, total_cons]
  rw [stopsBehindHead_iff h hrings, ReadData, if_neg (by simp [hne]; omega),
    h.chain_cons hrings, h.content_eq, hrings, take_content_cons, drop_content_cons]
  simp only
  by_cases hlt : size < head.count
  · -- the read stays inside the head ring
    obtain ⟨head', heq, haddr, hwf, hcount, hlive⟩ := ReadData.inHead_spec hhead hcap hlt
    obtain ⟨front', tail', hshape, hrings'⟩ := h.of_head hrings haddr hwf hcount (le_of_lt hlt)
    have hzero : size - head.count = 0 := by omega
    rw [if_pos hlt, heq, hzero, List.take_zero, List.append_nil, List.drop_zero]
    refine ⟨_, rfl, fun _ => ⟨⟨front', tail', spare, hshape⟩, ?_⟩, fun hs => by omega⟩
    rw [hshape.content_eq, hrings', content_cons, hlive]
  · rw [if_neg hlt, copyHead_spec hhead.toWf (le_refl _), take_live_of_ge head (le_refl _),
      take_live_of_ge head (by omega), drop_live_of_ge head (by omega), List.nil_append]
    simp only [Option.bind_eq_bind, Option.bind_some]
    by_cases hgt : size > head.count
    · -- the head is released and the walk goes on behind it
      obtain ⟨front₀, hfront⟩ : ∃ front₀, front = head :: front₀ ∧ rings = front₀ ++ [tail] := by
        cases front with
        | nil =>
            simp only [List.nil_append, List.cons.injEq] at hrings
            rw [← hrings.2, total_nil] at htotal
            omega
        | cons c front₀ =>
            simp only [List.cons_append, List.cons.injEq] at hrings
            exact ⟨front₀, by rw [hrings.1], hrings.2.symm⟩
      obtain ⟨rfl, rfl⟩ := hfront
      obtain ⟨hput, howns⟩ := BufferPool.Owns.put h.owns
      obtain ⟨front', tail', pool', hloop, hres⟩ := ReadData.loop_spec (n := size - head.count)
        (h.behind_wf hrings) howns (by omega) (by omega) (by omega)
      rw [if_pos hgt, hput, u32_of_lt (by omega), u32Sub_of_le (by omega), h.tail_addr,
        List.append_assoc, List.singleton_append]
      simp only [Option.bind_some, hloop]
      refine ⟨_, rfl, fun hns => ?_, fun hs => ?_⟩
      · have hsplit : ¬ SplitsRing (front₀ ++ [tail]) (size - head.count) :=
          fun hs => hns ⟨hgt, hs⟩
        -- the counters add up to what is left, so `readSize_` is their sum
        have hcontent := hres.content_eq hsplit
        have hlen := congrArg List.length hcontent
        rw [Net.length_content, List.length_drop, Net.length_content] at hlen
        refine ⟨⟨front', tail', spare, ?_⟩, ?_⟩
        · have := h.of_walk hres rfl hsplit (m := io.readSize_ - size) (by omega)
          rwa [h.tail_addr] at this
        · have := h.content_of_walk hres (m := io.readSize_ - size)
          rw [h.tail_addr] at this
          rw [this, hcontent]
      · -- the ring the walk ends in still counts the bytes that were read
        have hmore := hres.counts_more hs.2
        have := h.content_of_walk hres (m := io.readSize_ - size)
        rw [h.tail_addr] at this
        rw [this, Net.length_content]
        simp only
        omega
    · -- the read ends where the head ends
      obtain rfl : size = head.count := by omega
      obtain ⟨front', tail', pool', hdrain, hres⟩ :=
        ReadData.drain_spec hrings hhead (h.behind_wf hrings) h.owns
      rw [if_neg hgt, h.tail_addr, hdrain, Nat.sub_self, List.take_zero, List.append_nil,
        List.drop_zero]
      have hsplit : ¬ SplitsRing (head :: rings) head.count := by
        simp only [SplitsRing, lt_self_iff_false, and_false, false_and, or_self,
          not_false_eq_true]
      have hcontent := hres.content_eq hsplit
      rw [drop_content_cons, drop_live_of_ge head (le_refl _), Nat.sub_self, List.drop_zero,
        List.nil_append] at hcontent
      have hlen := congrArg List.length hcontent
      rw [Net.length_content, Net.length_content] at hlen
      refine ⟨_, rfl, fun _ => ⟨⟨front', tail', spare, ?_⟩, ?_⟩, fun hs => by omega⟩
      · have := h.of_walk hres rfl hsplit (m := io.readSize_ - head.count) (by omega)
        rwa [h.tail_addr] at this
      · have := h.content_of_walk hres (m := io.readSize_ - head.count)
        rw [h.tail_addr] at this
        rw [this, hcontent]

end Data

/-! ## A turn of `onRead` -/

section Turn

variable {io : IoBuffers α} {front spare : List (Buffer α)} {tail next : Buffer α} {cap : ℕ}

/-- The kernel filling an `iovec` of the first ring. -/
theorem readv_cons {v : Iovec} {b : Buffer α} (iov : List Iovec) (xs : List α)
    (rings : List (Buffer α)) (haddr : b.addr = v.base) (h : v.off + v.len ≤ b.capacity) :
    readv (v :: iov) xs (b :: rings)
      = readv iov (xs.drop v.len)
          ({ b with buffer := patch b.buffer v.off (xs.take v.len) } :: rings) := by
  rw [readv, fillIovec, if_pos haddr, if_pos h]
  rfl

/-- What the kernel puts in the tail ring is appended to it: `rear` is its free
space, and the bytes past it are left for the ring behind. -/
theorem readv_tail (ht : tail.WfRead cap) (hcap : cap < 2 ^ 31) (iov : List Iovec)
    (bytes : List α) (rings : List (Buffer α)) :
    ∃ mem, readv (onRead.tailIov tail ++ iov) bytes (tail :: rings)
        = readv iov (bytes.drop (cap - tail.count)) ({ tail with buffer := mem } :: rings)
      ∧ window mem cap tail.pop (tail.count + (bytes.take (cap - tail.count)).length)
        = tail.live ++ bytes.take (cap - tail.count) := by
  obtain ⟨hwf, hpop, hempty⟩ := ht
  have hcount := hwf.count_le
  have hpush := hwf.push_le
  have hlinked := hwf.linked
  have hrear : u32Sub tail.capacity tail.count = cap - tail.count := by
    rw [hwf.capacity_eq]
    exact u32Sub_of_le hcount
  have hend : u32Sub tail.capacity tail.push = cap - tail.push := by
    rw [hwf.capacity_eq]
    exact u32Sub_of_le hpush
  have htake : (bytes.take (cap - tail.count)).length ≤ cap - tail.count := List.length_take_le ..
  simp only [onRead.tailIov, hrear, hend]
  by_cases hfree : cap - tail.count > 0
  · rw [if_pos hfree]
    by_cases hlt : tail.push < tail.pop
    · -- one piece, between `push` and `pop`
      rw [if_pos hlt, List.singleton_append, readv_cons _ _ _ rfl (by
        simp only [hwf.capacity_eq]
        omega)]
      refine ⟨patch tail.buffer tail.push (bytes.take (cap - tail.count)), rfl, ?_⟩
      exact hwf.window_store_straight (by omega) (by omega)
    · -- from `push` to the end, and then from the start up to `pop`
      have hlink : tail.push = tail.pop + tail.count := by omega
      rw [if_neg hlt, List.cons_append, readv_cons _ _ _ rfl (by
        simp only [hwf.capacity_eq]
        omega)]
      by_cases hz : tail.pop > 0
      · -- two pieces, and the bytes may end inside the first
        have hsum : cap - tail.count = (cap - tail.push) + tail.pop := by omega
        rw [if_pos hz, List.singleton_append, readv_cons _ _ _ rfl (by
          simp only [hwf.capacity_eq]
          omega)]
        refine ⟨patch (patch tail.buffer tail.push (bytes.take (cap - tail.push))) 0
          ((bytes.drop (cap - tail.push)).take tail.pop), ?_, ?_⟩
        · simp only [List.drop_drop, hsum]
        · rcases Nat.lt_or_ge bytes.length (cap - tail.push) with hshort | hlong
          · -- nothing is left for the second piece
            rw [List.drop_eq_nil_of_le (le_of_lt hshort), List.take_nil, patch_nil,
              List.take_of_length_le (le_of_lt hshort), List.take_of_length_le (by omega)]
            exact hwf.window_store_straight (by omega) (by omega)
          · have h1 : bytes.take (cap - tail.push)
                = (bytes.take (cap - tail.count)).take (cap - tail.push) := by
              rw [List.take_take, Nat.min_eq_left (by omega)]
            have h2 : (bytes.drop (cap - tail.push)).take tail.pop
                = (bytes.take (cap - tail.count)).drop (cap - tail.push) := by
              rw [List.drop_take, hsum, Nat.add_sub_cancel_left]
            have h3 : cap - tail.push ≤ (bytes.take (cap - tail.count)).length := by
              rw [List.length_take]
              omega
            rw [h1, h2]
            exact hwf.window_store_wrapped (by omega) (by omega)
      · -- one piece, since nothing is free before `pop`
        have hsame : cap - tail.push = cap - tail.count := by omega
        rw [if_neg hz, List.nil_append, hsame]
        refine ⟨patch tail.buffer tail.push (bytes.take (cap - tail.count)), rfl, ?_⟩
        exact hwf.window_store_straight (by omega) (by omega)
  · -- the ring is full and takes nothing
    have hzero : cap - tail.count = 0 := by omega
    rw [if_neg hfree, List.nil_append, hzero]
    refine ⟨tail.buffer, rfl, ?_⟩
    rw [List.take_zero, List.append_nil, List.length_nil, Nat.add_zero, Buffer.live,
      hwf.capacity_eq]

/-- What the kernel puts in the spare ring starts at its beginning. -/
theorem readv_next (hn : next.Spare cap) {first : Buffer α} (hne : first.addr ≠ next.addr)
    {xs : List α} (hlen : xs.length ≤ cap) :
    readv [⟨next.addr, 0, next.capacity⟩] xs [first, next]
      = some [first, { next with buffer := patch next.buffer 0 xs }] := by
  rw [readv, fillIovec, if_neg hne, fillIovec, if_pos rfl, if_pos (by simp only; omega),
    hn.capacity_eq, List.take_of_length_le hlen]
  simp only [Option.map_some, Option.bind_eq_bind, Option.bind_some, readv,
    List.drop_eq_nil_of_le hlen, List.isEmpty_nil, if_true]

/-- The room a turn of `onRead` offers the kernel. -/
theorem offered_iov (ht : tail.WfRead cap) (hn : next.Spare cap) (hcap : cap < 2 ^ 31) :
    offered (onRead.iov tail next) = (cap - tail.count) + cap := by
  have hcount := ht.count_le
  have hpush := ht.push_le
  have hlinked := ht.linked
  have hempty := ht.empty
  have hpop := ht.pop_lt
  have hrear : u32Sub tail.capacity tail.count = cap - tail.count := by
    rw [ht.capacity_eq]
    exact u32Sub_of_le hcount
  have hend : u32Sub tail.capacity tail.push = cap - tail.push := by
    rw [ht.capacity_eq]
    exact u32Sub_of_le hpush
  simp only [offered, onRead.iov, onRead.tailIov, hrear, hend, List.map_append, List.sum_append,
    hn.capacity_eq, List.map_cons, List.map_nil, List.sum_cons, List.sum_nil]
  split_ifs <;> simp only [List.map_cons, List.map_nil, List.sum_cons, List.sum_nil] <;> omega

/-- The part of a turn before `readv`: the spare ring is the one behind the
tail, or a ring just taken. -/
theorem onRead.prepare_of_split
    (hsplit : splitAt io.readTail_ io.readHead_ = some (front, tail, spare))
    (hlen : spare.length ≤ 1) :
    ∃ next pool, onRead.prepare io = some ⟨front, tail, next, [], pool⟩
      ∧ (spare = [next] ∧ pool = io.bufferPool_
        ∨ spare = [] ∧ next = io.bufferPool_.take.1 ∧ pool = io.bufferPool_.take.2) := by
  rw [onRead.prepare, hsplit]
  match spare with
  | [] => exact ⟨_, _, rfl, Or.inr ⟨rfl, rfl, rfl⟩⟩
  | [next] => exact ⟨_, _, rfl, Or.inl ⟨rfl, rfl⟩⟩
  | _ :: _ :: _ =>
      simp only [List.length_cons] at hlen
      omega

theorem onRead.prepare_of_chain (hchain : io.readHead_ = front ++ tail :: spare)
    (htail : io.readTail_ = tail.addr) (hlen : spare.length ≤ 1)
    (hspare : ∀ b ∈ spare, b.Spare io.bufferPool_.capacity_.bytes) (howned : io.Owned) :
    ∃ next pool, onRead.prepare io = some ⟨front, tail, next, [], pool⟩
      ∧ next.Spare io.bufferPool_.capacity_.bytes ∧ pool.capacity_ = io.bufferPool_.capacity_
      ∧ pool.Owns (front ++ tail :: [next] ++ io.writeHead_) := by
  rw [IoBuffers.Owned, hchain] at howned
  have hsplit : splitAt io.readTail_ io.readHead_ = some (front, tail, spare) := by
    have howns := howned
    rw [List.append_assoc, List.cons_append] at howns
    rw [hchain, htail, splitAt_append howns.addr_notMem]
  obtain ⟨next, pool, hprep, hcases⟩ := onRead.prepare_of_split hsplit hlen
  refine ⟨next, pool, hprep, ?_⟩
  rcases hcases with ⟨rfl, rfl⟩ | ⟨rfl, rfl, rfl⟩
  · exact ⟨hspare next (List.mem_cons_self ..), rfl, howned⟩
  · refine ⟨io.bufferPool_.take_spare, rfl, ?_⟩
    have hperm : (addrs (io.bufferPool_.take.1 :: (front ++ [tail] ++ io.writeHead_))).Perm
        (addrs (front ++ [tail] ++ io.bufferPool_.take.1 :: io.writeHead_)) := by
      rw [addrs_append _ (_ :: _), addrs_cons, addrs_cons, addrs_append]
      exact List.perm_middle.symm
    refine howned.take.perm (hperm.trans (List.Perm.of_eq ?_))
    simp only [List.append_assoc, List.cons_append, List.nil_append]

theorem onRead.prepare_spec (h : ReadShape io front tail spare) :
    ∃ next pool, onRead.prepare io = some ⟨front, tail, next, [], pool⟩
      ∧ next.Spare io.bufferPool_.capacity_.bytes ∧ pool.capacity_ = io.bufferPool_.capacity_
      ∧ pool.Owns (front ++ tail :: [next] ++ io.writeHead_) :=
  onRead.prepare_of_chain h.chain h.tail_addr h.spare_len h.spare_wf h.owned

/-- A tail that was not filled: `push` moves on, back to the start when it
reaches the end. -/
theorem onRead.tail_short (ht : tail.WfRead cap) (mem : ℕ → α) {n : ℕ} (h0 : 0 < n)
    (hn : n < cap - tail.count) :
    Buffer.WfRead cap { tail with
      buffer := mem, push := (tail.push + n) % cap, count := tail.count + n } := by
  obtain ⟨hwf, hpop, hempty⟩ := ht
  have hcount := hwf.count_le
  have hpush := hwf.push_le
  have hlinked := hwf.linked
  obtain ⟨hlt, hmod⟩ := mod_cases (tail.push + n) cap (by omega)
  exact
    { capacity_eq := hwf.capacity_eq
      count_le := by simp only; omega
      push_le := by simp only; omega
      pop_le := hwf.pop_le
      linked := by simp only; omega
      pop_lt := hpop
      empty := by simp only; omega }

/-- A tail that was filled. -/
theorem onRead.tail_full (ht : tail.WfRead cap) (mem : ℕ → α) :
    Buffer.WfRead cap { tail with buffer := mem, push := tail.pop, count := cap } := by
  obtain ⟨hwf, hpop, -⟩ := ht
  exact
    { capacity_eq := hwf.capacity_eq
      count_le := le_refl _
      push_le := hwf.pop_le
      pop_le := hwf.pop_le
      linked := Or.inr rfl
      pop_lt := hpop
      empty := by simp only; omega }

/-- A spare ring with `n` bytes at its start. -/
theorem onRead.next_filled (hn : next.Spare cap) {mem : ℕ → α} {n : ℕ} (h0 : 0 < n)
    (hle : n ≤ cap) :
    Buffer.Behind cap { next with buffer := mem, count := n, push := n } := by
  refine ⟨?_, hn.pop_eq⟩
  exact
    { capacity_eq := hn.capacity_eq
      count_le := hle
      push_le := hle
      pop_le := by simp only [hn.pop_eq]; omega
      linked := by simp only [hn.pop_eq]; omega
      pop_lt := by simp only [hn.pop_eq]; omega
      empty := by simp only; omega }

/-- What the bookkeeping of a turn makes of the tail ring and the ring behind
it, after `n` bytes have been stored in them. -/
structure FillResult (cap : ℕ) (tail next : Buffer α) (mem mem' : ℕ → α) (n : ℕ)
    (tail' next' : Buffer α) (moved : Bool) : Prop where
  tail_addr : tail'.addr = tail.addr
  next_addr : next'.addr = next.addr
  tail_mem : tail'.buffer = mem
  next_mem : next'.buffer = mem'
  tail_pop : tail'.pop = tail.pop
  tail_wf : tail'.WfRead cap
  next_behind : next'.Behind cap
  tail_count : tail'.count = tail.count + min n (cap - tail.count)
  next_count : next'.count = n - (cap - tail.count)
  moved_iff : moved = true ↔ cap - tail.count < n
  next_spare : moved = false → next'.Spare cap

theorem onRead.fill_spec (ht : tail.WfRead cap) (hn : next.Spare cap) (hcap : cap < 2 ^ 31)
    (mem mem' : ℕ → α) {n : ℕ} (h0 : 0 < n) (hle : n ≤ (cap - tail.count) + cap) :
    ∃ tail' next' moved,
      onRead.fill { tail with buffer := mem } { next with buffer := mem' } (cap - tail.count) n
        = (tail', next', moved) ∧ FillResult cap tail next mem mem' n tail' next' moved := by
  have hcount := ht.count_le
  have hpush := ht.push_le
  have hpos : 0 < cap := by have := ht.pop_lt; omega
  have hspare : Buffer.Spare cap { next with buffer := mem' } :=
    ⟨hn.capacity_eq, hn.count_eq, hn.push_eq, hn.pop_eq⟩
  have h32 : u32 n = n := u32_of_lt (by omega)
  simp only [onRead.fill, h32, ht.capacity_eq]
  by_cases hlt : n < cap - tail.count
  · rw [if_pos hlt, u32_of_lt (by omega), u32_of_lt (by omega)]
    refine ⟨_, _, _, rfl, ?_⟩
    have hwf := onRead.tail_short ht mem h0 hlt
    rw [ht.capacity_eq] at hwf
    exact
      { tail_addr := rfl, next_addr := rfl, tail_mem := rfl, next_mem := rfl, tail_pop := rfl
        tail_wf := hwf
        next_behind := ⟨hspare.wfRead hpos, hn.pop_eq⟩
        tail_count := by simp only; omega
        next_count := by simp only [hn.count_eq]; omega
        moved_iff := by simp only [Bool.false_eq_true, false_iff]; omega
        next_spare := fun _ => hspare }
  · have hwf := onRead.tail_full ht mem
    rw [ht.capacity_eq] at hwf
    rw [if_neg hlt]
    by_cases hgt : n > cap - tail.count
    · rw [if_pos hgt, u32Sub_of_le (le_of_lt hgt)]
      refine ⟨_, _, _, rfl, ?_⟩
      exact
        { tail_addr := rfl, next_addr := rfl, tail_mem := rfl, next_mem := rfl, tail_pop := rfl
          tail_wf := hwf
          next_behind := onRead.next_filled hn (by omega) (by omega)
          tail_count := by simp only; omega
          next_count := rfl
          moved_iff := by simp only [true_iff]; omega
          next_spare := fun h => absurd h (by decide) }
    · rw [if_neg hgt]
      refine ⟨_, _, _, rfl, ?_⟩
      exact
        { tail_addr := rfl, next_addr := rfl, tail_mem := rfl, next_mem := rfl, tail_pop := rfl
          tail_wf := hwf
          next_behind := ⟨hspare.wfRead hpos, hn.pop_eq⟩
          tail_count := by simp only; omega
          next_count := by simp only [hn.count_eq]; omega
          moved_iff := by simp only [Bool.false_eq_true, false_iff]; omega
          next_spare := fun _ => hspare }

/-- **The two rings after a turn** that brought bytes in: the tail holds as many
of them as it had room for, behind what it held, and the ring behind it the
rest. -/
theorem onRead.turn_rings {pool : BufferPool α} {bytes : List α}
    (hprep : onRead.prepare io = some ⟨front, tail, next, [], pool⟩) (ht : tail.WfRead cap)
    (hn : next.Spare cap) (hcap : cap < 2 ^ 31) (hne : tail.addr ≠ next.addr)
    (h0 : 0 < bytes.length) (hlen : bytes.length ≤ (cap - tail.count) + cap) :
    ∃ mem mem' tail' next' moved, onRead.turn io (.data bytes) = some ({ io with
          bufferPool_ := pool, readHead_ := front ++ [tail', next']
          readTail_ := if moved then next'.addr else io.readTail_
          readSize_ := io.readSize_ + bytes.length },
        if bytes.length < (cap - tail.count) + cap then .short bytes.length
        else .full bytes.length)
      ∧ FillResult cap tail next mem mem' bytes.length tail' next' moved
      ∧ tail'.live = tail.live ++ bytes.take (cap - tail.count)
      ∧ next'.live = bytes.drop (cap - tail.count) := by
  have hcount := ht.count_le
  -- what the kernel stores
  obtain ⟨mem, hreadv, hwin⟩ := readv_tail ht hcap [⟨next.addr, 0, next.capacity⟩] bytes [next]
  rw [readv_next hn (by exact hne) (by rw [List.length_drop]; omega)] at hreadv
  -- what the bookkeeping makes of it
  obtain ⟨tail', next', moved, hfill, hres⟩ := onRead.fill_spec ht hn hcap mem
    (patch next.buffer 0 (bytes.drop (cap - tail.count))) h0 hlen
  have hrear : u32Sub tail.capacity tail.count = cap - tail.count := by
    rw [ht.capacity_eq]
    exact u32Sub_of_le hcount
  have hsize : u32 ((cap - tail.count) + next.capacity) = (cap - tail.count) + cap := by
    rw [hn.capacity_eq]
    exact u32_of_lt (by omega)
  refine ⟨mem, _, tail', next', moved, ?_, hres, ?_, ?_⟩
  · rw [onRead.turn, hprep]
    simp only [Option.bind_eq_bind, Option.bind_some, onRead.iov, hreadv, onRead.finish, hrear,
      hsize, if_neg (show ¬ bytes.length = 0 by omega), if_neg (not_lt.mpr hlen), hfill]
  · have hmin : (bytes.take (cap - tail.count)).length = min bytes.length (cap - tail.count) := by
      rw [List.length_take, Nat.min_comm]
    rw [Buffer.live, hres.tail_wf.capacity_eq, hres.tail_mem, hres.tail_pop, hres.tail_count,
      ← hmin, hwin]
  · have hlen' : (bytes.drop (cap - tail.count)).length = bytes.length - (cap - tail.count) :=
      List.length_drop
    rw [Buffer.live, hres.next_behind.1.capacity_eq, hres.next_mem, hres.next_behind.2,
      hres.next_count, window_eq_span _ (by omega), ← hlen', span_patch_self]

/-- The chain after a turn. Only the tail and the ring behind it have changed,
and the second is in use from now on if the tail has moved. -/
theorem ReadShape.of_turn {tail' next' : Buffer α} {moved : Bool} {mem mem' : ℕ → α}
    {pool : BufferPool α} {n : ℕ} (h : ReadShape io front tail spare) (hn : next.Spare cap)
    (hcap : cap = io.bufferPool_.capacity_.bytes)
    (hpool : pool.capacity_ = io.bufferPool_.capacity_)
    (howns : pool.Owns (front ++ tail :: [next] ++ io.writeHead_))
    (hres : FillResult cap tail next mem mem' n tail' next' moved)
    (hle : n ≤ (cap - tail.count) + cap) :
    ∃ front' tail'' spare', ReadShape { io with
        bufferPool_ := pool, readHead_ := front ++ [tail', next']
        readTail_ := if moved then next'.addr else io.readTail_
        readSize_ := io.readSize_ + n } front' tail'' spare'
      ∧ front' ++ [tail''] = front ++ if moved then [tail', next'] else [tail'] := by
  subst hcap
  have hcount : tail.count ≤ io.bufferPool_.capacity_.bytes := (h.wf tail (by simp)).count_le
  have hsize : io.readSize_ = total front + tail.count := by
    rw [h.size_eq, total_append, total_cons, total_nil, Nat.add_zero]
  have howned : pool.Owns (front ++ [tail', next'] ++ io.writeHead_) :=
    howns.perm (List.Perm.of_eq (by
      simp only [List.append_assoc, List.cons_append, List.nil_append, addrs_append, addrs_cons,
        hres.tail_addr, hres.next_addr]))
  have hfront : ∀ b ∈ front, b.WfRead io.bufferPool_.capacity_.bytes := fun b hb =>
    h.wf b (List.mem_append_left _ hb)
  have hbehind : ∀ b ∈ (front ++ [tail']).tail, b.pop = 0 := by
    intro b hb
    cases front with
    | nil => simp at hb
    | cons c front =>
        simp only [List.cons_append, List.tail_cons, List.mem_append, List.mem_singleton] at hb
        rcases hb with hb | rfl
        · exact h.behind b (by simp [hb])
        · exact hres.tail_pop.trans (h.behind tail (by simp))
  cases moved with
  | false =>
      -- the bytes fit into the tail, and the ring behind it stays a spare
      have hnot := hres.moved_iff.not.mp (by decide)
      refine ⟨front, tail', [next'], ?_, rfl⟩
      exact
        { chain := rfl
          tail_addr := by
            simp only [Bool.false_eq_true, if_false]
            rw [h.tail_addr, hres.tail_addr]
          wf := fun b hb => by
            rw [hpool]
            rcases List.mem_append.mp hb with hb | hb
            · exact hfront b hb
            · exact List.mem_singleton.mp hb ▸ hres.tail_wf
          behind := hbehind
          spare_len := le_refl 1
          spare_wf := fun b hb => by
            rw [hpool]
            exact List.mem_singleton.mp hb ▸ hres.next_spare rfl
          size_eq := by
            simp only [total_append, total_cons, total_nil, hres.tail_count, hsize]
            omega
          owned := howned }
  | true =>
      -- the ring behind the tail holds the rest, and is the tail now
      have hmoved := hres.moved_iff.mp rfl
      refine ⟨front ++ [tail'], next', [], ?_, by simp⟩
      exact
        { chain := by simp
          tail_addr := rfl
          wf := fun b hb => by
            rw [hpool]
            rcases List.mem_append.mp hb with hb | hb
            · rcases List.mem_append.mp hb with hb | hb
              · exact hfront b hb
              · exact List.mem_singleton.mp hb ▸ hres.tail_wf
            · exact List.mem_singleton.mp hb ▸ hres.next_behind.1
          behind := fun b hb => by
            rw [List.tail_append_of_ne_nil (by simp)] at hb
            rcases List.mem_append.mp hb with hb | hb
            · exact hbehind b hb
            · exact List.mem_singleton.mp hb ▸ hres.next_behind.2
          spare_len := Nat.zero_le _
          spare_wf := fun b hb => absurd hb List.not_mem_nil
          size_eq := by
            simp only [total_append, total_cons, total_nil, hres.tail_count, hres.next_count, hsize]
            omega
          owned := howned }

/-- **A turn of `onRead`** that brought bytes in appends them to the content,
whatever their number: the free space of the tail is filled first, in the order
of the ring, and the rest goes to the ring behind it. -/
theorem onRead.turn_spec (h : ReadShape io front tail spare) {bytes : List α}
    (h0 : 0 < bytes.length)
    (hlen : bytes.length ≤ (io.bufferPool_.capacity_.bytes - tail.count)
      + io.bufferPool_.capacity_.bytes) :
    ∃ io', onRead.turn io (.data bytes) = some (io',
        if bytes.length < (io.bufferPool_.capacity_.bytes - tail.count)
            + io.bufferPool_.capacity_.bytes then .short bytes.length else .full bytes.length)
      ∧ ReadInv io' ∧ readContent io' = readContent io ++ bytes := by
  obtain ⟨cap, hc⟩ : ∃ cap, cap = io.bufferPool_.capacity_.bytes := ⟨_, rfl⟩
  have hcap : cap < 2 ^ 31 := hc ▸ io.bufferPool_.capacity_.lt
  have ht : tail.WfRead cap := hc ▸ h.wf tail (by simp)
  obtain ⟨next, pool, hprep, hn, hpool, howns⟩ := onRead.prepare_spec h
  rw [← hc] at hn hlen ⊢
  have hcount := ht.count_le
  have hne : tail.addr ≠ next.addr := by
    have hnd := (List.nodup_append.mp howns.nodup).2.1
    simp only [List.append_assoc, addrs_append, List.cons_append, addrs_cons] at hnd
    have := (List.nodup_append.mp hnd).2.1
    simp only [List.nodup_cons, List.mem_cons, not_or] at this
    exact this.1.1
  obtain ⟨mem, mem', tail', next', moved, hturn, hres, hlive, hlive'⟩ :=
    onRead.turn_rings hprep ht hn hcap hne h0 hlen
  obtain ⟨front', tail'', spare', hshape, hrings⟩ := h.of_turn hn hc hpool howns hres hlen
  refine ⟨_, hturn, ⟨front', tail'', spare', hshape⟩, ?_⟩
  -- the two rings hold the old bytes of the tail and the new ones
  rw [hshape.content_eq, h.content_eq, hrings, content_append, content_append, List.append_assoc]
  congr 1
  cases moved with
  | false =>
      have hnot := hres.moved_iff.not.mp (by decide)
      simp only [Bool.false_eq_true, if_false, content_cons, content_nil, List.append_nil, hlive]
      rw [List.take_of_length_le (by omega)]
  | true =>
      simp only [if_true, content_cons, content_nil, List.append_nil, hlive, hlive']
      rw [List.append_assoc, List.take_append_drop]

end Turn

/-! ## Runs of the read path -/

/-- The read path with its history: the bytes `readv` returned so far, and
those successful `ReadData` calls copied out. -/
structure ReadRun (α : Type*) where
  io : IoBuffers α
  received : List α
  delivered : List α

/-- One step of a run: a turn of `onRead` that brought bytes in, or a call of
the user. -/
inductive ReadEvent (α : Type*) where
  | onRead (bytes : List α)
  | peekData (data : Bool) (size : ℕ)
  | readData (data : Bool) (size : ℕ)

namespace ReadRun

/-- The state `establishInLoop` leaves. -/
def init (capacity : Capacity) (storage : ℕ → ℕ → α) : ReadRun α :=
  { io := IoBuffers.establish (BufferPool.make capacity storage), received := [], delivered := [] }

def step (s : ReadRun α) : ReadEvent α → Option (ReadRun α)
  | .onRead bytes => do
      let r ← onRead.turn s.io (.data bytes)
      some { s with io := r.1, received := s.received ++ bytes }
  | .peekData data size => do
      let _ ← PeekData s.io data size
      some s
  | .readData data size => do
      let r ← ReadData s.io data size
      some { s with io := r.2.2, delivered := s.delivered ++ r.2.1 }

/-- The room the next turn of `onRead` offers the kernel. -/
def room (s : ReadRun α) : ℕ :=
  match onRead.prepare s.io with
  | some t => offered (onRead.iov t.readTail t.next)
  | none => 0

/-- What the kernel and the size of the buffers allow: `readv` returns from one
byte up to all that was offered, and fewer than `2 ^ 32` bytes are buffered. -/
def Admissible (s : ReadRun α) : ReadEvent α → Prop
  | .onRead bytes =>
      0 < bytes.length ∧ bytes.length ≤ s.room ∧ s.io.readSize_ + bytes.length < 2 ^ 32
  | _ => True

/-- No successful `ReadData` ends strictly inside a ring behind the head. -/
def EndsOnRing (s : ReadRun α) : ReadEvent α → Prop
  | .readData data size =>
      data = true → 0 < size → size ≤ s.io.readSize_ → ¬ StopsBehindHead s.io size
  | _ => True

/-- `readSize_` is the length of the content, and what was delivered followed
by the content is what was received. -/
structure Fifo (s : ReadRun α) : Prop where
  size : s.io.readSize_ = (readContent s.io).length
  order : s.delivered ++ readContent s.io = s.received

/-- The invariant of the runs in which every read ends on a ring. -/
structure Inv (s : ReadRun α) : Prop extends Fifo s where
  chain : ReadInv s.io
  small : s.io.readSize_ < 2 ^ 32

theorem inv_init (capacity : Capacity) (storage : ℕ → ℕ → α) : Inv (init capacity storage) := by
  have hinv := readInv_establish capacity storage
  obtain ⟨front, tail, spare, h⟩ := hinv
  have hsize := h.length_content
  have hnil : readContent (init capacity storage).io = [] :=
    List.eq_nil_of_length_eq_zero hsize.symm
  exact
    { size := hsize
      order := by rw [hnil]; rfl
      chain := ⟨front, tail, spare, h⟩
      small := (by decide : 0 < 2 ^ 32) }

/-- The room offered is the free space of the tail and a whole ring. -/
theorem room_eq {s : ReadRun α} {front spare : List (Buffer α)} {tail : Buffer α}
    (h : ReadShape s.io front tail spare) :
    s.room = (s.io.bufferPool_.capacity_.bytes - tail.count)
      + s.io.bufferPool_.capacity_.bytes := by
  obtain ⟨next, pool, hprep, hn, -, -⟩ := onRead.prepare_spec h
  rw [room, hprep]
  exact offered_iov (h.wf tail (by simp)) hn s.io.bufferPool_.capacity_.lt

/-- A step that ends its reads on rings keeps the invariant. -/
theorem inv_step {s : ReadRun α} {e : ReadEvent α} (hI : Inv s) (hE : s.Admissible e)
    (hC : s.EndsOnRing e) : ∃ s', step s e = some s' ∧ Inv s' := by
  obtain ⟨⟨hsize, horder⟩, ⟨front, tail, spare, h⟩, hsmall⟩ := hI
  cases e with
  | onRead bytes =>
      obtain ⟨h0, hroom, hbound⟩ := hE
      rw [room_eq h] at hroom
      obtain ⟨io', hturn, hinv, hcontent⟩ := onRead.turn_spec h h0 hroom
      have hsize' : io'.readSize_ = (readContent io').length := by
        obtain ⟨f, t, sp, h'⟩ := hinv
        exact h'.length_content
      refine ⟨{ s with io := io', received := s.received ++ bytes }, ?_, ?_⟩
      · rw [step, hturn]
        rfl
      · exact
          { size := hsize'
            order := by rw [hcontent, ← List.append_assoc, horder]
            chain := hinv
            small := by rw [hsize', hcontent, List.length_append]; omega }
  | peekData data size =>
      refine ⟨s, ?_, ⟨⟨hsize, horder⟩, ⟨front, tail, spare, h⟩, hsmall⟩⟩
      by_cases hok : data = true ∧ 0 < size ∧ size ≤ s.io.readSize_
      · obtain ⟨rfl, h0, hle⟩ := hok
        rw [step, PeekData_spec h h0 hle hsmall]
        rfl
      · rw [step, PeekData_refused hok]
        rfl
  | readData data size =>
      by_cases hok : data = true ∧ 0 < size ∧ size ≤ s.io.readSize_
      · obtain ⟨rfl, h0, hle⟩ := hok
        obtain ⟨io', hread, hgood, -⟩ := ReadData_spec h h0 hle hsmall
        obtain ⟨hinv, hcontent⟩ := hgood (hC rfl h0 hle)
        have hsize' : io'.readSize_ = (readContent io').length := by
          obtain ⟨f, t, sp, h'⟩ := hinv
          exact h'.length_content
        refine ⟨{ s with
          io := io', delivered := s.delivered ++ (readContent s.io).take size }, ?_, ?_⟩
        · rw [step, hread]
          rfl
        · exact
            { size := hsize'
              order := by
                rw [hcontent, List.append_assoc, List.take_append_drop, horder]
              chain := hinv
              small := by rw [hsize', hcontent, List.length_drop]; omega }
      · refine ⟨s, ?_, ⟨⟨hsize, horder⟩, ⟨front, tail, spare, h⟩, hsmall⟩⟩
        rw [step, ReadData_refused hok]
        simp only [Option.bind_eq_bind, Option.bind_some, List.append_nil]

/-- A read that ends inside a ring behind the head breaks the FIFO at once. -/
theorem fifo_broken {s s' : ReadRun α} {e : ReadEvent α} (hI : Inv s)
    (hC : ¬ s.EndsOnRing e) (hstep : step s e = some s') : ¬ Fifo s' := by
  obtain ⟨-, ⟨front, tail, spare, h⟩, hsmall⟩ := hI
  cases e with
  | onRead bytes => exact absurd trivial hC
  | peekData data size => exact absurd trivial hC
  | readData data size =>
      simp only [EndsOnRing, Classical.not_imp, not_not] at hC
      obtain ⟨rfl, h0, hle, hstops⟩ := hC
      obtain ⟨io', hread, -, hbad⟩ := ReadData_spec h h0 hle hsmall
      rw [step, hread] at hstep
      simp only [Option.bind_eq_bind, Option.bind_some, Option.some.injEq] at hstep
      subst hstep
      intro hfifo
      have hlt := hbad hstops
      have heq := hfifo.size
      simp only at heq
      omega

/-- **The read path is a FIFO exactly while reads end on rings.** Along every
run from the established state, of turns of `onRead` with any bytes the kernel
can return and of `PeekData` and `ReadData` calls of any size in any order, every
state has `readSize_` equal to the length of the content and the bytes received
equal to those delivered followed by the content, if and only if no successful
`ReadData` of the run ends strictly inside a ring behind the head. -/
theorem readRun_fifo_iff (capacity : Capacity) (storage : ℕ → ℕ → α) (es : List (ReadEvent α))
    (hE : Along step Admissible (init capacity storage) es) :
    Always step Fifo (init capacity storage) es
      ↔ Along step EndsOnRing (init capacity storage) es :=
  always_iff_along (fun _ h => h.toFifo) (fun _ _ h hE hC => inv_step h hE hC)
    (fun _ _ _ h _ hC hs => fifo_broken h hC hs) (inv_init capacity storage) hE

/-- Three bytes come in, two are read, and one stays. -/
theorem readRun_fifo_three :
    Always step Fifo (init BufferPool.eventLoopCapacity fun _ _ => 0)
      [.onRead [1, 2, 3], .readData true 2] := by
  refine (readRun_fifo_iff BufferPool.eventLoopCapacity (fun _ _ => 0)
    [.onRead [1, 2, 3], .readData true 2] ?_).mpr ?_
  · exact ⟨⟨by decide, by decide, by decide⟩, fun s _ => ⟨trivial, fun s _ => trivial⟩⟩
  · refine ⟨trivial, fun s hs => ⟨fun _ _ _ => ?_, fun s _ => trivial⟩⟩
    have heval : ((step (init BufferPool.eventLoopCapacity fun _ _ => 0)
        (.onRead [1, 2, 3])).all fun s => decide (¬ StopsBehindHead s.io 2)) = true := by decide
    rw [hs] at heval
    simpa using heval

/-- The run that shows the condition is needed: the head ring is filled and ten
bytes follow it, and a read of four bytes more than the head holds leaves six
bytes by `readSize_` and ten by the rings. -/
theorem readRun_not_fifo :
    Along step Admissible (init BufferPool.eventLoopCapacity fun _ _ => 0)
        [.onRead (List.replicate 4106 0), .readData true 4100]
      ∧ ¬ Always step Fifo (init BufferPool.eventLoopCapacity fun _ _ => 0)
        [.onRead (List.replicate 4106 0), .readData true 4100] := by
  refine ⟨⟨⟨?_, ?_, ?_⟩, fun s _ => ⟨trivial, fun s _ => trivial⟩⟩, fun h => ?_⟩
  · rw [List.length_replicate]
    decide
  · rw [List.length_replicate]
    decide
  · rw [List.length_replicate]
    decide
  · obtain ⟨s, hrun, hfifo⟩ := always_last step h
    have heval : (run step (init BufferPool.eventLoopCapacity fun _ _ => 0)
        [.onRead (List.replicate 4106 0), .readData true 4100]).map
          (fun s => (s.io.readSize_, (readContent s.io).length)) = some (6, 10) := by
      decide +kernel
    rw [hrun] at heval
    simp only [Option.map_some, Option.some.injEq, Prod.mk.injEq] at heval
    have := hfifo.size
    omega

end ReadRun

end Libiak.Net
