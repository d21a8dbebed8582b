/-
The read path of `TcpConnection`: `PeekData`, `ReadData` and one turn of the
loop of `onRead`.

`onRead` scatters what the socket has over the free space of the tail ring and
one spare ring behind it; `ReadData` copies out of the head ring and the rings
behind it, releasing those it empties. This file has the functions, and what
each of their pieces does to the rings it touches: the copy out of the head
(`copyHead_spec`, `ReadData.inHead_spec`) and the walk over the rings behind it
(`PeekData.loop_spec`, `ReadData.loop_spec`). `ReadFifo.lean` puts the pieces
together and follows them over whole runs.

The walk of `ReadData` has one path that does not do what the others do: where
the read ends strictly inside a ring (`SplitsRing`) it moves that ring's `pop`
and leaves its `count`. Its specification therefore has two halves, and the
second says what the rings look like after that path.
-/
import Libiak.Buffer

set_option autoImplicit false

namespace Libiak.Net

open Libiak.Window

variable {α : Type*}

/-! ## The functions -/

/-- The copy of the first `n` bytes of the head ring, from both sides of its
storage or from one. -/
def copyHead (head : Buffer α) (n : ℕ) : Option (List α) :=
  let rearcount := u32Sub head.capacity head.pop
  if n > rearcount then do
    let x ← head.memcpyOut head.pop rearcount
    let y ← head.memcpyOut 0 (n - rearcount)
    some (x ++ y)
  else head.memcpyOut head.pop n

/-- The walk of `PeekData` over the rings behind the head. -/
def PeekData.loop : List (Buffer α) → ℕ → Option (List α)
  | [], _ => none
  | readhead :: next, rearsize =>
      if rearsize < readhead.count then readhead.memcpyOut 0 rearsize
      else do
        let x ← readhead.memcpyOut 0 readhead.count
        if rearsize > readhead.count then do
          let y ← PeekData.loop next (u32Sub rearsize readhead.count)
          some (x ++ y)
        else some x

/-- `TcpConnection::PeekData`: whether it succeeded, and the bytes copied.
`data` says whether the destination is not null. -/
def PeekData (io : IoBuffers α) (data : Bool) (size : ℕ) : Option (Bool × List α) :=
  if !data || size = 0 || io.readSize_ < size then some (false, [])
  else
    match io.readHead_ with
    | [] => none
    | readHead :: next =>
        if size < readHead.count then do
          let x ← copyHead readHead size
          some (true, x)
        else do
          let x ← copyHead readHead readHead.count
          if size > readHead.count then do
            let y ← PeekData.loop next (u32Sub (u32 size) readHead.count)
            some (true, x ++ y)
          else some (true, x)

/-- What `ReadData` does with a ring it has read to its end: the last ring is
made empty, any other is released. -/
def ReadData.drain (readTail_ : ℕ) (pool : BufferPool α) (readHead : Buffer α)
    (next : List (Buffer α)) : Option (List (Buffer α) × BufferPool α) :=
  if readHead.addr = readTail_ then
    some ({ readHead with push := 0, pop := 0, count := 0 } :: next, pool)
  else pool.putNext (readHead :: next)

/-- The walk of `ReadData` over the rings behind the head. A read that ends
inside a ring sets its `pop` and leaves its `count`, as the source does. -/
def ReadData.loop (readTail_ : ℕ) : List (Buffer α) → ℕ → BufferPool α →
    Option (List α × List (Buffer α) × BufferPool α)
  | [], _, _ => none
  | readHead :: next, rearsize, pool =>
      if rearsize < readHead.count then do
        let x ← readHead.memcpyOut 0 rearsize
        some (x, { readHead with pop := rearsize } :: next, pool)
      else do
        let x ← readHead.memcpyOut 0 readHead.count
        if rearsize > readHead.count then do
          let pool ← pool.put readHead
          let r ← ReadData.loop readTail_ next (u32Sub rearsize readHead.count) pool
          some (x ++ r.1, r.2)
        else do
          let r ← ReadData.drain readTail_ pool readHead next
          some (x, r)

/-- A read that stays inside the head ring. -/
def ReadData.inHead (head : Buffer α) (size : ℕ) : Option (List α × Buffer α) :=
  let rearcount := u32Sub head.capacity head.pop
  let count := u32Sub head.count (u32 size)
  if size > rearcount then do
    let x ← head.memcpyOut head.pop rearcount
    let pop := u32Sub (u32 size) rearcount
    let y ← head.memcpyOut 0 pop
    some (x ++ y, { head with pop := pop, count := count })
  else do
    let x ← head.memcpyOut head.pop size
    some (x, { head with pop := u32 (head.pop + u32 size) % head.capacity, count := count })

/-- `TcpConnection::ReadData`: whether it succeeded, the bytes copied, and the
buffers after it. -/
def ReadData (io : IoBuffers α) (data : Bool) (size : ℕ) :
    Option (Bool × List α × IoBuffers α) :=
  if !data || size = 0 || io.readSize_ < size then some (false, [], io)
  else
    match io.readHead_ with
    | [] => none
    | readHead :: next =>
        if size < readHead.count then do
          let r ← ReadData.inHead readHead size
          some (true, r.1,
            { io with readHead_ := r.2 :: next, readSize_ := io.readSize_ - size })
        else do
          let x ← copyHead readHead readHead.count
          if size > readHead.count then do
            let pool ← io.bufferPool_.put readHead
            let r ← ReadData.loop io.readTail_ next (u32Sub (u32 size) readHead.count) pool
            some (true, x ++ r.1,
              { io with
                readHead_ := r.2.1, bufferPool_ := r.2.2, readSize_ := io.readSize_ - size })
          else do
            let r ← ReadData.drain io.readTail_ io.bufferPool_ readHead next
            some (true, x,
              { io with readHead_ := r.1, bufferPool_ := r.2, readSize_ := io.readSize_ - size })

/-- One element of the array given to `readv` or `writev`: `len` bytes of the
storage of the ring at `base`, from offset `off` on. -/
structure Iovec where
  base : ℕ
  off : ℕ
  len : ℕ

/-- The bytes an array of `iovec`s offers room for. -/
def offered (iov : List Iovec) : ℕ := (iov.map Iovec.len).sum

/-- The kernel filling one `iovec`, which must lie inside the storage of a
live ring. -/
def fillIovec (v : Iovec) (xs : List α) : List (Buffer α) → Option (List (Buffer α))
  | [] => none
  | b :: rings =>
      if b.addr = v.base then
        if v.off + v.len ≤ b.capacity then
          some ({ b with buffer := patch b.buffer v.off xs } :: rings)
        else none
      else (fillIovec v xs rings).map (b :: ·)

/-- `readv`: the kernel fills the `iovec`s in order, and returns no more than
they hold. -/
def readv : List Iovec → List α → List (Buffer α) → Option (List (Buffer α))
  | [], xs, rings => if xs.isEmpty then some rings else none
  | v :: iov, xs, rings => do
      let rings ← fillIovec v (xs.take v.len) rings
      readv iov (xs.drop v.len) rings

/-- The `iovec`s of `onRead` into the tail ring. -/
def onRead.tailIov (readTail : Buffer α) : List Iovec :=
  if u32Sub readTail.capacity readTail.count > 0 then
    if readTail.push < readTail.pop then
      -- the free space is one piece, between `push` and `pop`
      [⟨readTail.addr, readTail.push, u32Sub readTail.capacity readTail.count⟩]
    else
      -- it reaches from `push` to the end, and from the start to `pop`
      ⟨readTail.addr, readTail.push, u32Sub readTail.capacity readTail.push⟩ ::
        if readTail.pop > 0 then [⟨readTail.addr, 0, readTail.pop⟩] else []
  else []

/-- The `iovec`s of `onRead`: the free space of the tail ring, and the ring
behind it. -/
def onRead.iov (readTail next : Buffer α) : List Iovec :=
  onRead.tailIov readTail ++ [⟨next.addr, 0, next.capacity⟩]

/-- What a turn of `onRead` works on: the rings before the tail, the tail, the
ring behind it (taken from the pool if there is none), and what follows. -/
structure ReadTurn (α : Type*) where
  front : List (Buffer α)
  readTail : Buffer α
  next : Buffer α
  rest : List (Buffer α)
  pool : BufferPool α

/-- The part of a turn of `onRead` before the call of `readv`. -/
def onRead.prepare (io : IoBuffers α) : Option (ReadTurn α) := do
  let (front, readTail, behind) ← splitAt io.readTail_ io.readHead_
  match behind with
  | next :: rest => some ⟨front, readTail, next, rest, io.bufferPool_⟩
  | [] => some ⟨front, readTail, io.bufferPool_.take.1, [], io.bufferPool_.take.2⟩

/-- The result of `readv`: an error, or the bytes that came in (none at the end
of the stream). -/
inductive Readv (α : Type*) where
  | error
  | data (bytes : List α)

/-- How a turn of `onRead` ends. `short` and `full` carry the size reported to
`recvCallback_`; after `full` the loop goes round again. -/
inductive ReadOutcome where
  | error
  | eof
  | overlong
  | short (readsize : ℕ)
  | full (readsize : ℕ)
  deriving DecidableEq

/-- The bookkeeping after a `readv` that returned `readsize` bytes: the new
tail ring, the ring behind it, and whether the tail moves on to that ring. -/
def onRead.fill (readTail next : Buffer α) (rearcount readsize : ℕ) :
    Buffer α × Buffer α × Bool :=
  if readsize < rearcount then
    ({ readTail with
        push := u32 (readTail.push + u32 readsize) % readTail.capacity
        count := u32 (readTail.count + u32 readsize) }, next, false)
  else
    -- the tail ring is full now
    let readTail := { readTail with push := readTail.pop, count := readTail.capacity }
    if readsize > rearcount then
      let extra := u32Sub (u32 readsize) rearcount
      (readTail, { next with count := extra, push := extra }, true)
    else (readTail, next, false)

/-- The part of a turn of `onRead` after a `readv` that returned `readsize`
bytes, which are in the storage of the two rings already. -/
def onRead.finish (io : IoBuffers α) (t : ReadTurn α) (readTail next : Buffer α)
    (readsize : ℕ) : IoBuffers α × ReadOutcome :=
  let rearcount := u32Sub readTail.capacity readTail.count
  let size := u32 (rearcount + next.capacity)
  let chain (readTail next : Buffer α) := t.front ++ readTail :: next :: t.rest
  if readsize = 0 then
    ({ io with bufferPool_ := t.pool, readHead_ := chain readTail next }, .eof)
  else if readsize > size then
    ({ io with bufferPool_ := t.pool, readHead_ := chain readTail next }, .overlong)
  else
    let r := onRead.fill readTail next rearcount readsize
    ({ io with
        bufferPool_ := t.pool
        readHead_ := chain r.1 r.2.1
        readTail_ := if r.2.2 then r.2.1.addr else io.readTail_
        readSize_ := io.readSize_ + readsize },
      if readsize < size then .short readsize else .full readsize)

/-- One turn of the loop of `TcpConnection::onRead`. -/
def onRead.turn (io : IoBuffers α) (result : Readv α) : Option (IoBuffers α × ReadOutcome) := do
  let t ← onRead.prepare io
  match result with
  | .error =>
      some ({ io with
        bufferPool_ := t.pool, readHead_ := t.front ++ t.readTail :: t.next :: t.rest }, .error)
  | .data bytes =>
      let rings ← readv (onRead.iov t.readTail t.next) bytes [t.readTail, t.next]
      match rings with
      | [readTail, next] => some (onRead.finish io t readTail next bytes.length)
      | _ => none

/-! ## Rings of the read chain -/

/-- A ring of the read chain: `pop` stays below the capacity and an empty ring
is one whose cursors are at the start. -/
structure Buffer.WfRead (cap : ℕ) (b : Buffer α) : Prop extends b.Wf cap where
  pop_lt : b.pop < cap
  empty : b.count = 0 → b.push = 0 ∧ b.pop = 0

/-- A spare ring, with nothing in it. -/
structure Buffer.Spare (cap : ℕ) (b : Buffer α) : Prop where
  capacity_eq : b.capacity = cap
  count_eq : b.count = 0
  push_eq : b.push = 0
  pop_eq : b.pop = 0

theorem BufferPool.take_spare (pool : BufferPool α) :
    pool.take.1.Spare pool.capacity_.bytes := ⟨rfl, rfl, rfl, rfl⟩

theorem Buffer.Spare.wfRead {cap : ℕ} (hcap : 0 < cap) {b : Buffer α} (h : b.Spare cap) :
    b.WfRead cap where
  capacity_eq := h.capacity_eq
  count_le := by rw [h.count_eq]; omega
  push_le := by rw [h.push_eq]; omega
  pop_le := by rw [h.pop_eq]; omega
  linked := by rw [h.push_eq, h.pop_eq, h.count_eq]; omega
  pop_lt := by rw [h.pop_eq]; exact hcap
  empty := fun _ => ⟨h.push_eq, h.pop_eq⟩

/-! ## Copying out of one ring -/

section Copy

variable {cap : ℕ} {b : Buffer α}

/-- **`copyHead`** copies the first `n` live bytes. -/
theorem copyHead_spec (h : b.Wf cap) {n : ℕ} (hn : n ≤ b.count) :
    copyHead b n = some (b.live.take n) := by
  have hrear : u32Sub b.capacity b.pop = cap - b.pop := by
    rw [h.capacity_eq]
    exact u32Sub_of_le h.pop_le
  have hcount := h.count_le
  have hpop := h.pop_le
  simp only [copyHead, hrear]
  by_cases hw : n > cap - b.pop
  · rw [if_pos hw, Buffer.memcpyOut_of_le (by rw [h.capacity_eq]; omega),
      Buffer.memcpyOut_of_le (by rw [h.capacity_eq]; omega), h.take_live_wrapped hn (by omega)]
    rfl
  · rw [if_neg hw, Buffer.memcpyOut_of_le (by rw [h.capacity_eq]; omega),
      h.take_live_straight hn (by omega)]

/-- A ring read from the start of its storage, which is where the rings behind
the head begin. -/
theorem memcpyOut_zero (h : b.Wf cap) (hpop : b.pop = 0) {n : ℕ} (hn : n ≤ b.count) :
    b.memcpyOut 0 n = some (b.live.take n) := by
  have hcount := h.count_le
  rw [Buffer.memcpyOut_of_le (by rw [h.capacity_eq]; omega),
    h.take_live_straight hn (by omega), hpop]

/-- **`ReadData.inHead`**: the first `size` bytes come out and the head keeps
the others. -/
theorem ReadData.inHead_spec (h : b.WfRead cap) (hcap : cap < 2 ^ 31) {size : ℕ}
    (hsize : size < b.count) :
    ∃ b', ReadData.inHead b size = some (b.live.take size, b') ∧ b'.addr = b.addr
      ∧ b'.WfRead cap ∧ b'.count = b.count - size ∧ b'.live = b.live.drop size := by
  obtain ⟨hwf, hpop, -⟩ := h
  have hcount := hwf.count_le
  have hpush := hwf.push_le
  have hlinked := hwf.linked
  have hrear : u32Sub b.capacity b.pop = cap - b.pop := by
    rw [hwf.capacity_eq]
    exact u32Sub_of_le hwf.pop_le
  have hsz : u32 size = size := u32_of_lt (by omega)
  have hcnt : u32Sub b.count size = b.count - size := u32Sub_of_le (by omega)
  simp only [ReadData.inHead, hrear, hsz, hcnt]
  by_cases hw : size > cap - b.pop
  · -- the bytes wrap round the end of the storage
    have hp : u32Sub size (cap - b.pop) = size - (cap - b.pop) := u32Sub_of_le (by omega)
    rw [if_pos hw, hp, Buffer.memcpyOut_of_le (by rw [hwf.capacity_eq]; omega),
      Buffer.memcpyOut_of_le (by rw [hwf.capacity_eq]; omega)]
    refine ⟨{ b with pop := size - (cap - b.pop), count := b.count - size }, ?_, rfl, ?_, rfl, ?_⟩
    · rw [hwf.take_live_wrapped (by omega) (by omega)]
      rfl
    · exact
        { capacity_eq := hwf.capacity_eq
          count_le := by simp only; omega
          push_le := hpush
          pop_le := by simp only; omega
          linked := by simp only; omega
          pop_lt := by simp only; omega
          empty := by simp only; omega }
    · refine hwf.live_advance (by omega) ?_
      rw [show b.pop + size = size - (cap - b.pop) + cap by omega, Nat.add_mod_right]
  · -- the bytes are in one piece
    have hadd : u32 (b.pop + size) = b.pop + size := u32_of_lt (by omega)
    rw [if_neg hw, hadd, hwf.capacity_eq, Buffer.memcpyOut_of_le (by rw [hwf.capacity_eq]; omega)]
    refine ⟨{ b with capacity := cap, pop := (b.pop + size) % cap, count := b.count - size },
      ?_, rfl, ?_, rfl, ?_⟩
    · rw [hwf.take_live_straight (by omega) (by omega), ← hwf.capacity_eq]
      rfl
    · -- the new position is the sum, or `0` when the sum is the capacity
      obtain ⟨hlt, hmod⟩ := mod_cases (b.pop + size) cap (by omega)
      exact
        { capacity_eq := rfl
          count_le := by simp only; omega
          push_le := hpush
          pop_le := by simp only; omega
          linked := by simp only; omega
          pop_lt := hlt
          empty := by simp only; omega }
    · rw [← hwf.capacity_eq]
      exact hwf.live_advance (by omega) (by rw [hwf.capacity_eq, Nat.mod_mod])

end Copy

/-! ## Walking the rings behind the head -/

/-- A ring behind the head: its bytes begin at the start of its storage. -/
def Buffer.Behind (cap : ℕ) (b : Buffer α) : Prop := b.WfRead cap ∧ b.pop = 0

/-- Taking from a chain takes from its first ring and then from the others. -/
theorem take_content_cons (b : Buffer α) (rings : List (Buffer α)) (n : ℕ) :
    (content (b :: rings)).take n = b.live.take n ++ (content rings).take (n - b.count) := by
  rw [content_cons, List.take_append, Buffer.length_live]

theorem drop_content_cons (b : Buffer α) (rings : List (Buffer α)) (n : ℕ) :
    (content (b :: rings)).drop n = b.live.drop n ++ (content rings).drop (n - b.count) := by
  rw [content_cons, List.drop_append, Buffer.length_live]

theorem take_live_of_ge (b : Buffer α) {n : ℕ} (h : b.count ≤ n) : b.live.take n = b.live :=
  List.take_of_length_le (by rw [Buffer.length_live]; exact h)

theorem drop_live_of_ge (b : Buffer α) {n : ℕ} (h : b.count ≤ n) : b.live.drop n = [] :=
  List.drop_eq_nil_of_le (by rw [Buffer.length_live]; exact h)

/-- A read of `n` bytes ends strictly inside one of the rings. -/
def SplitsRing : List (Buffer α) → ℕ → Prop
  | [], _ => False
  | b :: rings, n => 0 < n ∧ n < b.count ∨ b.count < n ∧ SplitsRing rings (n - b.count)

instance SplitsRing.decidable : (rings : List (Buffer α)) → (n : ℕ) → Decidable (SplitsRing rings n)
  | [], _ => inferInstanceAs (Decidable False)
  | b :: rings, n =>
      have : Decidable (SplitsRing rings (n - b.count)) := SplitsRing.decidable rings (n - b.count)
      inferInstanceAs
        (Decidable (0 < n ∧ n < b.count ∨ b.count < n ∧ SplitsRing rings (n - b.count)))

section Walk

variable {cap : ℕ} {n : ℕ}

/-- **`PeekData.loop`** copies the first `n` bytes of the rings, however many
of them that takes. -/
theorem PeekData.loop_spec {rings : List (Buffer α)}
    (spare : List (Buffer α)) (hwf : ∀ b ∈ rings, b.Behind cap) (h0 : 0 < n)
    (hn : n ≤ total rings) (h32 : n < 2 ^ 32) :
    PeekData.loop (rings ++ spare) n = some ((content rings).take n) := by
  induction rings generalizing n with
  | nil =>
      rw [total_nil] at hn
      omega
  | cons b rings ih =>
      obtain ⟨hb, hpop⟩ := hwf b (List.mem_cons_self ..)
      rw [List.cons_append, PeekData.loop, take_content_cons]
      by_cases hlt : n < b.count
      · rw [if_pos hlt, memcpyOut_zero hb.toWf hpop (by omega), Nat.sub_eq_zero_of_le (by omega),
          List.take_zero, List.append_nil]
      · rw [if_neg hlt, memcpyOut_zero hb.toWf hpop (le_refl _), take_live_of_ge b (le_refl _),
          take_live_of_ge b (by omega)]
        by_cases hgt : n > b.count
        · rw [total_cons] at hn
          simp only [Option.bind_eq_bind, Option.bind_some, if_pos hgt,
            u32Sub_of_le (le_of_lt hgt)]
          rw [ih (fun c hc => hwf c (List.mem_cons_of_mem _ hc)) (by omega) (by omega) (by omega)]
          rfl
        · simp only [Option.bind_eq_bind, Option.bind_some, if_neg hgt]
          rw [Nat.sub_eq_zero_of_le (by omega), List.take_zero, List.append_nil]

/-- An emptied ring is a ring behind the head. -/
theorem Buffer.WfRead.drained {b : Buffer α} (h : b.WfRead cap) :
    Behind cap { b with push := 0, pop := 0, count := 0 } := by
  have hcap : 0 < cap := by have := h.pop_lt; omega
  refine ⟨?_, rfl⟩
  exact
    { capacity_eq := h.capacity_eq
      count_le := Nat.zero_le _
      push_le := Nat.zero_le _
      pop_le := Nat.zero_le _
      linked := Or.inl rfl
      pop_lt := hcap
      empty := fun _ => ⟨rfl, rfl⟩ }

/-- What a read of `n` bytes leaves of the rings `rings` up to the tail: the
tail stays where it is, the rings are still those owned, and unless the read
splits a ring what remains is the rest of the content. A read that splits a
ring leaves the rings counting more than that. -/
structure WalkResult (cap n : ℕ) (rings : List (Buffer α)) (tail : Buffer α)
    (spare other : List (Buffer α)) (pool : BufferPool α)
    (front' : List (Buffer α)) (tail' : Buffer α) (pool' : BufferPool α) : Prop where
  tail_addr : tail'.addr = tail.addr
  capacity_eq : pool'.capacity_ = pool.capacity_
  owns : pool'.Owns (front' ++ tail' :: spare ++ other)
  content_eq : ¬ SplitsRing rings n → content (front' ++ [tail']) = (content rings).drop n
  behind : ¬ SplitsRing rings n → ∀ b ∈ front' ++ [tail'], b.Behind cap
  counts_more : SplitsRing rings n → total rings < total (front' ++ [tail']) + n

/-- The first ring of a chain up to its tail exchanged for another state of the
same ring. -/
theorem replace_head {front rings : List (Buffer α)} {tail b : Buffer α}
    (h : front ++ [tail] = b :: rings) (b' : Buffer α) (haddr : b'.addr = b.addr) :
    ∃ front' tail', b' :: rings = front' ++ [tail'] ∧ tail'.addr = tail.addr
      ∧ addrs front' = addrs front := by
  cases front with
  | nil =>
      simp only [List.nil_append, List.cons.injEq] at h
      obtain ⟨rfl, rfl⟩ := h
      exact ⟨[], b', rfl, haddr, rfl⟩
  | cons c front =>
      simp only [List.cons_append, List.cons.injEq] at h
      obtain ⟨rfl, rfl⟩ := h
      exact ⟨b' :: front, tail, rfl, rfl, by rw [addrs_cons, addrs_cons, haddr]⟩

section Drain

variable {front spare other rings : List (Buffer α)} {tail b : Buffer α} {pool : BufferPool α}

/-- A ring that has been read to its end: the content behind it is what
remains, and it starts where rings behind the head start. -/
theorem ReadData.drain_spec (hrings : front ++ [tail] = b :: rings) (hb : b.WfRead cap)
    (hwf : ∀ c ∈ rings, c.Behind cap) (howns : pool.Owns (front ++ tail :: spare ++ other)) :
    ∃ front' tail' pool', ReadData.drain tail.addr pool b (rings ++ spare)
        = some (front' ++ tail' :: spare, pool')
      ∧ WalkResult cap b.count (b :: rings) tail spare other pool front' tail' pool' := by
  have hrest : (content (b :: rings)).drop b.count = content rings := by
    rw [drop_content_cons, drop_live_of_ge b (le_refl _), Nat.sub_self, List.drop_zero,
      List.nil_append]
  have hsplit : ¬ SplitsRing (b :: rings) b.count := by
    simp only [SplitsRing, lt_self_iff_false, and_false, false_and, or_self, not_false_eq_true]
  cases front with
  | nil =>
      simp only [List.nil_append, List.cons.injEq] at hrings
      obtain ⟨rfl, rfl⟩ := hrings
      refine ⟨[], { tail with push := 0, pop := 0, count := 0 }, pool, ?_, ?_⟩
      · rw [ReadData.drain, if_pos rfl]
        rfl
      · exact
          { tail_addr := rfl
            capacity_eq := rfl
            owns := howns.perm (List.Perm.refl _)
            content_eq := fun _ => by
              rw [hrest]
              simp [Buffer.live]
            behind := fun _ c hc => by
              rw [List.nil_append, List.mem_singleton] at hc
              exact hc ▸ hb.drained
            counts_more := fun h => absurd h hsplit }
  | cons c front =>
      simp only [List.cons_append, List.cons.injEq] at hrings
      obtain ⟨rfl, rfl⟩ := hrings
      have hne : c.addr ≠ tail.addr := by
        have hnd := (List.nodup_append.mp howns.nodup).2.1
        simp only [List.cons_append, addrs_cons, addrs_append, List.nodup_cons,
          List.append_assoc, List.mem_append, List.mem_cons, not_or] at hnd
        exact hnd.1.2.1
      obtain ⟨hput, howns'⟩ := BufferPool.Owns.put howns
      refine ⟨front, tail, { pool with freed := c.addr :: pool.freed }, ?_, ?_⟩
      · rw [ReadData.drain, if_neg hne, BufferPool.putNext, hput, List.append_assoc]
        rfl
      · exact
          { tail_addr := rfl
            capacity_eq := rfl
            owns := howns'
            content_eq := fun _ => hrest.symm
            behind := fun _ => hwf
            counts_more := fun h => absurd h hsplit }

/-- A walk that needs no more than the first ring. -/
theorem ReadData.loop_first (hrings : front ++ [tail] = b :: rings) (hb : b.Behind cap)
    (hwf : ∀ c ∈ rings, c.Behind cap) (howns : pool.Owns (front ++ tail :: spare ++ other))
    (h0 : 0 < n) (hn : n ≤ b.count) :
    ∃ front' tail' pool', ReadData.loop tail.addr (b :: (rings ++ spare)) n pool
        = some ((content (b :: rings)).take n, front' ++ tail' :: spare, pool')
      ∧ WalkResult cap n (b :: rings) tail spare other pool front' tail' pool' := by
  have htake : (content (b :: rings)).take n = b.live.take n := by
    rw [take_content_cons, Nat.sub_eq_zero_of_le hn, List.take_zero, List.append_nil]
  rw [ReadData.loop, htake]
  by_cases hlt : n < b.count
  · -- the read splits the ring: `pop` moves and `count` does not
    rw [if_pos hlt, memcpyOut_zero hb.1.toWf hb.2 hn]
    have hsplit : SplitsRing (b :: rings) n := Or.inl ⟨h0, hlt⟩
    obtain ⟨front', tail', heq, haddr, hfront⟩ := replace_head hrings { b with pop := n } rfl
    refine ⟨front', tail', pool, ?_, ?_⟩
    · rw [List.append_cons, ← heq]
      rfl
    · exact
        { tail_addr := haddr
          capacity_eq := rfl
          owns := howns.perm (List.Perm.of_eq (by
            simp only [List.append_assoc, List.cons_append, addrs_append, addrs_cons, hfront,
              haddr]))
          content_eq := fun h => absurd hsplit h
          behind := fun h => absurd hsplit h
          counts_more := fun _ => by
            rw [← heq, total_cons, total_cons]
            simp only
            omega }
  · obtain rfl : n = b.count := by omega
    obtain ⟨front', tail', pool', hdrain, hres⟩ :=
      ReadData.drain_spec hrings hb.1 hwf howns
    refine ⟨front', tail', pool', ?_, hres⟩
    rw [if_neg hlt, memcpyOut_zero hb.1.toWf hb.2 (le_refl _)]
    simp only [Option.bind_eq_bind, Option.bind_some, if_neg (lt_irrefl b.count), hdrain]

end Drain

/-- **`ReadData.loop`**: the first `n` bytes of the rings come out. The
induction is on the rings before the tail: each that is read through is
released. -/
theorem ReadData.loop_spec {front spare other : List (Buffer α)} {tail : Buffer α}
    {pool : BufferPool α} (hwf : ∀ b ∈ front ++ [tail], b.Behind cap)
    (howns : pool.Owns (front ++ tail :: spare ++ other)) (h0 : 0 < n)
    (hn : n ≤ total (front ++ [tail])) (h32 : n < 2 ^ 32) :
    ∃ front' tail' pool', ReadData.loop tail.addr (front ++ tail :: spare) n pool
        = some ((content (front ++ [tail])).take n, front' ++ tail' :: spare, pool')
      ∧ WalkResult cap n (front ++ [tail]) tail spare other pool front' tail' pool' := by
  induction front generalizing pool n with
  | nil =>
      have hnone : ∀ c ∈ ([] : List (Buffer α)), c.Behind cap := by
        intro c hc
        exact absurd hc List.not_mem_nil
      exact ReadData.loop_first rfl (hwf _ (List.mem_cons_self ..)) hnone howns h0
        (by simpa using hn)
  | cons b front ih =>
      have hb : b.Behind cap := hwf b (List.mem_cons_self ..)
      have hwf' : ∀ c ∈ front ++ [tail], c.Behind cap := fun c hc =>
        hwf c (List.mem_cons_of_mem _ hc)
      have hchain : b :: front ++ tail :: spare = b :: (front ++ [tail] ++ spare) := by
        simp only [List.cons_append, List.append_assoc, List.nil_append]
      by_cases hle : n ≤ b.count
      · -- the walk ends in this ring
        rw [hchain]
        exact ReadData.loop_first rfl hb hwf' howns h0 hle
      · -- this ring is read and released, and the walk goes on behind it
        rw [List.cons_append, total_cons] at hn
        obtain ⟨hput, howns'⟩ := BufferPool.Owns.put howns
        obtain ⟨front', tail', pool', hloop, hres⟩ :=
          ih hwf' howns' (n := n - b.count) (by omega) (by omega) (by omega)
        refine ⟨front', tail', pool', ?_, ?_⟩
        · rw [List.cons_append, List.cons_append, ReadData.loop, if_neg (by omega),
            memcpyOut_zero hb.1.toWf hb.2 (le_refl _), take_content_cons,
            take_live_of_ge b (le_refl _), take_live_of_ge b (by omega)]
          simp only [Option.bind_eq_bind, Option.bind_some, if_pos (not_le.mp hle), hput,
            u32Sub_of_le (le_of_lt (not_le.mp hle)), hloop]
        · have hiff : SplitsRing (b :: front ++ [tail]) n
              ↔ SplitsRing (front ++ [tail]) (n - b.count) := by
            rw [List.cons_append, SplitsRing]
            constructor
            · rintro (⟨-, h⟩ | ⟨-, h⟩)
              · omega
              · exact h
            · exact fun h => Or.inr ⟨by omega, h⟩
          exact
            { tail_addr := hres.tail_addr
              capacity_eq := hres.capacity_eq
              owns := hres.owns
              content_eq := fun h => by
                rw [hres.content_eq (fun hs => h (hiff.mpr hs)), List.cons_append,
                  drop_content_cons, drop_live_of_ge b (by omega), List.nil_append]
              behind := fun h => hres.behind fun hs => h (hiff.mpr hs)
              counts_more := fun h => by
                have := hres.counts_more (hiff.mp h)
                rw [List.cons_append, total_cons]
                omega }

end Walk

/-! ## What the read path leaves alone -/

/-- The write chain as it was, in a pool that still owns the rings of both. -/
structure WriteSide (io io' : IoBuffers α) : Prop where
  head_eq : io'.writeHead_ = io.writeHead_
  tail_eq : io'.writeTail_ = io.writeTail_
  size_eq : io'.writeSize_ = io.writeSize_
  capacity_eq : io'.bufferPool_.capacity_ = io.bufferPool_.capacity_
  owned : io.Owned → io'.Owned

theorem WriteSide.refl (io : IoBuffers α) : WriteSide io io := ⟨rfl, rfl, rfl, rfl, id⟩

section Frame

variable {io io' : IoBuffers α}

/-- What happens to the pool while the front of the read chain is worked off:
whatever else it owns it still owns. -/
structure PoolSide (pool pool' : BufferPool α) (chain chain' : List (Buffer α)) : Prop where
  capacity_eq : pool'.capacity_ = pool.capacity_
  owns : ∀ others, pool.Owns (chain ++ others) → pool'.Owns (chain' ++ others)

theorem PoolSide.of_addrs {pool : BufferPool α} {chain chain' : List (Buffer α)}
    (h : addrs chain' = addrs chain) : PoolSide pool pool chain chain' where
  capacity_eq := rfl
  owns := fun others howns => howns.perm (List.Perm.of_eq (by
    rw [addrs_append, addrs_append, h]))

theorem PoolSide.trans {pool pool' pool'' : BufferPool α}
    {chain chain' chain'' : List (Buffer α)} (h1 : PoolSide pool pool' chain chain')
    (h2 : PoolSide pool' pool'' chain' chain'') : PoolSide pool pool'' chain chain'' where
  capacity_eq := h2.capacity_eq.trans h1.capacity_eq
  owns := fun others howns => h2.owns others (h1.owns others howns)

theorem poolSide_put {pool pool' : BufferPool α} {b : Buffer α} {next : List (Buffer α)}
    (h : pool.put b = some pool') : PoolSide pool pool' (b :: next) next where
  capacity_eq := by
    rw [BufferPool.put] at h
    split at h
    · cases h
    · exact (Option.some.inj h) ▸ rfl
  owns := fun others howns => by
    rw [List.cons_append] at howns
    obtain ⟨hput, howns'⟩ := howns.put
    rw [hput] at h
    exact (Option.some.inj h) ▸ howns'

theorem poolSide_drain {readTail_ : ℕ} {pool : BufferPool α} {b : Buffer α}
    {next : List (Buffer α)} {r : List (Buffer α) × BufferPool α}
    (h : ReadData.drain readTail_ pool b next = some r) : PoolSide pool r.2 (b :: next) r.1 := by
  rw [ReadData.drain] at h
  split at h
  · exact (Option.some.inj h) ▸ PoolSide.of_addrs rfl
  · obtain ⟨pool', hput, rfl⟩ := Option.map_eq_some_iff.mp h
    exact poolSide_put hput

/-- The walk of `ReadData`, whatever the state of the rings. -/
theorem poolSide_loop {readTail_ n : ℕ} {chain : List (Buffer α)} {pool : BufferPool α}
    {r : List α × List (Buffer α) × BufferPool α}
    (h : ReadData.loop readTail_ chain n pool = some r) : PoolSide pool r.2.2 chain r.2.1 := by
  induction chain generalizing n pool r with
  | nil => cases h
  | cons b next ih =>
      rw [ReadData.loop] at h
      split at h
      · obtain ⟨x, -, h⟩ := Option.bind_eq_some_iff.mp h
        exact (Option.some.inj h) ▸ PoolSide.of_addrs rfl
      · obtain ⟨x, -, h⟩ := Option.bind_eq_some_iff.mp h
        split at h
        · obtain ⟨pool', hput, h⟩ := Option.bind_eq_some_iff.mp h
          obtain ⟨r', hloop, h⟩ := Option.bind_eq_some_iff.mp h
          have hrest := ih hloop
          exact (Option.some.inj h) ▸ (poolSide_put hput).trans hrest
        · obtain ⟨r', hdrain, h⟩ := Option.bind_eq_some_iff.mp h
          exact (Option.some.inj h) ▸ poolSide_drain hdrain

theorem PoolSide.writeSide {chain' : List (Buffer α)} {pool' : BufferPool α}
    (h : PoolSide io.bufferPool_ pool' io.readHead_ chain') (tail size : ℕ) :
    WriteSide io { io with
      readHead_ := chain', bufferPool_ := pool', readTail_ := tail, readSize_ := size } where
  head_eq := rfl
  tail_eq := rfl
  size_eq := rfl
  capacity_eq := h.capacity_eq
  owned := h.owns io.writeHead_

theorem inHead_addr {b : Buffer α} {size : ℕ} {r : List α × Buffer α}
    (h : ReadData.inHead b size = some r) : r.2.addr = b.addr := by
  simp only [ReadData.inHead] at h
  split at h
  · obtain ⟨x, -, h⟩ := Option.bind_eq_some_iff.mp h
    obtain ⟨y, -, h⟩ := Option.bind_eq_some_iff.mp h
    exact (Option.some.inj h) ▸ rfl
  · obtain ⟨x, -, h⟩ := Option.bind_eq_some_iff.mp h
    exact (Option.some.inj h) ▸ rfl

/-- **`ReadData`** leaves the write chain alone, in every state. -/
theorem ReadData_writeSide {data : Bool} {size : ℕ} {r : Bool × List α × IoBuffers α}
    (h : ReadData io data size = some r) : WriteSide io r.2.2 := by
  rw [ReadData] at h
  split at h
  · exact (Option.some.inj h) ▸ WriteSide.refl io
  · split at h
    · cases h
    · rename_i readHead next hchain
      split at h
      · obtain ⟨r', hin, h⟩ := Option.bind_eq_some_iff.mp h
        refine (Option.some.inj h) ▸ PoolSide.writeSide (hchain ▸ PoolSide.of_addrs ?_) _ _
        rw [addrs_cons, addrs_cons, inHead_addr hin]
      · obtain ⟨x, -, h⟩ := Option.bind_eq_some_iff.mp h
        split at h
        · obtain ⟨pool', hput, h⟩ := Option.bind_eq_some_iff.mp h
          obtain ⟨r', hloop, h⟩ := Option.bind_eq_some_iff.mp h
          exact (Option.some.inj h) ▸
            PoolSide.writeSide (hchain ▸ (poolSide_put hput).trans (poolSide_loop hloop)) _ _
        · obtain ⟨r', hdrain, h⟩ := Option.bind_eq_some_iff.mp h
          exact (Option.some.inj h) ▸ PoolSide.writeSide (hchain ▸ poolSide_drain hdrain) _ _

/-- What a pointer finds is a ring of the chain. -/
theorem eq_of_splitAt {addr : ℕ} {chain front rest : List (Buffer α)} {b : Buffer α}
    (h : splitAt addr chain = some (front, b, rest)) : chain = front ++ b :: rest := by
  induction chain generalizing front with
  | nil => cases h
  | cons c chain ih =>
      rw [splitAt] at h
      split at h
      · simp only [Option.some.injEq, Prod.mk.injEq] at h
        obtain ⟨rfl, rfl, rfl⟩ := h
        rfl
      · obtain ⟨r, hr, heq⟩ := Option.map_eq_some_iff.mp h
        obtain ⟨front', b', rest'⟩ := r
        simp only [Prod.mk.injEq] at heq
        obtain ⟨rfl, rfl, rfl⟩ := heq
        rw [ih hr, List.cons_append]

theorem prepare_poolSide {t : ReadTurn α} (h : onRead.prepare io = some t) :
    PoolSide io.bufferPool_ t.pool io.readHead_ (t.front ++ t.readTail :: t.next :: t.rest) := by
  obtain ⟨⟨front, readTail, behind⟩, hsplit, h⟩ := Option.bind_eq_some_iff.mp h
  have hchain := eq_of_splitAt hsplit
  cases behind with
  | cons next rest =>
      obtain rfl := Option.some.inj h
      exact PoolSide.of_addrs (by rw [hchain])
  | nil =>
      obtain rfl := Option.some.inj h
      refine ⟨rfl, fun others howns => ?_⟩
      refine howns.take.perm ?_
      rw [hchain]
      simp only [addrs_cons, addrs_append, List.append_assoc, List.cons_append, List.nil_append]
      rw [List.append_cons _ readTail.addr (addrs others),
        List.append_cons _ readTail.addr (_ :: _)]
      exact List.perm_middle.symm

theorem fillIovec_addrs {v : Iovec} {xs : List α} {rings rings' : List (Buffer α)}
    (h : fillIovec v xs rings = some rings') : addrs rings' = addrs rings := by
  induction rings generalizing rings' with
  | nil => cases h
  | cons b rings ih =>
      rw [fillIovec] at h
      split at h
      · split at h
        · exact (Option.some.inj h) ▸ rfl
        · cases h
      · obtain ⟨r, hr, rfl⟩ := Option.map_eq_some_iff.mp h
        rw [addrs_cons, addrs_cons, ih hr]

theorem readv_addrs {iov : List Iovec} {xs : List α} {rings rings' : List (Buffer α)}
    (h : readv iov xs rings = some rings') : addrs rings' = addrs rings := by
  induction iov generalizing xs rings with
  | nil =>
      rw [readv] at h
      split at h
      · exact (Option.some.inj h) ▸ rfl
      · cases h
  | cons v iov ih =>
      obtain ⟨r, hr, h⟩ := Option.bind_eq_some_iff.mp h
      rw [ih h, fillIovec_addrs hr]

theorem fill_addrs (readTail next : Buffer α) (rearcount readsize : ℕ) :
    (onRead.fill readTail next rearcount readsize).1.addr = readTail.addr
      ∧ (onRead.fill readTail next rearcount readsize).2.1.addr = next.addr := by
  rw [onRead.fill]
  split
  · exact ⟨rfl, rfl⟩
  · simp only
    split
    · exact ⟨rfl, rfl⟩
    · exact ⟨rfl, rfl⟩

/-- **A turn of `onRead`** leaves the write chain alone, in every state. -/
theorem onRead.turn_writeSide {result : Readv α} {r : IoBuffers α × ReadOutcome}
    (h : onRead.turn io result = some r) : WriteSide io r.1 := by
  obtain ⟨t, hprep, h⟩ := Option.bind_eq_some_iff.mp h
  have hpool := prepare_poolSide hprep
  cases result with
  | error => exact (Option.some.inj h) ▸ hpool.writeSide _ _
  | data bytes =>
      obtain ⟨rings, hreadv, h⟩ := Option.bind_eq_some_iff.mp h
      have haddrs := readv_addrs hreadv
      match rings, haddrs, h with
      | [readTail, next], haddrs, h =>
          simp only [addrs_cons, addrs_nil, List.cons.injEq, and_true] at haddrs
          obtain ⟨h1, h2⟩ := haddrs
          have hside : ∀ readTail' next' : Buffer α, readTail'.addr = readTail.addr →
              next'.addr = next.addr → PoolSide io.bufferPool_ t.pool io.readHead_
                (t.front ++ readTail' :: next' :: t.rest) := by
            intro readTail' next' h1' h2'
            refine hpool.trans (PoolSide.of_addrs ?_)
            simp only [addrs_append, addrs_cons, h1', h2', h1, h2]
          rw [← Option.some.inj h, onRead.finish]
          split
          · exact (hside _ _ rfl rfl).writeSide _ _
          · split
            · exact (hside _ _ rfl rfl).writeSide _ _
            · have hfill := fill_addrs readTail next
                (u32Sub readTail.capacity readTail.count) bytes.length
              exact (hside _ _ hfill.1 hfill.2).writeSide _ _

end Frame

end Libiak.Net
