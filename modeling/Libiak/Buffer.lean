/-
`net/Buffer.h`: the rings a connection buffers its bytes in, and the pool that
hands them out.

A `Buffer` is one ring: `capacity` bytes of storage with a `push` and a `pop`
cursor and a `count`. Rings are chained through `next`; a chain is modelled as
the list its head pointer leads to, so `next` is adjacency, a null pointer is
the empty list, and a pointer that is kept beside the head (a tail) is the
`addr` of the ring it points to. `BufferPool::take` is a `new`, whose storage
holds whatever the allocator left there, and `put` is a `delete`: the model
keeps the addresses handed out and those released, so that a second release
is visible. What C++ leaves undefined (following a null pointer, copying
outside the storage, releasing twice) is `none` in every function of the model.

The cursors are `uint32_t`; `u32` and `u32Sub` are the conversion to that type
and its subtraction. The capacity is below `2 ^ 31` (the pool of an event loop
has `1024 * 4`), so that two rings together are still counted in 32 bits.

What a ring holds is `Buffer.live`, the `count` bytes from `pop` on, going
round at `capacity`. Cursors are not kept reduced: both may equal `capacity`,
and a full ring and an empty one can have equal cursors. `Buffer.Cyclic` says how
they are related up to whole laps, which is all that storing behind the live
bytes needs; `Buffer.Wf` says it without dividing, which is what keeps the
arithmetic of every caller linear.
-/
import Libiak.Window
import Mathlib.Data.List.Perm.Basic

set_option autoImplicit false

namespace Libiak.Net

open Libiak.Window

/-! ## 32-bit arithmetic -/

/-- Conversion to `uint32_t`. -/
def u32 (n : ℕ) : ℕ := n % 2 ^ 32

/-- Subtraction of two `uint32_t`, which goes round below zero. -/
def u32Sub (a b : ℕ) : ℕ := if b ≤ a then a - b else 2 ^ 32 - (b - a)

theorem u32_of_lt {n : ℕ} (h : n < 2 ^ 32) : u32 n = n := Nat.mod_eq_of_lt h

theorem u32_le (n : ℕ) : u32 n ≤ n := Nat.mod_le n _

theorem u32Sub_of_le {a b : ℕ} (h : b ≤ a) : u32Sub a b = a - b := if_pos h

/-- What is left of a size in 32 bits after `c` bytes of it: never more than is
left, and no less exactly when the size is within `2 ^ 32` of `c`. -/
theorem u32Sub_u32 {n c : ℕ} (hc : c ≤ n) (h32 : c < 2 ^ 32) :
    u32Sub (u32 n) c ≤ n - c ∧ (u32Sub (u32 n) c = n - c ↔ n < 2 ^ 32 + c) := by
  have hmod : u32 n < 2 ^ 32 := Nat.mod_lt _ (by decide)
  have hdiv : 2 ^ 32 * (n / 2 ^ 32) + u32 n = n := Nat.div_add_mod n _
  rw [u32Sub]
  by_cases hle : c ≤ u32 n
  · rw [if_pos hle]
    omega
  · rw [if_neg hle]
    omega

/-! ## Rings -/

variable {α : Type*}

/-- `struct Buffer`. `addr` stands for the pointer to the ring. -/
structure Buffer (α : Type*) where
  addr : ℕ
  buffer : ℕ → α
  capacity : ℕ
  count : ℕ
  push : ℕ
  pop : ℕ

namespace Buffer

/-- `memcpy` of `len` bytes out of the ring's storage, from offset `off` on. -/
def memcpyOut (b : Buffer α) (off len : ℕ) : Option (List α) :=
  if off + len ≤ b.capacity then some (span b.buffer off len) else none

/-- `memcpy` of `xs` into the ring's storage, from offset `off` on. -/
def memcpyIn (b : Buffer α) (off : ℕ) (xs : List α) : Option (Buffer α) :=
  if off + xs.length ≤ b.capacity then some { b with buffer := patch b.buffer off xs } else none

/-- The bytes the ring holds. -/
def live (b : Buffer α) : List α := window b.buffer b.capacity b.pop b.count

@[simp] theorem length_live (b : Buffer α) : b.live.length = b.count := length_window _ _ _ _

theorem memcpyOut_of_le {b : Buffer α} {off len : ℕ} (h : off + len ≤ b.capacity) :
    b.memcpyOut off len = some (span b.buffer off len) := if_pos h

theorem memcpyIn_of_le {b : Buffer α} {off : ℕ} {xs : List α} (h : off + xs.length ≤ b.capacity) :
    b.memcpyIn off xs = some { b with buffer := patch b.buffer off xs } := if_pos h

theorem memcpyIn_addr {b b' : Buffer α} {off : ℕ} {xs : List α} (h : b.memcpyIn off xs = some b') :
    b'.addr = b.addr := by
  rw [memcpyIn] at h
  split at h
  · exact (Option.some.inj h) ▸ rfl
  · exact absurd h (by simp)

/-- How the cursors and the count of a ring are related, up to whole laps: both
cursors stay inside the storage, and `push` is where the live bytes end. -/
structure Cyclic (b : Buffer α) : Prop where
  count_le : b.count ≤ b.capacity
  push_le : b.push ≤ b.capacity
  pop_le : b.pop ≤ b.capacity
  push_mod : b.push ≡ b.pop + b.count [MOD b.capacity]

/-- Bytes stored straight at `push` are appended. -/
theorem Cyclic.store_straight {b : Buffer α} {xs : List α} (h : b.Cyclic)
    (hfit : b.count + xs.length ≤ b.capacity) (hend : b.push + xs.length ≤ b.capacity) :
    window (patch b.buffer b.push xs) b.capacity b.pop (b.count + xs.length) = b.live ++ xs := by
  rw [window_patch _ _ h.push_mod hend hfit, live]

/-- Bytes stored at `push` up to the end of the storage, and the rest of them
from its beginning, are appended. -/
theorem Cyclic.store_wrapped {b : Buffer α} {xs : List α} (h : b.Cyclic)
    (hfit : b.count + xs.length ≤ b.capacity) (hend : b.capacity ≤ b.push + xs.length) :
    window (patch (patch b.buffer b.push (xs.take (b.capacity - b.push))) 0
        (xs.drop (b.capacity - b.push))) b.capacity b.pop (b.count + xs.length)
      = b.live ++ xs := by
  have hpush := h.push_le
  have htake : (xs.take (b.capacity - b.push)).length = b.capacity - b.push := by
    rw [List.length_take]
    omega
  have hdrop : (xs.drop (b.capacity - b.push)).length = xs.length - (b.capacity - b.push) :=
    List.length_drop
  have hlen : b.count + xs.length
      = b.count + (xs.take (b.capacity - b.push)).length
        + (xs.drop (b.capacity - b.push)).length := by
    omega
  -- the second store starts one lap after the end of the first
  have hmod : 0 % b.capacity
      = (b.pop + (b.count + (xs.take (b.capacity - b.push)).length)) % b.capacity := by
    rw [← Nat.add_assoc, Nat.add_mod, ← h.push_mod, ← Nat.add_mod, htake,
      Nat.add_sub_cancel' hpush, Nat.mod_self, Nat.zero_mod]
  rw [hlen, window_patch _ _ hmod (by omega) (by omega),
    h.store_straight (by omega) (by omega), List.append_assoc, List.take_append_drop]

/-- The same without the division. `push` is `count` ahead of `pop`, or it is
`count` ahead after one lap; equality with the capacity is allowed for both, and
which of the two spellings of a full or an empty ring is meant is decided by
`linked`. -/
structure Wf (cap : ℕ) (b : Buffer α) : Prop where
  capacity_eq : b.capacity = cap
  count_le : b.count ≤ cap
  push_le : b.push ≤ cap
  pop_le : b.pop ≤ cap
  linked : b.push = b.pop + b.count ∨ b.push + cap = b.pop + b.count

/-- The next byte stored at `push` is the next byte of the window. -/
theorem Wf.push_mod {cap : ℕ} {b : Buffer α} (h : b.Wf cap) :
    b.push % cap = (b.pop + b.count) % cap := by
  rcases h.linked with h | h
  · rw [h]
  · rw [← h, Nat.add_mod_right]

theorem Wf.cyclic {cap : ℕ} {b : Buffer α} (h : b.Wf cap) : b.Cyclic := by
  obtain rfl := h.capacity_eq
  exact ⟨h.count_le, h.push_le, h.pop_le, h.push_mod⟩

/-- The first `n` live bytes when they do not pass the end of the storage. -/
theorem Wf.take_live_straight {cap n : ℕ} {b : Buffer α} (h : b.Wf cap) (hn : n ≤ b.count)
    (hend : b.pop + n ≤ cap) : b.live.take n = span b.buffer b.pop n := by
  have hsplit : b.count = n + (b.count - n) := by omega
  rw [live, h.capacity_eq, hsplit, window_add, window_eq_span _ hend,
    List.take_left' (length_span _ _ _)]

/-- The first `n` live bytes when they do. -/
theorem Wf.take_live_wrapped {cap n : ℕ} {b : Buffer α} (h : b.Wf cap) (hn : n ≤ b.count)
    (hend : cap ≤ b.pop + n) :
    b.live.take n
      = span b.buffer b.pop (cap - b.pop) ++ span b.buffer 0 (n - (cap - b.pop)) := by
  have hsplit : b.count = n + (b.count - n) := by omega
  have hnc : n ≤ cap := le_trans hn h.count_le
  rw [live, h.capacity_eq, hsplit, window_add, List.take_left' (length_window _ _ _ _),
    window_wrap _ h.pop_le hend hnc]

/-- Moving `pop` over `n` live bytes drops them, whichever spelling of the new
position is used. -/
theorem Wf.live_advance {cap n p : ℕ} {b : Buffer α} (h : b.Wf cap) (hn : n ≤ b.count)
    (hp : p % cap = (b.pop + n) % cap) :
    live { b with pop := p, count := b.count - n } = b.live.drop n := by
  have hsplit : b.count = n + (b.count - n) := by omega
  simp only [live, h.capacity_eq]
  conv_rhs => rw [hsplit, window_add, List.drop_left' (length_window _ _ _ _)]
  exact window_congr _ _ hp

theorem Wf.window_store_straight {cap : ℕ} {b : Buffer α} {xs : List α} (h : b.Wf cap)
    (hfit : b.count + xs.length ≤ cap) (hend : b.push + xs.length ≤ cap) :
    window (patch b.buffer b.push xs) cap b.pop (b.count + xs.length) = b.live ++ xs := by
  obtain rfl := h.capacity_eq
  exact h.cyclic.store_straight hfit hend

theorem Wf.window_store_wrapped {cap : ℕ} {b : Buffer α} {xs : List α} (h : b.Wf cap)
    (hfit : b.count + xs.length ≤ cap) (hend : cap ≤ b.push + xs.length) :
    window (patch (patch b.buffer b.push (xs.take (cap - b.push))) 0 (xs.drop (cap - b.push)))
        cap b.pop (b.count + xs.length) = b.live ++ xs := by
  obtain rfl := h.capacity_eq
  exact h.cyclic.store_wrapped hfit hend

end Buffer

/-! ## Chains -/

/-- The bytes a chain of rings holds, from its head on. -/
def content (chain : List (Buffer α)) : List α := chain.flatMap Buffer.live

/-- The sum of the counts of a chain. -/
def total (chain : List (Buffer α)) : ℕ := (chain.map Buffer.count).sum

/-- The addresses of a chain. -/
def addrs (chain : List (Buffer α)) : List ℕ := chain.map Buffer.addr

@[simp] theorem content_nil : content ([] : List (Buffer α)) = [] := rfl

@[simp] theorem content_cons (b : Buffer α) (chain : List (Buffer α)) :
    content (b :: chain) = b.live ++ content chain := rfl

@[simp] theorem content_append (c d : List (Buffer α)) :
    content (c ++ d) = content c ++ content d := List.flatMap_append

@[simp] theorem total_nil : total ([] : List (Buffer α)) = 0 := rfl

@[simp] theorem total_cons (b : Buffer α) (chain : List (Buffer α)) :
    total (b :: chain) = b.count + total chain := rfl

@[simp] theorem total_append (c d : List (Buffer α)) : total (c ++ d) = total c + total d := by
  simp only [total, List.map_append, List.sum_append]

@[simp] theorem addrs_nil : addrs ([] : List (Buffer α)) = [] := rfl

@[simp] theorem addrs_cons (b : Buffer α) (chain : List (Buffer α)) :
    addrs (b :: chain) = b.addr :: addrs chain := rfl

@[simp] theorem addrs_append (c d : List (Buffer α)) : addrs (c ++ d) = addrs c ++ addrs d :=
  List.map_append

@[simp] theorem length_content (chain : List (Buffer α)) :
    (content chain).length = total chain := by
  induction chain with
  | nil => rfl
  | cons b chain ih => simp only [content_cons, total_cons, List.length_append, ih,
      Buffer.length_live]

/-- The chain split at the ring a pointer points to: what comes before it, the
ring, and what its `next` leads to. -/
def splitAt (addr : ℕ) : List (Buffer α) → Option (List (Buffer α) × Buffer α × List (Buffer α))
  | [] => none
  | b :: chain =>
      if b.addr = addr then some ([], b, chain)
      else (splitAt addr chain).map fun r => (b :: r.1, r.2)

/-- The pointer to a ring finds it, when the rings before it are other ones. -/
theorem splitAt_append {front : List (Buffer α)} {b : Buffer α} {rest : List (Buffer α)}
    (h : b.addr ∉ addrs front) : splitAt b.addr (front ++ b :: rest) = some (front, b, rest) := by
  induction front with
  | nil => simp [splitAt]
  | cons c front ih =>
      simp only [addrs_cons, List.mem_cons, not_or] at h
      rw [List.cons_append, splitAt, if_neg (Ne.symm h.1), ih h.2]
      rfl

/-- The pointer to the last ring splits the chain before it. -/
theorem splitAt_last {chain : List (Buffer α)} {addr : ℕ}
    (hlast : (addrs chain).getLast? = some addr) (hnd : (addrs chain).Nodup) :
    ∃ front tail, chain = front ++ [tail] ∧ tail.addr = addr
      ∧ splitAt addr chain = some (front, tail, []) := by
  rcases List.eq_nil_or_concat chain with rfl | ⟨front, tail, rfl⟩
  · simp at hlast
  · rw [List.concat_eq_append] at hlast hnd ⊢
    rw [addrs_append, addrs_cons, addrs_nil] at hlast hnd
    rw [List.getLast?_concat, Option.some.injEq] at hlast
    refine ⟨front, tail, rfl, hlast, ?_⟩
    rw [← hlast]
    refine splitAt_append fun hmem => ?_
    exact (List.nodup_append.mp hnd).2.2 _ hmem _ List.mem_cons_self rfl

/-! ## The pool -/

/-- A capacity the pool can have: rings are not empty, and two of them can be
counted in 32 bits. -/
structure Capacity where
  bytes : ℕ
  pos : 0 < bytes
  lt : bytes < 2 ^ 31

/-- `class BufferPool`, with the state of the heap behind it: `storage a` is
what `new char[capacity_]` leaves in the storage of the ring at address `a`,
`taken` the number of rings handed out (and the next address), `freed` the
addresses released. -/
structure BufferPool (α : Type*) where
  capacity_ : Capacity
  storage : ℕ → ℕ → α
  taken : ℕ
  freed : List ℕ

namespace BufferPool

/-- A pool nothing has been taken from. -/
def make (capacity : Capacity) (storage : ℕ → ℕ → α) : BufferPool α :=
  { capacity_ := capacity, storage := storage, taken := 0, freed := [] }

/-- The capacity of the pool `EventLoop` makes. -/
def eventLoopCapacity : Capacity := ⟨1024 * 4, by decide, by decide⟩

/-- `BufferPool::take`. -/
def take (pool : BufferPool α) : Buffer α × BufferPool α :=
  ({ addr := pool.taken, buffer := pool.storage pool.taken, capacity := pool.capacity_.bytes,
     count := 0, push := 0, pop := 0 },
   { pool with taken := pool.taken + 1 })

/-- `BufferPool::put`. -/
def put (pool : BufferPool α) (b : Buffer α) : Option (BufferPool α) :=
  if b.addr ∈ pool.freed then none else some { pool with freed := b.addr :: pool.freed }

/-- `BufferPool::putNext` on the head of a chain: the ring is released and the
chain behind it is what remains. -/
def putNext (pool : BufferPool α) : List (Buffer α) → Option (List (Buffer α) × BufferPool α)
  | [] => none
  | b :: next => (pool.put b).map fun pool => (next, pool)

/-- The rings of the chains `chains`, together with those released, are exactly
those taken, each once. -/
def Owns (pool : BufferPool α) (chains : List (Buffer α)) : Prop :=
  (pool.freed ++ addrs chains).Perm (List.range pool.taken)

/-- A chain of rings that are owned has no ring twice and none released. -/
theorem Owns.nodup {pool : BufferPool α} {chains : List (Buffer α)} (h : pool.Owns chains) :
    (pool.freed ++ addrs chains).Nodup :=
  h.nodup_iff.mpr List.nodup_range

/-- A ring of a chain that is owned is not among those before it. -/
theorem Owns.addr_notMem {pool : BufferPool α} {front rest : List (Buffer α)}
    {b : Buffer α} (h : pool.Owns (front ++ b :: rest)) : b.addr ∉ addrs front := by
  have hnd := (List.nodup_append.mp h.nodup).2.1
  rw [addrs_append, addrs_cons] at hnd
  intro hmem
  exact (List.nodup_append.mp hnd).2.2 _ hmem _ (List.mem_cons_self ..) rfl

/-- Releasing the first ring of a chain that is owned succeeds, and leaves the
rest owned. -/
theorem Owns.put {pool : BufferPool α} {b : Buffer α} {chains : List (Buffer α)}
    (h : pool.Owns (b :: chains)) :
    pool.put b = some { pool with freed := b.addr :: pool.freed }
      ∧ Owns { pool with freed := b.addr :: pool.freed } chains := by
  have hnd := h.nodup
  have hnot : b.addr ∉ pool.freed := by
    intro hmem
    exact (List.nodup_append.mp hnd).2.2 _ hmem _ (List.mem_cons_self ..) rfl
  refine ⟨if_neg hnot, ?_⟩
  have hperm : (b.addr :: pool.freed ++ addrs chains).Perm (pool.freed ++ addrs (b :: chains)) := by
    rw [List.cons_append, addrs_cons]
    exact List.perm_middle.symm
  exact hperm.trans h

/-- A ring just taken is owned beside the others. -/
theorem Owns.take {pool : BufferPool α} {chains : List (Buffer α)} (h : pool.Owns chains) :
    pool.take.2.Owns (pool.take.1 :: chains) := by
  have h1 : (pool.freed ++ addrs (pool.take.1 :: chains)).Perm
      (pool.taken :: (pool.freed ++ addrs chains)) := List.perm_middle
  have h2 : (pool.taken :: List.range pool.taken).Perm (List.range (pool.taken + 1)) := by
    rw [List.range_succ]
    exact (List.perm_append_singleton _ _).symm
  exact h1.trans ((List.Perm.cons _ h).trans h2)

/-- Ownership does not depend on the order of the rings, nor on what they
hold. -/
theorem Owns.perm {pool : BufferPool α} {c d : List (Buffer α)} (h : pool.Owns c)
    (hp : (addrs c).Perm (addrs d)) : pool.Owns d :=
  (List.Perm.append_left _ hp.symm).trans h

end BufferPool

/-! ## The buffers of a connection -/

/-- The buffer fields of `TcpConnection`. A head pointer is the chain it leads
to, a tail pointer the address of a ring of that chain. -/
structure IoBuffers (α : Type*) where
  bufferPool_ : BufferPool α
  readHead_ : List (Buffer α)
  readTail_ : ℕ
  readSize_ : ℕ
  writeHead_ : List (Buffer α)
  writeTail_ : ℕ
  writeSize_ : ℕ

/-- The buffers as `TcpConnection::establishInLoop` sets them up. -/
def IoBuffers.establish (pool : BufferPool α) : IoBuffers α :=
  let read := pool.take
  let write := read.2.take
  { bufferPool_ := write.2
    readHead_ := [read.1], readTail_ := read.1.addr, readSize_ := 0
    writeHead_ := [write.1], writeTail_ := write.1.addr, writeSize_ := 0 }

/-- Every ring taken is in one of the two chains or released, never twice. -/
def IoBuffers.Owned (io : IoBuffers α) : Prop :=
  io.bufferPool_.Owns (io.readHead_ ++ io.writeHead_)

theorem BufferPool.owns_make (capacity : Capacity) (storage : ℕ → ℕ → α) :
    (BufferPool.make capacity storage).Owns [] := List.Perm.refl _

theorem IoBuffers.owned_establish (capacity : Capacity) (storage : ℕ → ℕ → α) :
    (establish (BufferPool.make capacity storage)).Owned := by
  have h := (BufferPool.owns_make capacity storage).take.take
  exact h.perm (List.Perm.swap _ _ _)

end Libiak.Net
