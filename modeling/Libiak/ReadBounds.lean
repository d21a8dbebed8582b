/-
The read path in every state it can get into.

A read that stops inside a ring behind the head leaves the count of that ring
too large, so after it the counts say more than the rings hold and nothing that
`ReadFifo.lean` assumes of the chain is true any more. What stays true is less,
and it is enough for memory: the cursors are inside the storage (`InStorage`),
the rings behind the head have not been read from (`Unread`), `readSize_` is no
more than the counts add up to, and where the tail is the head as well, `push`
is at least `readSize_` ahead of `pop` (`Trails`).

`ReadBounds` puts these together. It holds of the established chain and is kept
by `ReadData` (`ReadData_bounds`) and by a turn of `onRead` with any result of
`readv` (`onRead.turn_bounds`), with no bound on what is buffered. On the way
`PeekData` and `ReadData` are walked side by side: they copy the same bytes, and
how many that is.
-/
import Libiak.ReadFifo

set_option autoImplicit false

namespace Libiak.Net

open Libiak.Window

variable {α : Type*}

/-! ## Rings whose count may be too large -/

/-- The count and both cursors of a ring are inside its storage. -/
structure Buffer.InStorage (cap : ℕ) (b : Buffer α) : Prop where
  capacity_eq : b.capacity = cap
  count_le : b.count ≤ cap
  push_le : b.push ≤ cap
  pop_lt : b.pop < cap

/-- `push` is `real` ahead of `pop`, going round the storage, and the count is
no less than that. -/
structure Buffer.Trails (cap real : ℕ) (b : Buffer α) : Prop extends b.InStorage cap where
  real_le : real ≤ b.count
  linked : b.push = b.pop + real ∨ b.push + cap = b.pop + real ∨ b.push = b.pop + real + cap

/-- A ring nothing has been read from. -/
def Buffer.Unread (cap : ℕ) (b : Buffer α) : Prop := b.Trails cap b.count ∧ b.pop = 0

section Ring

variable {cap real n : ℕ} {b : Buffer α}

/-- The room from `pop` to the end of the storage. -/
theorem Buffer.InStorage.rear (h : b.InStorage cap) :
    u32Sub b.capacity b.pop = cap - b.pop := by
  rw [h.capacity_eq]
  exact u32Sub_of_le (le_of_lt h.pop_lt)

/-- The room a ring counts as free. -/
theorem Buffer.InStorage.free (h : b.InStorage cap) :
    u32Sub b.capacity b.count = cap - b.count := by
  rw [h.capacity_eq]
  exact u32Sub_of_le h.count_le

/-- What is stored in a ring does not matter to any of this. -/
theorem Buffer.InStorage.store (h : b.InStorage cap) (mem : ℕ → α) :
    InStorage cap { b with buffer := mem } := ⟨h.capacity_eq, h.count_le, h.push_le, h.pop_lt⟩

theorem Buffer.Trails.store (h : b.Trails cap real) (mem : ℕ → α) :
    Trails cap real { b with buffer := mem } :=
  ⟨h.toInStorage.store mem, h.real_le, h.linked⟩

theorem Buffer.Unread.store (h : b.Unread cap) (mem : ℕ → α) :
    Unread cap { b with buffer := mem } := ⟨h.1.store mem, h.2⟩

theorem Buffer.Spare.store (h : b.Spare cap) (mem : ℕ → α) :
    Spare cap { b with buffer := mem } := ⟨h.capacity_eq, h.count_eq, h.push_eq, h.pop_eq⟩

/-- A ring read to its end starts over. -/
theorem Buffer.InStorage.drained (h : b.InStorage cap) :
    Unread cap { b with push := 0, pop := 0, count := 0 } := by
  have hcap : 0 < cap := by have := h.pop_lt; omega
  refine ⟨?_, rfl⟩
  exact
    { capacity_eq := h.capacity_eq
      count_le := Nat.zero_le _
      push_le := Nat.zero_le _
      pop_lt := hcap
      real_le := le_refl _
      linked := Or.inl rfl }

/-- A spare ring with `n` bytes at its start. -/
theorem Buffer.Spare.filled (h : b.Spare cap) (hcap : 0 < cap) (hn : n ≤ cap) :
    Unread cap { b with count := n, push := n } := by
  have hpop := h.pop_eq
  refine ⟨⟨⟨h.capacity_eq, hn, hn, ?_⟩, le_refl _, Or.inl ?_⟩, hpop⟩
  · rw [hpop]
    exact hcap
  · simp only [hpop, Nat.zero_add]

theorem Buffer.Spare.unread (h : b.Spare cap) (hcap : 0 < cap) : b.Unread cap := by
  refine ⟨⟨⟨h.capacity_eq, ?_, ?_, ?_⟩, le_refl _, Or.inl ?_⟩, h.pop_eq⟩
  · rw [h.count_eq]
    exact Nat.zero_le _
  · rw [h.push_eq]
    exact Nat.zero_le _
  · rw [h.pop_eq]
    exact hcap
  · rw [h.push_eq, h.pop_eq, h.count_eq]

/-- The first `n` bytes a ring counts are inside its storage, on one side or on
both. -/
theorem copyHead_length (h : b.InStorage cap) (hn : n ≤ b.count) :
    ∃ x, copyHead b n = some x ∧ x.length = n := by
  have hcount := h.count_le
  have hpop := h.pop_lt
  simp only [copyHead, h.rear]
  by_cases hw : n > cap - b.pop
  · rw [if_pos hw, Buffer.memcpyOut_of_le (by rw [h.capacity_eq]; omega),
      Buffer.memcpyOut_of_le (by rw [h.capacity_eq]; omega)]
    refine ⟨_, rfl, ?_⟩
    rw [List.length_append, length_span, length_span]
    omega
  · rw [if_neg hw, Buffer.memcpyOut_of_le (by rw [h.capacity_eq]; omega)]
    exact ⟨_, rfl, length_span _ _ _⟩

theorem memcpyOut_length (h : b.InStorage cap) (hn : n ≤ b.count) :
    ∃ x, b.memcpyOut 0 n = some x ∧ x.length = n := by
  have hcount := h.count_le
  exact ⟨_, Buffer.memcpyOut_of_le (by rw [h.capacity_eq]; omega), length_span _ _ _⟩

/-- **A read inside the head ring** copies what a peek does, and leaves the ring
as far inside its storage as it was. -/
theorem ReadData.inHead_bounds (h : b.InStorage cap) (hcap : cap < 2 ^ 31) (hn : n < b.count) :
    ∃ x b', ReadData.inHead b n = some (x, b') ∧ copyHead b n = some x ∧ x.length = n
      ∧ b'.addr = b.addr ∧ b'.InStorage cap ∧ b'.count = b.count - n
      ∧ ∀ real, b.Trails cap real → n ≤ real → b'.Trails cap (real - n) := by
  have hcount := h.count_le
  have hpush := h.push_le
  have hpop := h.pop_lt
  have hsz : u32 n = n := u32_of_lt (by omega)
  have hcnt : u32Sub b.count n = b.count - n := u32Sub_of_le (le_of_lt hn)
  -- where `pop` goes, which is all the two ways of copying differ in
  have hring : ∀ p, p < cap → (p = b.pop + n ∨ p + cap = b.pop + n) →
      Buffer.InStorage cap { b with pop := p, count := b.count - n }
        ∧ ∀ real, b.Trails cap real → n ≤ real →
          Buffer.Trails cap (real - n) { b with pop := p, count := b.count - n } := by
    intro p hp hpos
    have hin : Buffer.InStorage cap { b with pop := p, count := b.count - n } :=
      ⟨h.capacity_eq, by simp only; omega, hpush, hp⟩
    refine ⟨hin, fun real ht hle => ?_⟩
    have hlinked := ht.linked
    have hreal := ht.real_le
    exact
      { toInStorage := hin
        real_le := by simp only; omega
        linked := by simp only; omega }
  simp only [ReadData.inHead, copyHead, h.rear, hsz, hcnt]
  by_cases hw : n > cap - b.pop
  · -- round the end: `pop` is what was copied from the start
    obtain ⟨hin, htrails⟩ := hring (n - (cap - b.pop)) (by omega) (by omega)
    rw [if_pos hw, if_pos hw, u32Sub_of_le (by omega),
      Buffer.memcpyOut_of_le (by rw [h.capacity_eq]; omega),
      Buffer.memcpyOut_of_le (by rw [h.capacity_eq]; omega)]
    refine ⟨_, _, rfl, rfl, ?_, rfl, hin, rfl, htrails⟩
    rw [List.length_append, length_span, length_span]
    omega
  · -- up to the end at most, where the remainder takes `pop` back to the start
    obtain ⟨p, hp, hlt, hpos⟩ : ∃ p, (b.pop + n) % b.capacity = p ∧ p < cap
        ∧ (p = b.pop + n ∨ p + cap = b.pop + n) := by
      refine ⟨_, rfl, ?_⟩
      rw [h.capacity_eq]
      obtain ⟨hlt, hmod⟩ := mod_cases (b.pop + n) cap (by omega)
      exact ⟨hlt, hmod.imp_left And.right⟩
    obtain ⟨hin, htrails⟩ := hring p hlt hpos
    rw [if_neg hw, if_neg hw, u32_of_lt (by omega), hp,
      Buffer.memcpyOut_of_le (by rw [h.capacity_eq]; omega)]
    exact ⟨_, _, rfl, rfl, length_span _ _ _, rfl, hin, rfl, htrails⟩

end Ring

/-! ## Walking the rings behind the head -/

section Walk

variable {cap n : ℕ}

/-- What a walk over `n` bytes of the rings `rings` up to the tail leaves of
them. The first ring left may count bytes that are gone; if it is the tail, its
cursors know better. -/
structure WalkBounds (cap n : ℕ) (rings : List (Buffer α)) (tail : Buffer α)
    (spare other : List (Buffer α)) (pool : BufferPool α)
    (front' : List (Buffer α)) (tail' : Buffer α) (pool' : BufferPool α) : Prop where
  tail_addr : tail'.addr = tail.addr
  capacity_eq : pool'.capacity_ = pool.capacity_
  owns : pool'.Owns (front' ++ tail' :: spare ++ other)
  bounded : ∀ b ∈ front' ++ [tail'], b.InStorage cap
  behind : ∀ b ∈ (front' ++ [tail']).tail, b.Unread cap
  total_le : total rings ≤ n + total (front' ++ [tail'])
  ahead : front' = [] → tail'.Trails cap (total rings - n)

section Drain

variable {front spare other rings : List (Buffer α)} {tail b : Buffer α} {pool : BufferPool α}

/-- A ring that has been read to its end. -/
theorem ReadData.drain_bounds (hrings : front ++ [tail] = b :: rings) (hb : b.InStorage cap)
    (hbehind : ∀ c ∈ rings, c.Unread cap) (howns : pool.Owns (front ++ tail :: spare ++ other)) :
    ∃ front' tail' pool', ReadData.drain tail.addr pool b (rings ++ spare)
        = some (front' ++ tail' :: spare, pool')
      ∧ WalkBounds cap b.count (b :: rings) tail spare other pool front' tail' pool' := by
  cases front with
  | nil =>
      simp only [List.nil_append, List.cons.injEq] at hrings
      obtain ⟨rfl, rfl⟩ := hrings
      refine ⟨[], { tail with push := 0, pop := 0, count := 0 }, pool, ?_, ?_⟩
      · rw [ReadData.drain, if_pos rfl]
        rfl
      · exact
          { tail_addr := rfl
            capacity_eq := rfl
            owns := howns.perm (List.Perm.refl _)
            bounded := fun c hc => by
              rw [List.nil_append, List.mem_singleton] at hc
              exact hc ▸ hb.drained.1.toInStorage
            behind := fun c hc => absurd hc List.not_mem_nil
            total_le := by
              simp only [total_cons, total_nil]
              omega
            ahead := fun _ => by
              rw [total_cons, total_nil, Nat.add_zero, Nat.sub_self]
              exact hb.drained.1 }
  | cons c front =>
      simp only [List.cons_append, List.cons.injEq] at hrings
      obtain ⟨rfl, rfl⟩ := hrings
      have hne : c.addr ≠ tail.addr := by
        have hnd := (List.nodup_append.mp howns.nodup).2.1
        simp only [List.cons_append, addrs_cons, addrs_append, List.nodup_cons,
          List.append_assoc, List.mem_append, List.mem_cons, not_or] at hnd
        exact hnd.1.2.1
      obtain ⟨hput, howns'⟩ := BufferPool.Owns.put howns
      refine ⟨front, tail, { pool with freed := c.addr :: pool.freed }, ?_, ?_⟩
      · rw [ReadData.drain, if_neg hne, BufferPool.putNext, hput, List.append_assoc]
        rfl
      · exact
          { tail_addr := rfl
            capacity_eq := rfl
            owns := howns'
            bounded := fun b hb => (hbehind b hb).1.toInStorage
            behind := fun b hb => hbehind b (List.mem_of_mem_tail hb)
            total_le := by
              rw [total_cons]
            ahead := fun hnil => by
              have htail := (hbehind tail (by simp)).1
              simpa [hnil] using htail }

/-- A walk that needs no more than the first ring. -/
theorem ReadData.loop_last (hrings : front ++ [tail] = b :: rings) (hb : b.Unread cap)
    (hbehind : ∀ c ∈ rings, c.Unread cap) (howns : pool.Owns (front ++ tail :: spare ++ other))
    (hn : n ≤ b.count) :
    ∃ x front' tail' pool', ReadData.loop tail.addr (b :: (rings ++ spare)) n pool
        = some (x, front' ++ tail' :: spare, pool')
      ∧ PeekData.loop (b :: (rings ++ spare)) n = some x ∧ x.length = n
      ∧ WalkBounds cap n (b :: rings) tail spare other pool front' tail' pool' := by
  obtain ⟨x, hcopy, hlen⟩ := memcpyOut_length hb.1.toInStorage hn
  rw [ReadData.loop, PeekData.loop]
  by_cases hlt : n < b.count
  · -- the read splits the ring: `pop` moves and `count` does not
    obtain ⟨⟨hin, -, hlinked⟩, hpop⟩ := hb
    have hcount := hin.count_le
    have hsplit : Buffer.Trails cap (b.count - n) { b with pop := n } :=
      { capacity_eq := hin.capacity_eq
        count_le := hcount
        push_le := hin.push_le
        pop_lt := by simp only; omega
        real_le := Nat.sub_le _ _
        linked := by simp only; omega }
    obtain ⟨front', tail', heq, haddr, hfront⟩ := replace_head hrings { b with pop := n } rfl
    rw [if_pos hlt, if_pos hlt, hcopy]
    refine ⟨x, front', tail', pool, ?_, rfl, hlen, ?_⟩
    · rw [List.append_cons, ← heq]
      rfl
    · exact
        { tail_addr := haddr
          capacity_eq := rfl
          owns := howns.perm (List.Perm.of_eq (by
            simp only [List.append_assoc, List.cons_append, addrs_append, addrs_cons, hfront,
              haddr]))
          bounded := fun c hc => by
            rw [← heq] at hc
            rcases List.mem_cons.mp hc with rfl | hc
            · exact hsplit.toInStorage
            · exact (hbehind c hc).1.toInStorage
          behind := fun c hc => by
            rw [← heq] at hc
            exact hbehind c hc
          total_le := by
            rw [← heq, total_cons, total_cons]
            simp only
            omega
          ahead := fun hnil => by
            rw [hnil, List.nil_append, List.cons.injEq] at heq
            rw [← heq.1, heq.2, total_cons, total_nil, Nat.add_zero]
            exact hsplit }
  · obtain rfl : n = b.count := by omega
    obtain ⟨front', tail', pool', hdrain, hres⟩ :=
      ReadData.drain_bounds hrings hb.1.toInStorage hbehind howns
    refine ⟨x, front', tail', pool', ?_, ?_, hlen, hres⟩
    · rw [if_neg hlt, hcopy]
      simp only [Option.bind_eq_bind, Option.bind_some, if_neg (lt_irrefl b.count), hdrain]
    · rw [if_neg hlt, hcopy]
      simp only [Option.bind_eq_bind, Option.bind_some, if_neg (lt_irrefl b.count)]

end Drain

/-- **The walk of `ReadData` and that of `PeekData`**, side by side: both copy
the same `n` bytes, also where `n` is no bytes at all. The induction is on the
rings before the tail. -/
theorem ReadData.loop_bounds {front spare other : List (Buffer α)} {tail : Buffer α}
    {pool : BufferPool α} (hrings : ∀ b ∈ front ++ [tail], b.Unread cap)
    (howns : pool.Owns (front ++ tail :: spare ++ other)) (hn : n ≤ total (front ++ [tail])) :
    ∃ x front' tail' pool', ReadData.loop tail.addr (front ++ tail :: spare) n pool
        = some (x, front' ++ tail' :: spare, pool')
      ∧ PeekData.loop (front ++ tail :: spare) n = some x ∧ x.length = n
      ∧ WalkBounds cap n (front ++ [tail]) tail spare other pool front' tail' pool' := by
  induction front generalizing pool n with
  | nil =>
      have hnone : ∀ c ∈ ([] : List (Buffer α)), c.Unread cap := by
        intro c hc
        exact absurd hc List.not_mem_nil
      exact ReadData.loop_last rfl (hrings _ (List.mem_cons_self ..)) hnone howns
        (by simpa using hn)
  | cons b front ih =>
      have hb : b.Unread cap := hrings b (List.mem_cons_self ..)
      have hbehind : ∀ c ∈ front ++ [tail], c.Unread cap := fun c hc =>
        hrings c (List.mem_cons_of_mem _ hc)
      have hchain : b :: front ++ tail :: spare = b :: (front ++ [tail] ++ spare) := by
        simp only [List.cons_append, List.append_assoc, List.nil_append]
      by_cases hle : n ≤ b.count
      · -- the walk ends in this ring
        rw [hchain]
        exact ReadData.loop_last rfl hb hbehind howns hle
      · -- this ring is read and released, and the walk goes on behind it
        rw [List.cons_append, total_cons] at hn
        obtain ⟨x, hcopy, hlen⟩ := memcpyOut_length hb.1.toInStorage (le_refl b.count)
        obtain ⟨hput, howns'⟩ := BufferPool.Owns.put howns
        obtain ⟨y, front', tail', pool', hloop, hpeek, hlen', hres⟩ :=
          ih hbehind howns' (n := n - b.count) (by omega)
        have hgt : n > b.count := not_le.mp hle
        have hsub : u32Sub n b.count = n - b.count := u32Sub_of_le (le_of_lt hgt)
        refine ⟨x ++ y, front', tail', pool', ?_, ?_, ?_, ?_⟩
        · rw [List.cons_append, ReadData.loop, if_neg (by omega), hcopy]
          simp only [Option.bind_eq_bind, Option.bind_some, if_pos hgt, hput, hsub, hloop]
        · rw [List.cons_append, PeekData.loop, if_neg (by omega), hcopy]
          simp only [Option.bind_eq_bind, Option.bind_some, if_pos hgt, hsub, hpeek]
        · rw [List.length_append, hlen, hlen']
          omega
        · have htotal : total (front ++ [tail]) - (n - b.count)
              = total (b :: front ++ [tail]) - n := by
            rw [List.cons_append, total_cons]
            omega
          exact
            { tail_addr := hres.tail_addr
              capacity_eq := hres.capacity_eq
              owns := hres.owns
              bounded := hres.bounded
              behind := hres.behind
              total_le := by
                have := hres.total_le
                rw [List.cons_append, total_cons]
                omega
              ahead := fun hnil => htotal ▸ hres.ahead hnil }

end Walk

/-! ## The read chain -/

/-- What is true of the read chain between any two operations. The rings in use
are `front` and then `tail`; only the first may have been read from, and at most
one spare ring follows. -/
structure ReadBounds (io : IoBuffers α) (front : List (Buffer α)) (tail : Buffer α)
    (spare : List (Buffer α)) : Prop where
  chain : io.readHead_ = front ++ tail :: spare
  tail_addr : io.readTail_ = tail.addr
  bounded : ∀ b ∈ front ++ [tail], b.InStorage io.bufferPool_.capacity_.bytes
  behind : ∀ b ∈ (front ++ [tail]).tail, b.Unread io.bufferPool_.capacity_.bytes
  size_le : io.readSize_ ≤ total (front ++ [tail])
  ahead : front = [] →
    ∃ real, tail.Trails io.bufferPool_.capacity_.bytes real ∧ io.readSize_ ≤ real
  spare_len : spare.length ≤ 1
  spare_wf : ∀ b ∈ spare, b.Spare io.bufferPool_.capacity_.bytes
  owned : io.Owned

/-- The read chain of `io` is such a chain. -/
def ReadSafe (io : IoBuffers α) : Prop := ∃ front tail spare, ReadBounds io front tail spare

/-- The chains of the runs in which every read ends on a ring are among them:
there the counts are what the rings hold. -/
theorem ReadShape.bounds {io : IoBuffers α} {front spare : List (Buffer α)} {tail : Buffer α}
    (h : ReadShape io front tail spare) : ReadBounds io front tail spare := by
  have htrails : ∀ b : Buffer α, b.WfRead io.bufferPool_.capacity_.bytes →
      b.Trails io.bufferPool_.capacity_.bytes b.count := by
    intro b hb
    have hlinked := hb.linked
    exact ⟨⟨hb.capacity_eq, hb.count_le, hb.push_le, hb.pop_lt⟩, le_refl _, by omega⟩
  exact
    { chain := h.chain
      tail_addr := h.tail_addr
      bounded := fun b hb => (htrails b (h.wf b hb)).toInStorage
      behind := fun b hb => ⟨htrails b (h.wf b (List.mem_of_mem_tail hb)), h.behind b hb⟩
      size_le := le_of_eq h.size_eq
      ahead := fun hnil => by
        refine ⟨tail.count, htrails tail (h.wf tail (by simp)), ?_⟩
        rw [h.size_eq, hnil, List.nil_append, total_cons, total_nil, Nat.add_zero]
      spare_len := h.spare_len
      spare_wf := h.spare_wf
      owned := h.owned }

theorem readSafe_establish (capacity : Capacity) (storage : ℕ → ℕ → α) :
    ReadSafe (IoBuffers.establish (BufferPool.make capacity storage)) := by
  obtain ⟨front, tail, spare, h⟩ := readInv_establish capacity storage
  exact ⟨front, tail, spare, h.bounds⟩

namespace ReadBounds

variable {io : IoBuffers α} {front spare : List (Buffer α)} {tail : Buffer α}

theorem owns (h : ReadBounds io front tail spare) :
    io.bufferPool_.Owns (front ++ tail :: spare ++ io.writeHead_) := by
  have := h.owned
  rwa [IoBuffers.Owned, h.chain] at this

/-- The rings behind the head. -/
theorem behind_head (h : ReadBounds io front tail spare) {head : Buffer α}
    {rings : List (Buffer α)} (hrings : front ++ [tail] = head :: rings) :
    ∀ b ∈ rings, b.Unread io.bufferPool_.capacity_.bytes := by
  intro b hb
  refine h.behind b ?_
  rw [hrings]
  exact hb

/-- The chain, from its first ring on. -/
theorem chain_cons (h : ReadBounds io front tail spare) {head : Buffer α}
    {rings : List (Buffer α)} (hrings : front ++ [tail] = head :: rings) :
    io.readHead_ = head :: (rings ++ spare) := by
  rw [h.chain, List.append_cons, hrings, List.cons_append]

/-- A chain up to its tail begins with a ring. -/
theorem exists_head (h : ReadBounds io front tail spare) : ∃ head rings,
    front ++ [tail] = head :: rings ∧ head.InStorage io.bufferPool_.capacity_.bytes
      ∧ io.readSize_ ≤ head.count + total rings := by
  obtain ⟨head, rings, hrings⟩ : ∃ b rings, front ++ [tail] = b :: rings :=
    List.exists_cons_of_ne_nil (by simp)
  have hsize := h.size_le
  rw [hrings, total_cons] at hsize
  exact ⟨head, rings, hrings, h.bounded head (by rw [hrings]; exact List.mem_cons_self ..), hsize⟩

/-- The buffers after a walk over `n` bytes, if no more than the rest of what
the rings count is still to be read. -/
theorem of_walk {n m : ℕ} {rings front' : List (Buffer α)} {tail' : Buffer α}
    {pool pool' : BufferPool α} (h : ReadBounds io front tail spare)
    (hres : WalkBounds io.bufferPool_.capacity_.bytes n rings tail spare io.writeHead_ pool
      front' tail' pool')
    (hpool : pool.capacity_ = io.bufferPool_.capacity_) (hm : m ≤ total rings - n) :
    ReadBounds { io with
      readHead_ := front' ++ tail' :: spare, bufferPool_ := pool', readSize_ := m }
      front' tail' spare := by
  have hcap : pool'.capacity_ = io.bufferPool_.capacity_ := hres.capacity_eq.trans hpool
  have htotal := hres.total_le
  exact
    { chain := rfl
      tail_addr := by rw [h.tail_addr, hres.tail_addr]
      bounded := fun b hb => by
        rw [hcap]
        exact hres.bounded b hb
      behind := fun b hb => by
        rw [hcap]
        exact hres.behind b hb
      size_le := by simp only; omega
      ahead := fun hnil => by
        rw [hcap]
        exact ⟨_, hres.ahead hnil, hm⟩
      spare_len := h.spare_len
      spare_wf := fun b hb => by
        rw [hcap]
        exact h.spare_wf b hb
      owned := hres.owns }

/-- The buffers after a read inside the head ring. -/
theorem of_head {head head' : Buffer α} {rings : List (Buffer α)} {size : ℕ}
    (h : ReadBounds io front tail spare) (hrings : front ++ [tail] = head :: rings)
    (haddr : head'.addr = head.addr) (hin : head'.InStorage io.bufferPool_.capacity_.bytes)
    (hcount : head'.count = head.count - size) (hlt : size < head.count)
    (hsize : size ≤ io.readSize_)
    (htrails : ∀ real, head.Trails io.bufferPool_.capacity_.bytes real → size ≤ real →
      head'.Trails io.bufferPool_.capacity_.bytes (real - size)) :
    ReadSafe { io with
      readHead_ := head' :: (rings ++ spare), readSize_ := io.readSize_ - size } := by
  obtain ⟨front', tail', heq, htail, hfront⟩ := replace_head hrings head' haddr
  have hchain : head' :: (rings ++ spare) = front' ++ tail' :: spare := by
    rw [List.append_cons, ← heq, List.cons_append]
  have htotal := h.size_le
  rw [hrings, total_cons] at htotal
  refine ⟨front', tail', spare, ?_⟩
  exact
    { chain := hchain
      tail_addr := by rw [h.tail_addr, htail]
      bounded := fun b hb => by
        rw [← heq] at hb
        rcases List.mem_cons.mp hb with rfl | hb
        · exact hin
        · exact (h.behind_head hrings b hb).1.toInStorage
      behind := fun b hb => by
        rw [← heq] at hb
        exact h.behind_head hrings b hb
      size_le := by
        rw [← heq, total_cons, hcount]
        simp only
        omega
      ahead := fun hnil => by
        -- the head is the tail, before and after
        have hfront₀ : front = [] := by
          rw [hnil] at hfront
          exact List.map_eq_nil_iff.mp hfront.symm
        obtain ⟨real, ht, hreal⟩ := h.ahead hfront₀
        rw [hfront₀, List.nil_append, List.cons.injEq] at hrings
        rw [hnil, List.nil_append, List.cons.injEq] at heq
        refine ⟨real - size, ?_, by simp only; omega⟩
        rw [← heq.1]
        exact htrails real (hrings.1 ▸ ht) (by omega)
      spare_len := h.spare_len
      spare_wf := h.spare_wf
      owned := by
        have howned := h.owned
        rw [IoBuffers.Owned, h.chain_cons hrings] at howned
        exact howned.perm (List.Perm.of_eq (by
          simp only [List.cons_append, addrs_cons, addrs_append, haddr])) }

end ReadBounds

/-- The bytes a read of `size` copies, by the 32-bit arithmetic of its walk. -/
def ReadData.copied (readHead : Buffer α) (size : ℕ) : ℕ :=
  if size ≤ readHead.count then size
  else readHead.count + u32Sub (u32 size) readHead.count

/-- **`ReadData` and `PeekData`**, whatever the counts say: both succeed, they
copy the same bytes, and `ReadData` leaves a chain of the same kind. -/
theorem ReadData_bounds {io : IoBuffers α} {front spare : List (Buffer α)} {tail : Buffer α}
    {size : ℕ} (h : ReadBounds io front tail spare) (h0 : 0 < size) (hsize : size ≤ io.readSize_) :
    ∃ x io', PeekData io true size = some (true, x) ∧ ReadData io true size = some (true, x, io')
      ∧ (∀ head ∈ io.readHead_.head?, x.length = ReadData.copied head size)
      ∧ ReadSafe io' ∧ io'.readSize_ = io.readSize_ - size := by
  have hcap : io.bufferPool_.capacity_.bytes < 2 ^ 31 := io.bufferPool_.capacity_.lt
  obtain ⟨head, rings, hrings, hhead, htotal⟩ := h.exists_head
  have hcount := hhead.count_le
  have hguard : ¬ (!true || decide (size = 0) || decide (io.readSize_ < size)) = true := by
    simp only [Bool.not_true, Bool.false_or, Bool.or_eq_true, decide_eq_true_eq]
    omega
  rw [PeekData, ReadData, if_neg hguard, if_neg hguard, h.chain_cons hrings]
  simp only [List.head?_cons, Option.mem_def, Option.some.injEq, forall_eq', ReadData.copied]
  by_cases hlt : size < head.count
  · -- the read stays inside the head ring
    obtain ⟨x, head', hin, hcopy, hlen, haddr, hin', hcount', htrails⟩ :=
      ReadData.inHead_bounds hhead hcap hlt
    rw [if_pos hlt, if_pos hlt, hcopy, hin]
    refine ⟨x, _, rfl, rfl, ?_, ?_, rfl⟩
    · rw [if_pos (le_of_lt hlt), hlen]
    · exact h.of_head hrings haddr hin' hcount' hlt hsize htrails
  · obtain ⟨x, hcopy, hlen⟩ := copyHead_length hhead (le_refl head.count)
    rw [if_neg hlt, if_neg hlt, hcopy]
    simp only [Option.bind_eq_bind, Option.bind_some]
    by_cases hgt : size > head.count
    · -- the head is released and the walk goes on behind it
      obtain ⟨front₀, rfl, rfl⟩ : ∃ front₀, front = head :: front₀ ∧ rings = front₀ ++ [tail] := by
        cases front with
        | nil =>
            simp only [List.nil_append, List.cons.injEq] at hrings
            rw [← hrings.2, total_nil] at htotal
            omega
        | cons c front₀ =>
            simp only [List.cons_append, List.cons.injEq] at hrings
            exact ⟨front₀, by rw [hrings.1], hrings.2.symm⟩
      obtain ⟨hput, howns⟩ := BufferPool.Owns.put h.owns
      obtain ⟨hsub, -⟩ := u32Sub_u32 (le_of_lt hgt) (by omega)
      obtain ⟨y, front', tail', pool', hloop, hpeek, hlen', hres⟩ :=
        ReadData.loop_bounds (h.behind_head hrings) howns
          (n := u32Sub (u32 size) head.count) (by omega)
      have hchain : front₀ ++ [tail] ++ spare = front₀ ++ tail :: spare := by
        rw [List.append_assoc, List.singleton_append]
      rw [if_pos hgt, if_pos hgt, hput, hchain, h.tail_addr, hpeek]
      simp only [Option.bind_some, hloop]
      refine ⟨x ++ y, _, rfl, rfl, ?_, ?_, rfl⟩
      · rw [if_neg (not_le.mpr hgt), List.length_append, hlen, hlen']
      · have hshape := h.of_walk hres rfl (m := io.readSize_ - size) (by omega)
        rw [h.tail_addr] at hshape
        exact ⟨_, _, _, hshape⟩
    · -- the read ends where the head ends
      obtain rfl : size = head.count := by omega
      obtain ⟨front', tail', pool', hdrain, hres⟩ :=
        ReadData.drain_bounds hrings hhead (h.behind_head hrings) h.owns
      rw [if_neg hgt, if_neg hgt, h.tail_addr, hdrain]
      refine ⟨x, _, rfl, rfl, ?_, ?_, rfl⟩
      · rw [if_pos (le_refl _), hlen]
      · have hshape := h.of_walk hres rfl (m := io.readSize_ - head.count) (by
          rw [total_cons]
          omega)
        rw [h.tail_addr] at hshape
        exact ⟨_, _, _, hshape⟩

/-! ## A turn of `onRead` -/

/-- The room a turn of `onRead` offers the kernel. -/
def onRead.room (io : IoBuffers α) : ℕ :=
  match onRead.prepare io with
  | some t => offered (onRead.iov t.readTail t.next)
  | none => 0

/-- A result of `readv` that offered `room` bytes: it returns no more. -/
def Readv.Fits (room : ℕ) : Readv α → Prop
  | .error => True
  | .data bytes => bytes.length ≤ room

instance (room : ℕ) : (result : Readv α) → Decidable (result.Fits room)
  | .error => isTrue trivial
  | .data bytes => inferInstanceAs (Decidable (bytes.length ≤ room))

/-- Every `iovec` lies inside the storage of one of the rings. -/
def Iovec.Inside (rings : List (Buffer α)) (v : Iovec) : Prop :=
  ∃ b ∈ rings, b.addr = v.base ∧ v.off + v.len ≤ b.capacity

section Turn

variable {io : IoBuffers α} {front spare : List (Buffer α)} {tail next : Buffer α} {cap real n : ℕ}

/-- **The `iovec`s of `onRead`** are inside the storage of the two rings, also
where the counts are too large. -/
theorem onRead.iov_inside (ht : tail.Trails cap real) (next : Buffer α) :
    ∀ v ∈ onRead.iov tail next, v.Inside [tail, next] := by
  have hcount := ht.count_le
  have hpush := ht.push_le
  have hpop := ht.pop_lt
  have hreal := ht.real_le
  have hlinked := ht.linked
  have hcap := ht.capacity_eq
  have hend : u32Sub tail.capacity tail.push = cap - tail.push := by
    rw [hcap]
    exact u32Sub_of_le hpush
  have htail : ∀ off len, off + len ≤ cap → Iovec.Inside [tail, next] ⟨tail.addr, off, len⟩ :=
    fun off len hle => ⟨tail, List.mem_cons_self .., rfl, hcap ▸ hle⟩
  have hnext : Iovec.Inside [tail, next] ⟨next.addr, 0, next.capacity⟩ :=
    ⟨next, List.mem_cons_of_mem _ (List.mem_cons_self ..), rfl, by simp only; omega⟩
  intro v hv
  rw [onRead.iov, List.mem_append, List.mem_singleton] at hv
  rcases hv with hv | rfl
  · rw [onRead.tailIov, ht.free, hend] at hv
    split_ifs at hv with hfree hlt hz
    · -- `push` is behind `pop` only where the bytes between have come round
      obtain rfl := List.mem_singleton.mp hv
      exact htail _ _ (by omega)
    · rcases List.mem_cons.mp hv with rfl | hv
      · exact htail _ _ (by omega)
      · obtain rfl := List.mem_singleton.mp hv
        exact htail _ _ (by omega)
    · obtain rfl := List.mem_singleton.mp hv
      exact htail _ _ (by omega)
    · exact absurd hv List.not_mem_nil
  · exact hnext

/-- The kernel filling `iovec`s that are inside two rings changes nothing but
what is stored in them. -/
theorem readv_inside {iov : List Iovec} {xs : List α} (hne : tail.addr ≠ next.addr)
    (hiov : ∀ v ∈ iov, v.Inside [tail, next]) (hlen : xs.length ≤ offered iov) :
    ∃ mem mem', readv iov xs [tail, next]
      = some [{ tail with buffer := mem }, { next with buffer := mem' }] := by
  induction iov generalizing xs tail next with
  | nil =>
      have hnil : xs = [] := List.eq_nil_of_length_eq_zero (Nat.le_zero.mp hlen)
      rw [readv, hnil]
      exact ⟨tail.buffer, next.buffer, rfl⟩
  | cons v iov ih =>
      have hrest : (xs.drop v.len).length ≤ offered iov := by
        rw [List.length_drop]
        simp only [offered, List.map_cons, List.sum_cons] at hlen ⊢
        omega
      -- the `iovec`s that follow are inside the rings with other bytes in them
      have hkeep : ∀ mem mem' : ℕ → α, ∀ w ∈ iov,
          w.Inside [{ tail with buffer := mem }, { next with buffer := mem' }] := by
        intro mem mem' w hw
        obtain ⟨b, hb, haddr, hle⟩ := hiov w (List.mem_cons_of_mem _ hw)
        rw [List.mem_cons, List.mem_singleton] at hb
        rcases hb with rfl | rfl
        · exact ⟨_, List.mem_cons_self .., haddr, hle⟩
        · exact ⟨_, List.mem_cons_of_mem _ (List.mem_cons_self ..), haddr, hle⟩
      obtain ⟨b, hb, haddr, hle⟩ := hiov v (List.mem_cons_self ..)
      rw [List.mem_cons, List.mem_singleton] at hb
      rcases hb with rfl | rfl
      · rw [readv_cons iov xs [next] haddr hle]
        exact ih (by exact hne) (hkeep _ _) hrest
      · rw [readv, fillIovec, if_neg (haddr ▸ hne), fillIovec, if_pos haddr, if_pos hle]
        simp only [Option.map_some, Option.bind_eq_bind, Option.bind_some]
        exact ih (by exact hne) (hkeep tail.buffer _) hrest

/-- What the bookkeeping of a turn makes of the tail ring and the ring behind
it, after `n` bytes have come in. -/
structure FillBounds (cap real n : ℕ) (tail next tail' next' : Buffer α) (moved : Bool) : Prop where
  tail_addr : tail'.addr = tail.addr
  next_addr : next'.addr = next.addr
  tail_pop : tail'.pop = tail.pop
  tail_count : tail'.count = tail.count + min n (cap - tail.count)
  next_count : next'.count = n - (cap - tail.count)
  tail_trails : ∃ real', real + min n (cap - tail.count) ≤ real' ∧ tail'.Trails cap real'
  next_unread : next'.Unread cap
  moved_iff : moved = true ↔ cap - tail.count < n
  next_spare : moved = false → next'.Spare cap

theorem onRead.fill_bounds (ht : tail.Trails cap real) (hn : next.Spare cap) (hcap : cap < 2 ^ 31)
    (hle : n ≤ (cap - tail.count) + cap) :
    ∃ tail' next' moved, onRead.fill tail next (cap - tail.count) n = (tail', next', moved)
      ∧ FillBounds cap real n tail next tail' next' moved := by
  have hcount := ht.count_le
  have hpush := ht.push_le
  have hpop := ht.pop_lt
  have hreal := ht.real_le
  have hlinked := ht.linked
  have h32 : u32 n = n := u32_of_lt (by omega)
  have hspare : next.Unread cap := hn.unread (by omega)
  simp only [onRead.fill, h32]
  by_cases hlt : n < cap - tail.count
  · -- the bytes fit, and `push` goes back to the start where it passes the end
    obtain ⟨p, hp, hple, hpos⟩ : ∃ p, (tail.push + n) % tail.capacity = p ∧ p ≤ cap
        ∧ (tail.push + n < cap ∧ p = tail.push + n ∨ p + cap = tail.push + n) := by
      refine ⟨_, rfl, ?_⟩
      rw [ht.capacity_eq]
      obtain ⟨hlt, hmod⟩ := mod_cases (tail.push + n) cap (by omega)
      exact ⟨le_of_lt hlt, hmod⟩
    rw [if_pos hlt, u32_of_lt (by omega), u32_of_lt (by omega), hp]
    refine ⟨_, _, _, rfl, ?_⟩
    exact
      { tail_addr := rfl
        next_addr := rfl
        tail_pop := rfl
        tail_count := by simp only; omega
        next_count := by rw [hn.count_eq]; omega
        tail_trails := by
          refine ⟨real + n, by omega, ⟨⟨ht.capacity_eq, ?_, hple, hpop⟩, ?_, ?_⟩⟩
          · simp only
            omega
          · simp only
            omega
          · simp only
            omega
        next_unread := hspare
        moved_iff := by simp only [Bool.false_eq_true, false_iff]; omega
        next_spare := fun _ => hn }
  · -- the tail ring is full, whatever it counted before
    have hfull : Buffer.Trails cap cap { tail with push := tail.pop, count := tail.capacity } := by
      refine ⟨⟨ht.capacity_eq, ?_, ?_, hpop⟩, ?_, Or.inr (Or.inl rfl)⟩
      · exact le_of_eq ht.capacity_eq
      · exact le_of_lt hpop
      · exact le_of_eq ht.capacity_eq.symm
    have hmin : tail.capacity = tail.count + min n (cap - tail.count) := by
      rw [ht.capacity_eq]
      omega
    rw [if_neg hlt]
    by_cases hgt : n > cap - tail.count
    · rw [if_pos hgt, u32Sub_of_le (le_of_lt hgt)]
      refine ⟨_, _, _, rfl, ?_⟩
      exact
        { tail_addr := rfl
          next_addr := rfl
          tail_pop := rfl
          tail_count := hmin
          next_count := rfl
          tail_trails := ⟨cap, by omega, hfull⟩
          next_unread := hn.filled (by omega) (by omega)
          moved_iff := by simp only [true_iff]; omega
          next_spare := fun h => absurd h (by decide) }
    · rw [if_neg hgt]
      refine ⟨_, _, _, rfl, ?_⟩
      exact
        { tail_addr := rfl
          next_addr := rfl
          tail_pop := rfl
          tail_count := hmin
          next_count := by rw [hn.count_eq]; omega
          tail_trails := ⟨cap, by omega, hfull⟩
          next_unread := hspare
          moved_iff := by simp only [Bool.false_eq_true, false_iff]; omega
          next_spare := fun _ => hn }

/-- In every state `push` of the tail is at least as far ahead as anything that
is still to be read from it. -/
theorem ReadBounds.tail_trails (h : ReadBounds io front tail spare) :
    ∃ real, tail.Trails io.bufferPool_.capacity_.bytes real
      ∧ (front = [] → io.readSize_ ≤ real) ∧ (front ≠ [] → real = tail.count ∧ tail.pop = 0) := by
  cases front with
  | nil =>
      obtain ⟨real, ht, hle⟩ := h.ahead rfl
      exact ⟨real, ht, fun _ => hle, fun hne => absurd rfl hne⟩
  | cons c front =>
      obtain ⟨ht, hpop⟩ := h.behind tail (by simp)
      exact ⟨tail.count, ht, fun hnil => absurd hnil (List.cons_ne_nil _ _), fun _ => ⟨rfl, hpop⟩⟩

/-- The buffers when a turn has prepared its `iovec`s, and the kernel has stored
what it likes in them. -/
theorem ReadBounds.of_stored {pool : BufferPool α} (h : ReadBounds io front tail spare)
    (hn : next.Spare io.bufferPool_.capacity_.bytes)
    (hpool : pool.capacity_ = io.bufferPool_.capacity_)
    (howns : pool.Owns (front ++ tail :: [next] ++ io.writeHead_)) (mem mem' : ℕ → α) :
    ReadBounds { io with
      bufferPool_ := pool
      readHead_ := front ++ { tail with buffer := mem } :: [{ next with buffer := mem' }] }
      front { tail with buffer := mem } [{ next with buffer := mem' }] where
  chain := rfl
  tail_addr := h.tail_addr
  bounded := fun b hb => by
    rw [hpool]
    rcases List.mem_append.mp hb with hb | hb
    · exact h.bounded b (List.mem_append_left _ hb)
    · obtain rfl := List.mem_singleton.mp hb
      exact (h.bounded tail (by simp)).store mem
  behind := fun b hb => by
    rw [hpool]
    cases front with
    | nil => exact absurd hb List.not_mem_nil
    | cons c front =>
        rw [List.cons_append, List.tail_cons, List.mem_append, List.mem_singleton] at hb
        rcases hb with hb | rfl
        · exact h.behind b (by simp [hb])
        · have htail := h.behind tail (by simp)
          exact htail.store mem
  size_le := by
    have hsize := h.size_le
    simp only [total_append, total_cons, total_nil] at hsize ⊢
    exact hsize
  ahead := fun hnil => by
    rw [hpool]
    obtain ⟨real, ht, hle⟩ := h.ahead hnil
    exact ⟨real, ht.store mem, hle⟩
  spare_len := le_refl 1
  spare_wf := fun b hb => by
    rw [hpool]
    obtain rfl := List.mem_singleton.mp hb
    exact hn.store mem'
  owned := howns.perm (List.Perm.of_eq (by
    simp only [addrs_append, addrs_cons]))

/-- The buffers after a turn that brought `n` bytes in. -/
theorem ReadBounds.of_fill {tail' next' : Buffer α} {moved : Bool}
    (h : ReadBounds io front tail [next]) (hcap : cap = io.bufferPool_.capacity_.bytes)
    (hsize : front = [] → io.readSize_ ≤ real)
    (hreal : front ≠ [] → real = tail.count ∧ tail.pop = 0)
    (hres : FillBounds cap real n tail next tail' next' moved) :
    ReadSafe { io with
      readHead_ := front ++ tail' :: [next']
      readTail_ := if moved then next'.addr else io.readTail_
      readSize_ := io.readSize_ + n } := by
  subst hcap
  obtain ⟨real', hle, ht⟩ := hres.tail_trails
  have htotal := h.size_le
  have hcount : tail.count ≤ io.bufferPool_.capacity_.bytes := (h.bounded tail (by simp)).count_le
  have hcount' := hres.tail_count
  have hnext' := hres.next_count
  rw [total_append, total_cons, total_nil] at htotal
  have howned : IoBuffers.Owned { io with
      readHead_ := front ++ tail' :: [next']
      readTail_ := if moved then next'.addr else io.readTail_
      readSize_ := io.readSize_ + n } := by
    have := h.owned
    rw [IoBuffers.Owned, h.chain] at this
    refine this.perm (List.Perm.of_eq ?_)
    simp only [addrs_append, addrs_cons, hres.tail_addr, hres.next_addr]
  have hbounded : ∀ b ∈ front ++ [tail'], b.InStorage io.bufferPool_.capacity_.bytes := by
    intro b hb
    rcases List.mem_append.mp hb with hb | hb
    · exact h.bounded b (List.mem_append_left _ hb)
    · exact List.mem_singleton.mp hb ▸ ht.toInStorage
  have hbehind : ∀ b ∈ (front ++ [tail']).tail, b.Unread io.bufferPool_.capacity_.bytes := by
    intro b hb
    cases front with
    | nil => exact absurd hb List.not_mem_nil
    | cons c front =>
        rw [List.cons_append, List.tail_cons, List.mem_append, List.mem_singleton] at hb
        rcases hb with hb | rfl
        · exact h.behind b (by simp [hb])
        · -- a tail behind the head counts what it holds, before and after
          obtain ⟨hr, hpop⟩ := hreal (List.cons_ne_nil _ _)
          have hle' := ht.real_le
          obtain rfl : real' = b.count := by omega
          exact ⟨ht, hres.tail_pop.trans hpop⟩
  cases moved with
  | false =>
      -- the bytes fit into the tail, and the ring behind it stays a spare
      have hnot := hres.moved_iff.not.mp (by decide)
      refine ⟨front, tail', [next'], ?_⟩
      exact
        { chain := rfl
          tail_addr := by
            rw [if_neg Bool.false_ne_true, h.tail_addr, hres.tail_addr]
          bounded := hbounded
          behind := hbehind
          size_le := by
            simp only [total_append, total_cons, total_nil]
            omega
          ahead := fun hnil => by
            have := hsize hnil
            refine ⟨real', ht, ?_⟩
            simp only
            omega
          spare_len := le_refl 1
          spare_wf := fun b hb => List.mem_singleton.mp hb ▸ hres.next_spare rfl
          owned := howned }
  | true =>
      -- the ring behind the tail holds the rest, and is the tail now
      have hmoved := hres.moved_iff.mp rfl
      refine ⟨front ++ [tail'], next', [], ?_⟩
      exact
        { chain := by simp
          tail_addr := rfl
          bounded := fun b hb => by
            rcases List.mem_append.mp hb with hb | hb
            · exact hbounded b hb
            · exact List.mem_singleton.mp hb ▸ hres.next_unread.1.toInStorage
          behind := fun b hb => by
            rw [List.tail_append_of_ne_nil (by simp)] at hb
            rcases List.mem_append.mp hb with hb | hb
            · exact hbehind b hb
            · exact List.mem_singleton.mp hb ▸ hres.next_unread
          size_le := by
            simp only [total_append, total_cons, total_nil]
            omega
          ahead := fun hnil => by simp at hnil
          spare_len := Nat.zero_le _
          spare_wf := fun b hb => absurd hb List.not_mem_nil
          owned := howned }

/-- **The `iovec`s of the next turn of `onRead`** are inside two live rings. -/
theorem onRead.prepare_inside (h : ReadBounds io front tail spare) :
    ∃ t, onRead.prepare io = some t
      ∧ ∀ v ∈ onRead.iov t.readTail t.next, v.Inside [t.readTail, t.next] := by
  obtain ⟨next, pool, hprep, -⟩ :=
    onRead.prepare_of_chain h.chain h.tail_addr h.spare_len h.spare_wf h.owned
  obtain ⟨real, ht, -⟩ := h.tail_trails
  exact ⟨_, hprep, onRead.iov_inside ht next⟩

/-- **A turn of `onRead`**, with any result `readv` can have: it goes through,
and leaves a chain of the same kind. -/
theorem onRead.turn_bounds (h : ReadBounds io front tail spare) {result : Readv α}
    (hfits : result.Fits (onRead.room io)) :
    ∃ r, onRead.turn io result = some r ∧ ReadSafe r.1 := by
  obtain ⟨cap, hc⟩ : ∃ cap, cap = io.bufferPool_.capacity_.bytes := ⟨_, rfl⟩
  have hcap : cap < 2 ^ 31 := hc ▸ io.bufferPool_.capacity_.lt
  obtain ⟨next, pool, hprep, hn, hpool, howns⟩ :=
    onRead.prepare_of_chain h.chain h.tail_addr h.spare_len h.spare_wf h.owned
  obtain ⟨real, ht, hsize, hreal⟩ := h.tail_trails
  have hstored := h.of_stored hn hpool howns
  rw [← hc] at ht hn
  rw [onRead.room, hprep] at hfits
  rw [onRead.turn, hprep]
  cases result with
  | error => exact ⟨_, rfl, _, _, _, hstored tail.buffer next.buffer⟩
  | data bytes =>
      have hne : tail.addr ≠ next.addr := by
        have hnd := (List.nodup_append.mp howns.nodup).2.1
        simp only [List.append_assoc, addrs_append, List.cons_append, addrs_cons] at hnd
        have := (List.nodup_append.mp hnd).2.1
        simp only [List.nodup_cons, List.mem_cons, not_or] at this
        exact this.1.1
      obtain ⟨mem, mem', hreadv⟩ := readv_inside hne (onRead.iov_inside ht next) hfits
      have hsafe := hstored mem mem'
      simp only [Option.bind_eq_bind, Option.bind_some, hreadv, onRead.finish]
      refine ⟨_, rfl, ?_⟩
      by_cases heof : bytes.length = 0
      · rw [if_pos heof]
        exact ⟨_, _, _, hsafe⟩
      · rw [if_neg heof]
        have hroom : u32 (cap - tail.count + next.capacity) = cap - tail.count + cap := by
          rw [hn.capacity_eq]
          exact u32_of_lt (by omega)
        rw [ht.free, hroom]
        by_cases hover : bytes.length > cap - tail.count + cap
        · rw [if_pos hover]
          exact ⟨_, _, _, hsafe⟩
        · -- the bytes are counted
          rw [if_neg hover]
          obtain ⟨tail', next', moved, hfill, hres⟩ :=
            onRead.fill_bounds (ht.store mem) (hn.store mem') hcap (not_lt.mp hover)
          simp only [hfill]
          exact hsafe.of_fill (by simp only [hpool, hc]) hsize hreal hres

end Turn

end Libiak.Net
