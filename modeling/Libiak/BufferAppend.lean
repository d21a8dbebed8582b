/-
Appending to the two chains, from what their rings look like alone.

`WriteShape` and `ReadShape` describe the chains of a connection in a run: only
the head has been read or written from, and the sizes kept beside the chains are
right. `writeData` and `onRead` need none of that to append. What they need is
that every ring is sound by itself: its cursors are inside the storage and
`push` is where its live bytes end, up to whole laps (`Buffer.Cyclic`), and for
`onRead`, which tells a full ring from an empty one by its cursors, that `pop` is
below the capacity and an empty ring has both cursors at the start
(`Buffer.CyclicRead`). Both keep what they need, for every tail (empty, wrapped,
full, `push` at the capacity) and wherever the bytes end.

The rings of a chain are different ones that the pool has handed out
(`BufferPool.Issued`); this is what makes a ring just taken a new one.
-/
import Libiak.ReadFifo
import Libiak.WriteStream

set_option autoImplicit false

namespace Libiak.Net

open Libiak.Window

variable {α : Type*}

/-! ## Rings -/

/-- `b'` has the live bytes of `b` where `b` has them. -/
structure Buffer.Keeps (b b' : Buffer α) : Prop where
  addr_eq : b'.addr = b.addr
  capacity_eq : b'.capacity = b.capacity
  pop_eq : b'.pop = b.pop
  count_le : b.count ≤ b'.count
  mem_eq : ∀ i < b.count,
    b'.buffer ((b.pop + i) % b.capacity) = b.buffer ((b.pop + i) % b.capacity)

theorem Buffer.Keeps.refl (b : Buffer α) : b.Keeps b := ⟨rfl, rfl, rfl, le_refl _, fun _ _ => rfl⟩

/-- A ring whose bytes are those of `b` and then others, from the same position
on, has overwritten none of them. -/
theorem Buffer.keeps_of_live {b b' : Buffer α} {ys : List α} (haddr : b'.addr = b.addr)
    (hcap : b'.capacity = b.capacity) (hpop : b'.pop = b.pop) (hlive : b'.live = b.live ++ ys) :
    b.Keeps b' where
  addr_eq := haddr
  capacity_eq := hcap
  pop_eq := hpop
  count_le := by
    rw [← b'.length_live, hlive, List.length_append, b.length_live]
    omega
  mem_eq := by
    intro i hi
    have hi' : i < b'.count := by
      rw [← b'.length_live, hlive, List.length_append, b.length_live]
      omega
    have hget : b'.live[i]? = b.live[i]? := by
      rw [hlive, List.getElem?_append_left (by rwa [b.length_live])]
    rw [Buffer.live, Buffer.live, getElem?_window _ _ _ hi', getElem?_window _ _ _ hi, hpop, hcap,
      Option.some.injEq] at hget
    exact hget

/-- The rings of a chain are different ones, and the pool has handed them out. -/
structure BufferPool.Issued (pool : BufferPool α) (chain : List (Buffer α)) : Prop where
  nodup : (addrs chain).Nodup
  lt : ∀ a ∈ addrs chain, a < pool.taken

namespace BufferPool.Issued

variable {pool pool' : BufferPool α} {chain front rest rings : List (Buffer α)} {b : Buffer α}

theorem addr_notMem (h : pool.Issued (front ++ b :: rest)) : b.addr ∉ addrs front := by
  have hnd := h.nodup
  rw [addrs_append, addrs_cons] at hnd
  intro hmem
  exact (List.nodup_append.mp hnd).2.2 _ hmem _ (List.mem_cons_self ..) rfl

/-- The rings taken next are new ones. -/
theorem append (h : pool.Issued chain)
    (hrings : addrs rings = List.range' pool.taken rings.length)
    (htaken : pool'.taken = pool.taken + rings.length) : pool'.Issued (chain ++ rings) where
  nodup := by
    rw [addrs_append, hrings]
    refine List.nodup_append.mpr ⟨h.nodup, List.nodup_range', fun a ha c hc heq => ?_⟩
    have hlt := h.lt a ha
    have hge := (List.mem_range'_1.mp hc).1
    omega
  lt := by
    intro a ha
    rw [addrs_append, hrings, List.mem_append] at ha
    rcases ha with ha | ha
    · have hlt := h.lt a ha
      omega
    · rw [htaken]
      exact (List.mem_range'_1.mp ha).2

/-- What the rings hold does not matter. -/
theorem congr (h : pool.Issued chain) {chain' : List (Buffer α)}
    (haddrs : addrs chain' = addrs chain) : pool.Issued chain' := by
  constructor
  · rw [haddrs]
    exact h.nodup
  · rw [haddrs]
    exact h.lt

end BufferPool.Issued

/-- Rings that are owned have been handed out. -/
theorem BufferPool.Owns.issued {pool : BufferPool α} {front chain rest : List (Buffer α)}
    (h : pool.Owns (front ++ chain ++ rest)) : pool.Issued chain where
  nodup := by
    have hnd := (List.nodup_append.mp h.nodup).2.1
    rw [addrs_append, addrs_append] at hnd
    exact (List.nodup_append.mp (List.nodup_append.mp hnd).1).2.1
  lt := by
    intro a ha
    have hmem : a ∈ pool.freed ++ addrs (front ++ chain ++ rest) := by
      rw [addrs_append, addrs_append]
      simp only [List.mem_append, ha, or_true, true_or]
    exact List.mem_range.mp (h.subset hmem)

/-! ## The write chain -/

/-- A write chain that can be appended to: every ring is sound by itself, and
`writeTail_` is the last one. -/
structure WriteChain (io : IoBuffers α) : Prop where
  last : (addrs io.writeHead_).getLast? = some io.writeTail_
  ring : ∀ b ∈ io.writeHead_, b.Cyclic
  capacity_lt : ∀ b ∈ io.writeHead_, b.capacity < 2 ^ 32
  issued : io.bufferPool_.Issued io.writeHead_

/-- The write chain of a run is such a chain. -/
theorem WriteShape.writeChain {io : IoBuffers α} (h : WriteShape io) : WriteChain io where
  last := h.last
  ring := fun b hb => (h.wf b hb).cyclic
  capacity_lt := by
    intro b hb
    have hlt := io.bufferPool_.capacity_.lt
    rw [(h.wf b hb).capacity_eq]
    omega
  issued := by
    have howned := h.owned
    rw [IoBuffers.Owned, ← List.append_nil (io.readHead_ ++ io.writeHead_)] at howned
    exact howned.issued

/-- The loop of `writeData` takes as many rings as it chains. -/
theorem writeData.fill_addrs {pool : BufferPool α} {buffer : List α} {rearsize : ℕ}
    {r : List (Buffer α) × BufferPool α} (h : writeData.fill pool buffer rearsize = some r) :
    addrs r.1 = List.range' pool.taken r.1.length ∧ r.2.taken = pool.taken + r.1.length := by
  induction rearsize using Nat.strong_induction_on generalizing pool buffer r with
  | _ rearsize ih =>
      rw [writeData.fill] at h
      have hpos : 0 < pool.take.1.capacity := pool.capacity_.pos
      have haddr : pool.take.1.addr = pool.taken := rfl
      have htaken : pool.take.2.taken = pool.taken + 1 := rfl
      by_cases h0 : 0 < rearsize
      · rw [if_pos h0] at h
        simp only at h
        by_cases hmore : pool.take.1.capacity < rearsize
        · -- a full ring, and those of the turns after it
          rw [if_pos hmore] at h
          obtain ⟨x, -, h⟩ := Option.bind_eq_some_iff.mp h
          obtain ⟨ring, hring, h⟩ := Option.bind_eq_some_iff.mp h
          obtain ⟨r', hfill, h⟩ := Option.bind_eq_some_iff.mp h
          obtain ⟨haddrs, hcount⟩ := ih _ (by omega) hfill
          obtain rfl := Option.some.inj h
          simp only [addrs_cons, haddrs, hcount, Buffer.memcpyIn_addr hring, haddr, htaken,
            List.length_cons, List.range'_succ, true_and]
          omega
        · rw [if_neg hmore] at h
          obtain ⟨x, -, h⟩ := Option.bind_eq_some_iff.mp h
          obtain ⟨ring, hring, h⟩ := Option.bind_eq_some_iff.mp h
          obtain rfl := Option.some.inj h
          simp only [addrs_cons, addrs_nil, Buffer.memcpyIn_addr hring]
          exact ⟨rfl, rfl⟩
      · rw [if_neg h0] at h
        obtain rfl := Option.some.inj h
        exact ⟨rfl, rfl⟩

section Data

variable {io : IoBuffers α} {xs : List α} {b : Buffer α}

/-- A tail ring the data stayed inside of. -/
theorem Buffer.Cyclic.pushed (h : b.Cyclic) (mem : ℕ → α) {push n : ℕ}
    (hfit : b.count + n ≤ b.capacity) (hle : push ≤ b.capacity)
    (hpush : push = b.push + n ∨ push + b.capacity = b.push + n) :
    Buffer.Cyclic { b with buffer := mem, push := push, count := b.count + n } where
  count_le := hfit
  push_le := hle
  pop_le := h.pop_le
  push_mod := by
    have hmod : b.push + n ≡ b.pop + (b.count + n) [MOD b.capacity] := by
      rw [← Nat.add_assoc]
      exact h.push_mod.add_right n
    rcases hpush with rfl | hpush
    · exact hmod
    · refine Nat.ModEq.trans ?_ hmod
      rw [← hpush]
      exact Nat.add_modEq_right.symm

/-- A tail ring the data has filled. -/
theorem Buffer.Cyclic.filled (h : b.Cyclic) (mem : ℕ → α) :
    Buffer.Cyclic { b with buffer := mem, push := b.pop, count := b.capacity } where
  count_le := le_refl _
  push_le := h.pop_le
  pop_le := h.pop_le
  push_mod := Nat.add_modEq_right.symm

/-- The chain after `writeData`: the tail ring is now `ring`, which has kept its
live bytes, and `rings` follow it. -/
theorem WriteChain.of_append {front rings : List (Buffer α)} {tail ring : Buffer α}
    {pool' : BufferPool α} {bytes : List α} (h : WriteChain io)
    (hchain : io.writeHead_ = front ++ [tail]) (hkeeps : tail.Keeps ring) (hring : ring.Cyclic)
    (hfill : FillRings io.bufferPool_ bytes rings pool')
    (haddrs : addrs rings = List.range' io.bufferPool_.taken rings.length)
    (htaken : pool'.taken = io.bufferPool_.taken + rings.length) (m : ℕ) :
    WriteChain { io with
      bufferPool_ := pool'
      writeHead_ := front ++ ring :: if rings.isEmpty then [] else rings
      writeTail_ := (rings.getLast?.map Buffer.addr).getD io.writeTail_
      writeSize_ := m } := by
  have haddr : addrs (front ++ [ring]) = addrs io.writeHead_ := by
    rw [hchain, addrs_append, addrs_append, addrs_cons, addrs_cons, hkeeps.addr_eq]
  have htail := h.last
  rw [← haddr, addrs_append, addrs_cons, addrs_nil, List.getLast?_concat, Option.some.injEq]
    at htail
  have hmem : ∀ b ∈ front ++ [tail], b ∈ io.writeHead_ := fun b hb => by rwa [hchain]
  rw [chain_rings]
  exact
    { last := by
        rw [addrs_append, addrs_cons, List.getLast?_append, List.getLast?_cons, addrs,
          List.getLast?_map, Option.some_or, htail]
      ring := fun b hb => by
        rcases List.mem_append.mp hb with hb | hb
        · exact h.ring b (hmem b (List.mem_append_left _ hb))
        · rcases List.mem_cons.mp hb with rfl | hb
          · exact hring
          · exact (hfill.wf b hb).1.cyclic
      capacity_lt := fun b hb => by
        rcases List.mem_append.mp hb with hb | hb
        · exact h.capacity_lt b (hmem b (List.mem_append_left _ hb))
        · rcases List.mem_cons.mp hb with rfl | hb
          · rw [hkeeps.capacity_eq]
            exact h.capacity_lt tail (hmem tail (by simp))
          · have hlt := io.bufferPool_.capacity_.lt
            rw [(hfill.wf b hb).1.capacity_eq]
            omega
      issued := by
        have hissued := (h.issued.congr haddr).append haddrs htaken
        rwa [List.append_assoc] at hissued }

/-- **`writeData` appends.** For every write chain of sound rings, whatever
their cursors, that ends with `writeTail_`, and all data whose size is not `0`
and fits 32 bits: the content afterwards is the content before followed by the
data, `writeSize_` has grown by its size, the chain is such a chain again, and
the rings that were in it still have every live byte where it was. -/
theorem writeData_appends (h : WriteChain io) (h0 : 1 ≤ xs.length) (h32 : xs.length < 2 ^ 32) :
    ∃ io', writeData io true xs = some (true, io') ∧ WriteChain io'
      ∧ content io'.writeHead_ = content io.writeHead_ ++ xs
      ∧ io'.writeSize_ = io.writeSize_ + xs.length
      ∧ ∃ kept fresh, io'.writeHead_ = kept ++ fresh
        ∧ List.Forall₂ Buffer.Keeps io.writeHead_ kept := by
  obtain ⟨front, tail, hchain, -, hsplit⟩ := splitAt_last h.last h.issued.nodup
  have ht : tail.Cyclic := h.ring tail (by simp [hchain])
  have ht32 : tail.capacity < 2 ^ 32 := h.capacity_lt tail (by simp [hchain])
  have hcount := ht.count_le
  have hroom : u32Sub tail.capacity tail.count = tail.capacity - tail.count := u32Sub_of_le hcount
  have hguard : (!true || decide (xs.length = 0)) = false := by
    simp only [Bool.not_true, Bool.false_or, decide_eq_false_iff_not]
    omega
  have hkept : ∀ ring, tail.Keeps ring →
      List.Forall₂ Buffer.Keeps io.writeHead_ (front ++ [ring]) := by
    intro ring hkeeps
    rw [hchain]
    exact List.rel_append (List.forall₂_same.mpr fun b _ => Buffer.Keeps.refl b)
      (List.Forall₂.cons hkeeps List.Forall₂.nil)
  simp only [writeData, hguard, Bool.false_eq_true, if_false, hsplit, hroom, Option.bind_eq_bind,
    Option.bind_some]
  by_cases hlt : xs.length < tail.capacity - tail.count
  · -- the data stays inside the tail ring
    obtain ⟨mem, push, hin, hle, hpush, hwin⟩ := writeData.inTail_eq ht ht32 hlt
    have hkeeps : tail.Keeps { tail with
        buffer := mem, push := push, count := tail.count + xs.length } :=
      Buffer.keeps_of_live rfl rfl rfl hwin
    rw [if_pos hlt, hin]
    refine ⟨_, rfl, ?_, ?_, rfl, front ++ [_], [], ?_, hkept _ hkeeps⟩
    · exact h.of_append hchain hkeeps (ht.pushed mem (by omega) hle hpush)
        (FillRings.nil io.bufferPool_) rfl rfl (io.writeSize_ + xs.length)
    · rw [hchain, content_append, content_append, content_cons, content_cons, content_nil,
        List.append_nil, List.append_nil, List.append_assoc]
      exact congrArg (content front ++ ·) hwin
    · rw [List.append_nil]
  · -- the tail ring is filled, and the rest goes to new rings
    have hge : tail.capacity - tail.count ≤ xs.length := not_lt.mp hlt
    obtain ⟨ring, htop, hring, hlive⟩ := writeData.topUp_eq ht hge
    have hall : writeData.rearsize xs.length (tail.capacity - tail.count)
        = (xs.drop (tail.capacity - tail.count)).length := by
      rw [List.length_drop]
      exact (writeData.rearsize_le hge (by omega)).2.mpr (by omega)
    obtain ⟨rings, pool', hfill, hres⟩ := writeData.fill_spec io.bufferPool_ _ (le_of_eq hall)
    obtain ⟨haddrs, htaken⟩ := writeData.fill_addrs hfill
    have hkeeps : tail.Keeps ring := by
      rcases hring with rfl | ⟨mem, rfl⟩
      · exact Buffer.Keeps.refl _
      · exact Buffer.keeps_of_live rfl rfl rfl hlive
    have hcyclic : ring.Cyclic := by
      rcases hring with rfl | ⟨mem, rfl⟩
      · exact ht
      · exact ht.filled mem
    rw [if_neg hlt, htop]
    simp only [Option.bind_some, hfill]
    refine ⟨_, rfl, ?_, ?_, rfl, front ++ [ring], rings, ?_, hkept ring hkeeps⟩
    · exact h.of_append hchain hkeeps hcyclic hres haddrs htaken (io.writeSize_ + xs.length)
    · rw [chain_rings, hchain, content_append, content_append, content_cons, content_cons,
        content_nil, List.append_nil, hlive, hres.content_eq, hall, List.take_length,
        List.append_assoc, List.append_assoc, List.take_append_drop]
    · rw [chain_rings, List.append_assoc, List.singleton_append]

end Data

/-- A connection each of whose two chains is one ring of four bytes, with two
live bytes that go round the end of its storage. -/
def wrappedRings : IoBuffers ℕ where
  bufferPool_ := ⟨⟨4, by decide, by decide⟩, fun _ _ => 0, 2, []⟩
  readHead_ := [⟨0, id, 4, 2, 1, 3⟩]
  readTail_ := 0
  readSize_ := 2
  writeHead_ := [⟨1, id, 4, 2, 1, 3⟩]
  writeTail_ := 1
  writeSize_ := 2

/-- Seven bytes fill the ring and one more, and begin a third. -/
theorem writeData_appends_wrapped :
    ∃ io', writeData wrappedRings true [10, 11, 12, 13, 14, 15, 16] = some (true, io')
      ∧ WriteChain io'
      ∧ content io'.writeHead_ = [3, 0] ++ [10, 11, 12, 13, 14, 15, 16]
      ∧ io'.writeSize_ = 9
      ∧ ∃ kept fresh, io'.writeHead_ = kept ++ fresh
        ∧ List.Forall₂ Buffer.Keeps wrappedRings.writeHead_ kept := by
  refine writeData_appends ⟨rfl, fun b hb => ?_, fun b hb => ?_, by decide, by decide⟩
    (by decide) (by decide)
  · obtain rfl := List.mem_singleton.mp hb
    exact ⟨by decide, by decide, by decide, rfl⟩
  · obtain rfl := List.mem_singleton.mp hb
    decide

/-! ## What `onRead` offers the kernel -/

/-- A byte of a ring's storage that holds no live byte. -/
def Buffer.Free (b : Buffer α) (i : ℕ) : Prop :=
  i < b.capacity ∧ ∀ j < b.count, (b.pop + j) % b.capacity ≠ i

/-- The bytes of storage an array of `iovec`s names, in the order the kernel
fills them. -/
def positions (iov : List Iovec) : List (ℕ × ℕ) :=
  iov.flatMap fun v => (span id v.off v.len).map (v.base, ·)

@[simp] theorem positions_nil : positions [] = [] := rfl

@[simp] theorem positions_cons (v : Iovec) (iov : List Iovec) :
    positions (v :: iov) = (span id v.off v.len).map (v.base, ·) ++ positions iov := rfl

@[simp] theorem positions_append (iov iov' : List Iovec) :
    positions (iov ++ iov') = positions iov ++ positions iov' := List.flatMap_append

/-- A ring `onRead` can append to: `pop` is below the capacity, and an empty ring
has both cursors at the start. -/
structure Buffer.CyclicRead (b : Buffer α) : Prop extends b.Cyclic where
  pop_lt : b.pop < b.capacity
  empty : b.count = 0 → b.push = 0 ∧ b.pop = 0

/-- The two cases in which equal cursors could be misread are excluded, so that
the relation of the cursors can be said without dividing. -/
theorem Buffer.CyclicRead.wfRead {b : Buffer α} (h : b.CyclicRead) : b.WfRead b.capacity where
  capacity_eq := rfl
  count_le := h.count_le
  push_le := h.push_le
  pop_le := h.pop_le
  linked := by
    have hcount := h.count_le
    have hpush := h.push_le
    have hpop := h.pop_lt
    have hempty := h.empty
    have hmod : b.push % b.capacity = (b.pop + b.count) % b.capacity := h.push_mod
    obtain ⟨-, hend⟩ := mod_cases (b.pop + b.count) b.capacity (by omega)
    obtain ⟨-, hpush'⟩ := mod_cases b.push b.capacity (by omega)
    omega
  pop_lt := h.pop_lt
  empty := h.empty

theorem Buffer.WfRead.cyclicRead {cap : ℕ} {b : Buffer α} (h : b.WfRead cap) : b.CyclicRead := by
  obtain rfl := h.capacity_eq
  exact ⟨h.toWf.cyclic, h.pop_lt, h.empty⟩

section Offer

variable {tail next : Buffer α}

/-- **The free space of the tail ring** is offered in the order of the ring, from
`push` on. -/
theorem onRead.positions_tailIov (ht : tail.CyclicRead) :
    positions (onRead.tailIov tail)
      = (window id tail.capacity tail.push (tail.capacity - tail.count)).map (tail.addr, ·) := by
  have hwf := ht.wfRead
  have hcount := hwf.count_le
  have hpush := hwf.push_le
  have hpop := hwf.pop_lt
  have hlinked := hwf.linked
  have hempty := hwf.empty
  have hrear : u32Sub tail.capacity tail.count = tail.capacity - tail.count := u32Sub_of_le hcount
  have hend : u32Sub tail.capacity tail.push = tail.capacity - tail.push := u32Sub_of_le hpush
  simp only [onRead.tailIov, hrear, hend]
  split_ifs with hfree hlt hz
  · -- one piece, between `push` and `pop`
    rw [window_eq_span _ (by omega)]
    simp only [positions_cons, positions_nil, List.append_nil]
  · -- two pieces, round the end of the storage
    have hrest : tail.capacity - tail.count - (tail.capacity - tail.push) = tail.pop := by omega
    rw [window_wrap _ hpush (by omega) (by omega), hrest]
    simp only [positions_cons, positions_nil, List.append_nil, List.map_append]
  · -- one piece, up to the end of the storage
    have hsame : tail.capacity - tail.count = tail.capacity - tail.push := by omega
    rw [hsame, window_eq_span _ (by omega)]
    simp only [positions_cons, positions_nil, List.append_nil]
  · -- nothing, where the ring is full
    have hzero : tail.capacity - tail.count = 0 := by omega
    rw [hzero]
    rfl

/-- What `onRead` offers is what it can fill: the `iovec`s have room for as many
bytes as the tail ring and the ring behind it have free, every byte they name is
a free one of the two, and none is named twice. -/
structure OffersFree (tail next : Buffer α) (iov : List Iovec) : Prop where
  total_eq : offered iov = (tail.capacity - tail.count) + next.capacity
  free : ∀ p ∈ positions iov, p.1 = tail.addr ∧ tail.Free p.2 ∨ p.1 = next.addr ∧ next.Free p.2
  nodup : (positions iov).Nodup

/-- The bytes from `push` on, as many as are not live, are free. -/
theorem Buffer.Cyclic.free_of_mem {i : ℕ} (h : tail.Cyclic)
    (hi : i ∈ window id tail.capacity tail.push (tail.capacity - tail.count)) : tail.Free i := by
  obtain ⟨k, hk, rfl⟩ := List.mem_map.mp hi
  rw [List.mem_range] at hk
  refine ⟨Nat.mod_lt _ (by omega), fun j hj heq => ?_⟩
  -- the byte after the live ones is `count` places behind `pop`
  have hmod : tail.pop + j ≡ tail.pop + (tail.count + k) [MOD tail.capacity] := by
    rw [← Nat.add_assoc]
    exact Nat.ModEq.trans heq (h.push_mod.add_right k)
  have hcount := h.count_le
  have heq' := (Nat.ModEq.add_left_cancel' _ hmod).eq_of_lt_of_lt (by omega) (by omega)
  omega

theorem onRead.offersFree {cap : ℕ} (ht : tail.CyclicRead) (hcap : tail.capacity = cap)
    (hn : next.Spare cap) (hlt : cap < 2 ^ 31) (hne : tail.addr ≠ next.addr) :
    OffersFree tail next (onRead.iov tail next) where
  total_eq := by
    subst hcap
    rw [offered_iov ht.wfRead hn hlt, hn.capacity_eq]
  free := by
    intro p hp
    rw [onRead.iov, positions_append, onRead.positions_tailIov ht, List.mem_append] at hp
    rcases hp with hp | hp
    · obtain ⟨i, hi, rfl⟩ := List.mem_map.mp hp
      exact Or.inl ⟨rfl, ht.free_of_mem hi⟩
    · simp only [positions_cons, positions_nil, List.append_nil] at hp
      obtain ⟨i, hi, rfl⟩ := List.mem_map.mp hp
      obtain ⟨k, hk, rfl⟩ := List.mem_map.mp hi
      refine Or.inr ⟨rfl, ?_, fun j hj => ?_⟩
      · have hk' := List.mem_range.mp hk
        simp only [id_eq]
        omega
      · rw [hn.count_eq] at hj
        exact absurd hj (Nat.not_lt_zero j)
  nodup := by
    have hpair : ∀ a : ℕ, Function.Injective fun i : ℕ => (a, i) := fun a i j h =>
      (Prod.mk.inj h).2
    have hnext := window_eq_span (id : ℕ → ℕ) (show 0 + next.capacity ≤ next.capacity by omega)
    rw [onRead.iov, positions_append, onRead.positions_tailIov ht]
    simp only [positions_cons, positions_nil, List.append_nil]
    refine List.nodup_append.mpr ⟨(window_nodup (by omega)).map (hpair _), ?_, ?_⟩
    · rw [← hnext]
      exact (window_nodup (le_refl _)).map (hpair _)
    · intro p hp q hq heq
      obtain ⟨i, -, rfl⟩ := List.mem_map.mp hp
      obtain ⟨j, -, rfl⟩ := List.mem_map.mp hq
      exact hne (Prod.mk.inj heq).1

end Offer

/-! ## The read chain -/

/-- A read chain that can be appended to: the rings in use are `front` and then
`tail`, every ring is sound by itself, and at most one empty spare follows. -/
structure ReadRings (io : IoBuffers α) (front : List (Buffer α)) (tail : Buffer α)
    (spare : List (Buffer α)) : Prop where
  chain : io.readHead_ = front ++ tail :: spare
  tail_addr : io.readTail_ = tail.addr
  ring : ∀ b ∈ io.readHead_, b.CyclicRead
  capacity_eq : ∀ b ∈ io.readHead_, b.capacity = io.bufferPool_.capacity_.bytes
  spare_len : spare.length ≤ 1
  spare_empty : ∀ b ∈ spare, b.count = 0
  issued : io.bufferPool_.Issued io.readHead_

def ReadChain (io : IoBuffers α) : Prop := ∃ front tail spare, ReadRings io front tail spare

/-- The read chain of a run is such a chain. -/
theorem ReadShape.readRings {io : IoBuffers α} {front spare : List (Buffer α)} {tail : Buffer α}
    (h : ReadShape io front tail spare) : ReadRings io front tail spare where
  chain := h.chain
  tail_addr := h.tail_addr
  ring := by
    intro b hb
    rw [h.chain, List.append_cons] at hb
    rcases List.mem_append.mp hb with hb | hb
    · exact (h.wf b hb).cyclicRead
    · exact ((h.spare_wf b hb).wfRead io.bufferPool_.capacity_.pos).cyclicRead
  capacity_eq := by
    intro b hb
    rw [h.chain, List.append_cons] at hb
    rcases List.mem_append.mp hb with hb | hb
    · exact (h.wf b hb).capacity_eq
    · exact (h.spare_wf b hb).capacity_eq
  spare_len := h.spare_len
  spare_empty := fun b hb => (h.spare_wf b hb).count_eq
  issued := by
    have howned := h.owned
    rw [IoBuffers.Owned, ← List.nil_append io.readHead_] at howned
    exact howned.issued

section Turn

variable {io : IoBuffers α} {front spare : List (Buffer α)} {tail next : Buffer α}

/-- The part of a turn before `readv`: the ring behind the tail is empty, whether
it was there or has just been taken. -/
theorem ReadRings.prepare (h : ReadRings io front tail spare) :
    ∃ next pool, onRead.prepare io = some ⟨front, tail, next, [], pool⟩
      ∧ next.Spare io.bufferPool_.capacity_.bytes ∧ pool.capacity_ = io.bufferPool_.capacity_
      ∧ pool.Issued (front ++ [tail, next])
      ∧ content io.readHead_ = content (front ++ [tail]) := by
  have hchain := h.chain
  have hissued := h.issued
  rw [hchain] at hissued
  have hsplit : splitAt io.readTail_ io.readHead_ = some (front, tail, spare) := by
    rw [hchain, h.tail_addr, splitAt_append hissued.addr_notMem]
  obtain ⟨next, pool, hprep, hcases⟩ := onRead.prepare_of_split hsplit h.spare_len
  refine ⟨next, pool, hprep, ?_⟩
  rcases hcases with ⟨rfl, rfl⟩ | ⟨rfl, rfl, rfl⟩
  · -- the spare ring that was there
    have hmem : next ∈ io.readHead_ := by simp [hchain]
    have hzero := h.spare_empty next (List.mem_singleton_self next)
    obtain ⟨hpush, hpop⟩ := (h.ring next hmem).empty hzero
    refine ⟨⟨h.capacity_eq next hmem, hzero, hpush, hpop⟩, rfl, hissued, ?_⟩
    rw [hchain, List.append_cons, content_append, content_cons, content_nil, List.append_nil,
      Buffer.live, hzero, window_zero, List.append_nil]
  · -- a ring just taken
    have htake : io.bufferPool_.take.2.Issued (front ++ [tail] ++ [io.bufferPool_.take.1]) :=
      hissued.append rfl rfl
    rw [List.append_assoc] at htake
    exact ⟨io.bufferPool_.take_spare, rfl, htake, by rw [hchain]⟩

/-- The chain after a turn, whether or not the tail has moved to the ring behind
it. -/
theorem ReadRings.of_fill {tail' next' : Buffer α} {moved : Bool} {mem mem' : ℕ → α}
    {pool : BufferPool α} {cap n : ℕ} (h : ReadRings io front tail spare)
    (hcap : cap = io.bufferPool_.capacity_.bytes)
    (hpool : pool.capacity_ = io.bufferPool_.capacity_)
    (hissued : pool.Issued (front ++ [tail, next]))
    (hres : FillResult cap tail next mem mem' n tail' next' moved) (m : ℕ) :
    ReadChain { io with
      bufferPool_ := pool, readHead_ := front ++ [tail', next']
      readTail_ := if moved then next'.addr else io.readTail_
      readSize_ := m } := by
  subst hcap
  have hfront : ∀ b ∈ front, b ∈ io.readHead_ := fun b hb => by
    rw [h.chain]
    exact List.mem_append_left _ hb
  have hring : ∀ b ∈ front ++ [tail', next'],
      b.CyclicRead ∧ b.capacity = io.bufferPool_.capacity_.bytes := by
    intro b hb
    simp only [List.mem_append, List.mem_cons, List.not_mem_nil, or_false] at hb
    rcases hb with hb | rfl | rfl
    · exact ⟨h.ring b (hfront b hb), h.capacity_eq b (hfront b hb)⟩
    · exact ⟨hres.tail_wf.cyclicRead, hres.tail_wf.capacity_eq⟩
    · exact ⟨hres.next_behind.1.cyclicRead, hres.next_behind.1.capacity_eq⟩
  have hissued' : pool.Issued (front ++ [tail', next']) := by
    refine hissued.congr ?_
    simp only [addrs_append, addrs_cons, hres.tail_addr, hres.next_addr]
  cases moved with
  | false =>
      refine ⟨front, tail', [next'], ?_⟩
      exact
        { chain := rfl
          tail_addr := by
            simp only [Bool.false_eq_true, if_false]
            rw [h.tail_addr, hres.tail_addr]
          ring := fun b hb => (hring b hb).1
          capacity_eq := fun b hb => by
            rw [hpool]
            exact (hring b hb).2
          spare_len := le_refl 1
          spare_empty := fun b hb => by
            obtain rfl := List.mem_singleton.mp hb
            exact (hres.next_spare rfl).count_eq
          issued := hissued' }
  | true =>
      refine ⟨front ++ [tail'], next', [], ?_⟩
      exact
        { chain := by simp
          tail_addr := rfl
          ring := fun b hb => (hring b hb).1
          capacity_eq := fun b hb => by
            rw [hpool]
            exact (hring b hb).2
          spare_len := Nat.zero_le 1
          spare_empty := fun b hb => absurd hb List.not_mem_nil
          issued := hissued' }

/-- **`onRead` appends exactly what was received.** For every read chain of sound
rings with at most one empty spare behind `readTail_`, a turn offers the kernel
exactly the free space of the tail ring and the ring behind it, and whatever
bytes the kernel puts there, from one to as many as were offered: the content
afterwards is the content before followed by these bytes, `readSize_` has grown
by their number, and the chain is such a chain again. -/
theorem onRead_appends (h : ReadChain io) :
    ∃ t, onRead.prepare io = some t
      ∧ OffersFree t.readTail t.next (onRead.iov t.readTail t.next)
      ∧ t.readTail.addr = io.readTail_ ∧ t.readTail ∈ io.readHead_ ∧ t.next.count = 0
      ∧ ∀ bytes : List α, 1 ≤ bytes.length →
        bytes.length ≤ offered (onRead.iov t.readTail t.next) →
        ∃ io', onRead.turn io (.data bytes) = some (io',
              if bytes.length < offered (onRead.iov t.readTail t.next) then .short bytes.length
              else .full bytes.length)
          ∧ ReadChain io' ∧ content io'.readHead_ = content io.readHead_ ++ bytes
          ∧ io'.readSize_ = io.readSize_ + bytes.length := by
  obtain ⟨front, tail, spare, h⟩ := h
  obtain ⟨cap, hc⟩ : ∃ cap, cap = io.bufferPool_.capacity_.bytes := ⟨_, rfl⟩
  have hlt : cap < 2 ^ 31 := hc ▸ io.bufferPool_.capacity_.lt
  have hmem : tail ∈ io.readHead_ := by simp [h.chain]
  have ht := h.ring tail hmem
  have htcap : tail.capacity = cap := hc ▸ h.capacity_eq tail hmem
  have htwf : tail.WfRead cap := htcap ▸ ht.wfRead
  obtain ⟨next, pool, hprep, hn, hpool, hissued, hcontent⟩ := h.prepare
  rw [← hc] at hn
  have hne : tail.addr ≠ next.addr := by
    have hnd := hissued.nodup
    rw [addrs_append] at hnd
    have hpair := (List.nodup_append.mp hnd).2.1
    simp only [addrs_cons, addrs_nil, List.nodup_cons, List.mem_singleton] at hpair
    exact hpair.1
  have hoffer := onRead.offersFree ht htcap hn hlt hne
  have htotal := hoffer.total_eq
  rw [htcap, hn.capacity_eq] at htotal
  refine ⟨_, hprep, hoffer, h.tail_addr.symm, hmem, hn.count_eq, fun bytes h0 hlen => ?_⟩
  simp only [htotal] at hlen ⊢
  obtain ⟨mem, mem', tail', next', moved, hturn, hres, hlive, hlive'⟩ :=
    onRead.turn_rings hprep htwf hn hlt hne h0 hlen
  refine ⟨_, hturn, h.of_fill hc hpool hissued hres _, ?_, rfl⟩
  -- the two rings hold the old bytes of the tail and the new ones
  rw [hcontent]
  simp only [content_append, content_cons, content_nil, List.append_nil, hlive, hlive']
  rw [List.append_assoc, List.append_assoc, List.take_append_drop]

/-- One to six bytes, into the two free bytes of the ring and a ring just taken. -/
theorem onRead_appends_wrapped :
    ∃ t, onRead.prepare wrappedRings = some t
      ∧ OffersFree t.readTail t.next (onRead.iov t.readTail t.next)
      ∧ t.readTail.addr = wrappedRings.readTail_ ∧ t.readTail ∈ wrappedRings.readHead_
      ∧ t.next.count = 0
      ∧ ∀ bytes : List ℕ, 1 ≤ bytes.length →
        bytes.length ≤ offered (onRead.iov t.readTail t.next) →
        ∃ io', onRead.turn wrappedRings (.data bytes) = some (io',
              if bytes.length < offered (onRead.iov t.readTail t.next) then .short bytes.length
              else .full bytes.length)
          ∧ ReadChain io' ∧ content io'.readHead_ = [3, 0] ++ bytes
          ∧ io'.readSize_ = 2 + bytes.length := by
  refine onRead_appends ⟨[], ⟨0, id, 4, 2, 1, 3⟩, [], rfl, rfl, fun b hb => ?_, fun b hb => ?_,
    by decide, by decide, by decide, by decide⟩
  · obtain rfl := List.mem_singleton.mp hb
    exact ⟨⟨by decide, by decide, by decide, rfl⟩, by decide, by decide⟩
  · obtain rfl := List.mem_singleton.mp hb
    rfl

end Turn

end Libiak.Net
