/-
The write path as a stream, over whole runs.

`writeData` appends to the content of the write chain (`writeData_spec`), and a
turn of `onWrite` drops from its front as many bytes as the kernel reported
(`onWrite.turn_spec`). Both hold for every `writev` result, so the chain itself
is never wrong. The bytes offered are those of the head ring and the ring
behind it exactly when the head ring is not an empty one that still has room
between its cursors and the ends of its storage (`HeadSound`): that is the
equivalence `onWrite.offer_eq_iff`, and what follows from it along runs is
`writeRun_stream_iff`.
-/
import Libiak.WritePath
import Libiak.Run

set_option autoImplicit false

namespace Libiak.Net

open Libiak.Window Libiak.Run

variable {α : Type*}

/-! ## `writeData` -/

section Data

variable {io : IoBuffers α} {xs : List α}

/-- A `writeData` the guard turns away changes nothing. -/
theorem writeData_refused {data : Bool} (h : ¬ (data = true ∧ 0 < xs.length)) :
    writeData io data xs = some (false, io) := by
  rw [writeData, if_pos]
  simp only [Bool.or_eq_true, Bool.not_eq_true', decide_eq_true_eq]
  by_contra hcon
  push Not at hcon
  exact h ⟨by simpa using hcon.1, by omega⟩

/-- The rings behind the tail, of which there may be none. -/
theorem chain_rings (rings : List (Buffer α)) :
    (if rings.isEmpty then [] else rings) = rings := by
  cases rings <;> rfl

/-- The chain after `writeData`: the tail ring is now `ring`, and `rings`
follow it. -/
theorem WriteShape.of_append {front rings : List (Buffer α)} {tail ring : Buffer α}
    {pool' : BufferPool α} {bytes : List α} (h : WriteShape io)
    (hchain : io.writeHead_ = front ++ [tail]) (htail : tail.addr = io.writeTail_)
    (haddr : ring.addr = tail.addr) (hpop : ring.pop = tail.pop)
    (hring : ring.WfWrite io.bufferPool_.capacity_.bytes)
    (hfill : FillRings io.bufferPool_ bytes rings pool') (m : ℕ) :
    WriteShape { io with
      bufferPool_ := pool'
      writeHead_ := front ++ ring :: if rings.isEmpty then [] else rings
      writeTail_ := (rings.getLast?.map Buffer.addr).getD io.writeTail_
      writeSize_ := m } := by
  have hmem : ∀ b ∈ front, b ∈ io.writeHead_ := fun b hb => by
    rw [hchain]
    exact List.mem_append_left _ hb
  rw [chain_rings]
  exact
    { last := by
        rw [addrs_append, addrs_cons, List.getLast?_append, List.getLast?_cons, addrs,
          List.getLast?_map, Option.some_or, haddr, htail]
      wf := fun b hb => by
        simp only [hfill.capacity_eq]
        rcases List.mem_append.mp hb with hb | hb
        · exact h.wf b (hmem b hb)
        · rcases List.mem_cons.mp hb with rfl | hb
          · exact hring
          · exact (hfill.wf b hb).1
      -- the tail ring keeps its `pop`, and the new ones have none
      behind := fun b hb => by
        have hb' : b ∈ (front ++ [ring]).tail ++ rings := by
          rwa [← List.tail_append_of_ne_nil (by simp), List.append_assoc]
        rcases List.mem_append.mp hb' with hb' | hb'
        · have hbehind := h.behind
          rw [hchain] at hbehind
          cases front with
          | nil => simp at hb'
          | cons c front =>
              simp only [List.cons_append, List.tail_cons, List.mem_append,
                List.mem_singleton] at hb' hbehind
              rcases hb' with hb' | rfl
              · exact hbehind b (Or.inl hb')
              · exact hpop.trans (hbehind tail (Or.inr rfl))
        · exact (hfill.wf b hb').2
      owned := by
        have howned := h.owned
        rw [IoBuffers.Owned, hchain] at howned
        refine (hfill.owns _ howned).perm (List.Perm.of_eq ?_)
        simp only [List.append_assoc, addrs_append, addrs_cons, List.cons_append,
          List.nil_append, haddr] }

/-- The number of bytes `writeData` stores: what the tail ring has room for, and
what the 32-bit count says is left after that. -/
def writeData.stored (writeTail : Buffer α) (size : ℕ) : ℕ :=
  let writecount := u32Sub writeTail.capacity writeTail.count
  if size < writecount then size else writecount + writeData.rearsize size writecount

/-- They are never more than there are, and all of them exactly when the size is
within `2 ^ 32` of the room in the tail ring. -/
theorem writeData.stored_le {cap : ℕ} {tail : Buffer α} (ht : tail.WfWrite cap)
    (hcap : cap < 2 ^ 31) (size : ℕ) :
    writeData.stored tail size ≤ size
      ∧ (writeData.stored tail size = size ↔ size < 2 ^ 32 + (cap - tail.count)) := by
  have hroom : u32Sub tail.capacity tail.count = cap - tail.count := by
    rw [ht.capacity_eq]
    exact u32Sub_of_le ht.count_le
  simp only [writeData.stored, hroom]
  by_cases hlt : size < cap - tail.count
  · rw [if_pos hlt]
    exact ⟨le_refl _, iff_of_true rfl (by omega)⟩
  · obtain ⟨hle, hall⟩ := writeData.rearsize_le (not_lt.mp hlt) (by omega)
    rw [if_neg hlt]
    omega

/-- **`writeData`** appends what it stores to the content. -/
theorem writeData_stored (h : WriteShape io) (h0 : 0 < xs.length) :
    ∃ front tail io', io.writeHead_ = front ++ [tail] ∧ writeData io true xs = some (true, io')
      ∧ WriteShape io'
      ∧ content io'.writeHead_
        = content io.writeHead_ ++ xs.take (writeData.stored tail xs.length)
      ∧ io'.writeSize_ = io.writeSize_ + xs.length := by
  obtain ⟨cap, hc⟩ : ∃ cap, cap = io.bufferPool_.capacity_.bytes := ⟨_, rfl⟩
  have hcap : cap < 2 ^ 31 := hc ▸ io.bufferPool_.capacity_.lt
  obtain ⟨front, tail, hchain, htail, hsplit⟩ := h.splitAt_tail
  have ht : tail.WfWrite cap := hc ▸ h.wf tail (by simp [hchain])
  have hcount := ht.count_le
  have hroom : u32Sub tail.capacity tail.count = cap - tail.count := by
    rw [ht.capacity_eq]
    exact u32Sub_of_le hcount
  have hne : xs.length ≠ 0 := by omega
  have hguard : (!true || decide (xs.length = 0)) = false := by simp [hne]
  refine ⟨front, tail, ?_⟩
  simp only [writeData, hguard, Bool.false_eq_true, if_false, hsplit, hroom, Option.bind_eq_bind,
    Option.bind_some, writeData.stored]
  by_cases hlt : xs.length < cap - tail.count
  · -- the data stays inside the tail ring
    obtain ⟨ring, hin, haddr, hpop, hwf, hcnt, hlive⟩ := writeData.inTail_spec ht hcap h0 hlt
    rw [if_pos hlt, if_pos hlt, hin]
    refine ⟨_, hchain, rfl, ?_, ?_, rfl⟩
    · exact h.of_append hchain htail haddr hpop (hc ▸ hwf) (FillRings.nil io.bufferPool_)
        (io.writeSize_ + xs.length)
    · rw [hchain, content_append, content_append, content_cons, content_cons, content_nil,
        List.append_nil, List.append_nil, hlive, List.take_length, List.append_assoc]
  · -- the tail ring is filled, and the rest goes to new rings
    rw [if_neg hlt, if_neg hlt]
    have hge : cap - tail.count ≤ xs.length := not_lt.mp hlt
    obtain ⟨ring, hring, haddr, hpop, hwf, hlive⟩ := writeData.topUp_spec ht hge
    have hrest : writeData.rearsize xs.length (cap - tail.count)
        ≤ (xs.drop (cap - tail.count)).length := by
      rw [List.length_drop]
      exact (writeData.rearsize_le hge (by omega)).1
    obtain ⟨rings, pool', hfill, hres⟩ := writeData.fill_spec io.bufferPool_ _ hrest
    rw [hring]
    simp only [Option.bind_some, hfill]
    refine ⟨_, hchain, rfl, ?_, ?_, rfl⟩
    · exact h.of_append hchain htail haddr hpop (hc ▸ hwf) hres (io.writeSize_ + xs.length)
    · rw [chain_rings, hchain, content_append, content_append, content_cons, content_cons,
        content_nil, List.append_nil, hlive, hres.content_eq, List.append_assoc,
        List.append_assoc, ← List.take_add]

/-- All of the data is appended when its size fits 32 bits, a prefix of it in
any case. -/
theorem writeData_spec (h : WriteShape io) (h0 : 0 < xs.length) :
    ∃ io' k, writeData io true xs = some (true, io') ∧ WriteShape io'
      ∧ k ≤ xs.length ∧ (xs.length < 2 ^ 32 → k = xs.length)
      ∧ content io'.writeHead_ = content io.writeHead_ ++ xs.take k
      ∧ io'.writeSize_ = io.writeSize_ + xs.length := by
  obtain ⟨front, tail, io', hchain, hdata, hshape, hcontent, hsize⟩ := writeData_stored h h0
  have ht := h.wf tail (by simp [hchain])
  obtain ⟨hle, hall⟩ := writeData.stored_le ht io.bufferPool_.capacity_.lt xs.length
  exact ⟨io', _, hdata, hshape, hle, fun hs => hall.mpr (by omega), hcontent, hsize⟩

end Data

/-! ## What `onWrite` offers -/

/-- What a `writev` of `onWrite` is there to send: the live bytes of the head
ring and of the ring behind it. -/
def onWrite.pending (io : IoBuffers α) : List α := content (io.writeHead_.take 2)

/-- A ring whose cursors describe what it holds: it is not empty, or its
cursors stand at the two ends of its storage. -/
def HeadSound (writeHead : Buffer α) : Prop :=
  writeHead.count ≠ 0 ∨ writeHead.pop = writeHead.capacity ∧ writeHead.push = 0

/-- The head ring of the write chain is such a ring. -/
def WriteSound (io : IoBuffers α) : Prop := ∀ b ∈ io.writeHead_.head?, HeadSound b

instance (io : IoBuffers α) : Decidable (WriteSound io) :=
  inferInstanceAs (Decidable (∀ b ∈ io.writeHead_.head?,
    b.count ≠ 0 ∨ b.pop = b.capacity ∧ b.push = 0))

section Offer

variable {cap : ℕ} {b : Buffer α} {io : IoBuffers α}

/-- An `iovec` into the head ring. -/
theorem gather_head (b : Buffer α) (rest : List (Buffer α)) {off len : ℕ} (iov : List Iovec)
    (h : off + len ≤ b.capacity) :
    gather (⟨b.addr, off, len⟩ :: iov) (b :: rest)
      = (gather iov (b :: rest)).map (span b.buffer off len ++ ·) := by
  have hsplit : splitAt b.addr (b :: rest) = some ([], b, rest) := if_pos rfl
  rw [gather, hsplit]
  simp only [Option.bind_eq_bind, Option.bind_some, Buffer.memcpyOut_of_le h]
  cases gather iov (b :: rest) <;> rfl

/-- The part of the `iovec` array that is laid out from the cursors of the head
ring: its live bytes if it has any, else whatever is outside the cursors. -/
theorem gather_headIov (h : b.WfWrite cap) (rest : List (Buffer α)) (iov : List Iovec) :
    ∃ x, gather (onWrite.headIov b ++ iov) (b :: rest)
        = (gather iov (b :: rest)).map (x ++ ·)
      ∧ (b.count ≠ 0 → x = b.live)
      ∧ (b.count = 0 → x.length = (cap - b.pop) + b.push) := by
  obtain ⟨hwf, hempty⟩ := h
  have hcount := hwf.count_le
  have hpush := hwf.push_le
  have hpop := hwf.pop_le
  have hlinked := hwf.linked
  have hcap := hwf.capacity_eq
  have hrear : u32Sub b.capacity b.pop = cap - b.pop := by
    rw [hcap]
    exact u32Sub_of_le hpop
  rw [onWrite.headIov, hrear]
  by_cases hlt : b.pop < b.push
  · -- the live bytes lie between the cursors
    rw [if_pos hlt, List.singleton_append, gather_head b rest iov (by rw [hcap]; omega)]
    refine ⟨_, rfl, fun _ => ?_, fun h0 => ?_⟩
    · rw [Buffer.live, hcap, window_eq_span _ (by omega)]
    · exact absurd (hempty h0) (by omega)
  · -- from `pop` to the end, and from the start to `push`
    rw [if_neg hlt, List.cons_append, gather_head b rest _ (by rw [hcap]; omega)]
    have hwrap : b.count ≠ 0 → b.live = span b.buffer b.pop (cap - b.pop)
        ++ span b.buffer 0 b.push := by
      intro h0
      have hsub : b.count - (cap - b.pop) = b.push := by omega
      have htake := hwf.take_live_wrapped (le_refl _) (by omega : cap ≤ b.pop + b.count)
      rwa [take_live_of_ge b (le_refl _), hsub] at htake
    by_cases h0 : b.push > 0
    · rw [if_pos h0, List.singleton_append, gather_head b rest iov (by rw [hcap]; omega),
        Option.map_map]
      refine ⟨span b.buffer b.pop (cap - b.pop) ++ span b.buffer 0 b.push, ?_, ?_, ?_⟩
      · simp only [Function.comp_def, List.append_assoc]
      · exact fun hne => (hwrap hne).symm
      · intro _
        rw [List.length_append, length_span, length_span]
    · have hzero : b.push = 0 := by omega
      rw [if_neg h0, List.nil_append]
      refine ⟨span b.buffer b.pop (cap - b.pop), rfl, fun hne => ?_, fun _ => ?_⟩
      · rw [hwrap hne, hzero, span_zero, List.append_nil]
      · rw [length_span, hzero, Nat.add_zero]

/-- The `iovec` of the ring behind the head, which begins at the start of its
storage. -/
theorem gather_next {next : Buffer α} {rest : List (Buffer α)} (hn : next.WfWrite cap)
    (hpop : next.pop = 0) (hne : b.addr ≠ next.addr) :
    gather [⟨next.addr, 0, next.count⟩] (b :: next :: rest) = some next.live := by
  have hcount := hn.count_le
  have hcap := hn.capacity_eq
  have hsplit : splitAt next.addr (b :: next :: rest) = some ([b], next, rest) := by
    rw [splitAt, if_neg hne, splitAt, if_pos rfl]
    rfl
  rw [gather, hsplit]
  simp only [Option.bind_eq_bind, Option.bind_some,
    Buffer.memcpyOut_of_le (show 0 + next.count ≤ next.capacity by omega), gather,
    List.append_nil]
  rw [Buffer.live, hpop, hcap, window_eq_span _ (by omega)]

/-- The write chain has a first ring, and a second one is another ring. -/
theorem WriteShape.chain_cons (h : WriteShape io) : ∃ head rest, io.writeHead_ = head :: rest
    ∧ head.WfWrite io.bufferPool_.capacity_.bytes
    ∧ ∀ next ∈ rest, next.WfWrite io.bufferPool_.capacity_.bytes ∧ next.pop = 0
        ∧ head.addr ≠ next.addr := by
  obtain ⟨front, tail, hchain, -, -⟩ := h.splitAt_tail
  obtain ⟨head, rest, hcons⟩ := List.exists_cons_of_ne_nil
    (show io.writeHead_ ≠ [] by rw [hchain]; simp)
  refine ⟨head, rest, hcons, h.wf head (by rw [hcons]; exact List.mem_cons_self ..),
    fun next hnext => ⟨?_, ?_, fun heq => ?_⟩⟩
  · exact h.wf next (by rw [hcons]; exact List.mem_cons_of_mem _ hnext)
  · exact h.behind next (by rw [hcons]; exact hnext)
  · have howned := h.owned
    rw [IoBuffers.Owned, hcons] at howned
    have hnd := (List.nodup_append.mp howned.nodup).2.1
    rw [addrs_append, addrs_cons] at hnd
    have hnot := (List.nodup_cons.mp (List.nodup_append.mp hnd).2.1).1
    exact hnot (heq ▸ List.mem_map_of_mem hnext)

/-- **What `onWrite` offers**, ring by ring: the ring behind the head is always
right, the head ring unless it is empty. -/
theorem onWrite.offer_spec (h : WriteShape io) : ∃ head rest x, io.writeHead_ = head :: rest
    ∧ onWrite.offer io = some (x ++ content rest.head?.toList)
    ∧ onWrite.pending io = head.live ++ content rest.head?.toList
    ∧ (head.count ≠ 0 → x = head.live)
    ∧ (head.count = 0 → x.length = (head.capacity - head.pop) + head.push)
    ∧ head.pop ≤ head.capacity := by
  obtain ⟨head, rest, hchain, hhead, hrest⟩ := h.chain_cons
  have hpop := hhead.pop_le
  obtain ⟨x, hx, hlive, hlen⟩ := gather_headIov hhead rest
    (rest.head?.toList.map fun next => ⟨next.addr, 0, next.count⟩)
  rw [← hhead.capacity_eq] at hlen hpop
  refine ⟨head, rest, x, hchain, ?_, ?_, hlive, hlen, hpop⟩
  · simp only [onWrite.offer, hchain, onWrite.iov, hx]
    cases rest with
    | nil => simp [gather]
    | cons next rest =>
        obtain ⟨hn, hpop, hne⟩ := hrest next (List.mem_cons_self ..)
        simp only [List.head?_cons, Option.toList_some, List.map_cons, List.map_nil,
          gather_next hn hpop hne, Option.map_some, content_cons, content_nil, List.append_nil]
  · simp only [onWrite.pending, hchain, List.take_succ_cons, content_cons]
    cases rest <;> rfl

/-- **When the offer is right.** A `writev` of `onWrite` offers the live bytes
of the head ring and the ring behind it exactly when the head ring is sound. -/
theorem onWrite.offer_eq_iff (h : WriteShape io) :
    onWrite.offer io = some (onWrite.pending io) ↔ WriteSound io := by
  obtain ⟨head, rest, x, hchain, hoffer, hpending, hlive, hlen, hpop⟩ := onWrite.offer_spec h
  have hsound : WriteSound io ↔ HeadSound head := by
    simp only [WriteSound, hchain, List.head?_cons, Option.mem_def, Option.some.injEq,
      forall_eq']
  rw [hoffer, hpending, hsound, Option.some.injEq, List.append_cancel_right_eq, HeadSound]
  by_cases h0 : head.count = 0
  · have hnil : head.live = [] := List.eq_nil_of_length_eq_zero (by rw [Buffer.length_live, h0])
    rw [hnil, ← List.length_eq_zero_iff, hlen h0]
    omega
  · exact iff_of_true (hlive h0) (Or.inl h0)

end Offer

/-! ## One turn of `onWrite` -/

section Turn

variable {io : IoBuffers α} {head : Buffer α} {rest : List (Buffer α)}

/-- The chain after its head ring was written from. -/
theorem WriteShape.of_head (h : WriteShape io) (hchain : io.writeHead_ = head :: rest)
    {head' : Buffer α} (hwf : head'.WfWrite io.bufferPool_.capacity_.bytes)
    (haddr : head'.addr = head.addr) (m : ℕ) :
    WriteShape { io with writeHead_ := head' :: rest, writeSize_ := m } where
  last := by
    have hlast := h.last
    rw [hchain, addrs_cons] at hlast
    rw [addrs_cons, haddr]
    exact hlast
  wf := fun b hb => by
    rcases List.mem_cons.mp hb with rfl | hb
    · exact hwf
    · exact h.wf b (by rw [hchain]; exact List.mem_cons_of_mem _ hb)
  behind := fun b hb => h.behind b (by rw [hchain]; exact hb)
  owned := by
    have howned := h.owned
    rw [IoBuffers.Owned, hchain] at howned
    refine howned.perm (List.Perm.of_eq ?_)
    rw [addrs_append, addrs_append, addrs_cons, addrs_cons, haddr]

/-- The chain after its head ring was released. -/
theorem WriteShape.of_put {next : Buffer α} (h : WriteShape io)
    (hchain : io.writeHead_ = head :: next :: rest) {next' : Buffer α}
    (hwf : next'.WfWrite io.bufferPool_.capacity_.bytes) (haddr : next'.addr = next.addr)
    (m : ℕ) :
    ∃ pool, io.bufferPool_.put head = some pool
      ∧ WriteShape { io with
          bufferPool_ := pool, writeHead_ := next' :: rest, writeSize_ := m } := by
  have howned := h.owned
  rw [IoBuffers.Owned, hchain] at howned
  have hmoved : io.bufferPool_.Owns (head :: (io.readHead_ ++ next' :: rest)) := by
    refine howned.perm ?_
    simp only [addrs_append, addrs_cons, haddr]
    exact List.perm_middle
  obtain ⟨hput, howns⟩ := hmoved.put
  refine ⟨_, hput, ?_⟩
  exact
    { last := by
        have hlast := h.last
        rw [hchain, addrs_cons, addrs_cons, List.getLast?_cons_cons] at hlast
        rw [addrs_cons, haddr]
        exact hlast
      wf := fun b hb => by
        rcases List.mem_cons.mp hb with rfl | hb
        · exact hwf
        · exact h.wf b (by
            rw [hchain]
            exact List.mem_cons_of_mem _ (List.mem_cons_of_mem _ hb))
      behind := fun b hb => h.behind b (by rw [hchain]; exact List.mem_cons_of_mem _ hb)
      owned := howns }

/-- A ring from which `n` of its bytes were written, where `pop` was moved to
`p`. -/
theorem Buffer.WfWrite.advance {cap n p : ℕ} {b : Buffer α} (h : b.WfWrite cap)
    (hn : n ≤ b.count) (hp : p = b.pop + n ∨ p + cap = b.pop + n) (hle : p ≤ cap)
    (hempty : b.count = n → b.push ≤ p) :
    Buffer.WfWrite cap { b with pop := p, count := b.count - n }
      ∧ Buffer.live { b with pop := p, count := b.count - n } = b.live.drop n := by
  obtain ⟨hwf, -⟩ := h
  have hcount := hwf.count_le
  have hpush := hwf.push_le
  have hpop := hwf.pop_le
  have hlinked := hwf.linked
  refine ⟨?_, hwf.live_advance hn ?_⟩
  · exact
      { capacity_eq := hwf.capacity_eq
        count_le := by simp only; omega
        push_le := hpush
        pop_le := hle
        linked := by simp only; omega
        empty := fun h0 => hempty (by simp only at h0; omega) }
  · rcases hp with hp | hp
    · rw [hp]
    · rw [← hp, Nat.add_mod_right]

/-- What a turn of `onWrite` has to make of the chain and the pool after the
kernel took `writesize` bytes. -/
structure Advanced (io : IoBuffers α) (writesize : ℕ)
    (r : List (Buffer α) × BufferPool α) : Prop where
  shape : ∀ m, WriteShape { io with bufferPool_ := r.2, writeHead_ := r.1, writeSize_ := m }
  content_eq : content r.1 = (content io.writeHead_).drop writesize

/-- A short write, inside the head ring. -/
theorem onWrite.advance_head (h : WriteShape io) (hchain : io.writeHead_ = head :: rest)
    {writesize : ℕ} (hw : writesize < head.count) :
    ∃ r, onWrite.advance io.bufferPool_ head rest writesize = some r
      ∧ Advanced io writesize r := by
  have hcap := io.bufferPool_.capacity_.lt
  have hwf := h.wf head (by rw [hchain]; exact List.mem_cons_self ..)
  have hcount := hwf.count_le
  have hpop := hwf.pop_le
  have hlinked := hwf.linked
  have hpush := hwf.push_le
  have hu : u32 writesize = writesize := u32_of_lt (by omega)
  have hadd : u32 (head.pop + writesize) = head.pop + writesize := u32_of_lt (by omega)
  -- where the cursor ends, which may be past the end of the storage
  obtain ⟨p, hp, hle, hpos⟩ : ∃ p, (head.pop + writesize) % head.capacity = p
      ∧ p ≤ io.bufferPool_.capacity_.bytes
      ∧ (p = head.pop + writesize
        ∨ p + io.bufferPool_.capacity_.bytes = head.pop + writesize) := by
    refine ⟨_, rfl, ?_⟩
    rw [hwf.capacity_eq]
    obtain ⟨hlt, hmod⟩ := mod_cases (head.pop + writesize) io.bufferPool_.capacity_.bytes (by omega)
    omega
  obtain ⟨hwf', hlive⟩ := hwf.advance (le_of_lt hw) hpos hle (fun heq => by omega)
  refine ⟨({ head with pop := p, count := head.count - writesize } :: rest, io.bufferPool_), ?_,
    fun m => h.of_head hchain hwf' rfl m, ?_⟩
  · simp only [onWrite.advance, hu, hadd, hp, u32Sub_of_le (le_of_lt hw), if_pos hw]
  · have hzero : writesize - head.count = 0 := by omega
    rw [hchain, drop_content_cons, content_cons, hlive, hzero, List.drop_zero]

/-- A write of exactly the head ring. -/
theorem onWrite.advance_ring (h : WriteShape io) (hchain : io.writeHead_ = head :: rest) :
    ∃ r, onWrite.advance io.bufferPool_ head rest head.count = some r
      ∧ Advanced io head.count r := by
  have hwf := h.wf head (by rw [hchain]; exact List.mem_cons_self ..)
  have hdrop : (content io.writeHead_).drop head.count = content rest := by
    rw [hchain, drop_content_cons, drop_live_of_ge head (le_refl _), Nat.sub_self,
      List.drop_zero, List.nil_append]
  simp only [onWrite.advance, if_neg (lt_irrefl head.count), gt_iff_lt]
  cases rest with
  | nil =>
      -- the only ring stays, and its cursors go back to the start
      have hwf' : Buffer.WfWrite io.bufferPool_.capacity_.bytes
          { head with push := 0, pop := 0, count := 0 } :=
        { capacity_eq := hwf.capacity_eq
          count_le := Nat.zero_le _
          push_le := Nat.zero_le _
          pop_le := Nat.zero_le _
          linked := Or.inl rfl
          empty := fun _ => le_refl _ }
      refine ⟨_, rfl, fun m => h.of_head hchain hwf' rfl m, ?_⟩
      rw [hdrop, content_cons, Buffer.live, window_zero, List.nil_append]
  | cons next rest =>
      -- the pool after the release is the same for every `writeSize_`
      have hn := h.wf next (by rw [hchain]; simp)
      obtain ⟨pool, hput, -⟩ := h.of_put hchain hn rfl 0
      refine ⟨(next :: rest, pool), ?_, fun m => ?_, hdrop.symm⟩
      · simp only [BufferPool.putNext, hput, Option.map_some]
      · obtain ⟨pool', hput', hshape⟩ := h.of_put hchain hn rfl m
        obtain rfl := Option.some.inj (hput'.symm.trans hput)
        exact hshape

/-- A write that went on to the ring behind the head. -/
theorem onWrite.advance_next {next : Buffer α} (h : WriteShape io)
    (hchain : io.writeHead_ = head :: next :: rest) {writesize : ℕ}
    (hw : head.count < writesize) (hle : writesize ≤ head.count + next.count) :
    ∃ r, onWrite.advance io.bufferPool_ head (next :: rest) writesize = some r
      ∧ Advanced io writesize r := by
  have hcap := io.bufferPool_.capacity_.lt
  have hwf := h.wf head (by rw [hchain]; simp)
  have hn := h.wf next (by rw [hchain]; simp)
  have hpop : next.pop = 0 := h.behind next (by rw [hchain]; exact List.mem_cons_self ..)
  have hcount := hwf.count_le
  have hncount := hn.count_le
  have hlinked := hn.linked
  have hu : u32 writesize = writesize := u32_of_lt (by omega)
  have hsub : u32Sub writesize head.count = writesize - head.count := u32Sub_of_le (le_of_lt hw)
  have hsub' : u32Sub next.count (writesize - head.count)
      = next.count - (writesize - head.count) := u32Sub_of_le (by omega)
  obtain ⟨hwf', hlive⟩ := hn.advance (n := writesize - head.count) (p := writesize - head.count)
    (by omega) (by omega) (by omega) (fun heq => by omega)
  obtain ⟨pool, hput, -⟩ := h.of_put hchain hwf' rfl 0
  refine ⟨({ next with pop := writesize - head.count,
                        count := next.count - (writesize - head.count) } :: rest, pool), ?_,
    fun m => ?_, ?_⟩
  · simp only [onWrite.advance, if_neg (not_lt.mpr (le_of_lt hw)), if_pos hw, gt_iff_lt, hu, hsub,
      hsub', BufferPool.putNext, hput, Option.map_some]
  · obtain ⟨pool', hput', hshape⟩ := h.of_put hchain hwf' rfl m
    obtain rfl := Option.some.inj (hput'.symm.trans hput)
    exact hshape
  · have hzero : writesize - head.count - next.count = 0 := by omega
    rw [hchain, drop_content_cons, drop_live_of_ge head (le_of_lt hw), List.nil_append,
      drop_content_cons, hzero, List.drop_zero, content_cons, hlive]

/-- The size `onWrite` counts is the number of bytes it is there to send. -/
theorem onWrite.size_eq (h : WriteShape io) (hchain : io.writeHead_ = head :: rest) :
    onWrite.size head rest.head? = (onWrite.pending io).length := by
  have hcap := io.bufferPool_.capacity_.lt
  have hcount := (h.wf head (by rw [hchain]; exact List.mem_cons_self ..)).count_le
  cases rest with
  | nil => simp [onWrite.size, onWrite.pending, hchain]
  | cons next rest =>
      have hncount := (h.wf next (by rw [hchain]; simp)).count_le
      simp only [onWrite.size, List.head?_cons, onWrite.pending, hchain, List.take_succ_cons,
        List.take_zero, length_content, total_cons, total_nil]
      rw [u32_of_lt (by omega)]
      omega

/-- A turn whose `writev` fails changes nothing. -/
theorem onWrite.turn_error (h : WriteShape io) :
    onWrite.turn io none = some (io, .error) := by
  obtain ⟨head, rest, x, hchain, hoffer, -⟩ := onWrite.offer_spec h
  simp only [onWrite.turn, hoffer, Option.bind_eq_bind, Option.bind_some, hchain]

/-- **A turn of `onWrite`** drops from the front of the content the bytes the
kernel took, when these are no more than the turn counts on; if they are more,
it changes nothing. -/
theorem onWrite.turn_spec (h : WriteShape io) {bytes : List α} {writesize : ℕ}
    (hoffer : onWrite.offer io = some bytes) (hle : writesize ≤ bytes.length) :
    (writesize ≤ (onWrite.pending io).length →
        ∃ io', onWrite.turn io (some writesize) = some (io',
            if writesize < (onWrite.pending io).length then .short writesize else .full writesize)
          ∧ WriteShape io' ∧ content io'.writeHead_ = (content io.writeHead_).drop writesize
          ∧ io'.writeSize_ = sizeSub io.writeSize_ writesize)
      ∧ ((onWrite.pending io).length < writesize →
          onWrite.turn io (some writesize) = some (io, .overlong)) := by
  obtain ⟨head, rest, hchain, -, -⟩ := h.chain_cons
  have hsize := onWrite.size_eq h hchain
  simp only [onWrite.turn, hoffer, Option.bind_eq_bind, Option.bind_some, hchain, hsize, gt_iff_lt,
    if_neg (not_lt.mpr hle)]
  refine ⟨fun hw => ?_, fun hw => if_pos hw⟩
  rw [if_neg (not_lt.mpr hw)]
  have hpending : onWrite.pending io = head.live ++ content (rest.take 1) := by
    rw [onWrite.pending, hchain, List.take_succ_cons, content_cons]
  obtain ⟨r, hr, hadv⟩ : ∃ r, onWrite.advance io.bufferPool_ head rest writesize = some r
      ∧ Advanced io writesize r := by
    rcases Nat.lt_trichotomy writesize head.count with hlt | heq | hgt
    · exact onWrite.advance_head h hchain hlt
    · exact heq ▸ onWrite.advance_ring h hchain
    · cases rest with
      | nil =>
          -- past the head there is nothing a turn could count on
          rw [hpending, List.take_nil, content_nil, List.append_nil, Buffer.length_live] at hw
          omega
      | cons next rest =>
          rw [hpending, List.take_succ_cons, List.take_zero, content_cons, content_nil,
            List.append_nil, List.length_append, Buffer.length_live, Buffer.length_live] at hw
          exact onWrite.advance_next h hchain hgt hw
  rw [hr]
  exact ⟨_, rfl, hadv.shape _, hchain ▸ hadv.content_eq, rfl⟩

/-- **Every way a turn of `onWrite` can end**, from the result of the `writev`
alone. -/
theorem onWrite.turn_cases (h : WriteShape io) {result : Option ℕ} {r : IoBuffers α × WriteOutcome}
    (hturn : onWrite.turn io result = some r) :
    ∃ bytes, onWrite.offer io = some bytes ∧ result.getD 0 ≤ bytes.length
      ∧ ((r = (io, .error) ∧ result.getD 0 = 0)
        ∨ (r = (io, .overlong) ∧ (onWrite.pending io).length < result.getD 0)
        ∨ (result.getD 0 ≤ (onWrite.pending io).length
          ∧ (r.2 = .short (result.getD 0) ∨ r.2 = .full (result.getD 0))
          ∧ WriteShape r.1
          ∧ content r.1.writeHead_ = (content io.writeHead_).drop (result.getD 0)
          ∧ r.1.writeSize_ = sizeSub io.writeSize_ (result.getD 0))) := by
  obtain ⟨head, rest, x, hchain, hoffer, -⟩ := onWrite.offer_spec h
  refine ⟨_, hoffer, ?_⟩
  cases result with
  | none =>
      rw [onWrite.turn_error h] at hturn
      exact ⟨Nat.zero_le _, Or.inl ⟨(Option.some.inj hturn).symm, rfl⟩⟩
  | some w =>
      rw [Option.getD_some]
      have hle : w ≤ (x ++ content rest.head?.toList).length := by
        by_contra hgt
        simp only [onWrite.turn, hoffer, Option.bind_eq_bind, Option.bind_some, hchain,
          gt_iff_lt, if_pos (not_le.mp hgt)] at hturn
        cases hturn
      obtain ⟨hcounted, hover⟩ := onWrite.turn_spec h hoffer hle
      refine ⟨hle, ?_⟩
      rcases Nat.lt_or_ge (onWrite.pending io).length w with hgt | hcnt
      · rw [hover hgt] at hturn
        exact Or.inr (Or.inl ⟨(Option.some.inj hturn).symm, hgt⟩)
      · obtain ⟨io', hturn', hshape, hcontent, hsize⟩ := hcounted hcnt
        obtain rfl := Option.some.inj (hturn'.symm.trans hturn)
        refine Or.inr (Or.inr ⟨hcnt, ?_, hshape, hcontent, hsize⟩)
        by_cases hlt : w < (onWrite.pending io).length
        · exact Or.inl (if_pos hlt)
        · exact Or.inr (if_neg hlt)

/-- The chain after an operation on the read path. -/
theorem WriteShape.of_side {io' : IoBuffers α} (h : WriteShape io) (hside : WriteSide io io') :
    WriteShape io' where
  last := by rw [hside.head_eq, hside.tail_eq]; exact h.last
  wf := by rw [hside.head_eq, hside.capacity_eq]; exact h.wf
  behind := by rw [hside.head_eq]; exact h.behind
  owned := hside.owned h.owned

end Turn

/-! ## Runs of the write path -/

/-- The write path with its history: the bytes given to `writeData`, and those
the kernel accepted from `onWrite`. `inOnWrite` says that `onWrite` is in its
loop, about to call `writev`. -/
structure WriteRun (α : Type*) where
  io : IoBuffers α
  inOnWrite : Bool
  written : List α
  accepted : List α

/-- One step of a run: a call of `writeData`, the entry of `onWrite` (with the
`writeable_` flag it reads), or a `writev` of its loop. -/
inductive WriteEvent (α : Type*) where
  | writeData (data : Bool) (xs : List α)
  | onWrite (writeable : Bool)
  | writev (result : Option ℕ)

namespace WriteRun

/-- The state `establishInLoop` leaves. -/
def init (capacity : Capacity) (storage : ℕ → ℕ → α) : WriteRun α :=
  { io := IoBuffers.establish (BufferPool.make capacity storage)
    inOnWrite := false, written := [], accepted := [] }

/-- `onWrite` stays in its loop after a complete write only. -/
def staysIn : WriteOutcome → Bool
  | .full _ => true
  | _ => false

def step (s : WriteRun α) : WriteEvent α → Option (WriteRun α)
  | .writeData data xs => do
      let r ← writeData s.io data xs
      some { s with io := r.2, written := s.written ++ if r.1 then xs else [] }
  | .onWrite writeable =>
      if s.inOnWrite then none
      else if !writeable || s.io.writeSize_ = 0 then some s
      else some { s with inOnWrite := true }
  | .writev result =>
      if s.inOnWrite then do
        let bytes ← onWrite.offer s.io
        let r ← onWrite.turn s.io result
        some { s with
          io := r.1, inOnWrite := staysIn r.2
          accepted := s.accepted ++ bytes.take (result.getD 0) }
      else none

/-- The bytes the next `writev` offers. -/
def offer (s : WriteRun α) : List α := (onWrite.offer s.io).getD []

/-- What the caller, the kernel and the size of the buffers allow: `onWrite` is
entered and then loops, `writev` fails or takes no more than it is offered, and
fewer than `2 ^ 32` bytes are buffered. -/
def Admissible (s : WriteRun α) : WriteEvent α → Prop
  | .writeData _ xs => s.io.writeSize_ + xs.length < 2 ^ 32
  | .onWrite _ => s.inOnWrite = false
  | .writev result => s.inOnWrite = true ∧ ∀ w ∈ result, w ≤ s.offer.length

/-- A `writev` offers the live bytes of the head ring followed by those of the
ring behind it, and nothing where nothing is buffered. -/
def Offers (s : WriteRun α) : WriteEvent α → Prop
  | .writev _ => onWrite.offer s.io = some (onWrite.pending s.io)
      ∧ (s.io.writeSize_ = 0 → onWrite.offer s.io = some [])
  | _ => True

instance (s : WriteRun α) : (e : WriteEvent α) → Decidable (s.Admissible e)
  | .writeData _ xs => inferInstanceAs (Decidable (s.io.writeSize_ + xs.length < 2 ^ 32))
  | .onWrite _ => inferInstanceAs (Decidable (s.inOnWrite = false))
  | .writev result =>
      inferInstanceAs (Decidable (s.inOnWrite = true ∧ ∀ w ∈ result, w ≤ s.offer.length))

/-- A `writev` is made with a sound head ring. -/
def HeadsSound (s : WriteRun α) : WriteEvent α → Prop
  | .writev _ => WriteSound s.io
  | _ => True

instance (s : WriteRun α) : (e : WriteEvent α) → Decidable (s.HeadsSound e)
  | .writeData _ _ => isTrue trivial
  | .onWrite _ => isTrue trivial
  | .writev _ => inferInstanceAs (Decidable (WriteSound s.io))

/-- What the kernel accepted, followed by the content, is what was given to
`writeData`. -/
def Stream (s : WriteRun α) : Prop := s.accepted ++ content s.io.writeHead_ = s.written

/-- What every run keeps: the chain is right, and `writeSize_` counts it. -/
structure Shape (s : WriteRun α) : Prop where
  chain : WriteShape s.io
  size : s.io.writeSize_ = (content s.io.writeHead_).length
  small : s.io.writeSize_ < 2 ^ 32

theorem shape_init (capacity : Capacity) (storage : ℕ → ℕ → α) :
    Shape (init capacity storage) where
  chain := writeShape_establish capacity storage
  size := rfl
  small := (by decide : 0 < 2 ^ 32)

/-- The counted size after a `writev` that was counted. -/
theorem sizeSub_drop {m w : ℕ} {xs : List α} (hm : m = xs.length) (hw : w ≤ xs.length) :
    sizeSub m w = (xs.drop w).length := by
  rw [sizeSub, if_pos (hm ▸ hw), List.length_drop, hm]

/-- What `onWrite` is there to send is the front of the content. -/
theorem pending_prefix (io : IoBuffers α) : onWrite.pending io <+: content io.writeHead_ := by
  rw [onWrite.pending]
  conv_rhs => rw [← List.take_append_drop 2 io.writeHead_]
  rw [content_append]
  exact List.prefix_append _ _

/-- Every step the environment can make goes through and keeps the chain right,
and if the `writev` it makes is a sound one it keeps the stream. -/
theorem shape_step {s : WriteRun α} {e : WriteEvent α} (hI : Shape s) (hE : s.Admissible e) :
    ∃ s', step s e = some s' ∧ Shape s' ∧ (Stream s → s.HeadsSound e → Stream s') := by
  obtain ⟨hchain, hsize, hsmall⟩ := hI
  cases e with
  | writeData data xs =>
      by_cases hok : data = true ∧ 0 < xs.length
      · obtain ⟨rfl, h0⟩ := hok
        obtain ⟨io', k, hdata, hshape, -, hk, hcontent, hsize'⟩ := writeData_spec hchain h0
        -- the total stays below `2 ^ 32`, so no byte is left out
        have hall : k = xs.length := hk (by
          have : s.io.writeSize_ + xs.length < 2 ^ 32 := hE
          omega)
        rw [hall, List.take_length] at hcontent
        refine ⟨{ s with io := io', written := s.written ++ xs }, ?_, ⟨hshape, ?_, ?_⟩, ?_⟩
        · rw [step, hdata]
          rfl
        · rw [hsize', hcontent, List.length_append, hsize]
        · rw [hsize']
          exact hE
        · intro hstream _
          simp only [Stream] at hstream ⊢
          rw [hcontent, ← List.append_assoc, hstream]
      · refine ⟨s, ?_, ⟨hchain, hsize, hsmall⟩, fun hstream _ => hstream⟩
        rw [step, writeData_refused hok]
        simp
  | onWrite writeable =>
      have hE : s.inOnWrite = false := hE
      simp only [step, hE, Bool.false_eq_true, if_false]
      by_cases hret : (!writeable || decide (s.io.writeSize_ = 0)) = true
      · rw [if_pos hret]
        exact ⟨s, rfl, ⟨hchain, hsize, hsmall⟩, fun hstream _ => hstream⟩
      · rw [if_neg hret]
        exact ⟨_, rfl, ⟨hchain, hsize, hsmall⟩, fun hstream _ => hstream⟩
  | writev result =>
      obtain ⟨hin, hkernel⟩ := hE
      obtain ⟨head, rest, x, -, hoffer, -⟩ := onWrite.offer_spec hchain
      simp only [step, hin, if_true, hoffer, Option.bind_eq_bind, Option.bind_some]
      cases result with
      | none =>
          rw [onWrite.turn_error hchain]
          refine ⟨_, rfl, ⟨hchain, hsize, hsmall⟩, fun hstream _ => ?_⟩
          simpa [Stream] using hstream
      | some w =>
          have hle : w ≤ (x ++ content rest.head?.toList).length := by
            have := hkernel w rfl
            rwa [offer, hoffer] at this
          obtain ⟨hcounted, hover⟩ := onWrite.turn_spec hchain hoffer hle
          rcases Nat.lt_or_ge (onWrite.pending s.io).length w with hgt | hcnt
          · -- more than was counted on, which a sound head ring rules out
            rw [hover hgt]
            refine ⟨_, rfl, ⟨hchain, hsize, hsmall⟩, fun _ hsound => ?_⟩
            have heq := (onWrite.offer_eq_iff hchain).mpr hsound
            rw [hoffer, Option.some.injEq] at heq
            rw [heq] at hle
            omega
          · obtain ⟨io', hturn, hshape, hcontent, hsize'⟩ := hcounted hcnt
            have hpre := pending_prefix s.io
            have hwle : w ≤ (content s.io.writeHead_).length := le_trans hcnt hpre.length_le
            have hlen : io'.writeSize_ = (content io'.writeHead_).length := by
              rw [hsize', hcontent]
              exact sizeSub_drop hsize hwle
            rw [hturn]
            refine ⟨_, rfl, ⟨hshape, hlen, ?_⟩, fun hstream hsound => ?_⟩
            · simp only [hlen, hcontent, List.length_drop]
              omega
            · -- what was taken is the start of what the chain holds
              have heq := (onWrite.offer_eq_iff hchain).mpr hsound
              rw [hoffer, Option.some.injEq] at heq
              simp only [Stream, hcontent, Option.getD_some] at hstream ⊢
              rw [heq, ← hstream, List.append_assoc, List.append_cancel_left_eq]
              obtain ⟨y, hy⟩ := hpre
              rw [← hy, List.drop_append_of_le_length hcnt, ← List.append_assoc,
                List.take_append_drop]

/-- The representation of the write chain: the counts add up to `writeSize_`,
the cursors stay inside the storage and are `count` apart going round it, only
the head has been written from, and `writeTail_` is the last ring. -/
structure Represented (io : IoBuffers α) : Prop where
  size_eq : io.writeSize_ = total io.writeHead_
  ring : ∀ b ∈ io.writeHead_, b.count ≤ b.capacity ∧ b.push ≤ b.capacity ∧ b.pop ≤ b.capacity
    ∧ b.push ≡ b.pop + b.count [MOD b.capacity]
  behind : ∀ b ∈ io.writeHead_.tail, b.pop = 0
  last : (addrs io.writeHead_).getLast? = some io.writeTail_

theorem Shape.represented {s : WriteRun α} (h : Shape s) : Represented s.io where
  size_eq := by rw [h.size, length_content]
  ring := by
    intro b hb
    have hwf := h.chain.wf b hb
    rw [hwf.capacity_eq]
    exact ⟨hwf.count_le, hwf.push_le, hwf.pop_le, hwf.push_mod⟩
  behind := h.chain.behind
  last := h.chain.last

/-- A `writev` that is counted is subtracted from a `writeSize_` that is no
smaller. -/
def Subtracts (s : WriteRun α) : WriteEvent α → Prop
  | .writev result => ∀ io outcome, onWrite.turn s.io result = some (io, outcome) →
      outcome = .error ∨ outcome = .overlong
        ∨ (result.getD 0 ≤ s.io.writeSize_ ∧ io.writeSize_ + result.getD 0 = s.io.writeSize_)
  | _ => True

theorem Shape.subtracts {s : WriteRun α} (h : Shape s) (e : WriteEvent α) : s.Subtracts e := by
  cases e with
  | writeData data xs => trivial
  | onWrite writeable => trivial
  | writev result =>
      intro io outcome hturn
      obtain ⟨bytes, -, -, hcases⟩ := onWrite.turn_cases h.chain hturn
      rcases hcases with ⟨heq, -⟩ | ⟨heq, -⟩ | ⟨hcnt, -, -, -, hsize⟩
      · exact Or.inl (Prod.mk.inj heq).2
      · exact Or.inr (Or.inl (Prod.mk.inj heq).2)
      · have hpre := pending_prefix s.io
        have hle : result.getD 0 ≤ s.io.writeSize_ := by
          rw [h.size]
          exact le_trans hcnt hpre.length_le
        right; right
        refine ⟨hle, ?_⟩
        rw [hsize, sizeSub, if_pos hle, Nat.sub_add_cancel hle]

/-- **The write chain is represented right in every run.** Along every run from
the established state, of `writeData` and `onWrite` calls with any `writev`
results, every step goes through, every state passed has its counts, its cursors
and its tail pointer right, and no `writev` is subtracted from a `writeSize_`
that is smaller. -/
theorem writeRun_represented (capacity : Capacity) (storage : ℕ → ℕ → α)
    (es : List (WriteEvent α)) (hE : Along step Admissible (init capacity storage) es) :
    Always step (fun s => Represented s.io) (init capacity storage) es
      ∧ Along step Subtracts (init capacity storage) es := by
  have hkeep : ∀ (s : WriteRun α) (e : WriteEvent α), Shape s → s.Admissible e →
      ∃ s', step s e = some s' ∧ Shape s' := by
    intro s e hI hE
    obtain ⟨s', hs', hI', -⟩ := shape_step hI hE
    exact ⟨s', hs', hI'⟩
  constructor
  · exact always_of_along (fun _ h => h.represented) hkeep (shape_init capacity storage) hE
  · exact along_of_inv (fun s e hI _ => hI.subtracts e)
      (fun _ _ _ h hE hs => inv_of_progress hkeep h hE hs) (shape_init capacity storage) hE

/-- Three bytes are written and taken, and the kernel then takes the whole
storage of the ring they were in. -/
theorem writeRun_represented_three :
    Always step (fun s => Represented s.io) (init BufferPool.eventLoopCapacity fun _ _ => 0)
        [.writeData true [1, 2, 3], .onWrite true, .writev (some 3), .writev (some 4096)]
      ∧ Along step Subtracts (init BufferPool.eventLoopCapacity fun _ _ => 0)
        [.writeData true [1, 2, 3], .onWrite true, .writev (some 3), .writev (some 4096)] :=
  writeRun_represented BufferPool.eventLoopCapacity (fun _ _ => 0)
    [.writeData true [1, 2, 3], .onWrite true, .writev (some 3), .writev (some 4096)]
    (by decide +kernel)

/-- In a state of a run, a `writev` offers what it should exactly when the head
ring is sound. -/
theorem offers_iff {s : WriteRun α} (hI : Shape s) (e : WriteEvent α) :
    s.Offers e ↔ s.HeadsSound e := by
  cases e with
  | writeData data xs => exact Iff.rfl
  | onWrite writeable => exact Iff.rfl
  | writev result =>
      refine ⟨fun h => (onWrite.offer_eq_iff hI.chain).mp h.1, fun h => ?_⟩
      have heq := (onWrite.offer_eq_iff hI.chain).mpr h
      refine ⟨heq, fun h0 => ?_⟩
      have hnil : content s.io.writeHead_ = [] :=
        List.eq_nil_of_length_eq_zero (hI.size ▸ h0)
      have hpending := pending_prefix s.io
      rw [hnil, List.prefix_nil] at hpending
      rw [heq, hpending]

/-- **`onWrite` sends what is pending and nothing else exactly while the head
ring is sound.** Along every run from the established state, of `writeData` and
`onWrite` calls with any `writev` results, every `writev` offers the live bytes
of the head ring and the ring behind it, and what was accepted followed by the
content is what was given to `writeData` in every state, if and only if every
`writev` is made with a head ring that is not empty, or whose cursors stand at
the two ends of its storage. -/
theorem writeRun_stream_iff (capacity : Capacity) (storage : ℕ → ℕ → α)
    (es : List (WriteEvent α)) (hE : Along step Admissible (init capacity storage) es) :
    (Along step Offers (init capacity storage) es
        ∧ Always step (fun s => Shape s ∧ Stream s) (init capacity storage) es)
      ↔ Along step HeadsSound (init capacity storage) es := by
  have hoff : Along step Offers (init capacity storage) es
      ↔ Along step HeadsSound (init capacity storage) es :=
    along_congr (fun s e hI _ => offers_iff hI e)
      (fun s e hI hE => by
        obtain ⟨s', hs', hI', -⟩ := shape_step hI hE
        exact ⟨s', hs', hI'⟩) (shape_init capacity storage) hE
  rw [hoff]
  refine ⟨fun h => h.1, fun hC => ⟨hC, ?_⟩⟩
  refine always_of_along (I := fun s => Shape s ∧ Stream s)
    (C := fun s e => s.Admissible e ∧ s.HeadsSound e) (fun _ h => h) ?_
    ⟨shape_init capacity storage, rfl⟩ (along_and step hE hC)
  rintro s e ⟨hI, hstream⟩ ⟨hE, hC⟩
  obtain ⟨s', hs', hI', hkeep⟩ := shape_step hI hE
  exact ⟨s', hs', hI', hkeep hstream hC⟩

/-- Three bytes are written, and the kernel takes two of them. -/
theorem writeRun_stream_three :
    Along step Offers (init BufferPool.eventLoopCapacity fun _ _ => 0)
        [.writeData true [1, 2, 3], .onWrite true, .writev (some 2)]
      ∧ Always step (fun s => Shape s ∧ Stream s)
        (init BufferPool.eventLoopCapacity fun _ _ => 0)
        [.writeData true [1, 2, 3], .onWrite true, .writev (some 2)] :=
  (writeRun_stream_iff BufferPool.eventLoopCapacity (fun _ _ => 0)
    [.writeData true [1, 2, 3], .onWrite true, .writev (some 2)]
    (by decide +kernel)).mpr (by decide +kernel)

/-- The run that shows the condition is needed: three bytes are written and all
three taken, the loop goes round, and the kernel is offered the whole storage of
the ring that is empty now. -/
theorem writeRun_not_stream :
    Along step Admissible (init BufferPool.eventLoopCapacity fun _ _ => 0)
        [.writeData true [1, 2, 3], .onWrite true, .writev (some 3), .writev (some 4096)]
      ∧ ¬ Along step Offers (init BufferPool.eventLoopCapacity fun _ _ => 0)
        [.writeData true [1, 2, 3], .onWrite true, .writev (some 3), .writev (some 4096)]
      ∧ ¬ Always step (fun s => Shape s ∧ Stream s)
        (init BufferPool.eventLoopCapacity fun _ _ => 0)
        [.writeData true [1, 2, 3], .onWrite true, .writev (some 3), .writev (some 4096)] := by
  refine ⟨by decide +kernel, fun h => ?_, fun h => ?_⟩
  · have heval : (run step (init BufferPool.eventLoopCapacity fun _ _ => 0)
        [.writeData true [1, 2, 3], .onWrite true, .writev (some 3)]).map
          (fun s => (s.io.writeSize_, s.offer.length)) = some (0, 4096) := by
      decide +kernel
    obtain ⟨s, hrun, hs⟩ := Option.map_eq_some_iff.mp heval
    rw [Prod.mk.injEq] at hs
    have hsplit : Along step Offers (init BufferPool.eventLoopCapacity fun _ _ => 0)
        ([.writeData true [1, 2, 3], .onWrite true, .writev (some 3)]
          ++ .writev (some 4096) :: []) := h
    have hnil := (along_mid step hsplit hrun).2 hs.1
    have hlen := hs.2
    rw [offer, hnil] at hlen
    exact absurd hlen (by decide)
  · obtain ⟨s, hrun, hshape, hstream⟩ := always_last step h
    have heval : (run step (init BufferPool.eventLoopCapacity fun _ _ => 0)
        [.writeData true [1, 2, 3], .onWrite true, .writev (some 3), .writev (some 4096)]).map
          (fun s => (s.accepted.length, s.written.length)) = some (4099, 3) := by
      decide +kernel
    rw [hrun] at heval
    simp only [Option.map_some, Option.some.injEq, Prod.mk.injEq] at heval
    have hlen := congrArg List.length hstream
    rw [List.length_append] at hlen
    omega

end WriteRun

end Libiak.Net
