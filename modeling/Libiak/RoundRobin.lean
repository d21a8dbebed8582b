/-
`net/EventLoopThreadPool.h` and `TcpServer::onAccept`: which loop of a pool the
next connection gets.

`turns n k` is what taking turns means: the first `k` of `n` participants that
come round again and again, the second one first. Any two of them have had as
many turns, or one more (`count_turns`). The server deals its connections to the
loops of its pool in just this order, by a counter of 32 bits that is increased
and reduced at every accept, so the loops are in order for every pool that has
one. For an empty pool, which the constructor accepts, `%=` divides by zero.
-/
import Libiak.Run
import Mathlib.Data.Int.Notation
import Mathlib.Data.List.Count

set_option autoImplicit false

namespace Libiak.Net

open Libiak.Run

/-! ## Taking turns -/

/-- The first `k` of `n` participants in turn. -/
def turns (n k : ℕ) : List ℕ := (List.range k).map fun t => (t + 1) % n

theorem turns_succ (n k : ℕ) : turns n (k + 1) = turns n k ++ [(k + 1) % n] := by
  unfold turns
  rw [List.range_succ, List.map_append, List.map_singleton]

theorem turns_lt {n k i : ℕ} (hn : 0 < n) (h : i ∈ turns n k) : i < n := by
  obtain ⟨t, -, rfl⟩ := List.mem_map.mp h
  exact Nat.mod_lt _ hn

/-- The next turn begins a new round, or goes on with the one that has begun. -/
theorem next_turn (n k : ℕ) (hn : 0 < n) :
    ((k + 1) % n = 0 ∧ k % n + 1 = n ∧ (k + 1) / n = k / n + 1)
      ∨ ((k + 1) % n = k % n + 1 ∧ (k + 1) / n = k / n) := by
  have hlt := Nat.mod_lt k hn
  have hk := Nat.div_add_mod k n
  by_cases hlast : k % n + 1 = n
  · left
    have hround : k + 1 = n * (k / n + 1) := by
      rw [Nat.mul_add, Nat.mul_one]
      omega
    refine ⟨?_, hlast, ?_⟩
    · rw [hround, Nat.mul_mod_right]
    · rw [hround, Nat.mul_div_cancel_left _ hn]
  · right
    have hround : k + 1 = n * (k / n) + (k % n + 1) := by omega
    constructor
    · rw [hround, Nat.mul_add_mod, Nat.mod_eq_of_lt (show k % n + 1 < n by omega)]
    · rw [hround, Nat.mul_add_div hn, Nat.div_eq_of_lt (show k % n + 1 < n by omega),
        Nat.add_zero]

/-- **Turns are even**: every participant has had all the full rounds, and those
of the round that has begun one more. -/
theorem count_turns {n i : ℕ} (hi : i < n) (k : ℕ) :
    (turns n k).count i = k / n + if 0 < i ∧ i ≤ k % n then 1 else 0 := by
  have hn : 0 < n := Nat.lt_of_le_of_lt (Nat.zero_le i) hi
  induction k with
  | zero =>
      rw [Nat.zero_div, Nat.zero_mod, if_neg (by omega)]
      rfl
  | succ k ih =>
      rw [turns_succ, List.count_append, ih, List.count_singleton]
      rcases next_turn n k hn with ⟨hmod, hlast, hdiv⟩ | ⟨hmod, hdiv⟩
      · rw [hmod, hdiv]
        have hle : i ≤ k % n := by omega
        by_cases hzero : i = 0
        · subst hzero
          simp
        · have hpos := Nat.pos_of_ne_zero hzero
          rw [if_pos ⟨hpos, hle⟩, if_neg (by simpa using Ne.symm hzero), if_neg (by omega)]
      · rw [hmod, hdiv]
        by_cases heq : k % n + 1 = i
        · subst heq
          simp
        · rw [if_neg (show ¬ (k % n + 1 == i) = true by simpa using heq)]
          have hiff : 0 < i ∧ i ≤ k % n ↔ 0 < i ∧ i ≤ k % n + 1 := by omega
          simp only [hiff, Nat.add_zero]

/-! ## The pool and the server -/

/-- The address of an `EventLoop`. -/
abbrev EventLoopPtr := ℕ

/-- `class EventLoopThreadPool`, without its threads. -/
structure LoopPool where
  count_ : UInt32
  loops_ : List EventLoopPtr

namespace LoopPool

/-- The `for` of the constructor: each `new EventLoop()` is another address. -/
def make.loop (count i : ℕ) (loops_ : List EventLoopPtr) : List EventLoopPtr :=
  if i < count then make.loop count (i + 1) (loops_ ++ [i]) else loops_
termination_by count - i

/-- `EventLoopThreadPool::EventLoopThreadPool`. -/
def make (count : UInt32) : LoopPool :=
  { count_ := count, loops_ := make.loop count.toNat 0 [] }

def getCount (pool : LoopPool) : UInt32 := pool.count_

/-- `getLoop`, which may be NULL; without a value for an index outside of the
vector. -/
def getLoop (pool : LoopPool) (index : UInt32) : Option (Option EventLoopPtr) :=
  if index < pool.count_ then pool.loops_[index.toNat]?.map some else some none

theorem make.loop_eq (count i : ℕ) (h : i ≤ count) :
    make.loop count i (List.range i) = List.range count := by
  unfold make.loop
  by_cases hlt : i < count
  · rw [if_pos hlt, ← List.range_succ]
    exact make.loop_eq count (i + 1) hlt
  · rw [if_neg hlt, Nat.le_antisymm h (Nat.le_of_not_lt hlt)]
termination_by count - i

theorem loops_make (count : UInt32) : (make count).loops_ = List.range count.toNat :=
  make.loop_eq count.toNat 0 (Nat.zero_le _)

/-- Below its count a pool has a loop. -/
theorem getLoop_make {count index : UInt32} (h : index < count) :
    (make count).getLoop index = some (some index.toNat) := by
  have hlt : index.toNat < count.toNat := h
  have hindex : index < (make count).count_ := h
  rw [getLoop, if_pos hindex, loops_make, List.getElem?_range hlt]
  rfl

end LoopPool

/-- A `TcpServer`, as far as it deals out its connections: the sockets it has
accepted, each with the loop of its connection. -/
structure AcceptServer where
  loop_ : EventLoopPtr
  loopThreadPool_ : Option LoopPool
  indexLoop_ : UInt32
  accepted : List (ℤ × Option EventLoopPtr)

namespace AcceptServer

/-- A server with a pool, before its first connection. -/
def installed (loop_ : EventLoopPtr) (pool : LoopPool) : AcceptServer :=
  { loop_ := loop_, loopThreadPool_ := some pool, indexLoop_ := 0, accepted := [] }

/-- `TcpServer::onAccept`, up to the connection; without a value for a division by
zero. -/
def onAccept (s : AcceptServer) (sockFd : ℤ) : Option AcceptServer :=
  match s.loopThreadPool_ with
  | none => some { s with accepted := s.accepted ++ [(sockFd, some s.loop_)] }
  | some pool =>
      if pool.getCount = 0 then none
      else
        let index := (s.indexLoop_ + 1) % pool.getCount
        (pool.getLoop index).map fun loop =>
          { s with indexLoop_ := index, accepted := s.accepted ++ [(sockFd, loop)] }

/-- The connections of a loop. -/
def assigned (s : AcceptServer) (loop : EventLoopPtr) : ℕ :=
  (s.accepted.map Prod.snd).count (some loop)

/-- No connection is without a loop, and no loop of the pool has more than one
connection more than another. -/
structure Fair (s : AcceptServer) (pool : LoopPool) : Prop where
  defined : ∀ a ∈ s.accepted, ∃ loop ∈ pool.loops_, a.2 = some loop
  even : ∀ loop ∈ pool.loops_, ∀ loop' ∈ pool.loops_, s.assigned loop ≤ s.assigned loop' + 1

/-- So many connections have been dealt out in turn. -/
structure InTurn (count : UInt32) (s : AcceptServer) : Prop where
  pool : s.loopThreadPool_ = some (LoopPool.make count)
  index : s.indexLoop_.toNat = s.accepted.length % count.toNat
  accepted : s.accepted.map Prod.snd = (turns count.toNat s.accepted.length).map some

variable {count : UInt32} {s t : AcceptServer}

theorem inTurn_installed (loop_ : EventLoopPtr) (count : UInt32) :
    InTurn count (installed loop_ (LoopPool.make count)) where
  pool := rfl
  index := (Nat.zero_mod _).symm
  accepted := rfl

/-- **An accept is the next turn.** -/
theorem inTurn_onAccept (sockFd : ℤ) (hcount : count ≠ 0) (h : InTurn count s) :
    ∃ t, s.onAccept sockFd = some t ∧ InTurn count t
      ∧ t.accepted.length = s.accepted.length + 1 := by
  have hpos : 0 < count.toNat := by
    apply Nat.pos_of_ne_zero
    intro hzero
    exact hcount (UInt32.toNat_inj.mp hzero)
  have hbound := count.toNat_lt
  have hless := Nat.mod_lt s.accepted.length hpos
  -- the counter is below the number of loops, so it does not wrap around
  have hindex : ((s.indexLoop_ + 1) % count).toNat = (s.accepted.length + 1) % count.toNat := by
    rw [UInt32.toNat_mod, UInt32.toNat_add, h.index]
    change ((s.accepted.length % count.toNat + 1) % 2 ^ 32) % count.toNat = _
    rw [Nat.mod_eq_of_lt (show s.accepted.length % count.toNat + 1 < 2 ^ 32 by omega),
      Nat.mod_add_mod]
  have hlt : (s.indexLoop_ + 1) % count < count := by
    show ((s.indexLoop_ + 1) % count).toNat < count.toNat
    rw [hindex]
    exact Nat.mod_lt _ hpos
  have hloop := LoopPool.getLoop_make hlt
  have hgetCount : (LoopPool.make count).getCount = count := rfl
  refine ⟨{ s with
      indexLoop_ := (s.indexLoop_ + 1) % count
      accepted := s.accepted ++ [(sockFd, some ((s.indexLoop_ + 1) % count).toNat)] }, ?_, ?_, ?_⟩
  · rw [onAccept, h.pool]
    dsimp only
    rw [hgetCount, if_neg hcount, hloop]
    rfl
  · refine ⟨h.pool, ?_, ?_⟩
    · dsimp only
      rw [hindex, List.length_append, List.length_singleton]
    · dsimp only
      rw [List.map_append, h.accepted, List.length_append, List.length_singleton, turns_succ,
        List.map_append, hindex]
      rfl
  · exact List.length_append

theorem InTurn.fair (hcount : count ≠ 0) (h : InTurn count s) :
    s.Fair (LoopPool.make count) := by
  have hpos : 0 < count.toNat := by
    apply Nat.pos_of_ne_zero
    intro hzero
    exact hcount (UInt32.toNat_inj.mp hzero)
  have hassigned : ∀ loop ∈ (LoopPool.make count).loops_, s.assigned loop
      = s.accepted.length / count.toNat
        + if 0 < loop ∧ loop ≤ s.accepted.length % count.toNat then 1 else 0 := by
    intro loop hloop
    rw [LoopPool.loops_make, List.mem_range] at hloop
    rw [assigned, h.accepted, List.count_map_of_injective _ _ (fun _ _ => Option.some.inj),
      count_turns hloop]
  constructor
  · intro a ha
    have hmem : a.2 ∈ s.accepted.map Prod.snd := List.mem_map_of_mem ha
    rw [h.accepted] at hmem
    obtain ⟨i, hi, heq⟩ := List.mem_map.mp hmem
    refine ⟨i, ?_, heq.symm⟩
    rw [LoopPool.loops_make, List.mem_range]
    exact turns_lt hpos hi
  · intro loop hloop loop' hloop'
    rw [hassigned loop hloop, hassigned loop' hloop']
    split <;> split <;> omega

/-- **When the loops of a pool are in order.** A server with a pool of `count` loops
gives each of any number of connections a loop of the pool, and to each loop as
many as to any other or one more, exactly if there is a loop, or no connection. -/
theorem onAccept_fair (loop_ : EventLoopPtr) (count : UInt32) (fds : List ℤ) :
    (∃ s, run onAccept (installed loop_ (LoopPool.make count)) fds = some s
        ∧ s.accepted.length = fds.length ∧ s.Fair (LoopPool.make count))
      ↔ fds = [] ∨ count ≠ 0 := by
  constructor
  · rintro ⟨s, hrun, -⟩
    by_contra hnot
    obtain ⟨hne, hzero⟩ := not_or.mp hnot
    have hcount : count = 0 := not_not.mp hzero
    cases fds with
    | nil => exact hne rfl
    | cons fd fds =>
        -- the first connection divides by zero
        obtain ⟨t, ht, -⟩ := (run_cons onAccept).mp hrun
        rw [onAccept] at ht
        dsimp only [installed] at ht
        rw [if_pos (show (LoopPool.make count).getCount = 0 from hcount)] at ht
        cases ht
  · intro h
    by_cases hcount : count = 0
    · obtain rfl := h.resolve_right (not_not.mpr hcount)
      refine ⟨_, rfl, rfl, ?_, ?_⟩
      · intro a ha
        cases ha
      · intro loop _ loop' _
        exact Nat.zero_le _
    · have hall : ∀ (fds : List ℤ) (s : AcceptServer), InTurn count s →
          ∃ t, run onAccept s fds = some t ∧ InTurn count t
            ∧ t.accepted.length = s.accepted.length + fds.length := by
        intro fds
        induction fds with
        | nil =>
            intro s hs
            exact ⟨s, rfl, hs, rfl⟩
        | cons fd fds ih =>
            intro s hs
            obtain ⟨t, ht, hturn, hlen⟩ := inTurn_onAccept fd hcount hs
            obtain ⟨u, hu, hturn', hlen'⟩ := ih t hturn
            refine ⟨u, (run_cons onAccept).mpr ⟨t, ht, hu⟩, hturn', ?_⟩
            rw [hlen', hlen, List.length_cons]
            omega
      obtain ⟨s, hrun, hturn, hlen⟩ := hall fds _ (inTurn_installed loop_ count)
      exact ⟨s, hrun, hlen.trans (Nat.zero_add _), hturn.fair hcount⟩

/-- The first connection of a server with an empty pool. -/
theorem onAccept_empty : ¬ ∀ (count : UInt32) (fds : List ℤ),
    ∃ s, run onAccept (installed 0 (LoopPool.make count)) fds = some s
      ∧ s.accepted.length = fds.length ∧ s.Fair (LoopPool.make count) := by
  intro h
  obtain ⟨s, hrun, -⟩ := h 0 [7]
  cases hrun

end AcceptServer

end Libiak.Net
