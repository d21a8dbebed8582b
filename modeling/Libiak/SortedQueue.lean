/-
What a `MinHeap` is to its user, and what its calls cost.

To the user it is a sorted list: `insert` puts a key into its place, `remove` takes the first
one off. Every sequence of calls gives back the same keys as that list does, whichever way the
heap has them stored (`calls_sorted`); so a heap that is filled and emptied sorts
(`drain_sorts`). Elements of the same key may come back in another order than they came in.

A call goes up or down the tree along one path. Whatever the comparison is, even if it is no
order, the loops take no more turns than the tree has levels, stay within the vector and
keep its elements (`sift_turns`).
-/
import Libiak.MinHeap
import Mathlib.Data.List.Sort
import Mathlib.Data.Nat.Log

set_option autoImplicit false

namespace Libiak.Util

open Libiak.Run

/-! ## A sorted list as a queue -/

/-- The keys in a queue, in order, and those that were taken. A queue of `capacity` keys
takes no more. -/
structure SortedQueue (K : Type*) where
  keys : List K
  removed : List K
  deriving DecidableEq

namespace SortedQueue

variable {K : Type*} [LinearOrder K]

def step (capacity : ℕ) (q : SortedQueue K) : MinHeap.Call K → Option (SortedQueue K)
  | .insert key =>
      if q.keys.length < capacity then some { q with keys := q.keys.orderedInsert (· ≤ ·) key }
      else some q
  | .remove =>
      match q.keys with
      | [] => none
      | key :: keys => some ⟨keys, q.removed ++ [key]⟩

/-- The order of a list does not matter to its sorting. -/
theorem insertionSort_congr {l l' : List K} (h : l.Perm l') :
    l.insertionSort (· ≤ ·) = l'.insertionSort (· ≤ ·) := by
  apply List.Perm.eq_of_pairwise' (List.pairwise_insertionSort _ l)
    (List.pairwise_insertionSort _ l')
  exact (List.perm_insertionSort _ l).trans (h.trans (List.perm_insertionSort _ l').symm)

/-- What is in the queue comes out in order. -/
theorem run_removes (capacity : ℕ) (keys removed : List K) :
    run (step capacity) ⟨keys, removed⟩ (keys.map fun _ => .remove)
      = some ⟨[], removed ++ keys⟩ := by
  induction keys generalizing removed with
  | nil => rw [List.append_nil]; rfl
  | cons key keys ih =>
      refine (run_cons _).mpr ⟨⟨keys, removed ++ [key]⟩, rfl, ?_⟩
      rw [ih, List.append_assoc]
      rfl

theorem run_inserts (capacity : ℕ) (new keys removed : List K)
    (hroom : keys.length + new.length ≤ capacity) (hsorted : keys.Pairwise (· ≤ ·)) :
    run (step capacity) ⟨keys, removed⟩ (new.map .insert)
      = some ⟨(new ++ keys).insertionSort (· ≤ ·), removed⟩ := by
  induction new generalizing keys with
  | nil =>
      rw [List.nil_append, hsorted.insertionSort_eq]
      rfl
  | cons key new ih =>
      rw [List.length_cons] at hroom
      have hinsert := hsorted.orderedInsert (r := (· ≤ ·)) key
      refine (run_cons _).mpr ⟨⟨keys.orderedInsert (· ≤ ·) key, removed⟩, if_pos (by
        show keys.length < capacity
        omega), ?_⟩
      rw [ih _ (by rw [List.orderedInsert_length]; omega) hinsert]
      rw [insertionSort_congr
        (((List.perm_orderedInsert _ key keys).append_left new).trans List.perm_middle)]
      rfl

end SortedQueue

namespace MinHeap

open Libiak.Heap (Ordered)

/-! ## The heap is one -/

section Keys

variable {T K : Type*} [LinearOrder K] (key : T → K)

/-- The comparison of keys. -/
def byKey (x y : T) : Bool := decide (key x < key y)

instance : IsStrictWeakOrder T (Less (byKey key)) where
  irrefl x h := lt_irrefl _ (of_decide_eq_true h)
  trans x y z h1 h2 := decide_eq_true (lt_trans (of_decide_eq_true h1) (of_decide_eq_true h2))
  incomp_trans x y z h1 h2 := by
    simp only [Less, byKey, decide_eq_true_eq, not_lt] at *
    exact ⟨le_trans h2.1 h1.1, le_trans h1.2 h2.2⟩

/-- The keys in the heap, sorted, and those removed. -/
def sorted (c : Calls T) : SortedQueue K :=
  ⟨(c.heap_.toList.map key).insertionSort (· ≤ ·), c.removed.map key⟩

/-- A call, with the key of its element. -/
def Call.map : Call T → Call K
  | .insert node => .insert (key node)
  | .remove => .remove

variable {key} {sizeof : ℕ} {c c' : Calls T}

/-- The keys, whichever way they are stored. -/
theorem sorted_of_perm {b : Array T} {l : List T} (h : b.toList.Perm l)
    (inserted removed : List T) :
    sorted key ⟨b, inserted, removed⟩
      = ⟨(l.map key).insertionSort (· ≤ ·), removed.map key⟩ := by
  unfold sorted
  rw [SortedQueue.insertionSort_congr (h.map key)]

/-- One call. -/
theorem sorted_step {e : Call T} (h : Shape (byKey key) sizeof c)
    (hstep : step (byKey key) sizeof c e = some c') :
    Shape (byKey key) sizeof c'
      ∧ (sorted key c).step (max_size sizeof) (e.map key) = some (sorted key c') := by
  have hmax := max_size_lt sizeof
  have hlength : (sorted key c).keys.length = c.heap_.size := by
    show ((c.heap_.toList.map key).insertionSort (· ≤ ·)).length = c.heap_.size
    rw [List.length_insertionSort, List.length_map, Array.length_toList]
  cases e with
  | insert node =>
      obtain ⟨d, hd, hshape⟩ := shape_insert h node
      obtain rfl := Option.some.inj (hstep.symm.trans hd)
      refine ⟨hshape, ?_⟩
      show (if (sorted key c).keys.length < max_size sizeof then _ else _) = _
      rw [hlength]
      by_cases hfull : c.heap_.size < max_size sizeof
      · obtain ⟨b, hb, -, hperm⟩ := insert_spec h.order hfull node
        simp only [step, hb, Option.some_inj] at hstep
        subst hstep
        have hkeys : b.toList.Perm (node :: c.heap_.toList) := by
          refine (Array.perm_iff_toList_perm.mp hperm).trans ?_
          rw [Array.toList_push]
          exact List.perm_append_singleton node _
        rw [if_pos hfull, sorted_of_perm hkeys]
        rfl
      · have herr : insert (byKey key) sizeof c.heap_ node = .error .length_error := if_neg hfull
        simp only [step, herr, Option.some_inj] at hstep
        subst hstep
        rw [if_neg hfull]
  | remove =>
      have hpos : 0 < c.heap_.size := by
        by_contra hempty
        have hnone : remove (byKey key) c.heap_ = none := dif_neg hempty
        rw [step, hnone] at hstep
        cases hstep
      obtain ⟨d, hd, hshape⟩ := shape_remove h hpos
      obtain rfl := Option.some.inj (hstep.symm.trans hd)
      refine ⟨hshape, ?_⟩
      obtain ⟨b, hb, -, hperm⟩ := remove_spec h.order hpos (Nat.lt_of_le_of_lt h.size_le hmax)
      simp only [step, hb, Option.map_some, Option.some_inj] at hstep
      subst hstep
      have hkeys : c.heap_.toList.Perm (c.heap_[0] :: b.toList) := by
        refine (Array.perm_iff_toList_perm.mp hperm).symm.trans ?_
        rw [Array.toList_push]
        exact List.perm_append_singleton _ _
      have hleast : ∀ k ∈ b.toList.map key, key c.heap_[0] ≤ k := by
        intro k hk
        obtain ⟨y, hy, rfl⟩ := List.mem_map.mp hk
        have hmem : y ∈ c.heap_ := Array.mem_def.mpr (hkeys.mem_iff.mpr (List.mem_cons_of_mem _ hy))
        have hle := ordered_least h.order c.heap_[0] (Array.getElem?_eq_getElem hpos) y hmem
        unfold Less byKey at hle
        rw [decide_eq_true_iff, not_lt] at hle
        exact hle
      have hsorted : sorted key c
          = ⟨key c.heap_[0] :: (b.toList.map key).insertionSort (· ≤ ·), c.removed.map key⟩ := by
        obtain ⟨heap_, inserted, removed⟩ := c
        rw [sorted_of_perm hkeys, List.map_cons, List.insertionSort_cons_of_forall_rel _ hleast]
      rw [hsorted]
      show some _ = some _
      rw [sorted_of_perm (List.Perm.refl b.toList), List.map_append]
      rfl

theorem sorted_run {es : List (Call T)} (h : Shape (byKey key) sizeof c)
    (hrun : run (step (byKey key) sizeof) c es = some c') :
    run (SortedQueue.step (max_size sizeof)) (sorted key c) (es.map (Call.map key))
      = some (sorted key c') := by
  obtain ⟨-, hsim⟩ := run_visible (SortedQueue.step (max_size sizeof)) (sorted key)
    (fun e => some (Call.map key e)) (I := Shape (byKey key) sizeof)
    (fun c e c' h hs => by
      obtain ⟨hshape, hq⟩ := sorted_step h hs
      exact ⟨hshape, (run_cons _).mpr ⟨_, hq, rfl⟩⟩) h hrun
  rw [← hsim, List.filterMap_eq_map']

/-- **A heap is a sorted list to its user.** For every element type with a key of a linear
order, and every sequence of calls that gets through: the keys that come out, and those that
are left, are those of a sorted list that is used in the same way. -/
theorem calls_sorted (key : T → K) (sizeof : ℕ) {es : List (Call T)}
    (hrun : run (step (byKey key) sizeof) Calls.init es = some c) :
    ∃ q, run (SortedQueue.step (max_size sizeof)) ⟨[], []⟩ (es.map (Call.map key)) = some q
      ∧ c.removed.map key = q.removed ∧ (c.heap_.toList.map key).Perm q.keys :=
  ⟨sorted key c, sorted_run (shape_init sizeof) hrun, rfl, (List.perm_insertionSort _ _).symm⟩

/-- Keys that are equal, and a queue that is used while it is emptied. -/
theorem calls_sorted_equal : ∃ c q, run (step (byKey fun x : ℕ => x / 10) 8) Calls.init
      [.insert 31, .insert 12, .insert 35, .remove, .insert 7, .remove, .remove] = some c
    ∧ run (SortedQueue.step (max_size 8)) ⟨[], []⟩
      [.insert 3, .insert 1, .insert 3, .remove, .insert 0, .remove, .remove] = some q
    ∧ c.removed.map (fun x : ℕ => x / 10) = q.removed
    ∧ (c.heap_.toList.map fun x : ℕ => x / 10).Perm q.keys := by
  obtain ⟨c, hc⟩ := Option.isSome_iff_exists.mp (show (run (step (byKey fun x : ℕ => x / 10) 8)
    Calls.init [.insert 31, .insert 12, .insert 35, .remove, .insert 7, .remove,
      .remove]).isSome = true by decide +kernel)
  obtain ⟨q, hq, hremoved, hkeys⟩ := calls_sorted (fun x : ℕ => x / 10) 8 hc
  exact ⟨c, q, hc, hq, hremoved, hkeys⟩

/-- A heap that is filled. -/
theorem run_insert_all {nodes : List T} (h : Shape (byKey key) sizeof c)
    (hroom : c.heap_.size + nodes.length ≤ max_size sizeof) :
    ∃ c', run (step (byKey key) sizeof) c (nodes.map .insert) = some c'
      ∧ Shape (byKey key) sizeof c' ∧ c'.heap_.size = c.heap_.size + nodes.length := by
  induction nodes generalizing c with
  | nil => exact ⟨c, rfl, h, rfl⟩
  | cons node nodes ih =>
      rw [List.length_cons] at hroom
      have hfull : c.heap_.size < max_size sizeof := by omega
      obtain ⟨b, hb, -, hperm⟩ := insert_spec h.order hfull node
      obtain ⟨d, hd, hshape⟩ := shape_insert h node
      have hsize : d.heap_.size = c.heap_.size + 1 := by
        simp only [step, hb, Option.some_inj] at hd
        subst hd
        exact hperm.size_eq.trans (Array.size_push node)
      obtain ⟨c', hc', hshape', hsize'⟩ := ih hshape (by omega)
      refine ⟨c', (run_cons _).mpr ⟨d, hd, hc'⟩, hshape', ?_⟩
      rw [hsize', hsize, List.length_cons]
      omega

/-- And emptied. -/
theorem run_remove_all {nodes : List T} (h : Shape (byKey key) sizeof c)
    (hsize : c.heap_.size = nodes.length) :
    ∃ c', run (step (byKey key) sizeof) c (nodes.map fun _ => .remove) = some c'
      ∧ Shape (byKey key) sizeof c' := by
  induction nodes generalizing c with
  | nil => exact ⟨c, rfl, h⟩
  | cons node nodes ih =>
      have hmax := max_size_lt sizeof
      rw [List.length_cons] at hsize
      have hpos : 0 < c.heap_.size := by omega
      obtain ⟨b, hb, -, hperm⟩ := remove_spec h.order hpos (Nat.lt_of_le_of_lt h.size_le hmax)
      obtain ⟨d, hd, hshape⟩ := shape_remove h hpos
      have hsize' : d.heap_.size = nodes.length := by
        simp only [step, hb, Option.map_some, Option.some_inj] at hd
        subst hd
        have := hperm.size_eq
        rw [Array.size_push] at this
        show b.size = nodes.length
        omega
      obtain ⟨c', hc', hshape'⟩ := ih hshape hsize'
      exact ⟨c', (run_cons _).mpr ⟨d, hd, hc'⟩, hshape'⟩

/-- **Filled and emptied, a heap sorts.** -/
theorem drain_sorts (key : T → K) {sizeof : ℕ} {nodes : List T}
    (hroom : nodes.length ≤ max_size sizeof) :
    ∃ c, run (step (byKey key) sizeof) Calls.init
        (nodes.map .insert ++ nodes.map fun _ => .remove) = some c
      ∧ c.removed.map key = (nodes.map key).insertionSort (· ≤ ·) := by
  have hinit : Shape (byKey key) sizeof (Calls.init : Calls T) := shape_init sizeof
  have hcapacity : (Calls.init : Calls T).heap_.size + nodes.length ≤ max_size sizeof := by
    rw [show (Calls.init : Calls T).heap_.size = 0 from rfl, Nat.zero_add]
    exact hroom
  obtain ⟨d, hd, hshape, hsize⟩ := run_insert_all hinit hcapacity
  obtain ⟨c, hc, -⟩ := run_remove_all hshape (hsize.trans (Nat.zero_add _))
  have hrun := (run_append _).mpr ⟨d, hd, hc⟩
  refine ⟨c, hrun, ?_⟩
  -- what the sorted list does with the same calls
  have hcalls : (nodes.map Call.insert ++ nodes.map fun _ => Call.remove).map (Call.map key)
      = (nodes.map key).map .insert
        ++ ((nodes.map key).insertionSort (· ≤ ·)).map fun _ => .remove := by
    have hinserts : (nodes.map Call.insert).map (Call.map key) = (nodes.map key).map .insert := by
      rw [List.map_map, List.map_map]
      rfl
    have hremoves : (nodes.map fun _ => Call.remove).map (Call.map key)
        = ((nodes.map key).insertionSort (· ≤ ·)).map fun _ => .remove := by
      rw [List.map_map, List.map_const', List.length_insertionSort, List.length_map]
      exact List.map_const'
    rw [List.map_append, hinserts, hremoves]
  have hinserts := SortedQueue.run_inserts (max_size sizeof) (nodes.map key) [] []
    (by rw [List.length_map, List.length_nil, Nat.zero_add]; exact hroom) List.Pairwise.nil
  have hremoves := SortedQueue.run_removes (max_size sizeof)
    ((nodes.map key).insertionSort (· ≤ ·)) []
  rw [List.append_nil] at hinserts
  have hlist := (run_append _).mpr ⟨_, hinserts, hremoves⟩
  have hsorted := sorted_run hinit hrun
  rw [hcalls] at hsorted
  have heq := Option.some.inj (hsorted.symm.trans hlist)
  exact congrArg SortedQueue.removed heq

end Keys

/-! ## How many turns the loops take -/

section Turns

variable {T : Type*} (comp_ : T → T → Bool)

/-- From `index` the way up is as long as the tree is deep there. -/
theorem siftup.loop_turns {fuel : ℕ} {heap_ : Array T} {index : ℕ} (hindex : index < heap_.size)
    (hsize : heap_.size < 2 ^ 63) (hfuel : Nat.log 2 (index + 1) < fuel) :
    ∃ b, b.Perm heap_ ∧ ∀ more, siftup.loop comp_ (fuel + more) heap_ index
      (size_t.sub index 1 / 2) = some b := by
  induction fuel generalizing heap_ index with
  | zero => omega
  | succ fuel ih =>
      by_cases h0 : 0 < index
      · have hparent := half_eq_parent h0 (by omega : index < 2 ^ 64)
        have hp : Heap.parent index < heap_.size :=
          Nat.lt_trans (Heap.parent_lt h0) hindex
        by_cases hcomp : comp_ heap_[index] heap_[Heap.parent index]
        · have hdepth : Nat.log 2 (index + 1) = Nat.log 2 (Heap.parent index + 1) + 1 := by
            have hhalf : (index + 1) / 2 = Heap.parent index + 1 := by
              unfold Heap.parent
              omega
            rw [← hhalf]
            exact Nat.log_of_one_lt_of_le Nat.one_lt_two (by omega)
          have hp' : Heap.parent index < (heap_.swap (Heap.parent index) index hp hindex).size := by
            rw [Array.size_swap]
            exact hp
          obtain ⟨b, hperm, hb⟩ := ih hp' (by rw [Array.size_swap]; exact hsize) (by omega)
          refine ⟨b, hperm.trans (Array.swap_perm hp hindex), fun more => ?_⟩
          rw [Nat.succ_add_eq_add_succ, hparent, Nat.add_succ, siftup.loop, if_pos h0,
            dif_pos ⟨hindex, hp⟩, if_pos hcomp]
          exact hb more
        · refine ⟨heap_, Array.Perm.refl _, fun more => ?_⟩
          rw [hparent, Nat.add_right_comm, siftup.loop, if_pos h0, dif_pos ⟨hindex, hp⟩,
            if_neg hcomp]
      · refine ⟨heap_, Array.Perm.refl _, fun more => ?_⟩
        rw [Nat.add_right_comm, siftup.loop, if_neg h0]

/-- One of the two children is picked, whatever the comparison says. -/
theorem siftdown.pick_child {heap_ : Array T} {index : ℕ} (hchild : index * 2 + 1 < heap_.size)
    (hsize : heap_.size < 2 ^ 63) :
    ∃ c, siftdown.pick comp_ heap_ (index * 2 + 1) = some c ∧ index * 2 + 1 ≤ c
      ∧ c < heap_.size := by
  have hlast : size_t.sub heap_.size 1 = heap_.size - 1 := size_t.sub_one (by omega) (by omega)
  unfold siftdown.pick
  rw [hlast]
  by_cases htwo : index * 2 + 1 < heap_.size - 1
  · have hright : size_t (index * 2 + 1 + 1) = index * 2 + 2 := size_t_eq (by omega)
    have hr : index * 2 + 2 < heap_.size := by omega
    simp only [if_pos htwo, hright, dif_pos (And.intro hr hchild)]
    split
    · exact ⟨index * 2 + 2, rfl, by omega, hr⟩
    · exact ⟨index * 2 + 1, rfl, Nat.le_refl _, hchild⟩
  · exact ⟨index * 2 + 1, if_neg htwo, Nat.le_refl _, hchild⟩

/-- From `index` the way down is as long as the tree is deep below. -/
theorem siftdown.loop_turns {fuel : ℕ} {heap_ : Array T} {index : ℕ} (hindex : index ≤ heap_.size)
    (hsize : heap_.size < 2 ^ 63) (hpos : 0 < fuel)
    (hfuel : Nat.log 2 heap_.size < fuel + Nat.log 2 (index + 1)) :
    ∃ b, b.Perm heap_ ∧ ∀ more, siftdown.loop comp_ (fuel + more) heap_ index
      (size_t (index * 2 + 1)) = some b := by
  induction fuel generalizing heap_ index with
  | zero => exact absurd hpos (Nat.lt_irrefl 0)
  | succ fuel ih =>
      rw [size_t_eq (by omega : index * 2 + 1 < 2 ^ 64)]
      by_cases hchild : index * 2 + 1 < heap_.size
      · obtain ⟨c, hpick, hle, hc⟩ : ∃ c, siftdown.pick comp_ heap_ (index * 2 + 1) = some c ∧ _ :=
          siftdown.pick_child comp_ hchild hsize
        have hi : index < heap_.size := by omega
        by_cases hcomp : comp_ heap_[c] heap_[index]
        · -- the child is one level down, and still in the tree
          have hdepth : Nat.log 2 (index + 1) + 1 ≤ Nat.log 2 (c + 1) := by
            have hlog : Nat.log 2 (index * 2 + 2) = Nat.log 2 (index + 1) + 1 := by
              have hhalf : (index * 2 + 2) / 2 = index + 1 := by omega
              rw [Nat.log_of_one_lt_of_le Nat.one_lt_two (by omega), hhalf]
            rw [← hlog]
            exact Nat.log_mono_right (by omega)
          have hlevels : Nat.log 2 (c + 1) ≤ Nat.log 2 heap_.size := Nat.log_mono_right hc
          have hc' : c ≤ (heap_.swap index c hi hc).size := by
            rw [Array.size_swap]
            exact Nat.le_of_lt hc
          obtain ⟨b, hperm, hb⟩ := ih hc' (by rw [Array.size_swap]; exact hsize) (by omega)
            (by rw [Array.size_swap]; omega)
          refine ⟨b, hperm.trans (Array.swap_perm hi hc), fun more => ?_⟩
          rw [Nat.add_right_comm, siftdown.loop, if_pos hchild, hpick, Option.bind_some,
            dif_pos ⟨hc, hi⟩, if_pos hcomp]
          exact hb more
        · refine ⟨heap_, Array.Perm.refl _, fun more => ?_⟩
          rw [Nat.add_right_comm, siftdown.loop, if_pos hchild, hpick, Option.bind_some,
            dif_pos ⟨hc, hi⟩, if_neg hcomp]
      · refine ⟨heap_, Array.Perm.refl _, fun more => ?_⟩
        rw [Nat.add_right_comm, siftdown.loop, if_neg hchild]

/-- **As many turns as levels.** For every comparison, even one that is no order, and every
vector: the loops of `siftup` and `siftdown` end after no more turns than the tree has levels,
look at no index outside of the vector, and leave its elements in it. -/
theorem sift_turns (comp_ : T → T → Bool) {heap_ : Array T} (hsize : heap_.size < 2 ^ 63) :
    (0 < heap_.size → ∃ b, siftup comp_ heap_ = some b ∧ b.Perm heap_
        ∧ siftup.loop comp_ (Nat.log 2 heap_.size + 1) heap_ (heap_.size - 1)
          (size_t.sub (heap_.size - 1) 1 / 2) = some b)
      ∧ ∃ b, siftdown comp_ heap_ = some b ∧ b.Perm heap_
        ∧ siftdown.loop comp_ (Nat.log 2 heap_.size + 1) heap_ 0 (size_t (0 * 2 + 1)) = some b := by
  have hlevels := Nat.log_le_self 2 heap_.size
  obtain ⟨more, hmore⟩ : ∃ more, heap_.size + 1 = Nat.log 2 heap_.size + 1 + more :=
    Nat.exists_eq_add_of_le (Nat.succ_le_succ hlevels)
  constructor
  · intro hpos
    have hlast : size_t.sub heap_.size 1 = heap_.size - 1 := size_t.sub_one hpos (by omega)
    have hfuel : Nat.log 2 (heap_.size - 1 + 1) < Nat.log 2 heap_.size + 1 := by
      rw [Nat.sub_add_cancel hpos]
      exact Nat.lt_succ_self _
    obtain ⟨b, hperm, hb⟩ :=
      siftup.loop_turns comp_ (Nat.sub_lt hpos Nat.one_pos) hsize hfuel
    refine ⟨b, ?_, hperm, hb 0⟩
    unfold siftup
    rw [hlast]
    dsimp only
    rw [hmore]
    exact hb more
  · have hfuel : Nat.log 2 heap_.size < Nat.log 2 heap_.size + 1 + Nat.log 2 (0 + 1) := by
      omega
    obtain ⟨b, hperm, hb⟩ :=
      siftdown.loop_turns comp_ (Nat.zero_le _) hsize (Nat.succ_pos _) hfuel
    refine ⟨b, ?_, hperm, hb 0⟩
    unfold siftdown
    rw [hmore]
    exact hb more

/-- A comparison that always says yes. -/
theorem sift_turns_always :
    (∃ b, siftup (fun _ _ : ℕ => true) #[3, 1, 2] = some b ∧ b.Perm #[3, 1, 2]
        ∧ siftup.loop (fun _ _ => true) 2 #[3, 1, 2] 2 0 = some b)
      ∧ ∃ b, siftdown (fun _ _ : ℕ => true) #[3, 1, 2] = some b ∧ b.Perm #[3, 1, 2]
        ∧ siftdown.loop (fun _ _ => true) 2 #[3, 1, 2] 0 1 = some b := by
  have hlog : Nat.log 2 3 = 1 := by decide
  obtain ⟨hup, hdown⟩ := sift_turns (fun _ _ : ℕ => true)
    (show (#[3, 1, 2] : Array ℕ).size < 2 ^ 63 by decide)
  simp only [List.size_toArray, List.length_cons, List.length_nil, Nat.zero_add, Nat.reduceAdd,
    hlog] at hup hdown
  exact ⟨hup (by decide), hdown⟩

end Turns

end MinHeap

end Libiak.Util
