/-
The priority queue of `src/util/MinHeap.h`.

The vector is an array, and `none` is what the language leaves undefined: an
index outside of the vector, `front()` of an empty one, and (the loops are given
a number of turns) a loop that does not end. Indices are `size_t` and wrap:
`siftup` computes `(index - 1) / 2` before it knows that `index` is positive, so
for a heap of one element the parent is 2⁶³ - 1, which must not be looked at.

What the loops keep is in `Libiak.Heap`: one rule for a turn and one for the
end. Here the two are put together over the indices as the program computes
them, which needs that a vector has fewer than 2⁶³ elements.
-/
import Libiak.Heap
import Libiak.Run
import Mathlib.Algebra.Group.Nat.Defs
import Mathlib.Data.Multiset.AddSub

set_option autoImplicit false

namespace Libiak.Util

open Libiak.Heap (NotLess Ordered UpTo DownFrom IsChild isChild_iff notLess_of_get parent_lt)
open Libiak.Run

/-! ## `size_t` -/

/-- A result of type `size_t`. -/
def size_t (n : ℕ) : ℕ := n % 2 ^ 64

/-- Subtraction of `size_t`, which wraps below zero. -/
def size_t.sub (m n : ℕ) : ℕ := size_t (m + (2 ^ 64 - n))

theorem size_t_eq {n : ℕ} (h : n < 2 ^ 64) : size_t n = n := Nat.mod_eq_of_lt h

theorem size_t.sub_one {n : ℕ} (h0 : 0 < n) (h : n ≤ 2 ^ 64) : size_t.sub n 1 = n - 1 := by
  unfold size_t.sub size_t
  omega

namespace MinHeap

variable {T : Type*} (comp_ : T → T → Bool)

/-! ## The functions of the class -/

/-- `siftup` is at `index`, and has computed `parent`. -/
def siftup.loop : ℕ → Array T → ℕ → ℕ → Option (Array T)
  | 0, _, _, _ => none
  | fuel + 1, heap_, index, parent =>
      if 0 < index then
        if h : index < heap_.size ∧ parent < heap_.size then
          have hi := h.1
          have hp := h.2
          if comp_ heap_[index] heap_[parent] then
            siftup.loop fuel (heap_.swap parent index hp hi) parent (size_t.sub parent 1 / 2)
          else some heap_
        else none
      else some heap_

def siftup (heap_ : Array T) : Option (Array T) :=
  let index := size_t.sub heap_.size 1
  siftup.loop comp_ (heap_.size + 1) heap_ index (size_t.sub index 1 / 2)

/-- The smaller of the children `child` and `child + 1`, if there are two. -/
def siftdown.pick (heap_ : Array T) (child : ℕ) : Option ℕ :=
  if child < size_t.sub heap_.size 1 then
    if h : size_t (child + 1) < heap_.size ∧ child < heap_.size then
      have hr := h.1
      have hl := h.2
      if comp_ heap_[size_t (child + 1)] heap_[child] then some (size_t (child + 1))
      else some child
    else none
  else some child

/-- `siftdown` is at `index`, and has computed the left `child`. -/
def siftdown.loop : ℕ → Array T → ℕ → ℕ → Option (Array T)
  | 0, _, _, _ => none
  | fuel + 1, heap_, index, left =>
      if left < heap_.size then
        (siftdown.pick comp_ heap_ left).bind fun child =>
          if h : child < heap_.size ∧ index < heap_.size then
            have hc := h.1
            have hi := h.2
            if comp_ heap_[child] heap_[index] then
              siftdown.loop fuel (heap_.swap index child hi hc) child (size_t (child * 2 + 1))
            else some heap_
          else none
      else some heap_

def siftdown (heap_ : Array T) : Option (Array T) :=
  siftdown.loop comp_ (heap_.size + 1) heap_ 0 (size_t (0 * 2 + 1))

/-- The largest size of a vector whose elements take `sizeof` bytes each. -/
def max_size (sizeof : ℕ) : ℕ := (2 ^ 63 - 1) / sizeof

/-- How a call can fail: `push_back` throws, and leaves the vector as it was,
or the program is undefined. -/
inductive Fault
  | length_error
  | undefined
  deriving DecidableEq

def insert (sizeof : ℕ) (heap_ : Array T) (node : T) : Except Fault (Array T) :=
  if heap_.size < max_size sizeof then
    match siftup comp_ (heap_.push node) with
    | some heap_ => .ok heap_
    | none => .error .undefined
  else .error .length_error

/-- `heap_.front()`. -/
def min (heap_ : Array T) : Option T := heap_[0]?

def remove (heap_ : Array T) : Option (T × Array T) :=
  if h : 0 < heap_.size then
    have hback : heap_.size - 1 < heap_.size := Nat.sub_lt h Nat.one_pos
    let node := heap_[0]
    (siftdown comp_ (heap_.set 0 heap_[heap_.size - 1] h).pop).map fun heap_ => (node, heap_)
  else none

/-! ## The loops -/

section StrictWeakOrder

variable {comp_}

/-- `comp_`, as a relation. -/
def Less (comp_ : T → T → Bool) (x y : T) : Prop := comp_ x y = true

variable [IsStrictWeakOrder T (Less comp_)]

theorem half_eq_parent {index : ℕ} (h0 : 0 < index) (h : index < 2 ^ 64) :
    size_t.sub index 1 / 2 = Heap.parent index := by
  rw [size_t.sub_one h0 (Nat.le_of_lt h)]
  rfl

/-- From any index the loop ends within the vector, in order. -/
theorem siftup.loop_spec {fuel : ℕ} {heap_ : Array T} {index parent : ℕ}
    (h : UpTo (Less comp_) heap_ index) (hindex : index < heap_.size)
    (hsize : heap_.size < 2 ^ 63) (hparent : parent = size_t.sub index 1 / 2)
    (hfuel : index < fuel) :
    ∃ b, siftup.loop comp_ fuel heap_ index parent = some b ∧ Ordered (Less comp_) b
      ∧ b.Perm heap_ := by
  induction fuel generalizing heap_ index parent with
  | zero => exact absurd hfuel (Nat.not_lt_zero _)
  | succ fuel ih =>
      by_cases h0 : 0 < index
      · rw [half_eq_parent h0 (by omega)] at hparent
        subst hparent
        have hlt : Heap.parent index < index := parent_lt h0
        have hp : Heap.parent index < heap_.size := Nat.lt_trans hlt hindex
        by_cases hcomp : comp_ heap_[index] heap_[Heap.parent index]
        · obtain ⟨b, hb, hord, hperm⟩ := ih (h.swap h0 hp hindex hcomp)
            (by rw [Array.size_swap]; exact hp) (by rw [Array.size_swap]; exact hsize)
            rfl (by omega)
          refine ⟨b, ?_, hord, hperm.trans (Array.swap_perm hp hindex)⟩
          rw [siftup.loop, if_pos h0, dif_pos ⟨hindex, hp⟩, if_pos hcomp]
          exact hb
        · refine ⟨heap_, ?_, h.ordered (fun _ => notLess_of_get hindex hp hcomp),
            Array.Perm.refl _⟩
          rw [siftup.loop, if_pos h0, dif_pos ⟨hindex, hp⟩, if_neg hcomp]
      -- at the root the parent was computed, but is not looked at
      · refine ⟨heap_, ?_, h.ordered (fun hpos => absurd hpos h0), Array.Perm.refl _⟩
        rw [siftup.loop, if_neg h0]

/-- The child that is picked is not larger than any other. -/
theorem siftdown.pick_spec {heap_ : Array T} {index : ℕ} (hchild : index * 2 + 1 < heap_.size)
    (hsize : heap_.size < 2 ^ 63) :
    ∃ c, siftdown.pick comp_ heap_ (index * 2 + 1) = some c ∧ IsChild c index ∧ c < heap_.size
      ∧ ∀ d, IsChild d index → NotLess (Less comp_) heap_ d c := by
  have hself : ∀ i, NotLess (Less comp_) heap_ i i := by
    intro i x y hx hy
    rw [hx, Option.some_inj] at hy
    rw [← hy]
    exact irrefl_of (Less comp_) x
  have hlast : size_t.sub heap_.size 1 = heap_.size - 1 := size_t.sub_one (by omega) (by omega)
  unfold siftdown.pick
  rw [hlast]
  by_cases htwo : index * 2 + 1 < heap_.size - 1
  · have hright : size_t (index * 2 + 1 + 1) = index * 2 + 2 := size_t_eq (by omega)
    have hr : index * 2 + 2 < heap_.size := by omega
    simp only [if_pos htwo, hright, dif_pos (And.intro hr hchild)]
    by_cases hcomp : comp_ heap_[index * 2 + 2] heap_[index * 2 + 1]
    · refine ⟨index * 2 + 2, by rw [if_pos hcomp], isChild_iff.mpr (Or.inr rfl), hr, ?_⟩
      intro d hd
      rcases isChild_iff.mp hd with rfl | rfl
      · exact notLess_of_get hchild hr (asymm_of (Less comp_) hcomp)
      · exact hself _
    · refine ⟨index * 2 + 1, by rw [if_neg hcomp], isChild_iff.mpr (Or.inl rfl), hchild, ?_⟩
      intro d hd
      rcases isChild_iff.mp hd with rfl | rfl
      · exact hself _
      · exact notLess_of_get hr hchild hcomp
  -- there is no right child
  · refine ⟨index * 2 + 1, by rw [if_neg htwo], isChild_iff.mpr (Or.inl rfl), hchild, ?_⟩
    intro d hd
    rcases isChild_iff.mp hd with rfl | rfl
    · exact hself _
    · intro x y hx
      have := (Array.getElem?_eq_some_iff.mp hx).1
      omega

/-- From any index the loop ends within the vector, in order; the vector may be
empty. -/
theorem siftdown.loop_spec {fuel : ℕ} {heap_ : Array T} {index left : ℕ}
    (h : DownFrom (Less comp_) heap_ index) (hindex : index ≤ heap_.size)
    (hsize : heap_.size < 2 ^ 63) (hleft : left = size_t (index * 2 + 1))
    (hfuel : heap_.size < fuel + index) :
    ∃ b, siftdown.loop comp_ fuel heap_ index left = some b ∧ Ordered (Less comp_) b
      ∧ b.Perm heap_ := by
  induction fuel generalizing heap_ index left with
  | zero => omega
  | succ fuel ih =>
      rw [size_t_eq (by omega)] at hleft
      subst hleft
      by_cases hchild : index * 2 + 1 < heap_.size
      · obtain ⟨c, hpick, hc, hcsize, hmin⟩ :
            ∃ c, siftdown.pick comp_ heap_ (index * 2 + 1) = some c ∧ _ :=
          siftdown.pick_spec hchild hsize
        have hi : index < heap_.size := by omega
        have hlt := hc.lt
        by_cases hcomp : comp_ heap_[c] heap_[index]
        · obtain ⟨b, hb, hord, hperm⟩ := ih (h.swap hc hi hcsize hmin hcomp)
            (by rw [Array.size_swap]; exact Nat.le_of_lt hcsize)
            (by rw [Array.size_swap]; exact hsize) rfl (by rw [Array.size_swap]; omega)
          refine ⟨b, ?_, hord, hperm.trans (Array.swap_perm hi hcsize)⟩
          rw [siftdown.loop, if_pos hchild, hpick, Option.bind_some, dif_pos ⟨hcsize, hi⟩,
            if_pos hcomp]
          exact hb
        · refine ⟨heap_, ?_, h.ordered ?_, Array.Perm.refl _⟩
          · rw [siftdown.loop, if_pos hchild, hpick, Option.bind_some, dif_pos ⟨hcsize, hi⟩,
              if_neg hcomp]
          · intro d hd
            exact (hmin d hd).trans (notLess_of_get hcsize hi hcomp) hcsize
      · refine ⟨heap_, by rw [siftdown.loop, if_neg hchild], h.ordered ?_, Array.Perm.refl _⟩
        intro d hd x y hx
        have hd' := (Array.getElem?_eq_some_iff.mp hx).1
        have := isChild_iff.mp hd
        omega

/-! ## The calls -/

theorem max_size_lt (sizeof : ℕ) : max_size sizeof < 2 ^ 63 := by
  unfold max_size
  have := Nat.div_le_self (2 ^ 63 - 1) sizeof
  omega

/-- A call of `insert` on a vector that is not full. -/
theorem insert_spec {sizeof : ℕ} {heap_ : Array T} (h : Ordered (Less comp_) heap_)
    (hsize : heap_.size < max_size sizeof) (node : T) :
    ∃ b, insert comp_ sizeof heap_ node = .ok b ∧ Ordered (Less comp_) b
      ∧ b.Perm (heap_.push node) := by
  have hmax := max_size_lt sizeof
  have hlast : size_t.sub (heap_.push node).size 1 = heap_.size := by
    rw [Array.size_push, size_t.sub_one (Nat.succ_pos _) (by omega)]
    omega
  obtain ⟨b, hb, hord, hperm⟩ : ∃ b, siftup.loop comp_ ((heap_.push node).size + 1)
      (heap_.push node) heap_.size (size_t.sub heap_.size 1 / 2) = some b ∧ _ :=
    siftup.loop_spec (h.push node) (by rw [Array.size_push]; omega) (by rw [Array.size_push]; omega)
    rfl (by rw [Array.size_push]; omega)
  refine ⟨b, ?_, hord, hperm⟩
  have hup : siftup comp_ (heap_.push node) = some b := by
    unfold siftup
    rw [hlast]
    exact hb
  unfold insert
  rw [if_pos hsize, hup]

/-- A call of `remove` on a heap that is not empty. -/
theorem remove_spec {heap_ : Array T} (h : Ordered (Less comp_) heap_) (hpos : 0 < heap_.size)
    (hsize : heap_.size < 2 ^ 63) :
    ∃ b, remove comp_ heap_ = some (heap_[0], b) ∧ Ordered (Less comp_) b
      ∧ (b.push heap_[0]).Perm heap_ := by
  have hlast : heap_.size - 1 < heap_.size := Nat.sub_lt hpos Nat.one_pos
  have hdown := (h.setRoot heap_[heap_.size - 1] hpos).pop
  obtain ⟨b, hb, hord, hperm⟩ := siftdown.loop_spec hdown (Nat.zero_le _)
    (by rw [Array.size_pop, Array.size_set]; omega) rfl
    (Nat.lt_succ_self ((heap_.set 0 heap_[heap_.size - 1] hpos).pop.size + 0))
  refine ⟨b, ?_, hord, ?_⟩
  · unfold remove siftdown
    rw [dif_pos hpos]
    simp only [hb, Option.map_some]
  · have hswap := Array.swap_perm hpos hlast
    rw [← Heap.setRoot_pop_push hpos hlast] at hswap
    exact (hperm.push heap_[0]).trans hswap

end StrictWeakOrder

/-! ## Sequences of calls -/

/-- The calls made on a heap. -/
inductive Call (T : Type*)
  | insert (node : T)
  | remove
  deriving DecidableEq

/-- A heap, with the history of what its calls took in and gave back. -/
structure Calls (T : Type*) where
  heap_ : Array T
  inserted : List T
  removed : List T
  deriving DecidableEq

/-- One call. An `insert` that throws takes nothing in. -/
def step (comp_ : T → T → Bool) (sizeof : ℕ) (c : Calls T) : Call T → Option (Calls T)
  | .insert node =>
      match insert comp_ sizeof c.heap_ node with
      | .ok heap_ => some { c with heap_, inserted := c.inserted ++ [node] }
      | .error .length_error => some c
      | .error .undefined => none
  | .remove => (remove comp_ c.heap_).map fun r =>
      { c with heap_ := r.2, removed := c.removed ++ [r.1] }

/-- The constructor. -/
def Calls.init : Calls T := ⟨#[], [], []⟩

/-- `remove` is called on a heap that is not empty. -/
def NonEmpty (c : Calls T) (e : Call T) : Prop := e = .remove → c.heap_ ≠ #[]

instance [DecidableEq T] (c : Calls T) (e : Call T) : Decidable (NonEmpty c e) :=
  inferInstanceAs (Decidable (_ → _))

/-- A priority queue of what was inserted and has not been removed. -/
structure Queue (comp_ : T → T → Bool) (c : Calls T) : Prop where
  order : Ordered (Less comp_) c.heap_
  contents : (c.heap_.toList : Multiset T) + c.removed = c.inserted
  least : ∀ x, min c.heap_ = some x → ∀ y ∈ c.heap_, ¬ Less comp_ y x

/-- A `remove` returns a stored element that none is smaller than. -/
def Returns (comp_ : T → T → Bool) (c : Calls T) (e : Call T) : Prop :=
  e = .remove → ∃ x b, remove comp_ c.heap_ = some (x, b) ∧ x ∈ c.heap_
    ∧ ∀ y ∈ c.heap_, ¬ Less comp_ y x

section StrictWeakOrder

variable {comp_} [IsStrictWeakOrder T (Less comp_)]

theorem ordered_least {heap_ : Array T} (h : Ordered (Less comp_) heap_) (x : T)
    (hx : min heap_ = some x) (y : T) (hy : y ∈ heap_) : ¬ Less comp_ y x := by
  obtain ⟨i, hi, rfl⟩ := Array.mem_iff_getElem.mp hy
  exact h.root i heap_[i] x (Array.getElem?_eq_getElem hi) hx

/-- What each call keeps. -/
structure Shape (comp_ : T → T → Bool) (sizeof : ℕ) (c : Calls T) : Prop where
  order : Ordered (Less comp_) c.heap_
  size_le : c.heap_.size ≤ max_size sizeof
  contents : (c.heap_.toList : Multiset T) + c.removed = c.inserted

theorem Shape.queue {sizeof : ℕ} {c : Calls T} (h : Shape comp_ sizeof c) : Queue comp_ c :=
  ⟨h.order, h.contents, ordered_least h.order⟩

omit [IsStrictWeakOrder T (Less comp_)] in
theorem shape_init (sizeof : ℕ) : Shape comp_ sizeof (Calls.init : Calls T) := by
  refine ⟨?_, Nat.zero_le _, rfl⟩
  intro i _ x y hx
  simp [Calls.init] at hx

theorem shape_insert {sizeof : ℕ} {c : Calls T} (h : Shape comp_ sizeof c) (node : T) :
    ∃ c', step comp_ sizeof c (.insert node) = some c' ∧ Shape comp_ sizeof c' := by
  by_cases hfull : c.heap_.size < max_size sizeof
  · obtain ⟨b, hb, hord, hperm⟩ := insert_spec h.order hfull node
    refine ⟨{ c with heap_ := b, inserted := c.inserted ++ [node] }, ?_, hord, ?_, ?_⟩
    · simp only [step, hb]
    · have := hperm.size_eq
      rw [Array.size_push] at this
      change b.size ≤ max_size sizeof
      omega
    · have hb' : (b.toList : Multiset T) = c.heap_.toList + [node] := by
        rw [Multiset.coe_add, Multiset.coe_eq_coe, ← Array.toList_push]
        exact Array.perm_iff_toList_perm.mp hperm
      change (b.toList : Multiset T) + c.removed = ((c.inserted ++ [node] : List T) : Multiset T)
      rw [hb', ← Multiset.coe_add, ← h.contents, Multiset.add_assoc, Multiset.add_assoc,
        Multiset.add_comm (c.removed : Multiset T)]
  -- `push_back` throws before anything is changed
  · refine ⟨c, ?_, h⟩
    have herr : insert comp_ sizeof c.heap_ node = .error .length_error := if_neg hfull
    simp only [step, herr]

theorem shape_remove {sizeof : ℕ} {c : Calls T} (h : Shape comp_ sizeof c)
    (hpos : 0 < c.heap_.size) :
    ∃ c', step comp_ sizeof c .remove = some c' ∧ Shape comp_ sizeof c' := by
  have hmax := max_size_lt sizeof
  obtain ⟨b, hb, hord, hperm⟩ := remove_spec h.order hpos (Nat.lt_of_le_of_lt h.size_le hmax)
  refine ⟨{ c with heap_ := b, removed := c.removed ++ [c.heap_[0]] }, ?_, hord, ?_, ?_⟩
  · simp only [step, hb, Option.map_some]
  · have := hperm.size_eq
    rw [Array.size_push] at this
    have := h.size_le
    change b.size ≤ max_size sizeof
    omega
  · have hb' : (c.heap_.toList : Multiset T) = b.toList + [c.heap_[0]] := by
      rw [Multiset.coe_add, Multiset.coe_eq_coe, ← Array.toList_push]
      exact (Array.perm_iff_toList_perm.mp hperm).symm
    change (b.toList : Multiset T) + (c.removed ++ [c.heap_[0]] : List T) = c.inserted
    rw [← Multiset.coe_add, ← h.contents, hb', Multiset.add_assoc,
      Multiset.add_comm (c.removed : Multiset T)]

theorem NonEmpty.size_pos {c : Calls T} (h : NonEmpty c .remove) : 0 < c.heap_.size :=
  Array.size_pos_iff.mpr (h rfl)

theorem shape_step {sizeof : ℕ} {c : Calls T} {e : Call T} (h : Shape comp_ sizeof c)
    (hE : NonEmpty c e) : ∃ c', step comp_ sizeof c e = some c' ∧ Shape comp_ sizeof c' := by
  cases e with
  | insert node => exact shape_insert h node
  | remove => exact shape_remove h hE.size_pos

theorem Shape.returns {sizeof : ℕ} {c : Calls T} {e : Call T} (h : Shape comp_ sizeof c)
    (hE : NonEmpty c e) : Returns comp_ c e := by
  rintro rfl
  have hpos := hE.size_pos
  obtain ⟨b, hb, -, -⟩ := remove_spec h.order hpos
    (Nat.lt_of_le_of_lt h.size_le (max_size_lt sizeof))
  exact ⟨c.heap_[0], b, hb, Array.getElem_mem hpos,
    ordered_least h.order c.heap_[0] (Array.getElem?_eq_getElem hpos)⟩

end StrictWeakOrder

/-- **A heap is a priority queue.** Over any sequence of calls that removes from
no empty heap, each call returns (its loop ends, and stays within the vector),
and leaves a queue of what was inserted and not removed; `min` and `remove` give
an element that none is smaller than. -/
theorem calls_queue (comp_ : T → T → Bool) [IsStrictWeakOrder T (Less comp_)] (sizeof : ℕ)
    (es : List (Call T)) (hE : Along (step comp_ sizeof) NonEmpty Calls.init es) :
    Always (step comp_ sizeof) (Queue comp_) Calls.init es
      ∧ Along (step comp_ sizeof) (Returns comp_) Calls.init es := by
  have hkeep : ∀ (c : Calls T) (e : Call T), Shape comp_ sizeof c → NonEmpty c e →
      ∃ c', step comp_ sizeof c e = some c' ∧ Shape comp_ sizeof c' :=
    fun _ _ => shape_step
  constructor
  · exact always_of_along (fun _ h => h.queue) hkeep (shape_init sizeof) hE
  · exact along_of_inv (fun _ _ h hE => h.returns hE)
      (fun _ _ _ h hE hs => inv_of_progress hkeep h hE hs) (shape_init sizeof) hE

instance : IsStrictWeakOrder ℕ (Less fun x y => decide (x / 10 < y / 10)) where
  irrefl x h := Nat.lt_irrefl _ (of_decide_eq_true h)
  trans x y z h1 h2 := decide_eq_true
    (Nat.lt_trans (of_decide_eq_true h1) (of_decide_eq_true h2))
  incomp_trans x y z h1 h2 := by
    simp only [Less, decide_eq_true_eq] at *
    omega

/-- Two elements that compare equal, and the heap emptied. -/
theorem calls_queue_equal :
    Always (step (fun x y => decide (x / 10 < y / 10)) 8)
        (Queue fun x y => decide (x / 10 < y / 10)) Calls.init
        [.insert 31, .insert 12, .insert 15, .insert 7, .remove, .remove, .remove, .remove]
      ∧ Along (step (fun x y => decide (x / 10 < y / 10)) 8)
        (Returns fun x y => decide (x / 10 < y / 10)) Calls.init
        [.insert 31, .insert 12, .insert 15, .insert 7, .remove, .remove, .remove, .remove] :=
  calls_queue (fun x y => decide (x / 10 < y / 10)) 8
    [.insert 31, .insert 12, .insert 15, .insert 7, .remove, .remove, .remove, .remove]
    (by decide +kernel)

end MinHeap

end Libiak.Util
