/-
Binary heaps in an array, with the order broken at one position.

The array is read as a tree in level order: position `i > 0` hangs below
`parent i`. `Ordered` is the heap order. The two loops that restore it start
from an array that is in order except around one position, the *hole*, and the
facts they keep are `UpTo` (the entry at the hole may be too small for its
parent) and `DownFrom` (it may be too large for its children). For each there
is one rule for a turn of the loop and one for its end; neither names the loop
that uses it.

Order is stated on positions (`NotLess`), not on entries: exchanging two
entries is a permutation of the positions, and the rules are about where the
positions go.
-/
import Mathlib.Logic.Equiv.Basic
import Mathlib.Order.Defs.Unbundled

set_option autoImplicit false

namespace Libiak.Heap

variable {T : Type*} (r : T → T → Prop)

/-! ## Positions -/

/-- The position `i > 0` hangs below. -/
def parent (i : ℕ) : ℕ := (i - 1) / 2

/-- `c` hangs below `i`. -/
def IsChild (c i : ℕ) : Prop := 0 < c ∧ parent c = i

theorem parent_lt {i : ℕ} (h : 0 < i) : parent i < i := by
  unfold parent
  omega

theorem IsChild.lt {c i : ℕ} (h : IsChild c i) : i < c := by
  rw [← h.2]
  exact parent_lt h.1

/-- A position has at most two children. -/
theorem isChild_iff {c i : ℕ} : IsChild c i ↔ c = i * 2 + 1 ∨ c = i * 2 + 2 := by
  unfold IsChild parent
  omega

/-- Exchanging two entries is exchanging their positions. -/
theorem getElem?_swap_eq {a : Array T} {i j : ℕ} (hi : i < a.size) (hj : j < a.size) (k : ℕ) :
    (a.swap i j hi hj)[k]? = a[Equiv.swap i j k]? := by
  rw [Array.getElem?_swap]
  by_cases h1 : j = k
  · subst h1
    rw [if_pos rfl, Equiv.swap_apply_right, Array.getElem?_eq_getElem hi]
  · rw [if_neg h1]
    by_cases h2 : i = k
    · subst h2
      rw [if_pos rfl, Equiv.swap_apply_left, Array.getElem?_eq_getElem hj]
    · rw [if_neg h2, Equiv.swap_apply_of_ne_of_ne (Ne.symm h2) (Ne.symm h1)]

/-- The root replaced by the last entry and put behind the others is the two
exchanged. -/
theorem setRoot_pop_push {a : Array T} (h : 0 < a.size) (hlast : a.size - 1 < a.size) :
    (a.set 0 a[a.size - 1] h).pop.push a[0] = a.swap 0 (a.size - 1) h hlast := by
  ext i hi hi'
  · simp only [Array.size_push, Array.size_pop, Array.size_set, Array.size_swap]
    omega
  · rw [Array.getElem_push, Array.getElem_swap]
    simp only [Array.size_push, Array.size_pop, Array.size_set] at hi
    simp only [Array.size_pop, Array.size_set, Array.getElem_pop, Array.getElem_set]
    -- before the last position both have the entry that was there, or the last one at the root
    by_cases hlt : i < a.size - 1
    · rw [dif_pos hlt, if_neg (Nat.ne_of_lt hlt)]
      by_cases h0 : i = 0
      · rw [if_pos h0.symm, if_pos h0]
      · rw [if_neg (Ne.symm h0), if_neg h0]
    · have hend : i = a.size - 1 := by omega
      rw [dif_neg hlt, if_pos hend]
      by_cases h0 : i = 0
      · rw [if_pos h0]
        exact getElem_congr_idx (by omega)
      · rw [if_neg h0]

/-! ## Order between positions -/

/-- The entry at `i` is not smaller than the entry at `j`, if both exist. -/
def NotLess (a : Array T) (i j : ℕ) : Prop :=
  ∀ x y, a[i]? = some x → a[j]? = some y → ¬ r x y

/-- No entry is smaller than its parent. -/
def Ordered (a : Array T) : Prop := ∀ i, 0 < i → NotLess r a i (parent i)

variable {r}

theorem notLess_of_get {a : Array T} {i j : ℕ} (hi : i < a.size) (hj : j < a.size)
    (h : ¬ r a[i] a[j]) : NotLess r a i j := by
  intro x y hx hy
  rw [Array.getElem?_eq_getElem hi, Option.some_inj] at hx
  rw [Array.getElem?_eq_getElem hj, Option.some_inj] at hy
  rw [← hx, ← hy]
  exact h

theorem notLess_swap {a : Array T} {i j : ℕ} (hi : i < a.size) (hj : j < a.size) {m n : ℕ} :
    NotLess r (a.swap i j hi hj) m n ↔ NotLess r a (Equiv.swap i j m) (Equiv.swap i j n) := by
  unfold NotLess
  rw [getElem?_swap_eq, getElem?_swap_eq]

section StrictWeakOrder

variable [IsStrictWeakOrder T r]

/-- Not being smaller is transitive: this is where a strict weak order is
needed, and a strict partial order would not do. -/
theorem not_lt_trans {x y z : T} (hxy : ¬ r x y) (hyz : ¬ r y z) : ¬ r x z := by
  intro hxz
  by_cases hyx : r y x
  · exact hyz (trans_of r hyx hxz)
  · by_cases hzy : r z y
    · exact hxy (trans_of r hxz hzy)
    · exact (IsStrictWeakOrder.incomp_trans x y z ⟨hxy, hyx⟩ ⟨hyz, hzy⟩).1 hxz

theorem NotLess.trans {a : Array T} {i j k : ℕ} (h1 : NotLess r a i j) (h2 : NotLess r a j k)
    (hj : j < a.size) : NotLess r a i k := by
  intro x z hx hz
  have hy : a[j]? = some a[j] := Array.getElem?_eq_getElem hj
  exact not_lt_trans (h1 x _ hx hy) (h2 _ z hy hz)

/-- In an ordered array the root is not larger than any entry. -/
theorem Ordered.root {a : Array T} (h : Ordered r a) (i : ℕ) : NotLess r a i 0 := by
  induction i using Nat.strongRecOn with
  | _ i ih =>
      by_cases hi : i = 0
      · subst hi
        intro x y hx hy
        rw [hx, Option.some_inj] at hy
        subst hy
        exact irrefl_of r x
      · intro x z hx hz
        have hlt : parent i < i := parent_lt (Nat.pos_of_ne_zero hi)
        have hsize : i < a.size := (Array.getElem?_eq_some_iff.mp hx).1
        exact NotLess.trans (h i (Nat.pos_of_ne_zero hi)) (ih (parent i) hlt)
          (Nat.lt_trans hlt hsize) x z hx hz

/-! ## Upwards -/

/-- The array is in order but for the hole and its parent. -/
structure UpTo (r : T → T → Prop) (a : Array T) (hole : ℕ) : Prop where
  except : ∀ i, 0 < i → i ≠ hole → NotLess r a i (parent i)
  grand : 0 < hole → ∀ c, IsChild c hole → NotLess r a c (parent hole)

omit [IsStrictWeakOrder T r] in
/-- A new last entry. -/
theorem Ordered.push {a : Array T} (h : Ordered r a) (x : T) : UpTo r (a.push x) a.size := by
  constructor
  · intro i hi hne y z hy hz
    have hlt : i < a.size := by
      have hsize := (Array.getElem?_eq_some_iff.mp hy).1
      rw [Array.size_push] at hsize
      omega
    rw [Array.getElem?_push_lt hlt] at hy
    rw [Array.getElem?_push_lt (Nat.lt_trans (parent_lt hi) hlt)] at hz
    exact h i hi y z (by rw [Array.getElem?_eq_getElem hlt, hy])
      (by rw [Array.getElem?_eq_getElem (Nat.lt_trans (parent_lt hi) hlt), hz])
  · intro _ c hc y z hy _
    have hsize := (Array.getElem?_eq_some_iff.mp hy).1
    rw [Array.size_push] at hsize
    have := hc.lt
    omega

/-- A turn: the entry at the hole is smaller than its parent, and goes there. -/
theorem UpTo.swap {a : Array T} {hole : ℕ} (h : UpTo r a hole) (hpos : 0 < hole)
    (hi : parent hole < a.size) (hj : hole < a.size)
    (hlt : r a[hole] a[parent hole]) :
    UpTo r (a.swap (parent hole) hole hi hj) (parent hole) := by
  have hp : parent hole < hole := parent_lt hpos
  have hdown : NotLess r a (parent hole) hole := notLess_of_get hi hj (asymm_of r hlt)
  constructor
  · intro i hi0 hne
    rw [notLess_swap]
    by_cases hih : i = hole
    · -- the entry that comes down
      subst hih
      rw [Equiv.swap_apply_right, Equiv.swap_apply_left]
      exact hdown
    · rw [Equiv.swap_apply_of_ne_of_ne hne hih]
      by_cases hph : parent i = hole
      · -- a child of the hole has the old parent above it now
        rw [hph, Equiv.swap_apply_right]
        exact h.grand hpos i ⟨hi0, hph⟩
      · by_cases hpp : parent i = parent hole
        -- the other child of the parent: the new entry there is still smaller
        · rw [hpp, Equiv.swap_apply_left]
          have hsib := h.except i hi0 hih
          rw [hpp] at hsib
          exact hsib.trans hdown hi
        · rw [Equiv.swap_apply_of_ne_of_ne hpp hph]
          exact h.except i hi0 hih
  · intro hpos' c hc
    rw [notLess_swap]
    have hpp : parent (parent hole) < parent hole := parent_lt hpos'
    have hup := h.except (parent hole) hpos' (by omega)
    rw [Equiv.swap_apply_of_ne_of_ne (x := parent (parent hole)) (by omega) (by omega)]
    by_cases hch : c = hole
    · subst hch
      rw [Equiv.swap_apply_right]
      exact hup
    · have := hc.lt
      rw [Equiv.swap_apply_of_ne_of_ne (by omega) hch]
      have hchild := h.except c hc.1 hch
      rw [hc.2] at hchild
      exact hchild.trans hup hi

omit [IsStrictWeakOrder T r] in
/-- The end: the entry at the hole is the root, or not smaller than its parent. -/
theorem UpTo.ordered {a : Array T} {hole : ℕ} (h : UpTo r a hole)
    (hstop : 0 < hole → NotLess r a hole (parent hole)) : Ordered r a := by
  intro i hi
  by_cases hih : i = hole
  · subst hih
    exact hstop hi
  · exact h.except i hi hih

/-! ## Downwards -/

/-- The array is in order but for the hole and its children. -/
structure DownFrom (r : T → T → Prop) (a : Array T) (hole : ℕ) : Prop where
  except : ∀ i, 0 < i → parent i ≠ hole → NotLess r a i (parent i)
  grand : 0 < hole → ∀ c, IsChild c hole → NotLess r a c (parent hole)

omit [IsStrictWeakOrder T r] in
/-- The root overwritten. -/
theorem Ordered.setRoot {a : Array T} (h : Ordered r a) (x : T) (h0 : 0 < a.size) :
    DownFrom r (a.set 0 x h0) 0 := by
  constructor
  · intro i hi hne y z hy hz
    rw [Array.getElem?_set_ne h0 (by omega)] at hy
    rw [Array.getElem?_set_ne h0 (Ne.symm hne)] at hz
    exact h i hi y z hy hz
  · intro hpos
    exact absurd hpos (Nat.lt_irrefl 0)

omit [IsStrictWeakOrder T r] in
/-- The last entry dropped. -/
theorem DownFrom.pop {a : Array T} {hole : ℕ} (h : DownFrom r a hole) : DownFrom r a.pop hole := by
  have hkeep : ∀ i j, NotLess r a i j → NotLess r a.pop i j := by
    intro i j hij x y hx hy
    rw [Array.getElem?_pop] at hx hy
    split at hx
    · split at hy
      · exact hij x y hx hy
      · simp at hy
    · simp at hx
  constructor
  · intro i hi hne
    exact hkeep i (parent i) (h.except i hi hne)
  · intro hpos c hc
    exact hkeep c (parent hole) (h.grand hpos c hc)

/-- A turn: the child that is not larger than any other is smaller than the
entry at the hole, and the two are exchanged. -/
theorem DownFrom.swap {a : Array T} {hole c : ℕ} (h : DownFrom r a hole) (hc : IsChild c hole)
    (hi : hole < a.size) (hj : c < a.size) (hmin : ∀ d, IsChild d hole → NotLess r a d c)
    (hlt : r a[c] a[hole]) : DownFrom r (a.swap hole c hi hj) c := by
  have hhc : hole < c := hc.lt
  have hdown : NotLess r a hole c := notLess_of_get hi hj (asymm_of r hlt)
  constructor
  · intro i hi0 hne
    rw [notLess_swap]
    by_cases hic : i = c
    · subst hic
      rw [hc.2, Equiv.swap_apply_right, Equiv.swap_apply_left]
      exact hdown
    · by_cases hph : parent i = hole
      · -- the sibling of the child that went up
        have := parent_lt hi0
        rw [hph, Equiv.swap_apply_left, Equiv.swap_apply_of_ne_of_ne (by omega) hic]
        exact hmin i ⟨hi0, hph⟩
      · rw [Equiv.swap_apply_of_ne_of_ne (x := parent i) hph hne]
        by_cases hih : i = hole
        · subst hih
          rw [Equiv.swap_apply_left]
          exact h.grand hi0 c hc
        · rw [Equiv.swap_apply_of_ne_of_ne hih hic]
          exact h.except i hi0 hph
  · intro _ d hd
    have := hd.lt
    rw [notLess_swap, hc.2, Equiv.swap_apply_left,
      Equiv.swap_apply_of_ne_of_ne (by omega) (by omega)]
    have horder := h.except d hd.1 (by rw [hd.2]; omega)
    rw [hd.2] at horder
    exact horder

omit [IsStrictWeakOrder T r] in
/-- The end: no child is smaller than the entry at the hole. -/
theorem DownFrom.ordered {a : Array T} {hole : ℕ} (h : DownFrom r a hole)
    (hstop : ∀ c, IsChild c hole → NotLess r a c hole) : Ordered r a := by
  intro i hi
  by_cases hph : parent i = hole
  · rw [hph]
    exact hstop i ⟨hi, hph⟩
  · exact h.except i hi hph

end StrictWeakOrder

end Libiak.Heap
