/-
`std::lower_bound`: the binary search for the end of the part of a range where
a predicate holds.

On a range that is partitioned, the predicate true on a first part and false
after it, the search finds the end of that part (`lowerBound_eq`); every range in
the order the predicate respects is (`Partitioned.exists`). On any other range the
search still ends, and inside the range; and it only ends at the first element
after it has looked at it (`lowerBound_pos`).
-/
import Mathlib.Data.List.Basic

set_option autoImplicit false

namespace Libiak

variable {α : Type*}

/-- The search in the `len` elements from `first` on; `fuel` bounds its steps. -/
def lowerBound.go (p : α → Bool) (xs : List α) : ℕ → ℕ → ℕ → ℕ
  | 0, first, _ => first
  | fuel + 1, first, len =>
      if len = 0 then first
      else
        match xs[first + len / 2]? with
        | none => first
        | some x =>
            if p x then lowerBound.go p xs fuel (first + len / 2 + 1) (len - len / 2 - 1)
            else lowerBound.go p xs fuel first (len / 2)

/-- The search in a whole list. -/
def lowerBound (p : α → Bool) (xs : List α) : ℕ := lowerBound.go p xs xs.length 0 xs.length

/-- The predicate holds on the first `k` elements, and on no other. -/
structure Partitioned (p : α → Prop) (xs : List α) (k : ℕ) : Prop where
  le_length : k ≤ xs.length
  iff : ∀ {i : ℕ} {x : α}, xs[i]? = some x → (p x ↔ i < k)

/-- Two elements of a range that is in order, by their positions. -/
theorem pairwise_getElem? {R : α → α → Prop} {xs : List α} {i j : ℕ} {x y : α}
    (hxs : xs.Pairwise R) (hi : xs[i]? = some x) (hj : xs[j]? = some y) (hij : i < j) : R x y := by
  obtain ⟨hlti, rfl⟩ := List.getElem?_eq_some_iff.mp hi
  obtain ⟨hltj, rfl⟩ := List.getElem?_eq_some_iff.mp hj
  exact List.pairwise_iff_getElem.mp hxs i j hlti hltj hij

/-- A part is known by the elements on the two sides of its end. -/
theorem Partitioned.of_ends {R : α → α → Prop} {p : α → Prop} {xs : List α} {k : ℕ}
    (hxs : xs.Pairwise R) (h : ∀ {x y : α}, R x y → p y → p x) (hk : k ≤ xs.length)
    (hlast : ∀ {j : ℕ} {x : α}, k = j + 1 → xs[j]? = some x → p x)
    (hnext : ∀ {x : α}, xs[k]? = some x → ¬ p x) : Partitioned p xs k := by
  refine ⟨hk, fun {i x} hi => ?_⟩
  have hlt := (List.getElem?_eq_some_iff.mp hi).1
  constructor
  · intro hpx
    by_contra hge
    have hend := List.getElem?_eq_getElem (l := xs) (i := k) (by omega)
    by_cases heq : k = i
    · exact hnext (heq ▸ hi) hpx
    · exact hnext hend (h (pairwise_getElem? hxs hend hi (by omega)) hpx)
  · intro hik
    obtain ⟨j, rfl⟩ : ∃ j, k = j + 1 := ⟨k - 1, by omega⟩
    have hj := List.getElem?_eq_getElem (l := xs) (i := j) (by omega)
    by_cases heq : i = j
    · exact hlast rfl (heq ▸ hi)
    · exact h (pairwise_getElem? hxs hi hj (by omega)) (hlast rfl hj)

/-- If what stands before an element of the part is in it too, there is a part. -/
theorem Partitioned.exists {R : α → α → Prop} {p : α → Prop} [DecidablePred p] {xs : List α}
    (hxs : xs.Pairwise R) (h : ∀ {x y : α}, R x y → p y → p x) : ∃ k, Partitioned p xs k := by
  -- the first element that is not in it ends it
  refine ⟨xs.findIdx (fun x => ¬ p x), of_ends hxs h List.findIdx_le_length ?_ ?_⟩
  · intro j x hj hx
    obtain ⟨-, rfl⟩ := List.getElem?_eq_some_iff.mp hx
    have hlt : j < xs.findIdx (fun x => ¬ p x) := by omega
    simpa using List.not_of_lt_findIdx hlt
  · intro x hx
    have hdec := List.findIdx_of_getElem?_eq_some (p := fun x => decide (¬ p x)) hx
    exact of_decide_eq_true hdec

section Rules

variable {p : α → Bool} {xs : List α}

/-- The end of the first part stays in the range that is searched. -/
theorem lowerBound.go_eq {k : ℕ} (h : Partitioned (fun x => p x = true) xs k)
    {fuel first len : ℕ} (hfuel : len ≤ fuel) (hrange : first + len ≤ xs.length)
    (hk : first ≤ k ∧ k ≤ first + len) :
    lowerBound.go p xs fuel first len = k := by
  induction fuel generalizing first len with
  | zero =>
      unfold lowerBound.go
      omega
  | succ fuel ih =>
      unfold lowerBound.go
      by_cases hlen : len = 0
      · rw [if_pos hlen]
        omega
      · rw [if_neg hlen]
        have hmid : first + len / 2 < xs.length := by omega
        rw [List.getElem?_eq_getElem hmid]
        have hx := h.iff (List.getElem?_eq_getElem hmid)
        dsimp only
        by_cases hp : p xs[first + len / 2] = true
        · rw [if_pos hp]
          have := hx.mp hp
          exact ih (by omega) (by omega) ⟨by omega, by omega⟩
        · rw [if_neg hp]
          have : ¬ first + len / 2 < k := fun hlt => hp (hx.mpr hlt)
          exact ih (by omega) (by omega) ⟨by omega, by omega⟩

/-- **On a partitioned range the search finds the end of the first part.** -/
theorem lowerBound_eq {k : ℕ} (h : Partitioned (fun x => p x = true) xs k) :
    lowerBound p xs = k := by
  have hk := h.le_length
  exact lowerBound.go_eq h (Nat.le_refl _) (by omega) ⟨Nat.zero_le k, by omega⟩

/-- The search stays inside the range, and leaves its first element only past
it, if that element is in the first part. -/
theorem lowerBound.go_range {fuel first len : ℕ} (hfuel : len ≤ fuel)
    (hrange : first + len ≤ xs.length) :
    first ≤ lowerBound.go p xs fuel first len ∧ lowerBound.go p xs fuel first len ≤ first + len
      ∧ (∀ x, xs[first]? = some x → p x = true → 0 < len →
        first < lowerBound.go p xs fuel first len) := by
  induction fuel generalizing first len with
  | zero =>
      unfold lowerBound.go
      exact ⟨Nat.le_refl _, by omega, fun _ _ _ hlen => by omega⟩
  | succ fuel ih =>
      unfold lowerBound.go
      by_cases hlen : len = 0
      · rw [if_pos hlen]
        exact ⟨Nat.le_refl _, by omega, fun _ _ _ hpos => by omega⟩
      · rw [if_neg hlen]
        have hmid : first + len / 2 < xs.length := by omega
        rw [List.getElem?_eq_getElem hmid]
        dsimp only
        by_cases hp : p xs[first + len / 2] = true
        · rw [if_pos hp]
          have hfuel' : len - len / 2 - 1 ≤ fuel := by omega
          have hrange' : first + len / 2 + 1 + (len - len / 2 - 1) ≤ xs.length := by omega
          obtain ⟨h1, h2, -⟩ := ih hfuel' hrange'
          exact ⟨by omega, by omega, fun _ _ _ _ => by omega⟩
        · rw [if_neg hp]
          have hfuel' : len / 2 ≤ fuel := by omega
          have hrange' : first + len / 2 ≤ xs.length := by omega
          obtain ⟨h1, h2, h3⟩ := ih hfuel' hrange'
          refine ⟨h1, by omega, fun x hx hpx _ => ?_⟩
          by_cases hhalf : 0 < len / 2
          · exact h3 x hx hpx hhalf
          · -- the last element looked at is the first one
            have hzero : len / 2 = 0 := by omega
            simp only [hzero, Nat.add_zero] at hp
            rw [List.getElem?_eq_getElem (by omega), Option.some.injEq] at hx
            exact absurd (hx ▸ hpx) hp

theorem lowerBound_le : lowerBound p xs ≤ xs.length := by
  have hrange : 0 + xs.length ≤ xs.length := by omega
  obtain ⟨-, h, -⟩ := lowerBound.go_range (p := p) (Nat.le_refl xs.length) hrange
  unfold lowerBound
  omega

/-- If the first element is in the first part, the search leaves it. -/
theorem lowerBound_pos {x : α} (hx : xs[0]? = some x) (hp : p x = true) : 0 < lowerBound p xs := by
  have hlen : 0 < xs.length := by
    cases xs with
    | nil => cases hx
    | cons y ys => exact Nat.succ_pos _
  have hrange : 0 + xs.length ≤ xs.length := by omega
  obtain ⟨-, -, h⟩ := lowerBound.go_range (p := p) (Nat.le_refl xs.length) hrange
  exact h x hx hp hlen

end Rules

end Libiak
