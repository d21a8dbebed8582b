/-
Arithmetic on the `int` of the target: 32 bits, division towards zero, and no
value where the mathematical result does not fit.

A program that computes with `int` is a term in these operations; that none of
its intermediate values overflows is that the term has a value. Where a value is
known to fit, and the operands of a division are not negative, an operation is
the one on the integers (`add_eq`, `div_eq`, ...), and that is all the rules a
proof needs.
-/
import Mathlib.Data.Int.Notation
import Mathlib.Tactic.TypeStar

set_option autoImplicit false

namespace Libiak.CInt

/-- The value fits an `int`. -/
def Fits (x : ℤ) : Prop := -2147483648 ≤ x ∧ x ≤ 2147483647

instance (x : ℤ) : Decidable (Fits x) := inferInstanceAs (Decidable (_ ∧ _))

/-- A result of type `int`. -/
def int (x : ℤ) : Option ℤ := if Fits x then some x else none

def add (x y : ℤ) : Option ℤ := int (x + y)

def sub (x y : ℤ) : Option ℤ := int (x - y)

def mul (x y : ℤ) : Option ℤ := int (x * y)

def div (x y : ℤ) : Option ℤ := if y = 0 then none else int (x.tdiv y)

def mod (x y : ℤ) : Option ℤ := if y = 0 then none else int (x.tmod y)

/-- `static_cast<int>`. -/
def cast (x : ℤ) : ℤ := (x + 2147483648) % 4294967296 - 2147483648

section Rules

variable {x y : ℤ}

theorem add_eq (h : Fits (x + y)) : add x y = some (x + y) := if_pos h

theorem sub_eq (h : Fits (x - y)) : sub x y = some (x - y) := if_pos h

theorem mul_eq (h : Fits (x * y)) : mul x y = some (x * y) := if_pos h

/-- A division of a value that is not negative rounds down. -/
theorem div_eq (hx : 0 ≤ x) (hy : 0 < y) (h : Fits (x / y)) : div x y = some (x / y) := by
  unfold div
  rw [if_neg (Int.ne_of_gt hy), Int.tdiv_eq_ediv_of_nonneg hx]
  exact if_pos h

theorem mod_eq (hx : 0 ≤ x) (hy : 0 < y) (h : Fits (x % y)) : mod x y = some (x % y) := by
  unfold mod
  rw [if_neg (Int.ne_of_gt hy), Int.tmod_eq_emod_of_nonneg hx]
  exact if_pos h

/-- A step with a value is that value. -/
theorem bind_eq {β : Type} {e : Option ℤ} {f : ℤ → Option β} (h : e = some x) :
    (e >>= f) = f x := by
  rw [h]
  rfl

/-- A cast of a value that fits. -/
theorem cast_eq (h : Fits x) : cast x = x := by
  unfold Fits at h
  unfold cast
  omega

/-- A value is that of the integers, and fits. -/
theorem int_eq_some {z : ℤ} (h : int x = some z) : z = x ∧ Fits x := by
  unfold int at h
  split at h
  · rename_i hfits
    exact ⟨(Option.some.inj h).symm, hfits⟩
  · cases h

/-- A program with a value has one after its first step. -/
theorem bind_eq_some {β : Type} {e : Option ℤ} {f : ℤ → Option β} {z : β}
    (h : (e >>= f) = some z) : ∃ y, e = some y ∧ f y = some z :=
  Option.bind_eq_some_iff.mp h

end Rules

end Libiak.CInt
