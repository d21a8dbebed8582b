/-
Numerals of a fixed width.

`Alphabet.field` is the numeral of a number with as many blanks before it as make it
`width` characters long: what `%04d` prints with the zero digit for the blank, and `%4d`
with a space. Fields of one width compare, as texts, like their numbers
(`field_lt_field_iff`), as long as the digits are in their order and the blank comes
before them or is the first of them; and where texts are put together from parts of the
same lengths, the first part that differs decides (`append_lt_append_iff`). So does a
text of fields, the most significant first, compare like what it was printed from.

`printInt` is the conversion `d` of `printf`, with a width; where its value is not
negative it is a field.
-/
import Mathlib.Data.Char
import Mathlib.Data.List.Lex
import Libiak.Numeral

set_option autoImplicit false

namespace Libiak

section Texts

variable {χ : Type*} [LinearOrder χ] {a a' b b' : List χ}

/-- Texts that begin with parts of one length compare by these, and then by the rest. -/
theorem append_lt_append_iff (h : a.length = a'.length) :
    a ++ b < a' ++ b' ↔ a < a' ∨ a = a' ∧ b < b' := by
  induction a generalizing a' with
  | nil =>
      obtain rfl := List.eq_nil_of_length_eq_zero h.symm
      simp
  | cons x a ih =>
      cases a' with
      | nil => cases h
      | cons y a' =>
          have hlength : a.length = a'.length := Nat.succ.inj h
          simp only [List.cons_append, List.cons_lt_cons_iff, ih hlength, List.cons.injEq]
          constructor
          · rintro (hxy | ⟨hxy, ha | ⟨ha, hb⟩⟩)
            · exact Or.inl (Or.inl hxy)
            · exact Or.inl (Or.inr ⟨hxy, ha⟩)
            · exact Or.inr ⟨⟨hxy, ha⟩, hb⟩
          · rintro ((hxy | ⟨hxy, ha⟩) | ⟨⟨hxy, ha⟩, hb⟩)
            · exact Or.inl hxy
            · exact Or.inr ⟨hxy, Or.inl ha⟩
            · exact Or.inr ⟨hxy, Or.inr ⟨ha, hb⟩⟩

/-- What is the same in front does not matter. -/
theorem append_left_lt_iff (a : List χ) : a ++ b < a ++ b' ↔ b < b' := by
  rw [append_lt_append_iff rfl]
  constructor
  · rintro (h | ⟨-, h⟩)
    · exact absurd h (lt_irrefl a)
    · exact h
  · exact fun h => Or.inr ⟨rfl, h⟩

theorem singleton_lt_singleton_iff {x y : χ} : [x] < [y] ↔ x < y := by
  rw [List.cons_lt_cons_iff]
  simp

end Texts

namespace Alphabet

variable {χ : Type*} (A : Alphabet χ)

/-- The numeral of `n`, with blanks before it up to the width. -/
def field (blank : χ) (width n : ℕ) : List χ :=
  List.replicate (width - (A.write n).length) blank ++ A.write n

/-- What a field has before its last digit, of which `m` is the number. -/
def lead (blank : χ) (width m : ℕ) : List χ :=
  if m = 0 then List.replicate width blank else A.field blank width m

/-- The digits come in their order, and the blank not after the first of them. -/
structure Sorted [LinearOrder χ] (blank : χ) : Prop where
  digits : ∀ d e, d < e → e < A.base → A.digit d < A.digit e
  blank : blank ≤ A.digit 0

variable {A} {blank : χ} {width n m : ℕ}

/-- A number from a power of the base on has more digits. -/
theorem lt_length_write {k : ℕ} (h : A.base ^ k ≤ n) : k < (A.write n).length := by
  have hbase := A.one_lt
  induction k generalizing n with
  | zero => exact List.length_pos_iff.mpr (write_ne_nil n)
  | succ k ih =>
      have hdiv : A.base ^ k ≤ n / A.base := by
        rw [Nat.le_div_iff_mul_le (by omega)]
        exact h
      have hpos : 0 < A.base ^ k := Nat.pow_pos (by omega)
      rw [write_step, if_neg (by omega : n / A.base ≠ 0), List.length_append,
        List.length_singleton]
      have := ih hdiv
      omega

/-- A field is as wide as it should be, as long as the number is small enough. -/
theorem length_field (h : n < A.base ^ width) (hw : 0 < width) :
    (A.field blank width n).length = width := by
  obtain ⟨k, rfl⟩ := Nat.exists_eq_succ_of_ne_zero (Nat.pos_iff_ne_zero.mp hw)
  have hle := length_write_le k h
  rw [field, List.length_append, List.length_replicate]
  omega

theorem length_lead (h : m < A.base ^ width) : (A.lead blank width m).length = width := by
  unfold lead
  split
  · exact List.length_replicate
  · rename_i h0
    refine length_field h (Nat.pos_of_ne_zero fun hw => ?_)
    rw [hw, Nat.pow_zero] at h
    omega

/-- A number that needs all of the width is its numeral. -/
theorem field_of_le (hlow : A.base ^ width ≤ n) (h : n < A.base ^ (width + 1)) :
    A.field blank (width + 1) n = A.write n := by
  have hle := length_write_le width h
  have hlt := lt_length_write hlow
  rw [field, show width + 1 - (A.write n).length = 0 by omega]
  rfl

/-- The last digit comes off the end of a field. -/
theorem field_succ (n : ℕ) :
    A.field blank (width + 1) n
      = A.lead blank width (n / A.base) ++ [A.digit (n % A.base)] := by
  unfold lead field
  have hwrite := write_step (A := A) n
  by_cases hdiv : n / A.base = 0
  · rw [if_pos hdiv, List.nil_append] at hwrite
    rw [if_pos hdiv, hwrite]
    rfl
  · rw [if_neg hdiv] at hwrite
    rw [if_neg hdiv, hwrite, List.length_append, List.length_singleton, Nat.add_sub_add_right,
      List.append_assoc]

/-- And off the end of a lead, unless it is all blank. -/
theorem lead_succ (m : ℕ) :
    A.lead blank (width + 1) m = A.lead blank width (m / A.base)
      ++ [if m = 0 then blank else A.digit (m % A.base)] := by
  by_cases h0 : m = 0
  · subst h0
    have hlead : ∀ k, A.lead blank k 0 = List.replicate k blank := fun k => if_pos rfl
    rw [Nat.zero_div, hlead, hlead, if_pos rfl, List.replicate_succ']
  · rw [if_neg h0, ← field_succ]
    exact if_neg h0

/-- Numbers in order, the one before the last digit first. -/
theorem div_mod_lt (hlt : n < m) :
    n / A.base < m / A.base ∨ n / A.base = m / A.base ∧ n % A.base < m % A.base := by
  have hn := Nat.div_add_mod n A.base
  have hm := Nat.div_add_mod m A.base
  rcases Nat.lt_or_ge (n / A.base) (m / A.base) with hdiv | hdiv
  · exact Or.inl hdiv
  · have heq : n / A.base = m / A.base :=
      Nat.le_antisymm (Nat.div_le_div_right (Nat.le_of_lt hlt)) hdiv
    refine Or.inr ⟨heq, ?_⟩
    rw [heq] at hn
    omega

theorem div_lt_pow {k : ℕ} (h : m < A.base ^ (k + 1)) : m / A.base < A.base ^ k := by
  apply Nat.div_lt_of_lt_mul
  rw [Nat.mul_comm]
  exact h

/-- Leads of one width are of one length. -/
theorem length_lead_eq (hdiv : m / A.base < A.base ^ width) (hlt : n < m) :
    (A.lead blank width (n / A.base)).length = (A.lead blank width (m / A.base)).length := by
  have hle : n / A.base ≤ m / A.base := Nat.div_le_div_right (Nat.le_of_lt hlt)
  rw [length_lead hdiv, length_lead (Nat.lt_of_le_of_lt hle hdiv)]

section Order

variable [LinearOrder χ]

/-- The last character of a lead grows with the number, for one and the same rest. -/
theorem Sorted.last_lt (hA : A.Sorted blank) {d e : ℕ} (hlt : n < m) (hd : d < e)
    (he : e < A.base) :
    (if n = 0 then blank else A.digit d) < (if m = 0 then blank else A.digit e) := by
  have hdigit := hA.digits d e hd he
  rw [if_neg (by omega : m ≠ 0)]
  split
  · by_cases h0 : d = 0
    · rw [h0] at hdigit
      exact lt_of_le_of_lt hA.blank hdigit
    · exact lt_of_le_of_lt hA.blank (hA.digits 0 e (by omega) he)
  · exact hdigit

theorem Sorted.lead_lt (hA : A.Sorted blank) (hm : m < A.base ^ width) (hlt : n < m) :
    A.lead blank width n < A.lead blank width m := by
  induction width generalizing n m with
  | zero =>
      rw [Nat.pow_zero] at hm
      omega
  | succ k ih =>
      have hbase := A.one_lt
      have hdiv := div_lt_pow hm
      have hmod : m % A.base < A.base := Nat.mod_lt m (by omega)
      rw [lead_succ, lead_succ, append_lt_append_iff (length_lead_eq hdiv hlt),
        singleton_lt_singleton_iff]
      rcases div_mod_lt hlt with hless | ⟨heq, hless⟩
      · exact Or.inl (ih hdiv hless)
      · exact Or.inr ⟨by rw [heq], hA.last_lt hlt hless hmod⟩

theorem Sorted.field_lt (hA : A.Sorted blank) (hm : m < A.base ^ width) (hlt : n < m) :
    A.field blank width n < A.field blank width m := by
  cases width with
  | zero =>
      rw [Nat.pow_zero] at hm
      omega
  | succ k =>
      have hbase := A.one_lt
      have hdiv := div_lt_pow hm
      rw [field_succ, field_succ, append_lt_append_iff (length_lead_eq hdiv hlt),
        singleton_lt_singleton_iff]
      rcases div_mod_lt hlt with hless | ⟨heq, hless⟩
      · exact Or.inl (hA.lead_lt hdiv hless)
      · exact Or.inr ⟨by rw [heq], hA.digits _ _ hless (Nat.mod_lt m (by omega))⟩

/-- **Fields of one width compare like their numbers.** -/
theorem Sorted.field_lt_field_iff (hA : A.Sorted blank) (hn : n < A.base ^ width)
    (hm : m < A.base ^ width) : A.field blank width n < A.field blank width m ↔ n < m := by
  constructor
  · intro h
    rcases Nat.lt_trichotomy n m with hlt | heq | hgt
    · exact hlt
    · rw [heq] at h
      exact absurd h (lt_irrefl _)
    · exact absurd h (lt_asymm (hA.field_lt hn hgt))
  · exact hA.field_lt hm

theorem Sorted.field_inj (hA : A.Sorted blank) (hn : n < A.base ^ width)
    (hm : m < A.base ^ width) : A.field blank width n = A.field blank width m ↔ n = m := by
  constructor
  · intro h
    rcases Nat.lt_trichotomy n m with hlt | heq | hgt
    · exact absurd h (ne_of_lt (hA.field_lt hm hlt))
    · exact heq
    · exact absurd h.symm (ne_of_lt (hA.field_lt hn hgt))
  · rintro rfl
    rfl

/-- A text that begins with a field, against another. -/
theorem Sorted.field_append_lt_iff (hA : A.Sorted blank) (hn : n < A.base ^ width)
    (hm : m < A.base ^ width) (hw : 0 < width) {b b' : List χ} :
    A.field blank width n ++ b < A.field blank width m ++ b' ↔ n < m ∨ n = m ∧ b < b' := by
  rw [append_lt_append_iff (by rw [length_field hn hw, length_field hm hw]),
    hA.field_lt_field_iff hn hm, hA.field_inj hn hm]

end Order

end Alphabet

theorem decimal_sorted_zero : decimal.Sorted '0' where
  digits := fun d e hlt he =>
    (show ∀ e < 10, ∀ d < e, decimal.digit d < decimal.digit e by decide) e he d hlt
  blank := le_refl _

theorem decimal_sorted_space : decimal.Sorted ' ' where
  digits := decimal_sorted_zero.digits
  blank := by decide

/-! ## `printf` -/

/-- `%d` with a width, and with the flag `0` or without it: zeros come behind a sign,
spaces before it. -/
def printInt (zero : Bool) (width : ℕ) (v : ℤ) : List Char :=
  let sign := if v < 0 then ['-'] else []
  let digits := decimal.write v.natAbs
  let missing := width - (sign.length + digits.length)
  if zero then sign ++ List.replicate missing '0' ++ digits
  else List.replicate missing ' ' ++ sign ++ digits

/-- What `snprintf` leaves in a buffer of `size` bytes, before the terminator. -/
def snprintf (size : ℕ) (text : List Char) : List Char := text.take (size - 1)

theorem printInt_eq_field (zero : Bool) (width : ℕ) {v : ℤ} (h : 0 ≤ v) :
    printInt zero width v = decimal.field (if zero then '0' else ' ') width v.toNat := by
  have habs : v.natAbs = v.toNat := by omega
  unfold printInt Alphabet.field
  rw [if_neg (Int.not_lt.mpr h), habs]
  cases zero with
  | false => simp
  | true => simp

theorem snprintf_eq {size : ℕ} {text : List Char} (h : text.length < size) :
    snprintf size text = text := List.take_of_length_le (by omega)

/-- A number is shown in `width` digits. -/
def Shown (width : ℕ) (v : ℤ) : Prop := 0 ≤ v ∧ v < 10 ^ width

section Printed

variable {width : ℕ} {v w : ℤ}

theorem Shown.toNat_lt (h : Shown width v) : v.toNat < decimal.base ^ width := by
  have hbase : decimal.base = 10 := rfl
  rw [hbase, Int.toNat_lt h.1]
  push_cast
  exact h.2

theorem length_printInt (zero : Bool) (h : Shown width v) (hw : 0 < width) :
    (printInt zero width v).length = width := by
  rw [printInt_eq_field zero width h.1]
  exact Alphabet.length_field h.toNat_lt hw

/-- **What is printed of numbers compares like the numbers**, if there is room for their
digits; and then what follows decides. -/
theorem printInt_append_lt_iff (zero : Bool) (hv : Shown width v) (hw : Shown width w)
    (hpos : 0 < width) {b b' : List Char} :
    printInt zero width v ++ b < printInt zero width w ++ b' ↔ v < w ∨ v = w ∧ b < b' := by
  have hsorted : decimal.Sorted (if zero then '0' else ' ') := by
    cases zero with
    | false => exact decimal_sorted_space
    | true => exact decimal_sorted_zero
  have hv0 := hv.1
  have hw0 := hw.1
  rw [printInt_eq_field zero width hv.1, printInt_eq_field zero width hw.1,
    hsorted.field_append_lt_iff hv.toNat_lt hw.toNat_lt hpos]
  constructor
  · rintro (h | ⟨h, hb⟩)
    · exact Or.inl (by omega)
    · exact Or.inr ⟨by omega, hb⟩
  · rintro (h | ⟨h, hb⟩)
    · exact Or.inl (by omega)
    · exact Or.inr ⟨by omega, hb⟩

end Printed

end Libiak
