/-
Numerals of positional notation, over any alphabet.

`Alphabet.write n` is the numeral of `n`: its digits, the most significant one
first, and the zero digit for zero. It is the only text that is `Canonical`, with
no leading zero, and that `Alphabet.read` reads as `n` (`canonical_iff`). A
program that prints a number is compared with `write` by `write_step`, the one
equation that printing from the last digit on needs.
-/
import Mathlib.Data.List.Induction
import Mathlib.Data.Nat.Digits.Defs

set_option autoImplicit false

namespace Libiak

/-- The digits of a notation, and what they stand for. -/
structure Alphabet (χ : Type*) where
  base : ℕ
  one_lt : 1 < base
  digit : ℕ → χ
  value : χ → Option ℕ
  value_digit : ∀ d < base, value (digit d) = some d
  digit_value : ∀ c d, value c = some d → d < base ∧ digit d = c

namespace Alphabet

variable {χ : Type*} (A : Alphabet χ)

/-- The numeral of a number. -/
def write (n : ℕ) : List χ :=
  if n = 0 then [A.digit 0] else ((Nat.digits A.base n).map A.digit).reverse

/-- What the digits of a text add to a number read so far. -/
def readFrom (acc : ℕ) : List χ → Option ℕ
  | [] => some acc
  | c :: cs => (A.value c).bind fun d => readFrom (A.base * acc + d) cs

/-- The number a text stands for. -/
def read : List χ → Option ℕ
  | [] => none
  | c :: cs => A.readFrom 0 (c :: cs)

/-- A numeral has digits and no leading zero, but for zero itself. -/
structure Canonical (text : List χ) : Prop where
  nonempty : text ≠ []
  digits : ∀ c ∈ text, ∃ d < A.base, A.digit d = c
  leading : text.head? = some (A.digit 0) → text = [A.digit 0]

variable {A} {text : List χ} {n : ℕ}

theorem digit_inj {d e : ℕ} (hd : d < A.base) (he : e < A.base) (h : A.digit d = A.digit e) :
    d = e := by
  apply Option.some.inj
  rw [← A.value_digit d hd, h, A.value_digit e he]

/-- A number below the base is written as its digit. -/
theorem write_of_lt (h : n < A.base) : A.write n = [A.digit n] := by
  unfold write
  by_cases h0 : n = 0
  · rw [if_pos h0, h0]
  · have hdiv : n / A.base = 0 := Nat.div_eq_of_lt h
    rw [if_neg h0, Nat.digits_def' A.one_lt (Nat.pos_of_ne_zero h0), hdiv, Nat.digits_zero,
      Nat.mod_eq_of_lt h]
    rfl

/-- **The last digit comes off the end.** -/
theorem write_step (n : ℕ) :
    A.write n = (if n / A.base = 0 then [] else A.write (n / A.base)) ++ [A.digit (n % A.base)] := by
  have hbase := A.one_lt
  by_cases hdiv : n / A.base = 0
  · have hlt : n < A.base := Nat.lt_of_div_eq_zero (by omega) hdiv
    rw [if_pos hdiv, write_of_lt hlt, Nat.mod_eq_of_lt hlt]
    rfl
  · have h0 : n ≠ 0 := by
      intro h0
      rw [h0, Nat.zero_div] at hdiv
      exact hdiv rfl
    rw [if_neg hdiv, write, write, if_neg h0, if_neg hdiv,
      Nat.digits_def' hbase (Nat.pos_of_ne_zero h0), List.map_cons, List.reverse_cons]

theorem write_ne_nil (n : ℕ) : A.write n ≠ [] := by
  rw [write_step]
  exact List.append_ne_nil_of_right_ne_nil _ (List.cons_ne_nil _ _)

/-- A number below a power of the base has at most so many digits. -/
theorem length_write_le (k : ℕ) (h : n < A.base ^ (k + 1)) : (A.write n).length ≤ k + 1 := by
  induction k generalizing n with
  | zero =>
      rw [Nat.zero_add, Nat.pow_one] at h
      rw [write_of_lt h]
      exact Nat.le_refl 1
  | succ k ih =>
      rw [write_step, List.length_append, List.length_singleton]
      split
      · rw [List.length_nil]
        omega
      · have hdiv : n / A.base < A.base ^ (k + 1) := by
          apply Nat.div_lt_of_lt_mul
          rw [Nat.mul_comm]
          exact h
        have := ih hdiv
        omega

/-- What a text begins with, when something follows it. -/
theorem head?_append_left {cs ds : List χ} (h : cs ≠ []) : (cs ++ ds).head? = cs.head? := by
  cases cs with
  | nil => exact absurd rfl h
  | cons c cs => rfl

/-! ## Reading -/

theorem readFrom_append (acc : ℕ) (cs : List χ) (c : χ) :
    A.readFrom acc (cs ++ [c])
      = (A.readFrom acc cs).bind fun m => (A.value c).map fun d => A.base * m + d := by
  induction cs generalizing acc with
  | nil => cases hc : A.value c <;> simp [readFrom, hc]
  | cons c' cs ih =>
      cases hc : A.value c' with
      | none => simp [readFrom, hc]
      | some d =>
          simp only [List.cons_append, readFrom, hc, Option.bind_some]
          exact ih _

theorem read_eq_readFrom (h : text ≠ []) : A.read text = A.readFrom 0 text := by
  cases text with
  | nil => exact absurd rfl h
  | cons c cs => rfl

/-- One more digit at the end. -/
theorem read_append (c : χ) (h : text ≠ []) :
    A.read (text ++ [c])
      = (A.read text).bind fun m => (A.value c).map fun d => A.base * m + d := by
  rw [read_eq_readFrom h, read_eq_readFrom (List.append_ne_nil_of_left_ne_nil h _), readFrom_append]

theorem read_singleton (c : χ) : A.read [c] = A.value c := by
  show ((A.value c).bind fun d => A.readFrom (A.base * 0 + d) []) = A.value c
  cases A.value c with
  | none => rfl
  | some d => exact congrArg some (by rw [Nat.mul_zero, Nat.zero_add])

/-- **A numeral is read as its number.** -/
theorem read_write (n : ℕ) : A.read (A.write n) = some n := by
  have hbase := A.one_lt
  induction n using Nat.strong_induction_on with
  | _ n ih =>
      have hdigit := A.value_digit (n % A.base) (Nat.mod_lt n (by omega))
      rw [write_step]
      by_cases hdiv : n / A.base = 0
      · have hlt : n < A.base := Nat.lt_of_div_eq_zero (by omega) hdiv
        rw [if_pos hdiv, List.nil_append, read_singleton, hdigit, Nat.mod_eq_of_lt hlt]
      · have hlt : n / A.base < n := by
          apply Nat.div_lt_self _ hbase
          apply Nat.pos_of_ne_zero
          intro h0
          rw [h0, Nat.zero_div] at hdiv
          exact hdiv rfl
        rw [if_neg hdiv, read_append _ (write_ne_nil _), ih _ hlt, hdigit]
        exact congrArg some (Nat.div_add_mod n A.base)

/-- A numeral of a number that is not zero does not begin with the zero digit. -/
theorem head_write (h : n ≠ 0) : (A.write n).head? ≠ some (A.digit 0) := by
  have hbase := A.one_lt
  induction n using Nat.strong_induction_on with
  | _ n ih =>
      rw [write_step]
      by_cases hdiv : n / A.base = 0
      · have hlt : n < A.base := Nat.lt_of_div_eq_zero (by omega) hdiv
        rw [if_pos hdiv, Nat.mod_eq_of_lt hlt]
        intro hhead
        exact h (digit_inj hlt (by omega) (Option.some.inj hhead))
      · rw [if_neg hdiv, head?_append_left (write_ne_nil _)]
        exact ih _ (Nat.div_lt_self (Nat.pos_of_ne_zero h) hbase) hdiv

theorem canonical_write (n : ℕ) : A.Canonical (A.write n) := by
  refine ⟨write_ne_nil n, ?_, ?_⟩
  · intro c hc
    unfold write at hc
    split at hc
    · obtain rfl := List.mem_singleton.mp hc
      exact ⟨0, by have := A.one_lt; omega, rfl⟩
    · rw [List.mem_reverse] at hc
      obtain ⟨d, hd, rfl⟩ := List.mem_map.mp hc
      exact ⟨d, Nat.digits_lt_base A.one_lt hd, rfl⟩
  · intro hhead
    by_cases h0 : n = 0
    · rw [h0]
      exact if_pos rfl
    · exact absurd hhead (head_write h0)

/-- The text before the last digit of a longer numeral is a numeral, and not that
of zero. -/
theorem Canonical.init {cs : List χ} {c : χ} (h : A.Canonical (cs ++ [c])) (hne : cs ≠ []) :
    A.Canonical cs ∧ cs ≠ [A.digit 0] := by
  have hhead : (cs ++ [c]).head? = cs.head? := head?_append_left hne
  have hlong : cs ++ [c] ≠ [A.digit 0] := by
    intro heq
    have hlen := congrArg List.length heq
    rw [List.length_append, List.length_singleton, List.length_singleton] at hlen
    exact hne (List.eq_nil_of_length_eq_zero (by omega))
  have hzero : cs.head? ≠ some (A.digit 0) := by
    intro hcs
    exact hlong (h.leading (hhead.trans hcs))
  refine ⟨⟨hne, fun d hd => h.digits d (List.mem_append_left _ hd), fun hcs => absurd hcs hzero⟩, ?_⟩
  rintro rfl
  exact hzero rfl

/-- A canonical text that is read as a number is its numeral. -/
theorem Canonical.eq_write (h : A.Canonical text) (hread : A.read text = some n) :
    text = A.write n := by
  induction text using List.reverseRecOn generalizing n with
  | nil => exact absurd rfl h.nonempty
  | append_singleton cs c ih =>
      by_cases hne : cs = []
      · subst hne
        rw [List.nil_append, read_singleton] at hread
        obtain ⟨hlt, hc⟩ := A.digit_value c n hread
        rw [write_of_lt hlt, hc, List.nil_append]
      · obtain ⟨hcs, hzero⟩ := h.init hne
        rw [read_append c hne] at hread
        obtain ⟨m, hm, hread⟩ := Option.bind_eq_some_iff.mp hread
        obtain ⟨d, hd, rfl⟩ := Option.map_eq_some_iff.mp hread
        obtain ⟨hlt, hc⟩ := A.digit_value c d hd
        have hwrite := ih hcs hm
        have hm0 : m ≠ 0 := by
          rintro rfl
          exact hzero (hwrite.trans (if_pos rfl))
        have hdiv : (A.base * m + d) / A.base = m := by
          rw [Nat.mul_add_div (by omega), Nat.div_eq_of_lt hlt, Nat.add_zero]
        have hmod : (A.base * m + d) % A.base = d := by
          rw [Nat.mul_add_mod, Nat.mod_eq_of_lt hlt]
        rw [write_step, hdiv, hmod, if_neg hm0, ← hwrite, hc]

/-- **The numeral is the only canonical text for its number.** -/
theorem canonical_iff : A.Canonical text ∧ A.read text = some n ↔ text = A.write n := by
  constructor
  · rintro ⟨h, hread⟩
    exact h.eq_write hread
  · rintro rfl
    exact ⟨canonical_write n, read_write n⟩

/-! ## Numbers with a sign -/

section Sign

variable (minus : χ)

/-- The numeral of a number that may be negative. -/
def writeInt (A : Alphabet χ) (v : ℤ) : List χ :=
  (if v < 0 then [minus] else []) ++ A.write v.natAbs

/-- The number a text with or without a sign stands for. -/
def readInt [DecidableEq χ] (A : Alphabet χ) : List χ → Option ℤ
  | [] => none
  | c :: cs =>
      if c = minus then (A.read cs).map fun n : ℕ => -(n : ℤ)
      else (A.read (c :: cs)).map fun n : ℕ => (n : ℤ)

/-- The sign is there exactly if the number is negative, and a numeral follows. -/
structure CanonicalInt (A : Alphabet χ) (v : ℤ) (text : List χ) : Prop where
  sign : v < 0 ↔ text.head? = some minus
  digits : A.Canonical (if v < 0 then text.tail else text)

variable {minus}

/-- The numeral of a natural number does not begin with a sign. -/
theorem head_write_ne (hminus : A.value minus = none) (n : ℕ) :
    (A.write n).head? ≠ some minus := by
  intro hhead
  obtain ⟨d, hd, heq⟩ := (canonical_write n).digits minus (List.mem_of_mem_head? hhead)
  rw [← heq, A.value_digit d hd] at hminus
  cases hminus

theorem canonicalInt_writeInt (hminus : A.value minus = none) (v : ℤ) :
    A.CanonicalInt minus v (A.writeInt minus v) := by
  unfold writeInt
  by_cases hv : v < 0
  · rw [if_pos hv]
    exact ⟨⟨fun _ => rfl, fun _ => hv⟩, by rw [if_pos hv]; exact canonical_write _⟩
  · rw [if_neg hv, List.nil_append]
    refine ⟨⟨fun h => absurd h hv, fun h => absurd h (head_write_ne hminus _)⟩, ?_⟩
    rw [if_neg hv]
    exact canonical_write _

/-- **A numeral with its sign is read as its number.** -/
theorem readInt_writeInt [DecidableEq χ] (hminus : A.value minus = none) (v : ℤ) :
    A.readInt minus (A.writeInt minus v) = some v := by
  unfold writeInt
  by_cases hv : v < 0
  · rw [if_pos hv, List.singleton_append, readInt, if_pos rfl, read_write, Option.map_some]
    exact congrArg some (by omega)
  · rw [if_neg hv, List.nil_append]
    have hhead := head_write_ne hminus v.natAbs
    have hread := A.read_write v.natAbs
    cases htext : A.write v.natAbs with
    | nil => exact absurd htext (write_ne_nil _)
    | cons c cs =>
        rw [htext] at hhead hread
        rw [readInt, if_neg (fun hc => hhead (congrArg some hc)), hread, Option.map_some]
        exact congrArg some (by omega)

end Sign

/-! ## Alphabets from lists -/

section OfList

variable [DecidableEq χ]

/-- The alphabet of a list of different characters, in order. -/
def ofList (c : χ) (cs : List χ) (hne : cs ≠ []) (hdistinct : (c :: cs).Nodup) : Alphabet χ where
  base := (c :: cs).length
  one_lt := by
    have := List.length_pos_iff.mpr hne
    rw [List.length_cons]
    omega
  digit := fun d => ((c :: cs)[d]?).getD c
  value := fun x => if x ∈ c :: cs then some ((c :: cs).idxOf x) else none
  value_digit := by
    intro d hd
    rw [List.getElem?_eq_getElem hd, Option.getD_some, if_pos (List.getElem_mem hd),
      hdistinct.idxOf_getElem]
  digit_value := by
    intro x d hx
    split at hx
    · rename_i hmem
      obtain rfl := Option.some.inj hx
      have hlt := List.idxOf_lt_length_iff.mpr hmem
      refine ⟨hlt, ?_⟩
      rw [List.getElem?_eq_getElem hlt, Option.getD_some, List.getElem_idxOf]
    · cases hx

end OfList

end Alphabet

/-- The digits of decimal notation. -/
def decimal : Alphabet Char :=
  Alphabet.ofList '0' ['1', '2', '3', '4', '5', '6', '7', '8', '9'] (List.cons_ne_nil _ _)
    (by decide)

/-- The digits of hexadecimal notation, in upper case. -/
def hexadecimal : Alphabet Char :=
  Alphabet.ofList '0' ['1', '2', '3', '4', '5', '6', '7', '8', '9', 'A', 'B', 'C', 'D', 'E', 'F']
    (List.cons_ne_nil _ _) (by decide)

end Libiak
