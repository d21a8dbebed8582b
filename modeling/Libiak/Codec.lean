/-
Formats of texts: how values are written, and how they are read back.

A `Codec` carries the law that reading from the front of a text yields the value that was
written there, and what follows it. Putting one format behind another keeps the law, so a
format that is made of the parts below needs no proof of its own. What does not end by
itself, such as a name, is written up to a delimiter; a text that can only be read from
its end is the reversed text of a format.
-/
import Libiak.FixedWidth

set_option autoImplicit false

namespace Libiak

/-- A format for the values of `α` that it `Fits`. -/
structure Codec (χ α : Type*) where
  Fits : α → Prop
  write : α → List χ
  read : List χ → Option (α × List χ)
  read_write : ∀ {a : α}, Fits a → ∀ rest, read (write a ++ rest) = some (a, rest)

namespace Codec

variable {χ α β : Type*}

/-! ## Putting formats together -/

/-- One value behind another. -/
def seq (f : Codec χ α) (g : Codec χ β) : Codec χ (α × β) where
  Fits p := f.Fits p.1 ∧ g.Fits p.2
  write p := f.write p.1 ++ g.write p.2
  read text := (f.read text).bind fun r => (g.read r.2).map fun q => ((r.1, q.1), q.2)
  read_write := by
    rintro ⟨a, b⟩ ⟨ha, hb⟩ rest
    dsimp only
    rw [List.append_assoc, f.read_write ha, Option.bind_some, g.read_write hb, Option.map_some]

/-- Nothing. -/
def done : Codec χ Unit where
  Fits _ := True
  write _ := []
  read text := some ((), text)
  read_write := fun _ _ => rfl

variable [DecidableEq χ]

/-- A fixed text, and a value behind it. -/
def skip (mark : List χ) (f : Codec χ α) : Codec χ α where
  Fits := f.Fits
  write a := mark ++ f.write a
  read text := if mark <+: text then f.read (text.drop mark.length) else none
  read_write := by
    intro a ha rest
    rw [List.append_assoc, if_pos (List.prefix_append mark _), List.drop_left]
    exact f.read_write ha rest

/-! ## Texts -/

/-- A text without `c`, up to a `c`. -/
def upTo (c : χ) : Codec χ (List χ) where
  Fits text := c ∉ text
  write text := text ++ [c]
  read text :=
    if c ∈ text then
      some (text.takeWhile (fun d => d != c), (text.dropWhile (fun d => d != c)).tail)
    else none
  read_write := by
    intro text htext rest
    have hne : ∀ d ∈ text, (d != c) = true := by
      intro d hd
      rw [bne_iff_ne]
      rintro rfl
      exact htext hd
    have hstop : (c :: rest).takeWhile (fun d => d != c) = [] := by simp
    have hstop' : (c :: rest).dropWhile (fun d => d != c) = c :: rest := by simp
    rw [List.append_assoc, List.singleton_append, if_pos (by simp),
      List.takeWhile_append_of_pos hne, List.dropWhile_append_of_pos hne, hstop, hstop',
      List.append_nil, List.tail_cons]

/-- One of the values `all`, by its name of a fixed width. -/
def oneOf (all : List α) (name : α → List χ) (width : ℕ)
    (hwidth : ∀ a ∈ all, (name a).length = width)
    (hname : ∀ a ∈ all, ∀ b ∈ all, name a = name b → a = b) : Codec χ α where
  Fits a := a ∈ all
  write := name
  read text := (all.find? fun a => name a = text.take width).map fun a => (a, text.drop width)
  read_write := by
    intro a ha rest
    rw [← hwidth a ha, List.take_left, List.drop_left]
    obtain ⟨b, hb⟩ : ∃ b, all.find? (fun b => name b = name a) = some b := by
      rw [← Option.isSome_iff_exists, List.find?_isSome]
      exact ⟨a, ha, by simp⟩
    have hmem := List.mem_of_find?_eq_some hb
    have heq : name b = name a := by simpa using List.find?_some hb
    rw [hb, hname b hmem a ha heq, Option.map_some]

end Codec

/-! ## Numbers of a fixed width -/

namespace Alphabet

variable {χ : Type*} {A : Alphabet χ} {blank : χ}

/-- What is no digit is in no numeral. -/
theorem notMem_write (hblank : A.value blank = none) (n : ℕ) : blank ∉ A.write n := by
  intro hmem
  obtain ⟨d, hd, rfl⟩ := (canonical_write n).digits blank hmem
  rw [A.value_digit d hd] at hblank
  cases hblank

/-- Zeros in front of a numeral do not count. -/
theorem readFrom_zeros (k : ℕ) (text : List χ) :
    A.readFrom 0 (List.replicate k (A.digit 0) ++ text) = A.readFrom 0 text := by
  have hbase := A.one_lt
  induction k with
  | zero => rfl
  | succ k ih =>
      rw [List.replicate_succ, List.cons_append, readFrom, A.value_digit 0 (by omega),
        Option.bind_some, Nat.mul_zero, Nat.zero_add]
      exact ih

theorem read_zeros (width n : ℕ) : A.read (A.field (A.digit 0) width n) = some n := by
  have hne : A.field (A.digit 0) width n ≠ [] :=
    List.append_ne_nil_of_right_ne_nil _ (write_ne_nil n)
  rw [read_eq_readFrom hne, field, readFrom_zeros, ← read_eq_readFrom (write_ne_nil n), read_write]

variable [DecidableEq χ]

/-- The number of a field that may begin with blanks. -/
def scan (A : Alphabet χ) (blank : χ) (text : List χ) : Option ℕ :=
  A.read (text.dropWhile fun c => c == blank)

theorem scan_eq_read {text : List χ} (h : blank ∉ text) : A.scan blank text = A.read text := by
  unfold scan
  cases text with
  | nil => rfl
  | cons c cs =>
      rw [List.mem_cons, not_or] at h
      rw [List.dropWhile_cons_of_neg (by simpa using Ne.symm h.1)]

theorem scan_blanks (hblank : A.value blank = none) (width n : ℕ) :
    A.scan blank (A.field blank width n) = some n := by
  have hdrop : ∀ c ∈ List.replicate (width - (A.write n).length) blank, (c == blank) = true := by
    intro c hc
    rw [beq_iff_eq]
    exact List.eq_of_mem_replicate hc
  unfold scan field
  rw [List.dropWhile_append_of_pos hdrop]
  exact (scan_eq_read (notMem_write hblank n)).trans (read_write n)

theorem scan_zeros (hblank : A.value blank = none) (width n : ℕ) :
    A.scan blank (A.field (A.digit 0) width n) = some n := by
  have hzero : A.value (A.digit 0) = some 0 := A.value_digit 0 (by have := A.one_lt; omega)
  have hnotMem : blank ∉ A.field (A.digit 0) width n := by
    unfold field
    rw [List.mem_append, not_or]
    refine ⟨fun hmem => ?_, notMem_write hblank n⟩
    rw [List.eq_of_mem_replicate hmem, hzero] at hblank
    cases hblank
  rw [scan_eq_read hnotMem, read_zeros]

end Alphabet

/-- What `printf` prints of a number in a fixed width, and a `scanf` reads. -/
def Codec.number (zero : Bool) (width : ℕ) (hwidth : width ≠ 0) : Codec Char ℤ where
  Fits := Shown width
  write := printInt zero width
  read text := (decimal.scan ' ' (text.take width)).map fun n : ℕ => ((n : ℤ), text.drop width)
  read_write := by
    intro v hv rest
    have hlength := length_printInt zero hv (Nat.pos_of_ne_zero hwidth)
    have hscan : decimal.scan ' ' (printInt zero width v) = some v.toNat := by
      rw [printInt_eq_field zero width hv.1]
      cases zero with
      | true => exact Alphabet.scan_zeros (by decide) width v.toNat
      | false => exact Alphabet.scan_blanks (by decide) width v.toNat
    rw [List.take_left' hlength, List.drop_left' hlength, hscan, Option.map_some,
      Int.toNat_of_nonneg hv.1]

end Libiak
