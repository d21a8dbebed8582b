/-
`convert` and `convertHex` at the types they are instantiated with.

`LogStream` computes on the integers. Here the same two functions compute on a
type of the language of any width, signed or not, and have no value where an
intermediate result does not fit it; and what they leave in the buffer is there
byte by byte, with the terminator. Nothing that the loops compute is further from
zero than the number they began with, so nothing overflows, the most negative
number included, whose digits are never negated (`convertIn_eq`).
-/
import Libiak.CInt
import Libiak.LogStream

set_option autoImplicit false

namespace Libiak.Log

/-! ## Integer types -/

/-- An integer type of the language. -/
structure IntType where
  signed : Bool
  bits : ℕ

namespace IntType

/-- The value is one of the type. -/
def Holds (t : IntType) (v : ℤ) : Prop :=
  if t.signed then -2 ^ (t.bits - 1) ≤ v ∧ v < 2 ^ (t.bits - 1) else 0 ≤ v ∧ v < 2 ^ t.bits

instance (t : IntType) (v : ℤ) : Decidable (t.Holds v) := by
  unfold Holds
  infer_instance

/-- A result of the type. -/
def result (t : IntType) (v : ℤ) : Option ℤ := if t.Holds v then some v else none

variable {t : IntType} {v x : ℤ}

/-- With a number the type holds every number between it and zero. -/
theorem Holds.toward_zero (h : t.Holds v) (hle : min 0 v ≤ x) (hge : x ≤ max 0 v) : t.Holds x := by
  unfold Holds at h ⊢
  have hpos : (0 : ℤ) < 2 ^ (t.bits - 1) := Int.pow_pos (by decide)
  have hpos' : (0 : ℤ) < 2 ^ t.bits := Int.pow_pos (by decide)
  cases hsigned : t.signed with
  | true =>
      rw [if_pos hsigned] at h
      rw [if_pos rfl]
      omega
  | false =>
      rw [if_neg (by simp [hsigned])] at h
      rw [if_neg (by simp)]
      omega

theorem Holds.tdiv_ten (h : t.Holds v) : t.Holds (v.tdiv 10) := by
  have habs : (v.tdiv 10).natAbs = v.natAbs / 10 := Int.natAbs_tdiv v 10
  rcases Int.le_total 0 v with hv | hv
  · have hsign : 0 ≤ v.tdiv 10 := Int.tdiv_nonneg hv (by decide)
    exact h.toward_zero (by omega) (by omega)
  · have hsign : 0 ≤ (-v).tdiv 10 := Int.tdiv_nonneg (by omega) (by decide)
    rw [Int.neg_tdiv] at hsign
    exact h.toward_zero (by omega) (by omega)

theorem Holds.tmod_ten (h : t.Holds v) : t.Holds (v.tmod 10) := by
  have habs : (v.tmod 10).natAbs = v.natAbs % 10 := Int.natAbs_tmod v 10
  rcases Int.le_total 0 v with hv | hv
  · have hsign : 0 ≤ v.tmod 10 := Int.tmod_nonneg 10 hv
    exact h.toward_zero (by omega) (by omega)
  · have hsign : 0 ≤ (-v).tmod 10 := Int.tmod_nonneg 10 (by omega)
    rw [Int.neg_tmod] at hsign
    exact h.toward_zero (by omega) (by omega)

end IntType

/-! ## The functions -/

/-- The terminator. -/
def nul : Char := Char.ofNat 0

/-- What a conversion leaves in its buffer, and what it returns. -/
structure Converted where
  buf : List Char
  size : ℕ
  deriving DecidableEq

/-- The `do` loop of `convert`, for a `value` of type `t`: `buf` is what is there
up to `p`. -/
def convertIn.loop (t : IntType) (i : ℤ) (buf : List Char) : Option (List Char) :=
  ((t.result (i.tmod 10)).bind CInt.int).bind fun lsd =>
    (t.result (i.tdiv 10)).bind fun _ =>
      (zero lsd).bind fun c =>
        if i.tdiv 10 = 0 then some (buf ++ [c]) else convertIn.loop t (i.tdiv 10) (buf ++ [c])
termination_by i.natAbs
decreasing_by
  rename_i h
  have hdiv : (i.tdiv 10).natAbs = i.natAbs / 10 := Int.natAbs_tdiv i 10
  omega

/-- `convert<T>`: the sign, the terminator, and `std::reverse` up to it. -/
def convertIn (t : IntType) (value : ℤ) : Option Converted :=
  (convertIn.loop t value []).map fun buf =>
    let buf := if value < 0 then buf ++ ['-'] else buf
    { buf := buf.reverse ++ [nul], size := buf.length }

/-- The `do` loop of `convertHex`, for a `uintptr_t` of so many bits. -/
def convertHexIn.loop (bits : ℕ) (i : ℕ) (buf : List Char) : Option (List Char) :=
  (CInt.int (i % 16 : ℕ)).bind fun lsd =>
    (IntType.result ⟨false, bits⟩ (i / 16 : ℕ)).bind fun _ =>
      (digitsHex[lsd.toNat]?).bind fun c =>
        if i / 16 = 0 then some (buf ++ [c]) else convertHexIn.loop bits (i / 16) (buf ++ [c])
termination_by i
decreasing_by
  rename_i h
  omega

def convertHexIn (bits : ℕ) (value : ℕ) : Option Converted :=
  (convertHexIn.loop bits value []).map fun buf =>
    { buf := buf.reverse ++ [nul], size := buf.length }

/-! ## They are the functions on the integers -/

/-- Nothing overflows, and the digits are the same. -/
theorem convertIn.loop_eq {t : IntType} {i : ℤ} (h : t.Holds i) (buf : List Char) :
    convertIn.loop t i buf = (convert.loop i).map fun digits => buf ++ digits := by
  obtain ⟨n, hn⟩ : ∃ n, n = i.natAbs := ⟨_, rfl⟩
  induction n using Nat.strong_induction_on generalizing i buf with
  | _ n ih =>
      have hmod : t.result (i.tmod 10) = some (i.tmod 10) := if_pos h.tmod_ten
      have hdiv : t.result (i.tdiv 10) = some (i.tdiv 10) := if_pos h.tdiv_ten
      have habs : (i.tmod 10).natAbs = i.natAbs % 10 := Int.natAbs_tmod i 10
      have hlsd : CInt.int (i.tmod 10) = some (i.tmod 10) := by
        apply if_pos
        unfold CInt.Fits
        omega
      rw [convertIn.loop, hmod, Option.bind_some, hlsd, Option.bind_some, hdiv, Option.bind_some,
        convert.loop, zero_tmod, Option.bind_some, Option.bind_some]
      by_cases hzero : i.tdiv 10 = 0
      · rw [if_pos hzero, if_pos hzero]
        rfl
      · have hquot : (i.tdiv 10).natAbs = i.natAbs / 10 := Int.natAbs_tdiv i 10
        have hless : (i.tdiv 10).natAbs < n := by omega
        rw [if_neg hzero, if_neg hzero, ih _ hless h.tdiv_ten _ rfl, Option.map_map]
        congr 1
        funext digits
        simp

/-- **`convert` at a type is `convert`.** -/
theorem convertIn_eq {t : IntType} {value : ℤ} (h : t.Holds value) :
    convertIn t value = (convert value).map fun text => ⟨text ++ [nul], text.length⟩ := by
  unfold convertIn convert
  rw [convertIn.loop_eq h, Option.map_map, Option.map_map]
  congr 1
  funext digits
  simp

theorem convertHexIn.loop_eq {bits i : ℕ} (h : i < 2 ^ bits) (buf : List Char) :
    convertHexIn.loop bits i buf = (convertHex.loop i).map fun digits => buf ++ digits := by
  induction i using Nat.strong_induction_on generalizing buf with
  | _ i ih =>
      have hle : i / 16 ≤ i := Nat.div_le_self i 16
      have hdiv : IntType.result ⟨false, bits⟩ (i / 16 : ℕ) = some ((i / 16 : ℕ) : ℤ) := by
        apply if_pos
        have hlt : ((i / 16 : ℕ) : ℤ) < ((2 ^ bits : ℕ) : ℤ) := by
          exact_mod_cast Nat.lt_of_le_of_lt hle h
        rw [Nat.cast_pow] at hlt
        exact ⟨Int.natCast_nonneg _, hlt⟩
      have hlsd : CInt.int ((i % 16 : ℕ) : ℤ) = some ((i % 16 : ℕ) : ℤ) := by
        apply if_pos
        unfold CInt.Fits
        omega
      rw [convertHexIn.loop, hlsd, Option.bind_some, hdiv, Option.bind_some, convertHex.loop,
        Int.toNat_natCast, digitsHex_eq (Nat.mod_lt i (by decide)), Option.bind_some,
        Option.bind_some]
      by_cases hzero : i / 16 = 0
      · rw [if_pos hzero, if_pos hzero]
        rfl
      · rw [if_neg hzero, if_neg hzero, ih _ (by omega) (Nat.lt_of_le_of_lt hle h),
          Option.map_map]
        congr 1
        funext digits
        simp

/-- **`convertHex` at a type is `convertHex`.** -/
theorem convertHexIn_eq {bits value : ℕ} (h : value < 2 ^ bits) :
    convertHexIn bits value = (convertHex value).map fun text => ⟨text ++ [nul], text.length⟩ := by
  unfold convertHexIn convertHex
  rw [convertHexIn.loop_eq h, Option.map_map, Option.map_map]
  congr 1
  funext digits
  simp

/-! ## Canonical and reversible -/

/-- The sign is no digit. -/
theorem value_minus : decimal.value '-' = none := by decide

/-- A value of a type of at most 64 bits. -/
theorem IntType.Holds.natAbs_le {t : IntType} {v : ℤ} (h : t.Holds v) (hbits : t.bits ≤ 64) :
    v.natAbs ≤ 2 ^ 64 := by
  have hpow : (2 : ℤ) ^ t.bits ≤ 2 ^ 64 := pow_le_pow_right₀ (by decide) hbits
  have hpow' : (2 : ℤ) ^ (t.bits - 1) ≤ 2 ^ 64 := pow_le_pow_right₀ (by decide) (by omega)
  unfold Holds at h
  split at h
  · omega
  · omega

/-- **Integer formatting is canonical and reversible.** For every integer type and
every value of it, the most negative one included, `convert` computes without
overflow and without an index outside of its table; it leaves the decimal numeral
of the value with its terminator, and returns the length of the numeral, which is
canonical and reads back as the value. `convertHex` does the same in base 16 with
upper-case digits for every unsigned value. For types of at most 64 bits the text
with its terminator, and `0x` in front of an address, fits 32 bytes. -/
theorem convert_canonical :
    (∀ (t : IntType) (v : ℤ), t.Holds v → ∃ text,
        convertIn t v = some ⟨text ++ [nul], text.length⟩
          ∧ decimal.CanonicalInt '-' v text ∧ decimal.readInt '-' text = some v
          ∧ (t.bits ≤ 64 → (text ++ [nul]).length ≤ LogStream.kMaxNumericSize))
      ∧ ∀ bits value : ℕ, value < 2 ^ bits → ∃ text,
        convertHexIn bits value = some ⟨text ++ [nul], text.length⟩
          ∧ hexadecimal.Canonical text ∧ hexadecimal.read text = some value
          ∧ (bits ≤ 64 → (['0', 'x'] ++ text ++ [nul]).length ≤ LogStream.kMaxNumericSize) := by
  constructor
  · intro t v h
    refine ⟨decimal.writeInt '-' v, ?_, Alphabet.canonicalInt_writeInt value_minus v,
      Alphabet.readInt_writeInt value_minus v, ?_⟩
    · rw [convertIn_eq h, convert_eq, Option.map_some]
    · intro hbits
      have hlen := length_decimal (h.natAbs_le hbits)
      rw [List.length_append]
      change _ + 1 ≤ 32
      omega
  · intro bits value h
    have hcanonical : hexadecimal.Canonical (hexadecimal.write value)
        ∧ hexadecimal.read (hexadecimal.write value) = some value :=
      Alphabet.canonical_iff.mpr rfl
    refine ⟨hexadecimal.write value, ?_, hcanonical.1, hcanonical.2, ?_⟩
    · rw [convertHexIn_eq h, convertHex_eq, Option.map_some]
    · intro hbits
      have hlt : value < 2 ^ 64 := Nat.lt_of_lt_of_le h (Nat.pow_le_pow_right (by decide) hbits)
      have hlen := length_hexadecimal hlt
      rw [List.length_append, List.length_append]
      change 2 + _ + 1 ≤ 32
      omega

/-- The most negative number of 64 bits, and the largest address. -/
theorem convert_canonical_extreme :
    (∃ text, convertIn ⟨true, 64⟩ (-2 ^ 63) = some ⟨text ++ [nul], text.length⟩
        ∧ decimal.readInt '-' text = some (-2 ^ 63))
      ∧ ∃ text, convertHexIn 64 (2 ^ 64 - 1) = some ⟨text ++ [nul], text.length⟩
        ∧ hexadecimal.read text = some (2 ^ 64 - 1) := by
  obtain ⟨text, hconv, -, hread, -⟩ := convert_canonical.1 ⟨true, 64⟩ (-2 ^ 63) (by decide)
  obtain ⟨text', hconv', -, hread', -⟩ := convert_canonical.2 64 (2 ^ 64 - 1) (by decide)
  exact ⟨⟨text, hconv, hread⟩, text', hconv', hread'⟩

end Libiak.Log
