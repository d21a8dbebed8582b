/-
`log/LogStream.cpp`: the 4096 bytes a log line is put together in.

The bytes from `data_` to `cur_` are the text. An insertion that does not find
enough room leaves the text as it was. What is enough differs: a string must
leave at least one byte free behind it; an integer, a double and a pointer want
32 bytes, however few they write.

`none` is an index outside of a digit table or a byte written outside of
`data_`. Both are excluded for every insertion by `insert_spec`, which says all
there is to say about one: it adds the whole rendering, or nothing.
-/
import Libiak.Numeral
import Mathlib.Algebra.Group.Nat.Defs
import Mathlib.Algebra.GroupWithZero.Nat
import Mathlib.Data.List.Basic
import Mathlib.Data.Int.Notation

set_option autoImplicit false

namespace Libiak.Log

/-! ## Numbers in a buffer -/

/-- `digits`, from -9 to 9. -/
def digits : List Char :=
  ['9', '8', '7', '6', '5', '4', '3', '2', '1', '0', '1', '2', '3', '4', '5', '6', '7', '8', '9']

/-- `zero[lsd]`, where `zero` points to the middle of `digits`. -/
def zero (lsd : ℤ) : Option Char := if 0 ≤ 9 + lsd then digits[(9 + lsd).toNat]? else none

def digitsHex : List Char :=
  ['0', '1', '2', '3', '4', '5', '6', '7', '8', '9', 'A', 'B', 'C', 'D', 'E', 'F']

/-- The `do` loop of `convert`: the digits of `i`, the last one first. Division
is towards zero, so the digits of a negative number are negative. -/
def convert.loop (i : ℤ) : Option (List Char) :=
  (zero (i.tmod 10)).bind fun lsd =>
    if i.tdiv 10 = 0 then some [lsd]
    else (convert.loop (i.tdiv 10)).map fun rest => lsd :: rest
termination_by i.natAbs
decreasing_by
  rename_i h
  have hdiv : (i.tdiv 10).natAbs = i.natAbs / 10 := Int.natAbs_tdiv i 10
  omega

/-- `convert`: the text that is left in the buffer, before the terminator. -/
def convert (value : ℤ) : Option (List Char) :=
  (convert.loop value).map fun p => (if value < 0 then p ++ ['-'] else p).reverse

/-- The `do` loop of `convertHex`. -/
def convertHex.loop (i : ℕ) : Option (List Char) :=
  (digitsHex[i % 16]?).bind fun lsd =>
    if i / 16 = 0 then some [lsd]
    else (convertHex.loop (i / 16)).map fun rest => lsd :: rest
termination_by i
decreasing_by
  rename_i h
  omega

/-- `convertHex`. -/
def convertHex (value : ℕ) : Option (List Char) := (convertHex.loop value).map List.reverse

/-! ## What they write -/

/-- The table is centred: a digit is found for its negative as well. -/
theorem zero_eq {lsd : ℤ} (h : lsd.natAbs < 10) : zero lsd = some (decimal.digit lsd.natAbs) := by
  have htable : ∀ k : Fin 19,
      zero ((k : ℤ) - 9) = some (decimal.digit ((k : ℤ) - 9).natAbs) := by decide
  have hlsd : (((lsd + 9).toNat : ℕ) : ℤ) - 9 = lsd := by omega
  have hk := htable ⟨(lsd + 9).toNat, by omega⟩
  rwa [hlsd] at hk

/-- The remainder of a division towards zero is the last digit, with the sign of
the number. -/
theorem zero_tmod (i : ℤ) : zero (i.tmod 10) = some (decimal.digit (i.natAbs % 10)) := by
  have hmod : (i.tmod 10).natAbs = i.natAbs % 10 := Int.natAbs_tmod i 10
  have hlt : (i.tmod 10).natAbs < 10 := by
    rw [hmod]
    exact Nat.mod_lt _ (by decide)
  rw [zero_eq hlt, hmod]

/-- The quotient is the rest of the digits. -/
theorem tdiv_eq_zero_iff (i : ℤ) : i.tdiv 10 = 0 ↔ i.natAbs / 10 = 0 := by
  rw [← Int.natAbs_eq_zero, Int.natAbs_tdiv]
  rfl

/-- **The loop writes the digits of the number**, the last one first. -/
theorem convert.loop_eq (i : ℤ) : convert.loop i = some (decimal.write i.natAbs).reverse := by
  obtain ⟨n, hn⟩ : ∃ n, n = i.natAbs := ⟨_, rfl⟩
  induction n using Nat.strong_induction_on generalizing i with
  | _ n ih =>
      subst hn
      rw [convert.loop, zero_tmod, Option.bind_some, Alphabet.write_step, List.reverse_append,
        List.reverse_singleton, List.singleton_append]
      change _ = some (_ :: List.reverse (if i.natAbs / 10 = 0 then _ else decimal.write (i.natAbs / 10)))
      by_cases hdiv : i.tdiv 10 = 0
      · rw [if_pos hdiv, if_pos ((tdiv_eq_zero_iff i).mp hdiv)]
        rfl
      · have hnat := mt (tdiv_eq_zero_iff i).mpr hdiv
        have habs : (i.tdiv 10).natAbs = i.natAbs / 10 := Int.natAbs_tdiv i 10
        rw [if_neg hdiv, if_neg hnat, ih _ (by omega) (i.tdiv 10) rfl, habs]
        rfl

/-- **`convert` writes the decimal numeral.** -/
theorem convert_eq (value : ℤ) : convert value = some (decimal.writeInt '-' value) := by
  rw [convert, convert.loop_eq, Option.map_some, Alphabet.writeInt]
  by_cases h : value < 0
  · rw [if_pos h, if_pos h, List.reverse_append, List.reverse_reverse]
    rfl
  · rw [if_neg h, if_neg h, List.reverse_reverse]
    rfl

theorem digitsHex_eq {lsd : ℕ} (h : lsd < 16) : digitsHex[lsd]? = some (hexadecimal.digit lsd) := by
  have htable : ∀ k : Fin 16, digitsHex[(k : ℕ)]? = some (hexadecimal.digit k) := by decide
  exact htable ⟨lsd, h⟩

theorem convertHex.loop_eq (i : ℕ) : convertHex.loop i = some (hexadecimal.write i).reverse := by
  induction i using Nat.strong_induction_on with
  | _ i ih =>
      rw [convertHex.loop, digitsHex_eq (Nat.mod_lt i (by decide)), Option.bind_some,
        Alphabet.write_step, List.reverse_append, List.reverse_singleton, List.singleton_append]
      change _ = some (_ :: List.reverse (if i / 16 = 0 then _ else hexadecimal.write (i / 16)))
      by_cases hdiv : i / 16 = 0
      · rw [if_pos hdiv, if_pos hdiv]
        rfl
      · rw [if_neg hdiv, if_neg hdiv, ih _ (by omega)]
        rfl

/-- **`convertHex` writes the hexadecimal numeral.** -/
theorem convertHex_eq (value : ℕ) : convertHex value = some (hexadecimal.write value) := by
  rw [convertHex, convertHex.loop_eq, Option.map_some, List.reverse_reverse]

/-- A number of at most 64 bits takes at most 20 digits and a sign. -/
theorem length_decimal {value : ℤ} (h : value.natAbs ≤ 2 ^ 64) :
    (decimal.writeInt '-' value).length ≤ 21 := by
  have hdigits : (decimal.write value.natAbs).length ≤ 20 :=
    Alphabet.length_write_le 19 (Nat.lt_of_le_of_lt h (by decide))
  unfold Alphabet.writeInt
  rw [List.length_append]
  split
  · rw [List.length_singleton]
    omega
  · rw [List.length_nil]
    omega

/-- An address of 64 bits takes at most 16 digits. -/
theorem length_hexadecimal {value : ℕ} (h : value < 2 ^ 64) :
    (hexadecimal.write value).length ≤ 16 :=
  Alphabet.length_write_le 15 (Nat.lt_of_lt_of_le h (by decide))

theorem convert_spec (value : ℤ) (h : value.natAbs ≤ 2 ^ 64) :
    ∃ text, convert value = some text ∧ text.length ≤ 21 :=
  ⟨_, convert_eq value, length_decimal h⟩

theorem convertHex_spec {value : ℕ} (h : value < 2 ^ 64) :
    ∃ text, convertHex value = some text ∧ text.length ≤ 16 :=
  ⟨_, convertHex_eq value, length_hexadecimal h⟩

/-! ## `class LogStream` -/

def LogStream.kBufferSize : ℕ := 4096

def LogStream.kMaxNumericSize : ℕ := 32

/-- The text between `data_` and `cur_`, which is not past `end_`. -/
structure LogStream where
  text : List Char
  length_le : text.length ≤ LogStream.kBufferSize

/-- `class LogFormat`: what `snprintf` made of a value, which its constructor
asserts to be shorter than 32 bytes. -/
structure LogFormat where
  text : List Char
  length_lt : text.length < 32

/-- What an `operator<<` or `append` can be given. A double is given by what
`%.12g` makes of it. A C string is given by the characters before its end. -/
inductive Insertion
  | short (v : Int16)
  | unsignedShort (v : UInt16)
  | int (v : Int32)
  | unsignedInt (v : UInt32)
  | long (v : Int64)
  | unsignedLong (v : UInt64)
  | longLong (v : Int64)
  | unsignedLongLong (v : UInt64)
  | float (v : LogFormat)
  | double (v : LogFormat)
  | char (v : Char)
  | cString (v : List Char)
  | string (v : List Char)
  | bool (v : Bool)
  | pointer (p : UInt64)
  | format (fmt : LogFormat)

namespace LogStream

/-- `LogStream::LogStream`. -/
def make : LogStream := ⟨[], Nat.zero_le _⟩

def length (s : LogStream) : ℕ := s.text.length

def avail (s : LogStream) : ℕ := kBufferSize - s.length

/-- Bytes written from `cur_` on, the last `extra` of them behind the place that
`cur_` is moved to. -/
def write (s : LogStream) (text : List Char) (extra : ℕ) : Option LogStream :=
  if h : s.length + text.length + extra ≤ kBufferSize then
    some ⟨s.text ++ text, by
      rw [List.length_append]
      exact Nat.le_trans (Nat.le_add_right _ extra) h⟩
  else none

def append (s : LogStream) (buf : List Char) : Option LogStream :=
  if buf.length < s.avail then s.write buf 0 else some s

def formatInteger (s : LogStream) (v : ℤ) : Option LogStream :=
  if kMaxNumericSize ≤ s.avail then (convert v).bind fun text => s.write text 1 else some s

/-- `operator<<(double)`: `snprintf` writes the text and its terminator. -/
def formatDouble (s : LogStream) (v : LogFormat) : Option LogStream :=
  if kMaxNumericSize ≤ s.avail then s.write v.text 1 else some s

/-- `operator<<(const void*)`. -/
def formatPointer (s : LogStream) (v : ℕ) : Option LogStream :=
  if kMaxNumericSize ≤ s.avail then
    (s.write ['0', 'x'] 0).bind fun s => (convertHex v).bind fun text => s.write text 1
  else some s

/-- The overloads of `operator<<`. -/
def insert (s : LogStream) : Insertion → Option LogStream
  | .short v => s.formatInteger v.toInt32.toInt
  | .unsignedShort v => s.formatInteger v.toUInt32.toNat
  | .int v => s.formatInteger v.toInt
  | .unsignedInt v => s.formatInteger v.toNat
  | .long v => s.formatInteger v.toInt
  | .unsignedLong v => s.formatInteger v.toNat
  | .longLong v => s.formatInteger v.toInt
  | .unsignedLongLong v => s.formatInteger v.toNat
  | .float v => s.formatDouble v
  | .double v => s.formatDouble v
  | .char v => s.append [v]
  | .cString v => s.append v
  | .string v => s.append v
  | .bool v => s.append (if v then ['1'] else ['0'])
  | .pointer p => s.formatPointer p.toNat
  | .format fmt => s.append fmt.text

/-- Several insertions, in order. -/
def insertAll (s : LogStream) (vs : List Insertion) : Option LogStream := vs.foldlM insert s

end LogStream

/-! ## What an insertion does -/

/-- The text of an item. -/
def Insertion.rendering : Insertion → List Char
  | .short v => (convert v.toInt32.toInt).getD []
  | .unsignedShort v => (convert v.toUInt32.toNat).getD []
  | .int v => (convert v.toInt).getD []
  | .unsignedInt v => (convert v.toNat).getD []
  | .long v => (convert v.toInt).getD []
  | .unsignedLong v => (convert v.toNat).getD []
  | .longLong v => (convert v.toInt).getD []
  | .unsignedLongLong v => (convert v.toNat).getD []
  | .float v => v.text
  | .double v => v.text
  | .char v => [v]
  | .cString v => v
  | .string v => v
  | .bool v => if v then ['1'] else ['0']
  | .pointer p => ['0', 'x'] ++ (convertHex p.toNat).getD []
  | .format fmt => fmt.text

/-- The room an item wants to find: a fixed one for numbers, and otherwise one
byte more than it takes. -/
def Insertion.reserve : Insertion → ℕ
  | .char _ | .bool _ => 2
  | .cString v => v.length + 1
  | .string v => v.length + 1
  | .format fmt => fmt.text.length + 1
  | .short _ | .unsignedShort _ | .int _ | .unsignedInt _ | .long _ | .unsignedLong _
  | .longLong _ | .unsignedLongLong _ | .float _ | .double _ | .pointer _ =>
      LogStream.kMaxNumericSize

namespace LogStream

/-- `s` becomes `t` by an item that wants `reserve` bytes of room, all of it or
nothing. -/
def Takes (s t : LogStream) (reserve : ℕ) (text : List Char) : Prop :=
  text.length < reserve
    ∧ t.text = if s.length + reserve ≤ kBufferSize then s.text ++ text else s.text

variable {s : LogStream}

theorem avail_add (s : LogStream) : s.avail + s.length = kBufferSize :=
  Nat.sub_add_cancel s.length_le

theorem write_eq (s : LogStream) (text : List Char) (extra : ℕ)
    (h : s.length + text.length + extra ≤ kBufferSize) :
    ∃ t, s.write text extra = some t ∧ t.text = s.text ++ text :=
  ⟨_, dif_pos h, rfl⟩

theorem append_spec (s : LogStream) (buf : List Char) :
    ∃ t, s.append buf = some t ∧ s.Takes t (buf.length + 1) buf := by
  have havail := s.avail_add
  unfold append Takes
  by_cases h : buf.length < s.avail
  · obtain ⟨t, ht, htext⟩ := write_eq s buf 0 (by omega)
    refine ⟨t, by rw [if_pos h, ht], Nat.lt_succ_self _, ?_⟩
    rw [if_pos (by omega), htext]
  · -- an item that does not fit is dropped
    refine ⟨s, if_neg h, Nat.lt_succ_self _, ?_⟩
    rw [if_neg (by omega)]

/-- The numbers: what is written with its terminator fits the reserve. -/
theorem reserved_spec {f : Option LogStream} {text : List Char}
    (hwrite : s.length + kMaxNumericSize ≤ kBufferSize →
      ∃ t, f = some t ∧ t.text = s.text ++ text)
    (hlen : text.length < kMaxNumericSize) :
    ∃ t, (if kMaxNumericSize ≤ s.avail then f else some s) = some t
      ∧ s.Takes t kMaxNumericSize text := by
  have havail := s.avail_add
  by_cases h : kMaxNumericSize ≤ s.avail
  · obtain ⟨t, ht, htext⟩ := hwrite (by omega)
    refine ⟨t, by rw [if_pos h, ht], hlen, ?_⟩
    rw [if_pos (by omega), htext]
  · refine ⟨s, if_neg h, hlen, ?_⟩
    rw [if_neg (by omega)]

theorem formatInteger_spec (s : LogStream) {v : ℤ} (h : v.natAbs ≤ 2 ^ 64) :
    ∃ t, s.formatInteger v = some t ∧ s.Takes t kMaxNumericSize ((convert v).getD []) := by
  obtain ⟨text, hconv, hlen⟩ := convert_spec v h
  rw [formatInteger, hconv, Option.getD_some, Option.bind_some]
  have hlt : text.length < kMaxNumericSize := Nat.lt_of_le_of_lt hlen (by decide)
  exact reserved_spec (fun hroom => write_eq s _ 1 (by omega)) hlt

theorem formatDouble_spec (s : LogStream) (v : LogFormat) :
    ∃ t, s.formatDouble v = some t ∧ s.Takes t kMaxNumericSize v.text := by
  have hlt : v.text.length < kMaxNumericSize := v.length_lt
  exact reserved_spec (fun hroom => write_eq s _ 1 (by omega)) hlt

theorem formatPointer_spec (s : LogStream) {v : ℕ} (h : v < 2 ^ 64) :
    ∃ t, s.formatPointer v = some t
      ∧ s.Takes t kMaxNumericSize (['0', 'x'] ++ (convertHex v).getD []) := by
  obtain ⟨text, hconv, hlen⟩ := convertHex_spec h
  rw [hconv, Option.getD_some]
  have hlt : (['0', 'x'] ++ text).length < kMaxNumericSize := by
    change text.length + 2 < 32
    omega
  unfold formatPointer
  refine reserved_spec (fun hroom => ?_) hlt
  change text.length + 2 < 32 at hlt
  change s.length + 32 ≤ kBufferSize at hroom
  -- the prefix first, and behind it the digits with their terminator
  obtain ⟨u, hu, hutext⟩ := write_eq s ['0', 'x'] 0
    (by change s.length + 2 + 0 ≤ _; omega)
  have hulen : u.length = s.length + 2 := by
    rw [length, hutext, List.length_append]
    rfl
  obtain ⟨t, ht, htext⟩ := write_eq u text 1 (by omega)
  refine ⟨t, ?_, by rw [htext, hutext, List.append_assoc]⟩
  rw [hu, Option.bind_some, hconv, Option.bind_some, ht]

/-- **An insertion adds all of its item, or nothing.** It writes within the
buffer, and there is room for the item when its reserve fits. -/
theorem insert_spec (s : LogStream) (v : Insertion) :
    ∃ t, s.insert v = some t ∧ s.Takes t v.reserve v.rendering := by
  have hsigned : ∀ n : Int64, n.toInt.natAbs ≤ 2 ^ 64 := by
    intro n
    have h1 := n.le_toInt
    have h2 := n.toInt_lt
    omega
  have hsigned' : ∀ n : Int32, n.toInt.natAbs ≤ 2 ^ 64 := by
    intro n
    have h1 := n.le_toInt
    have h2 := n.toInt_lt
    omega
  have hunsigned : ∀ n : UInt64, (n.toNat : ℤ).natAbs ≤ 2 ^ 64 := by
    intro n
    have := n.toNat_lt
    omega
  have hunsigned' : ∀ n : UInt32, (n.toNat : ℤ).natAbs ≤ 2 ^ 64 := by
    intro n
    have := n.toNat_lt
    omega
  cases v with
  | short v => exact s.formatInteger_spec (hsigned' _)
  | unsignedShort v => exact s.formatInteger_spec (hunsigned' _)
  | int v => exact s.formatInteger_spec (hsigned' v)
  | unsignedInt v => exact s.formatInteger_spec (hunsigned' v)
  | long v => exact s.formatInteger_spec (hsigned v)
  | unsignedLong v => exact s.formatInteger_spec (hunsigned v)
  | longLong v => exact s.formatInteger_spec (hsigned v)
  | unsignedLongLong v => exact s.formatInteger_spec (hunsigned v)
  | float v => exact s.formatDouble_spec v
  | double v => exact s.formatDouble_spec v
  | char v => exact s.append_spec [v]
  | cString v => exact s.append_spec v
  | string v => exact s.append_spec v
  | bool v =>
      cases v with
      | false => exact s.append_spec ['0']
      | true => exact s.append_spec ['1']
  | pointer p => exact s.formatPointer_spec p.toNat_lt
  | format fmt => exact s.append_spec fmt.text

/-- Several insertions write within the buffer. -/
theorem insertAll_some (s : LogStream) (vs : List Insertion) : ∃ t, s.insertAll vs = some t := by
  induction vs generalizing s with
  | nil => exact ⟨s, rfl⟩
  | cons v vs ih =>
      obtain ⟨t, ht, -⟩ := s.insert_spec v
      obtain ⟨u, hu⟩ := ih t
      refine ⟨u, ?_⟩
      rw [insertAll, List.foldlM_cons, ht]
      exact hu

/-- One insertion leaves the text, or puts the whole item behind it, and a byte
stays free. -/
theorem insert_cases (s : LogStream) (hs : s.length < kBufferSize) (v : Insertion) :
    ∃ t, s.insert v = some t ∧ t.length < kBufferSize
      ∧ (t.text = s.text ∨ t.text = s.text ++ v.rendering) := by
  obtain ⟨t, ht, hlt, htext⟩ := s.insert_spec v
  refine ⟨t, ht, ?_⟩
  unfold length
  rw [htext]
  split
  · rename_i hroom
    rw [List.length_append]
    unfold length at hroom
    exact ⟨by omega, Or.inr rfl⟩
  · exact ⟨hs, Or.inl rfl⟩

/-- Several insertions put some of the items behind the text, in order. -/
theorem insertAll_spec (s : LogStream) (hs : s.length < kBufferSize) (vs : List Insertion) :
    ∃ (t : LogStream) (kept : List Insertion), s.insertAll vs = some t
      ∧ t.length < kBufferSize ∧ kept.Sublist vs
      ∧ t.text = s.text ++ (kept.map Insertion.rendering).flatten := by
  induction vs generalizing s with
  | nil => exact ⟨s, [], rfl, hs, List.Sublist.refl [], (List.append_nil _).symm⟩
  | cons v vs ih =>
      obtain ⟨t, ht, htlen, htext⟩ := s.insert_cases hs v
      obtain ⟨u, kept, hu, hulen, hsub, hutext⟩ := ih t htlen
      have hrun : s.insertAll (v :: vs) = some u := by
        rw [insertAll, List.foldlM_cons, ht]
        exact hu
      rcases htext with hskip | htake
      · refine ⟨u, kept, hrun, hulen, hsub.cons v, ?_⟩
        rw [hutext, hskip]
      · refine ⟨u, v :: kept, hrun, hulen, hsub.cons_cons v, ?_⟩
        rw [hutext, htake, List.map_cons, List.flatten_cons, List.append_assoc]

/-- **Items are all or nothing and stay in bounds.** Whatever is inserted and in
whatever order, no byte is written outside of the buffer, the terminators and the
digit tables included; at most 4095 bytes are kept; and they are the renderings of
some of the items, each of them in full, in the order of their insertion. -/
theorem insertAll_whole (vs : List Insertion) :
    ∃ (t : LogStream) (kept : List Insertion), make.insertAll vs = some t
      ∧ t.length ≤ 4095 ∧ kept.Sublist vs
      ∧ t.text = (kept.map Insertion.rendering).flatten := by
  obtain ⟨t, kept, ht, hlen, hsub, htext⟩ := make.insertAll_spec (by decide) vs
  exact ⟨t, kept, ht, Nat.le_of_lt_succ hlen, hsub, htext⟩

end LogStream

end Libiak.Log
