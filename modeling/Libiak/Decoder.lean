/-
Programs that decode a sequence of bytes from its front.

Such a program succeeds or stops, and has a state of its own that it fills as it
goes and that a stop leaves as it is. What it is for is an encoding: `Decodes`
says that it succeeds exactly where the bytes begin with the encoding of a value
that is fine, takes those bytes and no others, and yields that value. So one
statement is the round trip, and also that nothing else is accepted. It passes
from a program to its repetitions (`Decodes.times`); a sequence of programs is
taken apart by `bind_ok`.
-/
import Mathlib.Data.List.Basic

set_option autoImplicit false

namespace Libiak

variable {ε σ α β : Type}

/-- The bytes that are left, and the state of the program. -/
structure Source (σ : Type) where
  rest : List UInt8
  state : σ

abbrev Decoder (ε σ α : Type) := EStateM ε (Source σ) α

namespace Decoder

/-- The program succeeds exactly on the encodings of values that are fine. -/
def Decodes (x : Decoder ε σ α) (encode : α → List UInt8) (fine : α → Prop) : Prop :=
  ∀ (s s' : Source σ) (a : α),
    x s = .ok a s' ↔ fine a ∧ s.rest = encode a ++ s'.rest ∧ s'.state = s.state

/-- A sequence succeeds if its parts do. -/
theorem bind_ok {x : Decoder ε σ α} {f : α → Decoder ε σ β} {s s'' : Source σ} {b : β} :
    (x >>= f) s = .ok b s'' ↔ ∃ a s', x s = .ok a s' ∧ f a s' = .ok b s'' := by
  show EStateM.bind x f s = .ok b s'' ↔ _
  unfold EStateM.bind
  cases hx : x s with
  | ok a s' =>
      constructor
      · intro h
        exact ⟨a, s', rfl, h⟩
      · rintro ⟨a', t, ht, h⟩
        cases ht
        exact h
  | error e s' =>
      constructor
      · intro h
        cases h
      · rintro ⟨a', t, ht, -⟩
        cases ht

theorem pure_ok {s s' : Source σ} {a b : α} :
    (pure a : Decoder ε σ α) s = .ok b s' ↔ a = b ∧ s = s' := by
  show EStateM.Result.ok a s = .ok b s' ↔ _
  constructor
  · intro h
    cases h
    exact ⟨rfl, rfl⟩
  · rintro ⟨rfl, rfl⟩
    rfl

theorem throw_ne_ok {s s' : Source σ} {e : ε} {a : α} :
    ¬ (throw e : Decoder ε σ α) s = .ok a s' := by
  intro h
  cases h

theorem modify_ok {f : Source σ → Source σ} {s s' : Source σ} :
    (modify f : Decoder ε σ PUnit) s = .ok ⟨⟩ s' ↔ s' = f s := by
  show EStateM.Result.ok _ (f s) = .ok _ s' ↔ _
  constructor
  · intro h
    cases h
    rfl
  · rintro rfl
    rfl

/-- A check that stops the program where it fails. -/
theorem check_ok {c : Prop} [Decidable c] {e : ε} {x : Decoder ε σ α} {s s' : Source σ} {a : α} :
    (if c then throw e else x) s = .ok a s' ↔ ¬ c ∧ x s = .ok a s' := by
  by_cases hc : c
  · rw [if_pos hc]
    exact ⟨fun h => absurd h throw_ne_ok, fun h => absurd hc h.1⟩
  · rw [if_neg hc]
    exact ⟨fun h => ⟨hc, h⟩, fun h => h.2⟩

/-- The program `n` times, and the values in order. -/
def times (x : Decoder ε σ α) : ℕ → Decoder ε σ (List α)
  | 0 => pure []
  | n + 1 => do
      let a ← x
      let as ← times x n
      pure (a :: as)

/-- **Repetition.** A program that decodes, `n` times, decodes the encodings of
`n` values one behind the other. -/
theorem Decodes.times {x : Decoder ε σ α} {encode : α → List UInt8} {fine : α → Prop}
    (h : Decodes x encode fine) (n : ℕ) :
    Decodes (times x n) (List.flatMap encode) (fun as => as.length = n ∧ ∀ a ∈ as, fine a) := by
  induction n with
  | zero =>
      intro s s' as
      unfold Decoder.times
      rw [pure_ok]
      constructor
      · rintro ⟨rfl, rfl⟩
        exact ⟨⟨rfl, fun _ ha => absurd ha List.not_mem_nil⟩, rfl, rfl⟩
      · rintro ⟨⟨hlength, -⟩, hrest, hstate⟩
        obtain rfl := List.length_eq_zero_iff.mp hlength
        cases s
        cases s'
        cases hrest
        cases hstate
        exact ⟨rfl, rfl⟩
  | succ n ih =>
      intro s s' as
      unfold Decoder.times
      rw [bind_ok]
      constructor
      · rintro ⟨a, s₁, ha, hrest⟩
        obtain ⟨as', s₂, has, hpure⟩ := bind_ok.mp hrest
        obtain ⟨rfl, rfl⟩ := pure_ok.mp hpure
        obtain ⟨hfine, hbytes, hstate⟩ := (h s s₁ a).mp ha
        obtain ⟨⟨hlength, hall⟩, hbytes', hstate'⟩ := (ih s₁ s₂ as').mp has
        refine ⟨⟨by rw [List.length_cons, hlength], ?_⟩, ?_, hstate'.trans hstate⟩
        · intro b hb
          obtain rfl | hb := List.mem_cons.mp hb
          · exact hfine
          · exact hall b hb
        · rw [hbytes, hbytes', List.flatMap_cons, List.append_assoc]
      · rintro ⟨⟨hlength, hall⟩, hbytes, hstate⟩
        cases as with
        | nil => cases hlength
        | cons a as =>
            rw [List.flatMap_cons, List.append_assoc] at hbytes
            refine ⟨a, ⟨as.flatMap encode ++ s'.rest, s'.state⟩, ?_, ?_⟩
            · exact (h _ _ _).mpr ⟨hall a List.mem_cons_self, hbytes, hstate⟩
            · refine bind_ok.mpr ⟨as, s', ?_, rfl⟩
              refine (ih _ _ _).mpr ⟨⟨Nat.succ.inj hlength, ?_⟩, rfl, rfl⟩
              exact fun b hb => hall b (List.mem_cons_of_mem a hb)

end Decoder

end Libiak
