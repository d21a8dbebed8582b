/-
Byte ranges of a memory, straight and cyclic.

A circular buffer of capacity `cap` is a memory `ℕ → α`, a start and a length;
what it holds is the `window`: the bytes at `start`, `start + 1`, … read modulo
`cap`. Programs do not copy modulo anything, they copy one or two straight
ranges (`span`, the argument of a `memcpy` or of one `iovec`) and store with
one or two straight stores (`patch`). This file is the dictionary between the
two views:

* a window that does not pass the end of the memory is a span, and one that
  does is two (`window_eq_span`, `window_wrap`);
* taking from the front of a window moves its start (`window_add`);
* a straight store right behind a window extends it (`window_patch`). A wrapped
  store is two straight ones, so this one lemma serves both.

Positions are used modulo `cap` and a start equal to `cap` is a legal spelling
of `0` (`window_congr`); programs that move a cursor without reducing it need
that.
-/
import Mathlib.Data.List.Basic
import Mathlib.Data.List.Nodup
import Mathlib.Data.Nat.ModEq
import Mathlib.Tactic.TypeStar

set_option autoImplicit false

namespace Libiak.Window

variable {α : Type*}

/-! ## Straight ranges -/

/-- The `len` bytes from offset `off` on. -/
def span (mem : ℕ → α) (off len : ℕ) : List α :=
  (List.range len).map fun i => mem (off + i)

/-- The memory after `xs` has been stored from offset `off` on. -/
def patch (mem : ℕ → α) (off : ℕ) (xs : List α) : ℕ → α :=
  fun i => if i < off then mem i else (xs[i - off]?).getD (mem i)

@[simp] theorem length_span (mem : ℕ → α) (off len : ℕ) : (span mem off len).length = len := by
  simp only [span, List.length_map, List.length_range]

@[simp] theorem span_zero (mem : ℕ → α) (off : ℕ) : span mem off 0 = [] := rfl

@[simp] theorem patch_nil (mem : ℕ → α) (off : ℕ) : patch mem off [] = mem := by
  funext i
  simp [patch]

/-- Outside the stored range the memory is unchanged. -/
theorem patch_of_lt (mem : ℕ → α) {off i : ℕ} (xs : List α) (h : i < off) :
    patch mem off xs i = mem i := by
  simp only [patch, if_pos h]

theorem patch_of_ge (mem : ℕ → α) {off i : ℕ} (xs : List α) (h : off + xs.length ≤ i) :
    patch mem off xs i = mem i := by
  rw [patch, if_neg (by omega), List.getElem?_eq_none (by omega)]
  rfl

/-- What was stored is what is read back. -/
theorem span_patch_self (mem : ℕ → α) (off : ℕ) (xs : List α) :
    span (patch mem off xs) off xs.length = xs := by
  refine List.ext_getElem (by simp) fun i h1 h2 => ?_
  simp only [span, List.getElem_map, List.getElem_range, patch]
  rw [if_neg (by omega), Nat.add_sub_cancel_left, List.getElem?_eq_getElem h2]
  rfl

/-! ## Cyclic ranges -/

/-- A cursor that goes round at most once. -/
theorem mod_cases (pos cap : ℕ) (h : pos < 2 * cap) :
    pos % cap < cap ∧ (pos < cap ∧ pos % cap = pos ∨ pos % cap + cap = pos) := by
  refine ⟨Nat.mod_lt pos (by omega), ?_⟩
  rcases Nat.lt_or_ge pos cap with hlt | hge
  · exact Or.inl ⟨hlt, Nat.mod_eq_of_lt hlt⟩
  · right
    rw [Nat.mod_eq_sub_mod hge, Nat.mod_eq_of_lt (by omega)]
    omega

/-- The `len` bytes from `start` on, going round at `cap`. -/
def window (mem : ℕ → α) (cap start len : ℕ) : List α :=
  (List.range len).map fun i => mem ((start + i) % cap)

@[simp] theorem length_window (mem : ℕ → α) (cap start len : ℕ) :
    (window mem cap start len).length = len := by
  simp only [window, List.length_map, List.length_range]

@[simp] theorem window_zero (mem : ℕ → α) (cap start : ℕ) : window mem cap start 0 = [] := rfl

theorem getElem?_window (mem : ℕ → α) (cap start : ℕ) {len i : ℕ} (h : i < len) :
    (window mem cap start len)[i]? = some (mem ((start + i) % cap)) := by
  rw [window, List.getElem?_map, List.getElem?_range h, Option.map_some]

/-- The first `m` bytes of a window, and the rest of it. -/
theorem window_add (mem : ℕ → α) (cap start m n : ℕ) :
    window mem cap start (m + n) = window mem cap start m ++ window mem cap (start + m) n := by
  simp only [window, List.range_add, List.map_append, List.map_map, Function.comp_def,
    Nat.add_assoc]

theorem window_congr (mem : ℕ → α) {cap s t : ℕ} (len : ℕ) (h : s % cap = t % cap) :
    window mem cap s len = window mem cap t len := by
  simp only [window]
  refine List.map_congr_left fun i _ => ?_
  rw [Nat.add_mod, h, ← Nat.add_mod]

/-- The places of one lap are different ones. -/
theorem window_nodup {cap start len : ℕ} (h : len ≤ cap) : (window id cap start len).Nodup := by
  refine List.Nodup.map_on (fun i hi j hj heq => ?_) List.nodup_range
  rw [List.mem_range] at hi hj
  have hmod : start + i ≡ start + j [MOD cap] := heq
  exact (Nat.ModEq.add_left_cancel' start hmod).eq_of_lt_of_lt (by omega) (by omega)

/-- A window that stays below the end of the memory is a straight range. -/
theorem window_eq_span (mem : ℕ → α) {cap start len : ℕ} (h : start + len ≤ cap) :
    window mem cap start len = span mem start len := by
  refine List.map_congr_left fun i hi => ?_
  rw [Nat.mod_eq_of_lt (by have := List.mem_range.mp hi; omega)]

/-- A window that passes the end of the memory is the straight range up to the
end followed by one from the beginning. -/
theorem window_wrap (mem : ℕ → α) {cap start len : ℕ} (hs : start ≤ cap)
    (h : cap ≤ start + len) (hl : len ≤ cap) :
    window mem cap start len
      = span mem start (cap - start) ++ span mem 0 (len - (cap - start)) := by
  have hsplit : len = (cap - start) + (len - (cap - start)) := by omega
  have hlap : window mem cap (start + (cap - start)) (len - (cap - start))
      = window mem cap 0 (len - (cap - start)) :=
    window_congr mem _ (by rw [Nat.add_sub_cancel' hs, Nat.mod_self, Nat.zero_mod])
  conv_lhs => rw [hsplit, window_add]
  rw [window_eq_span mem (by omega), hlap, window_eq_span mem (by omega)]

/-- A store that misses every position of a window leaves it unchanged. -/
theorem window_patch_of_miss (mem : ℕ → α) {cap start len off : ℕ} (xs : List α)
    (h : ∀ i < len, (start + i) % cap < off ∨ off + xs.length ≤ (start + i) % cap) :
    window (patch mem off xs) cap start len = window mem cap start len := by
  refine List.map_congr_left fun i hi => ?_
  rcases h i (List.mem_range.mp hi) with hlt | hge
  · exact patch_of_lt mem xs hlt
  · exact patch_of_ge mem xs hge

/-- The positions of a window and those of a straight range right behind it do
not meet, as long as the two together fit the memory once. -/
theorem window_misses {cap start len off n i : ℕ} (hmod : off % cap = (start + len) % cap)
    (hn : off + n ≤ cap) (hfit : len + n ≤ cap) (hi : i < len) :
    (start + i) % cap < off ∨ off + n ≤ (start + i) % cap := by
  by_contra hcon
  push Not at hcon
  obtain ⟨hlo, hhi⟩ := hcon
  obtain ⟨j, hj⟩ : ∃ j, (start + i) % cap = off + j := ⟨(start + i) % cap - off, by omega⟩
  have hjn : j < n := by omega
  have hcong : (start + i) % cap = (start + (len + j)) % cap := by
    have h1 : (off + j) % cap = off + j := Nat.mod_eq_of_lt (by omega)
    rw [← Nat.add_assoc, Nat.add_mod (start + len), ← hmod, ← Nat.add_mod, h1, hj]
  have hij := (Nat.ModEq.add_left_cancel' start hcong).eq_of_lt_of_lt (by omega) (by omega)
  omega

/-- **A straight store right behind a window extends it.** `off` is the byte
the window would reach next, up to whole laps. -/
theorem window_patch (mem : ℕ → α) {cap start len off : ℕ} (xs : List α)
    (hmod : off % cap = (start + len) % cap) (hoff : off + xs.length ≤ cap)
    (hfit : len + xs.length ≤ cap) :
    window (patch mem off xs) cap start (len + xs.length)
      = window mem cap start len ++ xs := by
  rw [window_add, window_patch_of_miss mem xs fun i hi => window_misses hmod hoff hfit hi,
    window_congr _ _ hmod.symm, window_eq_span _ hoff, span_patch_self]

/-- A memory with `xs` stored at its start. -/
theorem window_patch_start (mem : ℕ → α) {cap : ℕ} {xs : List α} (h : xs.length ≤ cap) :
    window (patch mem 0 xs) cap 0 xs.length = xs := by
  rw [window_eq_span _ (by omega), span_patch_self]

end Libiak.Window
