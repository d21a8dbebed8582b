/-
A table of handles: numbers that are given out and taken back, each held by somebody.

There are never more numbers out than the table has places. `acquire` gives out a number
that is not out, `release` takes back whatever is known under a number, whoever holds
it, and `give` makes somebody else the holder. What an operation does is said by the
`owner` of every number and by the `room` that is left.
-/
import Mathlib.Data.List.AList
import Mathlib.Data.Nat.Notation

set_option autoImplicit false

namespace Libiak

/-- The numbers that are out, each with its holder. -/
structure Handles (ω : Type*) where
  limit : ℕ
  held : AList fun _ : ℕ => ω
  length_le : held.keys.length ≤ limit

namespace Handles

variable {ω : Type*}

/-- The numbers that are out. -/
def numbers (t : Handles ω) : List ℕ := t.held.keys

/-- Who holds `n`. -/
def owner (t : Handles ω) (n : ℕ) : Option ω := t.held.lookup n

/-- How many numbers can still be given out. -/
def room (t : Handles ω) : ℕ := t.limit - t.numbers.length

/-- A table with `limit` places, all of them free. -/
def empty (limit : ℕ) : Handles ω := ⟨limit, ∅, Nat.zero_le limit⟩

theorem owner_empty (limit n : ℕ) : (empty limit : Handles ω).owner n = none :=
  AList.lookup_empty n

theorem length_keys_insert_of_notMem {l : AList fun _ : ℕ => ω} {n : ℕ} (h : n ∉ l) (o : ω) :
    (l.insert n o).keys.length = l.keys.length + 1 := by
  rw [AList.keys_insert, List.erase_of_not_mem (fun hn => h (AList.mem_keys.mpr hn)),
    List.length_cons]

theorem length_keys_insert_of_mem {l : AList fun _ : ℕ => ω} {n : ℕ} (h : n ∈ l) (o : ω) :
    (l.insert n o).keys.length = l.keys.length := by
  have hpos := List.length_pos_of_mem (AList.mem_keys.mp h)
  rw [AList.keys_insert, List.length_cons, List.length_erase_of_mem (AList.mem_keys.mp h)]
  omega

/-- `n` is given out to `o`. -/
def acquire (t : Handles ω) (n : ℕ) (o : ω) : Option (Handles ω) :=
  if h : n ∉ t.held ∧ t.numbers.length < t.limit then
    some ⟨t.limit, t.held.insert n o, by
      rw [length_keys_insert_of_notMem h.1]
      exact h.2⟩
  else none

/-- What is known as `n` is taken back. -/
def release (t : Handles ω) (n : ℕ) : Handles ω :=
  ⟨t.limit, t.held.erase n, by
    rw [AList.keys_erase]
    exact Nat.le_trans List.length_erase_le t.length_le⟩

/-- What is known as `n` is held by `o` from now on. -/
def give (t : Handles ω) (n : ℕ) (o : ω) : Handles ω :=
  if h : n ∈ t.held then
    ⟨t.limit, t.held.insert n o, by
      rw [length_keys_insert_of_mem h]
      exact t.length_le⟩
  else t

theorem owner_eq_none_iff {t : Handles ω} {n : ℕ} : t.owner n = none ↔ n ∉ t.numbers := by
  unfold owner numbers
  rw [AList.lookup_eq_none, AList.mem_keys]

theorem mem_numbers {t : Handles ω} {n : ℕ} {o : ω} (h : t.owner n = some o) : n ∈ t.numbers := by
  by_contra hn
  rw [owner_eq_none_iff.mpr hn] at h
  cases h

/-- **What `acquire` does.** -/
theorem acquire_spec {t u : Handles ω} {n : ℕ} {o : ω} (h : t.acquire n o = some u) :
    t.owner n = none ∧ u.room + 1 = t.room
      ∧ ∀ m, u.owner m = if m = n then some o else t.owner m := by
  unfold acquire at h
  split at h
  · rename_i hfree
    obtain rfl := Option.some.inj h
    obtain ⟨hn, hlt⟩ := hfree
    refine ⟨AList.lookup_eq_none.mpr hn, ?_, fun m => ?_⟩
    · unfold numbers at hlt
      simp only [room, numbers, length_keys_insert_of_notMem hn]
      omega
    · split
      · rename_i heq
        subst heq
        exact AList.lookup_insert t.held
      · rename_i hne
        exact AList.lookup_insert_ne hne
  · cases h

theorem owner_release (t : Handles ω) (n m : ℕ) :
    (t.release n).owner m = if m = n then none else t.owner m := by
  split
  · rename_i heq
    subst heq
    exact AList.lookup_erase m t.held
  · rename_i hne
    exact AList.lookup_erase_ne hne

theorem room_release {t : Handles ω} {n : ℕ} {o : ω} (h : t.owner n = some o) :
    (t.release n).room = t.room + 1 := by
  have hmem := mem_numbers h
  have hpos := List.length_pos_of_mem hmem
  have hle := t.length_le
  unfold numbers at hmem hpos
  simp only [room, numbers, release, AList.keys_erase, List.length_erase_of_mem hmem]
  omega

theorem owner_give {t : Handles ω} {n : ℕ} {o : ω} (h : t.owner n = some o) (p : ω) (m : ℕ) :
    (t.give n p).owner m = if m = n then some p else t.owner m := by
  have hmem : n ∈ t.held := AList.mem_keys.mpr (mem_numbers h)
  unfold give
  rw [dif_pos hmem]
  split
  · rename_i heq
    subst heq
    exact AList.lookup_insert t.held
  · rename_i hne
    exact AList.lookup_insert_ne hne

@[simp] theorem room_give (t : Handles ω) (n : ℕ) (o : ω) : (t.give n o).room = t.room := by
  unfold give
  split
  · rename_i hmem
    simp only [room, numbers, length_keys_insert_of_mem hmem]
  · rfl

/-! ## What one holder has -/

/-- `o` holds the numbers of `l` and no others. -/
structure Holds (t : Handles ω) (o : ω) (l : List ℕ) : Prop where
  nodup : l.Nodup
  owner_iff : ∀ n, t.owner n = some o ↔ n ∈ l

section Holds

variable {t u : Handles ω} {o p : ω} {l : List ℕ} {n : ℕ}

theorem Holds.perm {k : List ℕ} (h : t.Holds o l) (hperm : l.Perm k) : t.Holds o k :=
  ⟨hperm.nodup_iff.mp h.nodup, fun m => (h.owner_iff m).trans hperm.mem_iff⟩

theorem Holds.acquire (h : t.Holds o l) (hacquire : t.acquire n o = some u) :
    u.Holds o (l ++ [n]) := by
  obtain ⟨hnone, -, howner⟩ := acquire_spec hacquire
  have hn : n ∉ l := by
    intro hmem
    rw [(h.owner_iff n).mpr hmem] at hnone
    cases hnone
  refine ⟨?_, fun m => ?_⟩
  · rw [List.nodup_append_comm]
    exact List.nodup_cons.mpr ⟨hn, h.nodup⟩
  · rw [howner, List.mem_append, List.mem_singleton, ← h.owner_iff]
    by_cases heq : m = n
    · simp [heq]
    · simp [heq]

/-- Nothing changes for `o` when somebody else gets a number. -/
theorem Holds.acquire_ne (h : t.Holds o l) (hacquire : t.acquire n p = some u) (hne : p ≠ o) :
    u.Holds o l := by
  obtain ⟨hnone, -, howner⟩ := acquire_spec hacquire
  refine ⟨h.nodup, fun m => ?_⟩
  rw [howner, ← h.owner_iff]
  by_cases heq : m = n
  · subst heq
    simp [hnone, hne]
  · simp [heq]

/-- A number of `o` is gone, in one way or the other. -/
theorem Holds.lose (h : t.Holds o (l ++ [n]))
    (hother : ∀ m, m ≠ n → u.owner m = t.owner m) (hn : u.owner n ≠ some o) : u.Holds o l := by
  have hnodup := List.nodup_append_comm.mp h.nodup
  refine ⟨(List.nodup_cons.mp hnodup).2, fun m => ?_⟩
  by_cases heq : m = n
  · subst heq
    exact ⟨fun hm => absurd hm hn, fun hm => absurd hm (List.nodup_cons.mp hnodup).1⟩
  · rw [hother m heq, h.owner_iff, List.mem_append, List.mem_singleton]
    exact or_iff_left heq

theorem Holds.release (h : t.Holds o (l ++ [n])) : (t.release n).Holds o l := by
  refine h.lose (fun m hm => ?_) ?_
  · rw [owner_release, if_neg hm]
  · rw [owner_release, if_pos rfl]
    exact fun hnone => by cases hnone

theorem Holds.give (h : t.Holds o (l ++ [n])) (hne : p ≠ o) : (t.give n p).Holds o l := by
  have hn := (h.owner_iff n).mpr (List.mem_append_right l List.mem_cons_self)
  refine h.lose (fun m hm => ?_) ?_
  · rw [owner_give hn, if_neg hm]
  · rw [owner_give hn, if_pos rfl]
    exact fun heq => hne (Option.some.inj heq)

/-- Nothing changes for `o` when a number of somebody else's is taken back. -/
theorem Holds.release_ne (h : t.Holds o l) (hn : t.owner n = some p) (hne : p ≠ o) :
    (t.release n).Holds o l := by
  refine ⟨h.nodup, fun m => ?_⟩
  rw [owner_release, ← h.owner_iff]
  by_cases heq : m = n
  · subst heq
    simp [hn, hne]
  · simp [heq]

end Holds

end Handles

end Libiak
