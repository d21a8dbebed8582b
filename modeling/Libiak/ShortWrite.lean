/-
`LogFile::append`, call of `fwrite` by call.

`LogFile.append` gives the outcome for a whole list of results. Here is the loop
itself, with its position and its remainder as the variables they are, one step
for each call of `write`. It offers the rest of the line from the right position
at every call and ends after at most one call more than the line has bytes
(`line_handled`), and `LogFile.append` is what it computes (`append_iff`).

The counter is another matter. `writtenBytes_ += len` is reached through the
`break` as well, so a line that is cut off there counts in full.
-/
import Libiak.AsyncLogger
import Libiak.Run

set_option autoImplicit false

namespace Libiak.Log

open Libiak.Run

variable {α : Type*}

/-! ## One line -/

/-- Before the first call of `write`, before one in the `while`, or past it. -/
inductive AppendPc where
  | first
  | loop
  | done
  deriving DecidableEq

/-- The variables of `append`, and what `fwrite` has accepted so far. -/
structure Appending (α : Type*) where
  logline : List α
  pc : AppendPc
  n : ℕ
  remain : ℕ
  accepted : List α

namespace Appending

def start (logline : List α) : Appending α :=
  { logline := logline, pc := .first, n := 0, remain := 0, accepted := [] }

/-- The bytes asked for by the next call of `write`. -/
def asked (s : Appending α) : ℕ :=
  match s.pc with
  | .first => s.logline.length
  | .loop => s.remain
  | .done => 0

/-- What the next call of `write` is given: so many bytes, from `logline + n`. -/
def offer (s : Appending α) : List α := (s.logline.drop s.n).take s.asked

/-- Where the test of the `while` leads. -/
def test (remain : ℕ) : AppendPc := if 0 < remain then .loop else .done

/-- A call of `write` that returns `x`. -/
def step (s : Appending α) (x : ℕ) : Option (Appending α) :=
  if s.asked < x then none
  else
    match s.pc with
    | .first =>
        some { s with
          pc := test (s.logline.length - x), n := x, remain := s.logline.length - x
          accepted := s.accepted ++ s.offer.take x }
    | .loop =>
        if x = 0 then some { s with pc := .done }
        else
          some { s with
            pc := test (s.logline.length - (s.n + x)), n := s.n + x
            remain := s.logline.length - (s.n + x)
            accepted := s.accepted ++ s.offer.take x }
    | .done => none

/-- The position is behind what has been accepted, and the remainder is the rest. -/
structure Positioned (s : Appending α) : Prop where
  le : s.n ≤ s.logline.length
  accepted : s.accepted = s.logline.take s.n
  first : s.pc = .first → s.n = 0
  loop : s.pc = .loop → s.remain = s.logline.length - s.n ∧ 0 < s.remain

/-- At most so many calls of `write` are to come. -/
def left (s : Appending α) : ℕ :=
  match s.pc with
  | .first => s.logline.length + 1
  | .loop => s.remain
  | .done => 0

variable {s t : Appending α} {x : ℕ} {xs : List ℕ} {line : List α}

theorem positioned_start (line : List α) : Positioned (start line) where
  le := Nat.zero_le _
  accepted := rfl
  first := fun _ => rfl
  loop := fun h => by cases h

/-- A call of `write` is offered what has not been accepted. -/
theorem Positioned.offer_eq (h : s.Positioned) (hpc : s.pc ≠ .done) :
    s.offer = s.logline.drop s.n := by
  unfold offer asked
  cases hs : s.pc with
  | first =>
      rw [h.first hs]
      exact List.take_length
  | loop =>
      dsimp only
      rw [(h.loop hs).1]
      apply List.take_of_length_le
      exact Nat.le_of_eq List.length_drop
  | done => exact absurd hs hpc

theorem Positioned.accepted_offer (h : s.Positioned) (hpc : s.pc ≠ .done) :
    s.accepted ++ s.offer = s.logline := by
  rw [h.offer_eq hpc, h.accepted, List.take_append_drop]

/-- What a call of `write` does, in the two places. -/
theorem step_cases (h : s.Positioned) (hstep : s.step x = some t) :
    s.pc ≠ .done ∧ x ≤ s.asked ∧ t.logline = s.logline
      ∧ t.accepted = s.accepted ++ s.offer.take x
      ∧ ((s.pc = .loop ∧ x = 0 ∧ t.pc = .done ∧ t.n = s.n)
        ∨ ((s.pc = .loop → x ≠ 0) ∧ t.n = s.n + x ∧ t.remain = s.logline.length - t.n
          ∧ t.pc = test t.remain)) := by
  unfold step at hstep
  split at hstep
  · cases hstep
  · rename_i hle
    refine ⟨?_, Nat.le_of_not_lt hle, ?_⟩
    · intro hdone
      rw [hdone] at hstep
      cases hstep
    · cases hpc : s.pc with
      | first =>
          rw [hpc] at hstep
          obtain rfl := Option.some.inj hstep
          have hn := h.first hpc
          refine ⟨rfl, rfl, Or.inr ⟨(fun h => by cases h), ?_, rfl, rfl⟩⟩
          dsimp only
          omega
      | loop =>
          rw [hpc] at hstep
          dsimp only at hstep
          split at hstep
          · rename_i hx
            obtain rfl := Option.some.inj hstep
            refine ⟨rfl, ?_, Or.inl ⟨rfl, hx, rfl, rfl⟩⟩
            rw [hx, List.take_zero, List.append_nil]
          · rename_i hx
            obtain rfl := Option.some.inj hstep
            exact ⟨rfl, rfl, Or.inr ⟨fun _ => hx, rfl, rfl, rfl⟩⟩
      | done =>
          rw [hpc] at hstep
          cases hstep

theorem test_loop {remain : ℕ} (h : test remain = .loop) : 0 < remain := by
  unfold test at h
  split at h
  · assumption
  · cases h

theorem test_ne_first (remain : ℕ) : test remain ≠ .first := by
  unfold test
  split <;> decide

/-- The bytes asked for are there. -/
theorem Positioned.asked_le (h : s.Positioned) : s.asked ≤ s.logline.length - s.n := by
  unfold asked
  cases hpc : s.pc with
  | first =>
      have := h.first hpc
      dsimp only
      omega
  | loop => exact Nat.le_of_eq (h.loop hpc).1
  | done => exact Nat.zero_le _

theorem positioned_step (h : s.Positioned) (hstep : s.step x = some t) : t.Positioned := by
  obtain ⟨hpc, hle, hline, haccepted, hcases⟩ := step_cases h hstep
  have hasked := h.asked_le
  have hn := h.le
  have htake : s.accepted ++ s.offer.take x = s.logline.take (s.n + x) := by
    rw [h.accepted, h.offer_eq hpc, List.take_add]
  rcases hcases with ⟨-, hx, hdone, hsame⟩ | ⟨-, hmore, hremain, htest⟩
  · refine ⟨by rw [hline]; omega, ?_, ?_, ?_⟩
    · rw [haccepted, htake, hline, hsame, hx, Nat.add_zero]
    · intro hfirst
      rw [hdone] at hfirst
      cases hfirst
    · intro hloop
      rw [hdone] at hloop
      cases hloop
  · refine ⟨by rw [hline]; omega, ?_, ?_, ?_⟩
    · rw [haccepted, htake, hline, hmore]
    · intro hfirst
      exact absurd (htest.symm.trans hfirst) (test_ne_first _)
    · intro hloop
      rw [hline]
      exact ⟨hremain, test_loop (htest.symm.trans hloop)⟩

theorem left_le (h : t.pc = test t.remain) : t.left ≤ t.remain := by
  by_cases hremain : 0 < t.remain
  · have hloop : t.pc = .loop := by
      rw [h, test, if_pos hremain]
    simp [left, hloop]
  · have hdone : t.pc = .done := by
      rw [h, test, if_neg hremain]
    simp [left, hdone]

/-- Every call of `write` is one less to come. -/
theorem left_step (h : s.Positioned) (hstep : s.step x = some t) : t.left < s.left := by
  obtain ⟨hpc, hle, hline, -, hcases⟩ := step_cases h hstep
  rcases hcases with ⟨hloop, -, hdone, -⟩ | ⟨hx, hmore, hremain, htest⟩
  · have hpos := (h.loop hloop).2
    unfold left
    rw [hdone, hloop]
    exact hpos
  · have hleft := left_le htest
    cases hs : s.pc with
    | first =>
        have hs' : s.left = s.logline.length + 1 := by rw [left, hs]
        omega
    | loop =>
        have hs' : s.left = s.remain := by rw [left, hs]
        have hx' := hx hs
        obtain ⟨hrest, hpos⟩ := h.loop hs
        omega
    | done => exact absurd hs hpc

/-- A call of `write` may return any number of the bytes asked for. -/
theorem step_some (hpc : s.pc ≠ .done) (hx : x ≤ s.asked) : ∃ t, s.step x = some t := by
  unfold step
  rw [if_neg (Nat.not_lt_of_le hx)]
  cases hs : s.pc with
  | first => exact ⟨_, rfl⟩
  | loop =>
      dsimp only
      split
      · exact ⟨_, rfl⟩
      · exact ⟨_, rfl⟩
  | done => exact absurd hs hpc

/-! ## All of its calls -/

theorem positioned_run (hrun : run step (start line) xs = some t) : t.Positioned :=
  run_inv (fun _ _ _ h hstep => positioned_step h hstep) (positioned_start line) hrun

theorem logline_run (hrun : run step (start line) xs = some t) : t.logline = line := by
  have hboth : t.Positioned ∧ t.logline = line := by
    apply run_inv (I := fun s => s.Positioned ∧ s.logline = line) _
      ⟨positioned_start line, rfl⟩ hrun
    intro s x u h hstep
    exact ⟨positioned_step h.1 hstep, (step_cases h.1 hstep).2.2.1.trans h.2⟩
  exact hboth.2

/-- No call takes back what has been accepted. -/
theorem accepted_grows (h : s.Positioned) (hrun : run step s xs = some t) :
    s.accepted <+: t.accepted := by
  have hboth : t.Positioned ∧ s.accepted <+: t.accepted := by
    apply run_inv (I := fun u => u.Positioned ∧ s.accepted <+: u.accepted) _
      ⟨h, List.prefix_refl _⟩ hrun
    intro u x v hu hstep
    refine ⟨positioned_step hu.1 hstep, hu.2.trans ?_⟩
    rw [(step_cases hu.1 hstep).2.2.2.1]
    exact List.prefix_append _ _
  exact hboth.2

/-- The calls made and the calls to come. -/
theorem length_run (h : s.Positioned) (hrun : run step s xs = some t) :
    xs.length + t.left ≤ s.left := by
  induction xs generalizing s with
  | nil =>
      obtain rfl := Option.some.inj hrun
      exact Nat.le_of_eq (Nat.zero_add _)
  | cons x xs ih =>
      obtain ⟨u, hu, hrun⟩ := (run_cons step).mp hrun
      have hless := left_step h hu
      have hrest := ih (positioned_step h hu) hrun
      rw [List.length_cons]
      omega

/-- In the loop, or past it: what is past it has not lost a byte if no call there
returned 0. -/
theorem whole_run (h : s.Positioned) (hpc : s.pc ≠ .first)
    (hwhole : s.pc = .done → s.accepted = s.logline) (hrun : run step s xs = some t)
    (hdone : t.pc = .done) : 0 ∉ xs ↔ t.accepted = s.logline := by
  induction xs generalizing s with
  | nil =>
      obtain rfl := Option.some.inj hrun
      exact ⟨fun _ => hwhole hdone, fun _ => List.not_mem_nil⟩
  | cons x xs ih =>
      obtain ⟨u, hu, hrun⟩ := (run_cons step).mp hrun
      have hpos := positioned_step h hu
      obtain ⟨hne, hle, hline, haccepted, hcases⟩ := step_cases h hu
      have hloop : s.pc = .loop := by
        cases hs : s.pc with
        | first => exact absurd hs hpc
        | loop => rfl
        | done => exact absurd hs hne
      rcases hcases with ⟨-, hx, hudone, hsame⟩ | ⟨hx, hmore, hremain, htest⟩
      · -- the `break`: some of the line remains
        have hxs : xs = [] := by
          cases xs with
          | nil => rfl
          | cons y ys =>
              obtain ⟨v, hv, -⟩ := (run_cons step).mp hrun
              exact absurd hudone (step_cases hpos hv).1
        subst hxs
        obtain rfl := Option.some.inj hrun
        have hrest := h.loop hloop
        constructor
        · intro hzero
          exact absurd (by rw [hx]; exact List.mem_cons_self) hzero
        · intro heq
          have hlen := congrArg List.length heq
          rw [hpos.accepted, hsame, hline, List.length_take] at hlen
          omega
      · have hudone : u.pc = .done → u.accepted = u.logline := by
          intro hpc'
          rw [hpos.accepted]
          apply List.take_of_length_le
          rw [htest, test] at hpc'
          split at hpc'
          · cases hpc'
          · rw [hline]
            omega
        have hnotfirst : u.pc ≠ .first := by
          rw [htest]
          exact test_ne_first _
        rw [List.mem_cons, not_or, ← hline, ← ih hpos hnotfirst hudone hrun]
        exact ⟨fun h => h.2, fun h => ⟨(hx hloop).symm, h⟩⟩

/-- What `append` does with a line, whatever `fwrite` returns: it ends, each call
is offered what has not been accepted, from the right position, and what a call
accepts is accepted once; so a prefix of the line is accepted, and the whole line
exactly if no call in the loop returned 0. -/
structure Handles (line : List α) : Prop where
  terminates : ∀ xs t, run step (start line) xs = some t → xs.length ≤ line.length + 1
  proceeds : ∀ xs t, run step (start line) xs = some t → t.pc ≠ .done →
    ∀ x ≤ t.asked, ∃ u, t.step x = some u
  offered : ∀ xs t, run step (start line) xs = some t → t.pc ≠ .done →
    t.accepted ++ t.offer = line ∧ t.asked = t.offer.length
  once : ∀ xs t, run step (start line) xs = some t → ∀ x u, t.step x = some u →
    u.accepted = t.accepted ++ t.offer.take x
  isPrefix : ∀ xs t, run step (start line) xs = some t → t.accepted <+: line
  whole : ∀ x xs t, run step (start line) (x :: xs) = some t → t.pc = .done →
    (0 ∉ xs ↔ t.accepted = line)

/-- After the first call, the loop begins or the line is whole. -/
theorem first_step (hstep : (start line).step x = some t) :
    t.Positioned ∧ t.pc ≠ .first ∧ t.logline = line ∧ (t.pc = .done → t.accepted = line) := by
  have hpos := positioned_step (positioned_start line) hstep
  obtain ⟨-, hle, hline, -, hcases⟩ := step_cases (positioned_start line) hstep
  have hline' : t.logline = line := hline
  rcases hcases with ⟨hloop, -⟩ | ⟨-, hmore, hremain, htest⟩
  · cases hloop
  · refine ⟨hpos, ?_, hline', ?_⟩
    · rw [htest]
      exact test_ne_first _
    · intro hdone
      rw [htest, test] at hdone
      split at hdone
      · cases hdone
      · rw [hpos.accepted, hline']
        apply List.take_of_length_le
        have hremain' : t.remain = line.length - t.n := hremain
        omega

/-- **Short writes are handled.** -/
theorem line_handled (line : List α) : Handles line where
  terminates := by
    intro xs t hrun
    have hlen := length_run (positioned_start line) hrun
    have hleft : (start line).left = line.length + 1 := rfl
    omega
  proceeds := by
    intro xs t hrun hpc x hx
    exact step_some hpc hx
  offered := by
    intro xs t hrun hpc
    have hpos := positioned_run hrun
    refine ⟨(hpos.accepted_offer hpc).trans (logline_run hrun), ?_⟩
    rw [offer, List.length_take, List.length_drop, Nat.min_eq_left hpos.asked_le]
  once := by
    intro xs t hrun x u hstep
    exact (step_cases (positioned_run hrun) hstep).2.2.2.1
  isPrefix := by
    intro xs t hrun
    rw [(positioned_run hrun).accepted, logline_run hrun]
    exact List.take_prefix _ _
  whole := by
    intro x xs t hrun hdone
    obtain ⟨s, hs, hrun⟩ := (run_cons step).mp hrun
    obtain ⟨hpos, hpc, hline, hwhole⟩ := first_step hs
    have hiff := whole_run hpos hpc (fun h => (hwhole h).trans hline.symm) hrun hdone
    rw [hline] at hiff
    exact hiff

/-! ## It is `LogFile.append` -/

/-- Past the loop there are no calls. -/
theorem run_done (hdone : s.pc = .done) : run step s xs = some t ↔ xs = [] ∧ s = t := by
  have hstep : ∀ x, s.step x = none := by
    intro x
    unfold step
    rw [hdone]
    split
    · rfl
    · rfl
  cases xs with
  | nil =>
      rw [run_nil, Option.some.injEq]
      exact ⟨fun h => ⟨rfl, h⟩, fun h => h.2⟩
  | cons x xs =>
      rw [run_cons, hstep]
      constructor
      · rintro ⟨u, hu, -⟩
        cases hu
      · rintro ⟨hnil, -⟩
        cases hnil

/-- A call in the loop that returns 0, or more than it was asked for, or some of
it. -/
theorem step_loop (h : s.Positioned) (hpc : s.pc = .loop) (x : ℕ) :
    (s.remain < x ∧ s.step x = none)
      ∨ (x = 0 ∧ s.step x = some { s with pc := .done })
      ∨ (x ≠ 0 ∧ x ≤ s.remain ∧ ∃ u, s.step x = some u ∧ u.logline = s.logline
        ∧ u.n = s.n + x ∧ u.pc = test (s.logline.length - u.n)
        ∧ u.accepted = s.accepted ++ (s.logline.drop s.n).take x) := by
  have hasked : s.asked = s.remain := by
    unfold asked
    rw [hpc]
  have hoffer := h.offer_eq (by rw [hpc]; decide)
  by_cases hlt : s.remain < x
  · left
    refine ⟨hlt, ?_⟩
    unfold step
    rw [if_pos (by rw [hasked]; exact hlt)]
  · right
    have hstep : s.step x = if x = 0 then some { s with pc := .done }
        else some { s with
          pc := test (s.logline.length - (s.n + x)), n := s.n + x
          remain := s.logline.length - (s.n + x), accepted := s.accepted ++ s.offer.take x } := by
      unfold step
      rw [if_neg (by rw [hasked]; exact hlt), hpc]
    rw [hstep]
    by_cases hx : x = 0
    · left
      rw [if_pos hx]
      exact ⟨hx, rfl⟩
    · right
      rw [if_neg hx, hoffer]
      exact ⟨hx, Nat.le_of_not_lt hlt, _, rfl, rfl, rfl, rfl, rfl⟩

/-- The loop, from the test on. -/
theorem loop_iff (xs : List ℕ) (more : List α) (h : s.Positioned)
    (hpc : s.pc = test (s.logline.length - s.n)) :
    LogFile.append.loop xs (s.logline.drop s.n) = some more
      ↔ ∃ t, run step s xs = some t ∧ t.pc = .done ∧ t.accepted = s.accepted ++ more := by
  induction xs generalizing s more with
  | nil =>
      unfold LogFile.append.loop
      rw [List.length_drop]
      by_cases hrest : s.logline.length - s.n = 0
      · rw [if_pos hrest, Option.some.injEq]
        constructor
        · rintro rfl
          refine ⟨s, rfl, ?_, (List.append_nil _).symm⟩
          rw [hpc, hrest]
          rfl
        · rintro ⟨t, hrun, -, haccepted⟩
          obtain rfl := Option.some.inj hrun
          exact (List.self_eq_append_right.mp haccepted).symm
      · rw [if_neg hrest]
        constructor
        · intro hnone
          cases hnone
        · rintro ⟨t, hrun, hdone, -⟩
          obtain rfl := Option.some.inj hrun
          rw [hpc, test, if_pos (Nat.pos_of_ne_zero hrest)] at hdone
          cases hdone
  | cons x xs ih =>
      unfold LogFile.append.loop
      rw [List.length_drop]
      by_cases hrest : s.logline.length - s.n = 0
      · -- the line is whole, and no call follows
        have hdone : s.pc = .done := by
          rw [hpc, hrest]
          rfl
        rw [if_pos (Or.inl hrest)]
        constructor
        · intro hnone
          cases hnone
        · rintro ⟨t, hrun, -⟩
          obtain ⟨hnil, -⟩ := (run_done hdone).mp hrun
          cases hnil
      · have hloop : s.pc = .loop := by
          rw [hpc, test, if_pos (Nat.pos_of_ne_zero hrest)]
        have hremain := (h.loop hloop).1
        rcases step_loop h hloop x with ⟨hlt, hstep⟩ | ⟨hx, hstep⟩ | ⟨hx, hle, u, hstep, hline, hn,
          hupc, haccepted⟩
        · rw [if_pos (Or.inr (by omega))]
          constructor
          · intro hnone
            cases hnone
          · rintro ⟨t, hrun, -⟩
            obtain ⟨u, hu, -⟩ := (run_cons step).mp hrun
            rw [hstep] at hu
            cases hu
        · rw [if_neg (by omega), if_pos hx]
          have hiff : ∀ t, run step s (x :: xs) = some t
              ↔ xs = [] ∧ { s with pc := AppendPc.done } = t := by
            intro t
            rw [run, hstep, Option.bind_some]
            exact run_done rfl
          simp only [hiff]
          constructor
          · intro hmore
            split at hmore
            · rename_i hnil
              obtain rfl := Option.some.inj hmore
              exact ⟨_, ⟨List.eq_nil_of_length_eq_zero hnil, rfl⟩, rfl,
                (List.append_nil _).symm⟩
            · cases hmore
          · rintro ⟨t, ⟨rfl, rfl⟩, -, hmore⟩
            exact congrArg some (List.self_eq_append_right.mp hmore).symm
        · rw [if_neg (by omega), if_neg hx]
          have hiff : ∀ t, run step s (x :: xs) = some t ↔ run step u xs = some t := by
            intro t
            rw [run, hstep, Option.bind_some]
          have hu := positioned_step h hstep
          simp only [hiff]
          rw [List.drop_drop, ← hn, ← hline, Option.map_eq_some_iff]
          simp only [ih _ hu (by rw [hupc, hline])]
          constructor
          · rintro ⟨tail, ⟨t, hrun, hdone, htail⟩, rfl⟩
            refine ⟨t, hrun, hdone, ?_⟩
            rw [htail, haccepted, hline, List.append_assoc]
          · rintro ⟨t, hrun, hdone, hmore⟩
            obtain ⟨tail, htail⟩ := accepted_grows hu hrun
            refine ⟨tail, ⟨t, hrun, hdone, htail.symm⟩, ?_⟩
            rw [← htail, haccepted, List.append_assoc] at hmore
            rw [hline]
            exact List.append_cancel_left hmore

/-- **`LogFile.append` is the loop**, from the first call to the end, with the
whole length added to the counter. -/
theorem append_iff {f f' : LogFile α} {n : ℕ} {results : List ℕ} :
    f.append line n results = some f'
      ↔ ∃ t, run step (start line) (n :: results) = some t ∧ t.pc = .done
        ∧ f' = { f with
          offered := f.offered ++ line, accepted := f.accepted ++ t.accepted
          writtenBytes_ := f.writtenBytes_ + line.length } := by
  have hasked : (start line).asked = line.length := rfl
  unfold LogFile.append
  by_cases hle : n ≤ line.length
  · have hstep : (start line).step n = some
        { logline := line, pc := test (line.length - n), n := n, remain := line.length - n
          accepted := line.take n } := by
      unfold step
      rw [hasked, if_neg (Nat.not_lt_of_le hle)]
      have hoffer : (start line).offer = line := List.take_length
      rw [hoffer]
      rfl
    have hpos := positioned_step (positioned_start line) hstep
    rw [if_pos hle, Option.map_eq_some_iff]
    simp only [run, hstep, Option.bind_some]
    have hloop := fun more => loop_iff results more hpos rfl
    dsimp only at hloop
    simp only [hloop]
    constructor
    · rintro ⟨more, ⟨t, hrun, hdone, hmore⟩, rfl⟩
      exact ⟨t, hrun, hdone, by rw [hmore]⟩
    · rintro ⟨t, hrun, hdone, rfl⟩
      obtain ⟨more, hmore⟩ := accepted_grows hpos hrun
      dsimp only at hmore
      exact ⟨more, ⟨t, hrun, hdone, hmore.symm⟩, by rw [hmore]⟩
  · rw [if_neg hle]
    constructor
    · intro hnone
      cases hnone
    · rintro ⟨t, hrun, -⟩
      obtain ⟨u, hu, -⟩ := (run_cons step).mp hrun
      unfold step at hu
      rw [hasked, if_pos (Nat.lt_of_not_le hle)] at hu
      cases hu

end Appending

/-! ## The counter -/

/-- A call of `append` with the results of its calls of `write`: of the first one,
and of those in the loop until it ended. -/
structure AppendCall (α : Type*) where
  logline : List α
  n : ℕ
  results : List ℕ
  ends : ∃ t, run Appending.step (Appending.start logline) (n :: results) = some t ∧ t.pc = .done

namespace LogFile

variable {f f' : LogFile α}

/-- A call of `append`. -/
def appendCall (f : LogFile α) (call : AppendCall α) : Option (LogFile α) :=
  f.append call.logline call.n call.results

/-- A call that ends counts the line, and adds what was accepted: all of it, unless
a call in the loop returned 0. -/
theorem appendCall_spec (f : LogFile α) (call : AppendCall α) :
    ∃ f' more, f.appendCall call = some f' ∧ f'.accepted = f.accepted ++ more
      ∧ f'.writtenBytes_ = f.writtenBytes_ + call.logline.length
      ∧ more <+: call.logline ∧ (0 ∉ call.results ↔ more = call.logline) := by
  obtain ⟨t, hrun, hdone⟩ := call.ends
  have hhandled := Appending.line_handled call.logline
  exact ⟨_, t.accepted, Appending.append_iff.mpr ⟨t, hrun, hdone, rfl⟩, rfl, rfl,
    hhandled.isPrefix _ t hrun, hhandled.whole _ _ t hrun hdone⟩

/-- The counter is never behind. -/
theorem appendCall_counts {call : AppendCall α} (h : f.accepted.length ≤ f.writtenBytes_)
    (hcall : f.appendCall call = some f') :
    f'.accepted.length ≤ f'.writtenBytes_
      ∧ (f'.writtenBytes_ = f'.accepted.length
        ↔ f.writtenBytes_ = f.accepted.length ∧ 0 ∉ call.results) := by
  obtain ⟨g, more, hg, haccepted, hbytes, hprefix, hwhole⟩ := f.appendCall_spec call
  obtain rfl := Option.some.inj (hg.symm.trans hcall)
  have hlen := hprefix.length_le
  rw [haccepted, hbytes, List.length_append, hwhole]
  refine ⟨by omega, ?_⟩
  constructor
  · intro heq
    exact ⟨by omega, hprefix.eq_of_length (by omega)⟩
  · rintro ⟨heq, rfl⟩
    omega

/-- From a counter that is not behind. -/
theorem run_counts (calls : List (AppendCall α)) (h : f.accepted.length ≤ f.writtenBytes_) :
    ∃ f', run appendCall f calls = some f'
      ∧ (f'.writtenBytes_ = f'.accepted.length
        ↔ f.writtenBytes_ = f.accepted.length ∧ ∀ call ∈ calls, 0 ∉ call.results) := by
  induction calls generalizing f with
  | nil =>
      refine ⟨f, rfl, ?_⟩
      simp only [List.not_mem_nil, false_implies, implies_true, and_true]
  | cons call calls ih =>
      obtain ⟨g, -, hg, -⟩ := f.appendCall_spec call
      obtain ⟨hle, hiff⟩ := appendCall_counts h hg
      obtain ⟨f', hrun, hiff'⟩ := ih hle
      refine ⟨f', (run_cons appendCall).mpr ⟨g, hg, hrun⟩, ?_⟩
      rw [hiff', hiff, List.forall_mem_cons, and_assoc]

/-- After a run of appends to a new file: every line has been handled as it should
be, and the counter is what has been accepted. -/
structure ShortWriteSafe (calls : List (AppendCall α)) (f : LogFile α) : Prop where
  handled : ∀ call ∈ calls, Appending.Handles call.logline
  counted : f.writtenBytes_ = f.accepted.length

/-- **When the counter is right.** Short writes are handled in every run of
appends; and the counter agrees with what was accepted exactly if no call in the
loop of any of them returned 0. -/
theorem append_shortWrites (calls : List (AppendCall α)) :
    ∃ f, run appendCall make calls = some f
      ∧ (ShortWriteSafe calls f ↔ ∀ call ∈ calls, 0 ∉ call.results) := by
  obtain ⟨f, hrun, hiff⟩ := run_counts (f := (make : LogFile α)) calls (Nat.le_refl 0)
  refine ⟨f, hrun, ?_⟩
  constructor
  · intro hsafe
    exact (hiff.mp hsafe.counted).2
  · intro hzero
    exact ⟨fun call _ => Appending.line_handled call.logline, hiff.mpr ⟨rfl, hzero⟩⟩

/-- A line of two bytes, of which one is accepted, and then nothing. -/
def cutOff : AppendCall ℕ where
  logline := [1, 2]
  n := 1
  results := [0]
  ends := ⟨_, rfl, rfl⟩

/-- The line that is cut off counts in full. -/
theorem append_cutOff : ¬ ∀ (calls : List (AppendCall ℕ)) (f : LogFile ℕ),
    run appendCall make calls = some f → ShortWriteSafe calls f := by
  intro h
  have hcounted := (h [cutOff] ⟨[1, 2], [1], 0, 2⟩ rfl).counted
  cases hcounted

end LogFile

end Libiak.Log
