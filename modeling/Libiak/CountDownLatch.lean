/-
`base/CountDownLatch.h`: a monitor that opens when its count is zero.

`countDown` notifies all only when the count becomes zero, and not when it is already
below; that is enough, since it goes down by one, and nobody goes to sleep at a latch whose
count is not positive. A latch opens once, and stays open.
-/
import Libiak.CInt
import Libiak.Monitor

set_option autoImplicit false

namespace Libiak.Base

open Libiak.CInt Libiak.Run

/-- The calls that count, and that ask for the count, with what they are told. -/
inductive LatchCall
  | countDown
  | getCount (returned : ℤ)
  deriving DecidableEq

namespace CountDownLatch

/-- `countDown`, on `count_`: whether `notify_all` is called. -/
def countDown (count_ : ℤ) : Option (ℤ × Bool) :=
  (sub count_ 1).map fun count_ => (count_, decide (count_ = 0))

/-- `getCount`. -/
def getCount (count_ : ℤ) : ℤ := count_

/-- `class CountDownLatch`: `wait` is the test of the monitor, on `count_`. -/
def latch : Monitor ℤ LatchCall where
  isOpen count_ := !decide (0 < count_)
  act count_
    | .countDown => countDown count_
    | .getCount returned => if returned = getCount count_ then some (count_, false) else none

/-- How often the count has gone down. -/
def countDowns {ι : Type*} (es : List (Monitor.Event ι LatchCall)) : ℕ :=
  es.countP fun e => match e with
    | .act .countDown => true
    | _ => false

theorem isOpen_iff {count_ : ℤ} : latch.isOpen count_ = true ↔ count_ ≤ 0 := by
  simp [latch]

theorem act_cases {count_ count_' : ℤ} {call : LatchCall} {all : Bool}
    (h : latch.act count_ call = some (count_', all)) :
    call = .countDown ∧ count_' = count_ - 1 ∧ (all = true ↔ count_' = 0)
      ∨ call = .getCount count_ ∧ count_' = count_ ∧ all = false := by
  cases call with
  | countDown =>
      obtain ⟨x, hx, heq⟩ := Option.map_eq_some_iff.mp h
      obtain ⟨rfl, rfl⟩ := Prod.mk.inj heq
      refine Or.inl ⟨rfl, ?_, decide_eq_true_iff⟩
      unfold sub at hx
      exact (int_eq_some hx).1
  | getCount returned =>
      simp only [latch] at h
      split at h
      · rename_i hreturned
        obtain ⟨rfl, rfl⟩ := Prod.mk.inj (Option.some.inj h)
        exact Or.inr ⟨congrArg LatchCall.getCount hreturned, rfl, rfl⟩
      · cases h

/-- The count is zero when the latch opens, so all are notified. -/
theorem wakes : latch.Wakes := by
  intro count_ call count_' hact hopen
  rw [isOpen_iff] at hopen ⊢
  rcases act_cases hact with ⟨-, rfl, hall⟩ | ⟨-, rfl, -⟩
  · have hne : count_ - 1 ≠ 0 := fun hzero => Bool.false_ne_true (hall.mpr hzero)
    omega
  · exact hopen

theorem stays : latch.Stays := by
  intro count_ call count_' all hact hopen
  rw [isOpen_iff] at hopen ⊢
  rcases act_cases hact with ⟨-, rfl, -⟩ | ⟨-, rfl, -⟩
  · omega
  · exact hopen

section Runs

variable {ι : Type*}

theorem countDowns_cons (e : Monitor.Event ι LatchCall) (es : List (Monitor.Event ι LatchCall)) :
    countDowns (e :: es) = countDowns es + countDowns [e] := by
  unfold countDowns
  rw [List.countP_cons, List.countP_singleton]

variable [DecidableEq ι]

theorem shared_step {s t : Monitor.Threads ι ℤ} {e : Monitor.Event ι LatchCall}
    (h : latch.step s e = some t) : t.shared = s.shared - countDowns [e] := by
  have htest : ∀ (s : Monitor.Threads ι ℤ) (i : ι), (latch.test s i).shared = s.shared := by
    intro s i
    rcases Monitor.test_cases latch s i with ⟨-, heq⟩ | ⟨-, heq⟩ <;> rw [heq]
  cases Monitor.step_moves h with
  | silent call shared hact =>
      rcases act_cases hact with ⟨rfl, rfl, -⟩ | ⟨rfl, rfl, -⟩
      · rfl
      · exact (Int.sub_zero _).symm
  | notify call shared hact =>
      rcases act_cases hact with ⟨rfl, rfl, -⟩ | ⟨-, -, hall⟩
      · rfl
      · cases hall
  | call i => exact (Int.sub_zero _).symm
  | first i hi => exact (htest _ i).trans (Int.sub_zero _).symm
  | again i hi => exact (htest _ i).trans (Int.sub_zero _).symm
  | wakeup i hi => exact (Int.sub_zero _).symm

/-- The count is what it was, less the calls of `countDown`. -/
theorem shared_run {s t : Monitor.Threads ι ℤ} {es : List (Monitor.Event ι LatchCall)}
    (h : run latch.step s es = some t) : t.shared = s.shared - countDowns es := by
  induction es generalizing s with
  | nil =>
      obtain rfl := Option.some.inj h
      exact (Int.sub_zero _).symm
  | cons e es ih =>
      obtain ⟨u, hu, h⟩ := (run_cons _).mp h
      rw [ih h, shared_step hu, countDowns_cons e es, Int.natCast_add]
      omega

/-- What a call of `getCount` is told is the count at that moment. -/
theorem returned_eq {s t : Monitor.Threads ι ℤ} {returned : ℤ}
    (h : latch.step s (.act (.getCount returned)) = some t) : returned = s.shared := by
  have hcalled : ∀ shared all, latch.act s.shared (.getCount returned) = some (shared, all) →
      returned = s.shared := by
    intro shared all hact
    rcases act_cases hact with ⟨hcall, -⟩ | ⟨hcall, -⟩
    · cases hcall
    · exact LatchCall.getCount.inj hcall
  cases Monitor.step_moves h with
  | silent call shared hact => exact hcalled _ _ hact
  | notify call shared hact => exact hcalled _ _ hact

/-- **The latch.** For every count, and in every interleaving of any number of threads that
call `wait`, `countDown` and `getCount`, with wakeups that nobody asked for: every call of
`wait` is asleep, on its way or through, and in one of them; nobody is through before the
calls of `countDown` are as many as the count; from then on nobody is asleep, and each
thread in `wait` gets through with its next step; and a call of `getCount` is told the count
less the calls of `countDown` before it. -/
theorem latch_opens (count : ℤ) (es : List (Monitor.Event ι LatchCall))
    {t : Monitor.Threads ι ℤ} (hrun : run latch.step (Monitor.init count) es = some t) :
    (Monitor.places t).Perm t.called ∧ t.shared = count - countDowns es
      ∧ (t.through ≠ [] → count ≤ countDowns es)
      ∧ (count ≤ countDowns es → t.cv_ = [] ∧ ∀ i ∈ t.notified ++ t.running,
        ∃ u, latch.step t (.lock i) = some u ∧ u.through = t.through ++ [i])
      ∧ ∀ before returned after, es = before ++ .act (.getCount returned) :: after →
        returned = count - countDowns before := by
  have hshared : t.shared = count - countDowns es := shared_run hrun
  refine ⟨Monitor.places_run hrun, hshared, fun hne => ?_, fun hcount => ?_,
    fun before returned after hes => ?_⟩
  · have hopen := Monitor.open_of_through stays hrun hne
    rw [isOpen_iff] at hopen
    omega
  · have hopen : latch.isOpen t.shared = true := isOpen_iff.mpr (by omega)
    exact ⟨Monitor.cv_eq_nil_of_open wakes hrun hopen, fun i hi => Monitor.lock_of_open hopen hi⟩
  · rw [hes] at hrun
    obtain ⟨u, hu, hafter⟩ := (run_append _).mp hrun
    obtain ⟨v, hv, -⟩ := (run_cons _).mp hafter
    rw [returned_eq hv]
    exact shared_run hu

end Runs

/-- One thread sleeps, one comes when the latch is open, and one asks for the count between. -/
theorem latch_opens_two : ∃ t, run latch.step (Monitor.init 2)
    [.call 1, .lock 1, .act .countDown, .act (.getCount 1), .act .countDown, .call 2, .lock 2,
      .act .countDown] = some t
    ∧ (Monitor.places t).Perm t.called ∧ t.shared = 2 - 3
    ∧ (t.through ≠ [] → 2 ≤ 3) ∧ t.cv_ = [] ∧ (∀ i ∈ t.notified ++ t.running,
      ∃ u, latch.step t (.lock i) = some u ∧ u.through = t.through ++ [i])
    ∧ (1 : ℤ) = 2 - 1 := by
  obtain ⟨t, ht⟩ : ∃ t, run latch.step (Monitor.init 2) [.call 1, .lock 1, .act .countDown,
      .act (.getCount 1), .act .countDown, .call 2, .lock 2, .act .countDown] = some t := ⟨_, rfl⟩
  obtain ⟨hplaces, hshared, -, hopen, hreturned⟩ := latch_opens 2 _ ht
  obtain ⟨hcv, hnext⟩ := hopen (by decide)
  exact ⟨t, ht, hplaces, hshared, fun _ => by decide, hcv, hnext,
    hreturned [.call 1, .lock 1, .act .countDown] 1 _ rfl⟩

end CountDownLatch

end Libiak.Base
