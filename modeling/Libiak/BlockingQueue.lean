/-
`BlockingQueue`: any number of producers and consumers around one mutex and one
condition variable.

A step is what a thread does between taking the mutex and giving it up: all of
`put`; the part of `take` from a test of `queue_` to the `wait` that follows it,
or to the end. A consumer that was woken has to take the mutex again, and who
comes first is open: it may find the queue as empty as before.

`notify_one` is called once for each item, and a consumer that is woken for
nothing goes back to sleep, so what the queue does not lose is a matter of
counting: as long as a consumer sleeps, there are at least as many consumers on
their way to `queue_` as there are items in it (`Threads.manned`).
-/
import Libiak.Run
import Mathlib.Data.List.Nodup

set_option autoImplicit false

namespace Libiak.Base

open Libiak.Run

/-- The queue, and where its consumers are: waiting on `cv_`, woken and not yet
back, or inside `take` before its first test. `puts` and `taken` are the
history. -/
structure BlockingQueue (ι T : Type*) where
  queue_ : List T
  cv_ : List ι
  notified : List ι
  running : List ι
  puts : List T
  taken : List (ι × T)
  deriving DecidableEq

/-- A step of a thread. -/
inductive QueueEvent (ι T : Type*)
  /-- `put(x)`; `woken` is the consumer that `notify_one` picks. -/
  | put (x : T) (woken : Option ι)
  /-- The consumer calls `take`. -/
  | call (i : ι)
  /-- The consumer gets the mutex. -/
  | lock (i : ι)
  /-- The consumer comes out of `wait` without having been notified. -/
  | wakeup (i : ι)
  deriving DecidableEq

namespace BlockingQueue

variable {ι T : Type*} [DecidableEq ι]

/-- `cv_.notify_one()`: a consumer that waits is woken, if there is one. -/
def notify_one (s : BlockingQueue ι T) : Option ι → Option (BlockingQueue ι T)
  | some i =>
      if i ∈ s.cv_ then some { s with cv_ := s.cv_.erase i, notified := s.notified ++ [i] }
      else none
  | none => if s.cv_ = [] then some s else none

def put (s : BlockingQueue ι T) (x : T) (woken : Option ι) : Option (BlockingQueue ι T) :=
  notify_one { s with queue_ := s.queue_ ++ [x], puts := s.puts ++ [x] } woken

/-- `take`, from a test of `queue_` that the consumer makes under the mutex. -/
def take (s : BlockingQueue ι T) (i : ι) : BlockingQueue ι T :=
  match s.queue_ with
  | [] => { s with cv_ := s.cv_ ++ [i] }
  | front :: queue_ => { s with queue_, taken := s.taken ++ [(i, front)] }

/-- A consumer calls `take` only when it is not inside of it. -/
def step (s : BlockingQueue ι T) : QueueEvent ι T → Option (BlockingQueue ι T)
  | .put x woken => put s x woken
  | .call i =>
      if i ∈ s.cv_ ++ s.notified ++ s.running then none
      else some { s with running := s.running ++ [i] }
  | .lock i =>
      if i ∈ s.running then some (take { s with running := s.running.erase i } i)
      else if i ∈ s.notified then some (take { s with notified := s.notified.erase i } i)
      else none
  | .wakeup i =>
      if i ∈ s.cv_ then some { s with cv_ := s.cv_.erase i, notified := s.notified ++ [i] }
      else none

def init : BlockingQueue ι T := ⟨[], [], [], [], [], []⟩

/-! ## What a step does -/

/-- The consumers inside `take` that do not wait. -/
def ready (s : BlockingQueue ι T) : List ι := s.notified ++ s.running

/-- What `step` does, one constructor for each of its branches. -/
inductive Moves (s : BlockingQueue ι T) : QueueEvent ι T → BlockingQueue ι T → Prop
  | put_none (x : T) (hcv : s.cv_ = []) :
      Moves s (.put x none) { s with queue_ := s.queue_ ++ [x], puts := s.puts ++ [x] }
  | put_some (x : T) (i : ι) (hi : i ∈ s.cv_) :
      Moves s (.put x (some i)) { s with
        queue_ := s.queue_ ++ [x], puts := s.puts ++ [x],
        cv_ := s.cv_.erase i, notified := s.notified ++ [i] }
  | call (i : ι) (hi : i ∉ s.cv_ ++ s.notified ++ s.running) :
      Moves s (.call i) { s with running := s.running ++ [i] }
  | first (i : ι) (hi : i ∈ s.running) :
      Moves s (.lock i) (take { s with running := s.running.erase i } i)
  | again (i : ι) (hi : i ∈ s.notified) :
      Moves s (.lock i) (take { s with notified := s.notified.erase i } i)
  | wakeup (i : ι) (hi : i ∈ s.cv_) :
      Moves s (.wakeup i) { s with cv_ := s.cv_.erase i, notified := s.notified ++ [i] }

variable {s t : BlockingQueue ι T} {e : QueueEvent ι T}

theorem step_moves (h : step s e = some t) : Moves s e t := by
  cases e with
  | put x woken =>
      cases woken with
      | none =>
          simp only [step, put, notify_one, Option.ite_none_right_eq_some, Option.some_inj] at h
          rw [← h.2]
          exact Moves.put_none x h.1
      | some i =>
          simp only [step, put, notify_one, Option.ite_none_right_eq_some, Option.some_inj] at h
          rw [← h.2]
          exact Moves.put_some x i h.1
  | call i =>
      simp only [step, Option.ite_none_left_eq_some, Option.some_inj] at h
      rw [← h.2]
      exact Moves.call i h.1
  | lock i =>
      simp only [step] at h
      by_cases hrun : i ∈ s.running
      · rw [if_pos hrun, Option.some_inj] at h
        rw [← h]
        exact Moves.first i hrun
      · rw [if_neg hrun, Option.ite_none_right_eq_some, Option.some_inj] at h
        rw [← h.2]
        exact Moves.again i h.1
  | wakeup i =>
      simp only [step, Option.ite_none_right_eq_some, Option.some_inj] at h
      rw [← h.2]
      exact Moves.wakeup i h.1

omit [DecidableEq ι] in
/-- A consumer under the mutex waits or takes the front. -/
theorem take_cases (s : BlockingQueue ι T) (i : ι) :
    (s.queue_ = [] ∧ take s i = { s with cv_ := s.cv_ ++ [i] })
      ∨ ∃ front queue_, s.queue_ = front :: queue_
        ∧ take s i = { s with queue_, taken := s.taken ++ [(i, front)] } := by
  unfold take
  cases hq : s.queue_ with
  | nil => exact Or.inl ⟨rfl, rfl⟩
  | cons front queue_ => exact Or.inr ⟨front, queue_, rfl, rfl⟩

/-! ## The items -/

/-- What was taken, in order, and then what is in the queue, is what was put. -/
def Delivers (s : BlockingQueue ι T) : Prop := s.taken.map Prod.snd ++ s.queue_ = s.puts

omit [DecidableEq ι] in
theorem delivers_take (h : Delivers s) (i : ι) : Delivers (take s i) := by
  unfold Delivers at h ⊢
  rcases take_cases s i with ⟨-, heq⟩ | ⟨front, queue_, hq, heq⟩
  · rw [heq]
    exact h
  · rw [heq, ← h, hq]
    simp

theorem delivers_step (h : Delivers s) (hstep : step s e = some t) : Delivers t := by
  have hput : ∀ x, s.taken.map Prod.snd ++ (s.queue_ ++ [x]) = s.puts ++ [x] := by
    intro x
    rw [← List.append_assoc, h]
  cases step_moves hstep with
  | put_none x hcv => exact hput x
  | put_some x i hi => exact hput x
  | call i hi => exact h
  | first i hi => exact delivers_take (s := { s with running := s.running.erase i }) h i
  | again i hi => exact delivers_take (s := { s with notified := s.notified.erase i }) h i
  | wakeup i hi => exact h

/-! ## The consumers -/

/-- Each consumer is in one place, and while one sleeps no item is left without
a consumer on its way. -/
structure Threads (s : BlockingQueue ι T) : Prop where
  nodup : (s.cv_ ++ s.notified ++ s.running).Nodup
  manned : s.cv_ ≠ [] → s.queue_.length ≤ (ready s).length

omit [DecidableEq ι] in
/-- A consumer that gives up its place among the ready, to wait or to leave with
an item. -/
theorem threads_take {u : BlockingQueue ι T} {i : ι} (h : Threads s)
    (hqueue : u.queue_ = s.queue_) (hcv : u.cv_ = s.cv_)
    (hplace : (s.cv_ ++ s.notified ++ s.running).Perm (i :: (u.cv_ ++ u.notified ++ u.running))) :
    Threads (take u i) := by
  have hnodup := hplace.nodup_iff.mp h.nodup
  have hlength := hplace.length_eq
  simp only [List.length_append, List.length_cons, hcv] at hlength
  rcases take_cases u i with ⟨hq, heq⟩ | ⟨front, queue_, hq, heq⟩
  · rw [heq]
    constructor
    · -- the consumer goes back to sleep, and the queue is empty
      apply List.Perm.nodup _ hnodup
      simp only [List.append_assoc]
      exact List.perm_middle.symm
    · intro _
      change u.queue_.length ≤ _
      rw [hq]
      exact Nat.zero_le _
  · -- one item less, and one consumer less
    rw [heq]
    refine ⟨(List.nodup_cons.mp hnodup).2, fun hne => ?_⟩
    have hmanned := h.manned (hcv ▸ hne)
    rw [← hqueue, hq] at hmanned
    simp only [ready, List.length_append, List.length_cons] at hmanned ⊢
    omega

/-- A consumer woken goes from the sleeping to the ready. -/
theorem woken_perm {i : ι} (hi : i ∈ s.cv_) :
    (s.cv_ ++ s.notified ++ s.running).Perm
      (s.cv_.erase i ++ (s.notified ++ [i]) ++ s.running) := by
  have h1 : s.cv_.Perm (i :: s.cv_.erase i) := List.perm_cons_erase hi
  refine (h1.append_right s.notified).append_right s.running |>.trans ?_
  apply List.Perm.append_right
  rw [← List.append_assoc]
  exact (List.perm_append_singleton i _).symm

theorem threads_step (h : Threads s) (hstep : step s e = some t) : Threads t := by
  cases step_moves hstep with
  | put_none x hcv => exact ⟨h.nodup, fun hne => absurd hcv hne⟩
  | put_some x i hi =>
      -- one item more, and one consumer more on its way
      refine ⟨(woken_perm hi).nodup h.nodup, fun _ => ?_⟩
      have hmanned := h.manned (List.ne_nil_of_mem hi)
      simp only [ready, List.length_append, List.length_singleton] at hmanned ⊢
      omega
  | call i hi =>
      constructor
      · change (s.cv_ ++ s.notified ++ (s.running ++ [i])).Nodup
        rw [← List.append_assoc]
        exact (List.perm_append_singleton i _).symm.nodup (List.nodup_cons.mpr ⟨hi, h.nodup⟩)
      · intro hne
        have hmanned := h.manned hne
        simp only [ready, List.length_append] at hmanned ⊢
        omega
  | first i hi =>
      apply threads_take (u := { s with running := s.running.erase i }) h rfl rfl
      exact ((List.perm_cons_erase hi).append_left _).trans List.perm_middle
  | again i hi =>
      apply threads_take (u := { s with notified := s.notified.erase i }) h rfl rfl
      have h1 := ((List.perm_cons_erase hi).append_left s.cv_).trans List.perm_middle
      exact h1.append_right s.running
  | wakeup i hi =>
      refine ⟨(woken_perm hi).nodup h.nodup, fun _ => ?_⟩
      have hmanned := h.manned (List.ne_nil_of_mem hi)
      simp only [ready, List.length_append] at hmanned ⊢
      omega

/-- Items, a consumer asleep, and nobody on the way to wake up for them. -/
def LostWakeup (s : BlockingQueue ι T) : Prop :=
  s.queue_ ≠ [] ∧ s.cv_ ≠ [] ∧ s.notified = [] ∧ s.running = []

omit [DecidableEq ι] in
theorem Threads.not_lost (h : Threads s) : ¬ LostWakeup s := by
  rintro ⟨hqueue, hcv, hnotified, hrunning⟩
  have hmanned := h.manned hcv
  rw [ready, hnotified, hrunning, List.append_nil, List.length_nil, Nat.le_zero] at hmanned
  exact hqueue (List.length_eq_zero_iff.mp hmanned)

/-- While there are items and a consumer sleeps, some consumer can take one. -/
theorem Threads.served (h : Threads s) (hqueue : s.queue_ ≠ []) (hcv : s.cv_ ≠ []) :
    ∃ i t, step s (.lock i) = some t ∧ t.taken.length = s.taken.length + 1 := by
  have hserve : ∀ u : BlockingQueue ι T, u.queue_ = s.queue_ → u.taken = s.taken →
      ∀ i, (take u i).taken.length = s.taken.length + 1 := by
    intro u hq htaken i
    rcases take_cases u i with ⟨hnil, -⟩ | ⟨front, queue_, -, heq⟩
    · exact absurd (hq ▸ hnil) hqueue
    · rw [heq, ← htaken]
      exact List.length_append
  by_cases hrunning : s.running = []
  · have hnotified : s.notified ≠ [] := fun hn => h.not_lost ⟨hqueue, hcv, hn, hrunning⟩
    obtain ⟨i, hi⟩ := List.exists_mem_of_ne_nil _ hnotified
    refine ⟨i, take { s with notified := s.notified.erase i } i, ?_,
      hserve { s with notified := s.notified.erase i } rfl rfl i⟩
    have hi' : i ∉ s.running := by simp [hrunning]
    simp only [step, if_neg hi', if_pos hi]
  · obtain ⟨i, hi⟩ := List.exists_mem_of_ne_nil _ hrunning
    refine ⟨i, take { s with running := s.running.erase i } i, ?_,
      hserve { s with running := s.running.erase i } rfl rfl i⟩
    simp only [step, if_pos hi]

/-! ## Runs -/

omit [DecidableEq ι] in
theorem threads_init : Threads (init : BlockingQueue ι T) :=
  ⟨List.nodup_nil, fun h => absurd rfl h⟩

/-- **Items are delivered and consumers woken.** In every interleaving of any
number of producers and consumers the items taken, in the order of their
removal, and then those in the queue, are the items put; and there is never an
item and a sleeping consumer with no consumer on its way. -/
theorem delivers_wakes (es : List (QueueEvent ι T)) :
    Throughout step (fun s : BlockingQueue ι T => Delivers s ∧ ¬ LostWakeup s) init es := by
  apply throughout_of_along (I := fun s => Delivers s ∧ Threads s) (C := fun _ _ => True)
  · intro s h
    exact ⟨h.1, h.2.not_lost⟩
  · intro s e t h _ hstep
    exact ⟨delivers_step h.1 hstep, threads_step h.2 hstep⟩
  · exact along_of_mem step fun _ _ _ => trivial
  · exact ⟨rfl, threads_init⟩

/-- A consumer woken for an item finds it gone, and waits again. -/
example : (run step (init : BlockingQueue ℕ ℕ)
    [.call 1, .lock 1, .call 2, .put 7 (some 1), .lock 2, .lock 1]).map
      (fun s => (s.taken, s.queue_, s.cv_)) = some ([(2, 7)], [], [1]) := by
  decide

end BlockingQueue

end Libiak.Base
