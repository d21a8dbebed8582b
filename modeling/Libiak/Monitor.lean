/-
Threads that wait behind a mutex and a condition variable until something holds:
`while (!open) cv.wait(lock)`.

What is behind the mutex is arbitrary, and so is what the calls of other threads do to it. A
step is what a thread does between taking the mutex and giving it up, so a thread that was
woken has to take it again, and tests again. Two rules say what the discipline of the calls
is worth. If whoever opens the monitor notifies all, nobody sleeps while it is open
(`cv_eq_nil_of_open`); if it stays open once it is, whoever is through finds it so
(`open_of_through`).
-/
import Libiak.Run
import Mathlib.Data.List.Perm.Basic

set_option autoImplicit false

namespace Libiak

open Libiak.Run

/-- What the threads wait for, and what a call does behind the mutex: the state after it,
and whether it calls `notify_all`. -/
structure Monitor (σ ε : Type*) where
  isOpen : σ → Bool
  act : σ → ε → Option (σ × Bool)

/-- What is behind the mutex, and where the threads are that have called `wait`: asleep,
woken and not yet back, before their first test, or through. -/
structure Monitor.Threads (ι σ : Type*) where
  shared : σ
  cv_ : List ι
  notified : List ι
  running : List ι
  through : List ι
  called : List ι
  deriving DecidableEq

inductive Monitor.Event (ι ε : Type*) where
  | act (e : ε)
  /-- A thread calls `wait`. -/
  | call (i : ι)
  /-- A thread in `wait` gets the mutex. -/
  | lock (i : ι)
  /-- A thread wakes without having been notified. -/
  | wakeup (i : ι)
  deriving DecidableEq

namespace Monitor

variable {ι σ ε : Type*} [DecidableEq ι] (m : Monitor σ ε)

/-- The test, under the mutex. -/
def test (s : Threads ι σ) (i : ι) : Threads ι σ :=
  if m.isOpen s.shared then { s with through := s.through ++ [i] }
  else { s with cv_ := s.cv_ ++ [i] }

def step (s : Threads ι σ) : Event ι ε → Option (Threads ι σ)
  | .act e => (m.act s.shared e).map fun r =>
      if r.2 then { s with shared := r.1, cv_ := [], notified := s.notified ++ s.cv_ }
      else { s with shared := r.1 }
  | .call i => some { s with running := s.running ++ [i], called := s.called ++ [i] }
  | .lock i =>
      if i ∈ s.running then some (m.test { s with running := s.running.erase i } i)
      else if i ∈ s.notified then some (m.test { s with notified := s.notified.erase i } i)
      else none
  | .wakeup i =>
      if i ∈ s.cv_ then some { s with cv_ := s.cv_.erase i, notified := s.notified ++ [i] }
      else none

/-- Nobody has called. -/
def init (shared : σ) : Threads ι σ := ⟨shared, [], [], [], [], []⟩

/-! ## What a step does -/

/-- The step, one constructor for each of its branches. -/
inductive Moves (s : Threads ι σ) : Event ι ε → Threads ι σ → Prop where
  | silent (e : ε) (shared : σ) (hact : m.act s.shared e = some (shared, false)) :
      Moves s (.act e) { s with shared := shared }
  | notify (e : ε) (shared : σ) (hact : m.act s.shared e = some (shared, true)) :
      Moves s (.act e) { s with shared := shared, cv_ := [], notified := s.notified ++ s.cv_ }
  | call (i : ι) :
      Moves s (.call i) { s with running := s.running ++ [i], called := s.called ++ [i] }
  | first (i : ι) (hi : i ∈ s.running) :
      Moves s (.lock i) (m.test { s with running := s.running.erase i } i)
  | again (i : ι) (hi : i ∈ s.notified) :
      Moves s (.lock i) (m.test { s with notified := s.notified.erase i } i)
  | wakeup (i : ι) (hi : i ∈ s.cv_) :
      Moves s (.wakeup i) { s with cv_ := s.cv_.erase i, notified := s.notified ++ [i] }

variable {m} {s t : Threads ι σ} {e : Event ι ε}

theorem step_moves (h : m.step s e = some t) : m.Moves s e t := by
  cases e with
  | act e =>
      obtain ⟨⟨shared, all⟩, hact, rfl⟩ := Option.map_eq_some_iff.mp h
      cases all with
      | false => exact .silent e shared hact
      | true => exact .notify e shared hact
  | call i =>
      obtain rfl := Option.some.inj h
      exact .call i
  | lock i =>
      simp only [step] at h
      split at h
      · rename_i hi
        obtain rfl := Option.some.inj h
        exact .first i hi
      · split at h
        · rename_i hi
          obtain rfl := Option.some.inj h
          exact .again i hi
        · cases h
  | wakeup i =>
      simp only [step] at h
      split at h
      · rename_i hi
        obtain rfl := Option.some.inj h
        exact .wakeup i hi
      · cases h

omit [DecidableEq ι] in
/-- A thread that tests goes through, or to sleep. -/
theorem test_cases (m : Monitor σ ε) (s : Threads ι σ) (i : ι) :
    (m.isOpen s.shared = true ∧ m.test s i = { s with through := s.through ++ [i] })
      ∨ (m.isOpen s.shared = false ∧ m.test s i = { s with cv_ := s.cv_ ++ [i] }) := by
  unfold test
  cases hopen : m.isOpen s.shared with
  | true => exact Or.inl ⟨rfl, if_pos rfl⟩
  | false => exact Or.inr ⟨rfl, if_neg Bool.false_ne_true⟩

/-! ## The discipline of the calls -/

/-- Whoever opens the monitor notifies all. -/
def Wakes (m : Monitor σ ε) : Prop :=
  ∀ s e s', m.act s e = some (s', false) → m.isOpen s' = true → m.isOpen s = true

/-- Nobody closes it. -/
def Stays (m : Monitor σ ε) : Prop :=
  ∀ s e s' all, m.act s e = some (s', all) → m.isOpen s = true → m.isOpen s' = true

section Rules

/-- Nobody sleeps while the monitor is open. -/
def Awake (m : Monitor σ ε) (s : Threads ι σ) : Prop := m.isOpen s.shared = true → s.cv_ = []

omit [DecidableEq ι] in
theorem awake_test (h : m.Awake s) (i : ι) : m.Awake (m.test s i) := by
  rcases test_cases m s i with ⟨-, heq⟩ | ⟨hclosed, heq⟩
  · rw [heq]
    exact h
  · rw [heq]
    intro hopen
    exact absurd (hclosed.symm.trans hopen) Bool.false_ne_true

theorem awake_step (hwakes : m.Wakes) (h : m.Awake s) (hstep : m.step s e = some t) :
    m.Awake t := by
  cases step_moves hstep with
  | silent e shared hact => exact fun hopen => h (hwakes _ _ _ hact hopen)
  | notify e shared hact => exact fun _ => rfl
  | call i => exact h
  | first i hi => exact awake_test (s := { s with running := s.running.erase i }) h i
  | again i hi => exact awake_test (s := { s with notified := s.notified.erase i }) h i
  | wakeup i hi =>
      intro hopen
      rw [h hopen] at hi
      cases hi

/-- **No wakeup is lost.** -/
theorem cv_eq_nil_of_open (hwakes : m.Wakes) {shared : σ} {es : List (Event ι ε)}
    (hrun : run m.step (init shared) es = some t) (hopen : m.isOpen t.shared = true) :
    t.cv_ = [] :=
  run_inv (I := m.Awake) (fun _ _ _ h hs => awake_step hwakes h hs) (fun _ => rfl) hrun hopen

/-- Whoever is through has found the monitor open. -/
def Passed (m : Monitor σ ε) (s : Threads ι σ) : Prop :=
  s.through ≠ [] → m.isOpen s.shared = true

omit [DecidableEq ι] in
theorem passed_test (h : m.Passed s) (i : ι) : m.Passed (m.test s i) := by
  rcases test_cases m s i with ⟨hopen, heq⟩ | ⟨-, heq⟩
  · rw [heq]
    exact fun _ => hopen
  · rw [heq]
    exact h

theorem passed_step (hstays : m.Stays) (h : m.Passed s) (hstep : m.step s e = some t) :
    m.Passed t := by
  cases step_moves hstep with
  | silent e shared hact => exact fun hne => hstays _ _ _ _ hact (h hne)
  | notify e shared hact => exact fun hne => hstays _ _ _ _ hact (h hne)
  | call i => exact h
  | first i hi => exact passed_test (s := { s with running := s.running.erase i }) h i
  | again i hi => exact passed_test (s := { s with notified := s.notified.erase i }) h i
  | wakeup i hi => exact h

/-- **Nobody gets through before the monitor is open.** -/
theorem open_of_through (hstays : m.Stays) {shared : σ} {es : List (Event ι ε)}
    (hrun : run m.step (init shared) es = some t) (hne : t.through ≠ []) :
    m.isOpen t.shared = true :=
  run_inv (I := m.Passed) (fun _ _ _ h hs => passed_step hstays h hs) (fun hne => absurd rfl hne)
    hrun hne

/-- The threads in `wait`. -/
def inWait (s : Threads ι σ) : List ι := s.cv_ ++ s.notified ++ s.running

/-- The threads in `wait`, and those that are through. -/
def places (s : Threads ι σ) : List ι := inWait s ++ s.through

omit [DecidableEq ι] in
theorem places_test (m : Monitor σ ε) (s : Threads ι σ) (i : ι) :
    (places (m.test s i)).Perm (i :: places s) ∧ (m.test s i).called = s.called := by
  rcases test_cases m s i with ⟨-, heq⟩ | ⟨-, heq⟩
  · rw [heq]
    refine ⟨?_, rfl⟩
    unfold places inWait
    rw [← List.append_assoc]
    exact List.perm_append_singleton i _
  · rw [heq]
    refine ⟨?_, rfl⟩
    unfold places inWait
    simp only [List.append_assoc, List.singleton_append]
    exact List.perm_middle

theorem places_step (h : (places s).Perm s.called) (hstep : m.step s e = some t) :
    (places t).Perm t.called := by
  cases step_moves hstep with
  | silent e shared hact => exact h
  | notify e shared hact =>
      refine List.Perm.trans ?_ h
      unfold places inWait
      simp only [List.nil_append]
      exact (List.perm_append_comm.append_right s.running).append_right s.through
  | call i =>
      show (s.cv_ ++ s.notified ++ (s.running ++ [i]) ++ s.through).Perm (s.called ++ [i])
      have hplaces : (s.cv_ ++ s.notified ++ (s.running ++ [i]) ++ s.through).Perm
          (i :: places s) := by
        unfold places inWait
        rw [← List.append_assoc, List.append_assoc _ [i], List.singleton_append]
        exact List.perm_middle
      exact hplaces.trans ((h.cons i).trans (List.perm_append_singleton i s.called).symm)
  | first i hi =>
      obtain ⟨hplaces, hcalled⟩ := places_test m { s with running := s.running.erase i } i
      rw [hcalled]
      refine List.Perm.trans (hplaces.trans ?_) h
      unfold places inWait
      have herase := (List.perm_cons_erase hi).symm
      refine List.Perm.trans ?_ ((herase.append_left (s.cv_ ++ s.notified)).append_right s.through)
      rw [← List.cons_append]
      exact List.perm_middle.symm.append_right s.through
  | again i hi =>
      obtain ⟨hplaces, hcalled⟩ := places_test m { s with notified := s.notified.erase i } i
      rw [hcalled]
      refine List.Perm.trans (hplaces.trans ?_) h
      unfold places inWait
      have herase := (List.perm_cons_erase hi).symm
      refine List.Perm.trans ?_
        (((herase.append_left s.cv_).append_right s.running).append_right s.through)
      rw [← List.cons_append, ← List.cons_append]
      exact (List.perm_middle.symm.append_right s.running).append_right s.through
  | wakeup i hi =>
      refine List.Perm.trans ?_ h
      unfold places inWait
      refine List.Perm.append_right _ (List.Perm.append_right _ ?_)
      rw [← List.append_assoc]
      have herase := List.perm_cons_erase hi
      exact (List.perm_append_singleton i _).trans (herase.append_right s.notified).symm

/-- **Nobody is lost**: every call of `wait` is in one place. -/
theorem places_run {shared : σ} {es : List (Event ι ε)}
    (hrun : run m.step (init shared) es = some t) : (places t).Perm t.called :=
  run_inv (I := fun s => (places s).Perm s.called) (fun _ _ _ h hs => places_step h hs)
    (List.Perm.refl _) hrun

/-- A thread that gets the mutex leaves an open monitor, and no other. -/
theorem lock_cases {i : ι} (h : m.step s (.lock i) = some t) :
    (m.isOpen s.shared = true ∧ t.through = s.through ++ [i]
        ∧ (inWait s).length = (inWait t).length + 1)
      ∨ (m.isOpen s.shared = false ∧ t.through = s.through
        ∧ (inWait t).length = (inWait s).length) := by
  have htest : ∀ u : Threads ι σ, u.shared = s.shared → u.through = s.through →
      (inWait s).length = (inWait u).length + 1 → t = m.test u i →
      (m.isOpen s.shared = true ∧ t.through = s.through ++ [i]
          ∧ (inWait s).length = (inWait t).length + 1)
        ∨ (m.isOpen s.shared = false ∧ t.through = s.through
          ∧ (inWait t).length = (inWait s).length) := by
    rintro u hshared hthrough hlength rfl
    rw [← hshared, ← hthrough]
    rcases test_cases m u i with ⟨hopen, heq⟩ | ⟨hclosed, heq⟩
    · rw [heq]
      exact Or.inl ⟨hopen, rfl, hlength⟩
    · rw [heq]
      refine Or.inr ⟨hclosed, rfl, ?_⟩
      rw [hlength]
      simp only [inWait, List.length_append, List.length_singleton]
      omega
  cases step_moves h with
  | first i hi =>
      refine htest { s with running := s.running.erase i } rfl rfl ?_ rfl
      have hpos := List.length_pos_of_mem hi
      simp only [inWait, List.length_append, List.length_erase_of_mem hi]
      omega
  | again i hi =>
      refine htest { s with notified := s.notified.erase i } rfl rfl ?_ rfl
      have hpos := List.length_pos_of_mem hi
      simp only [inWait, List.length_append, List.length_erase_of_mem hi]
      omega

/-- A thread that is awake gets through an open monitor with its next step. -/
theorem lock_of_open (hopen : m.isOpen s.shared = true) {i : ι}
    (hi : i ∈ s.notified ++ s.running) :
    ∃ t, m.step s (.lock i) = some t ∧ t.through = s.through ++ [i] := by
  by_cases hrunning : i ∈ s.running
  · refine ⟨_, if_pos hrunning, ?_⟩
    rw [test, if_pos hopen]
  · have hnotified : i ∈ s.notified := by
      rcases List.mem_append.mp hi with hi | hi
      · exact hi
      · exact absurd hi hrunning
    refine ⟨_, (if_neg hrunning).trans (if_pos hnotified), ?_⟩
    rw [test, if_pos hopen]

end Rules

end Monitor

end Libiak
