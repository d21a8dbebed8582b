/-
`net/EventLoopThreadPool.cpp`: the threads of a pool, and whether a `quit()`
reaches the loop it is for.

`start()` makes one thread for each loop and returns without waiting for any of
them; the destructor calls `quit()` on each loop and joins the threads. `quit()`
sets `quit_` and writes the `eventfd`, and `loop()` clears `quit_` when it is
entered. A thread that has not got that far when its loop is told to quit
clears what it was told.

Everything but the store of `quit()` and the entry of `loop()` leaves `quit_`
alone, so the condition is exact, and it is about a single moment: the loop's
thread has to be past the entry when `quit_` is set (`quit_kept_iff`).
-/
import Libiak.EventLoop

set_option autoImplicit false

namespace Libiak.Net

open Libiak.Run

variable {φ κ : Type*}

/-- Where the thread that owns the pool is: in `start()` at loop `i`, between
`start()` and the destructor, in the destructor at the store of `quit()` on loop
`i`, at its write, and at the join of thread `i`. -/
inductive PoolPc where
  | starting (i : ℕ)
  | started
  | quitting (i : ℕ)
  | waking (i : ℕ)
  | joining (i : ℕ)
  | done
  deriving DecidableEq

/-- `class EventLoopThreadPool` with the loops it owns. `threads_` says which of
the threads have been made. -/
structure EventLoopThreadPool (φ κ : Type*) where
  count_ : ℕ
  loops_ : ℕ → EventLoop φ κ
  threads_ : ℕ → Bool
  pc : PoolPc

/-- A step of the owner's thread, or an event of loop `i`. -/
inductive PoolEvent (φ κ : Type*) where
  | main
  | loop (i : ℕ) (event : LoopEvent φ κ)

namespace EventLoopThreadPool

/-- `EventLoopThreadPool::EventLoopThreadPool`, and the call of `start()`. -/
def init (count : ℕ) : EventLoopThreadPool φ κ :=
  { count_ := count, loops_ := fun _ => EventLoop.init, threads_ := fun _ => false
    pc := .starting 0 }

/-- The pool with another state of loop `i`. -/
def setLoop (s : EventLoopThreadPool φ κ) (i : ℕ) (loop : EventLoop φ κ) :
    EventLoopThreadPool φ κ :=
  { s with loops_ := fun j => if j = i then loop else s.loops_ j }

/-- The next step of `start()` or of the destructor. A `quit()` is a store and a
write; a join waits for the thread to have left `loop()`. -/
def main (s : EventLoopThreadPool φ κ) : Option (EventLoopThreadPool φ κ) :=
  match s.pc with
  | .starting i =>
      if i < s.count_ then
        some { s with
          threads_ := fun j => if j = i then true else s.threads_ j, pc := .starting (i + 1) }
      else some { s with pc := .started }
  | .started => some { s with pc := .quitting 0 }
  | .quitting i =>
      if i < s.count_ then
        some { s.setLoop i { s.loops_ i with quit_ := true } with pc := .waking i }
      else some { s with pc := .joining 0 }
  | .waking i => some { s.setLoop i (s.loops_ i).wakeup with pc := .quitting (i + 1) }
  | .joining i =>
      if i < s.count_ then
        if (s.loops_ i).pc = .exited then some { s with pc := .joining (i + 1) } else none
      else some { s with pc := .done }
  | .done => none

/-- The events of a loop that are steps of its own thread. -/
def ofThread : LoopEvent φ κ → Bool
  | .push _ | .quit | .wakeup => false
  | _ => true

/-- A loop's own thread runs once it has been made; its loop is one of the
pool's. -/
def step (s : EventLoopThreadPool φ κ) : PoolEvent φ κ → Option (EventLoopThreadPool φ κ)
  | .main => s.main
  | .loop i event =>
      if i < s.count_ ∧ (ofThread event = true → s.threads_ i = true) then
        (EventLoop.step (s.loops_ i) event).map (s.setLoop i)
      else none

/-- The `quit()` of the destructor on loop `i` has completed. -/
def Quitted (s : EventLoopThreadPool φ κ) (i : ℕ) : Prop :=
  match s.pc with
  | .quitting j | .waking j => i < j
  | .joining _ | .done => i < s.count_
  | _ => False

/-- The thread of loop `i` is not at the test of the `while` with `quit_`
cleared. -/
def Leaves (s : EventLoopThreadPool φ κ) (i : ℕ) : Prop :=
  (s.loops_ i).pc = .test → (s.loops_ i).quit_ = true

/-- The store of that `quit()` has been made. -/
def Stored (s : EventLoopThreadPool φ κ) (i : ℕ) : Prop :=
  match s.pc with
  | .waking j => i ≤ j
  | .quitting j => i < j
  | .joining _ | .done => i < s.count_
  | _ => False

theorem Quitted.stored {s : EventLoopThreadPool φ κ} {i : ℕ} (h : Quitted s i) : Stored s i := by
  unfold Quitted at h
  unfold Stored
  cases hpc : s.pc with
  | starting j => rw [hpc] at h; exact h
  | started => rw [hpc] at h; exact h
  | quitting j => rw [hpc] at h; exact h
  | waking j => rw [hpc] at h; exact Nat.le_of_lt h
  | joining j => rw [hpc] at h; exact h
  | done => rw [hpc] at h; exact h

@[simp] theorem setLoop_self (s : EventLoopThreadPool φ κ) (i : ℕ) (loop : EventLoop φ κ) :
    (s.setLoop i loop).loops_ i = loop := if_pos rfl

theorem setLoop_of_ne (s : EventLoopThreadPool φ κ) {i j : ℕ} (loop : EventLoop φ κ)
    (h : j ≠ i) : (s.setLoop i loop).loops_ j = s.loops_ j := if_neg h

/-! ## Past the entry -/

section Step

variable {s t : EventLoopThreadPool φ κ} {i : ℕ}

/-- The thread of loop `i` is past the entry of `loop()`, and what the store set
is still set. -/
structure Kept (s : EventLoopThreadPool φ κ) (i : ℕ) : Prop where
  past : (s.loops_ i).pc ≠ .entry
  quit : Stored s i → (s.loops_ i).quit_ = true

/-- A loop past its entry does not go back there, and does not clear `quit_`. -/
theorem loop_keeps {l l' : EventLoop φ κ} {e : LoopEvent φ κ} (hpc : l.pc ≠ .entry)
    (hstep : EventLoop.step l e = some l') :
    l'.pc ≠ .entry ∧ (l.quit_ = true → l'.quit_ = true) := by
  cases e with
  | push f => exact (Option.some.inj hstep) ▸ ⟨hpc, id⟩
  | quit => exact (Option.some.inj hstep) ▸ ⟨hpc, fun _ => rfl⟩
  | wakeup =>
      rw [EventLoop.step] at hstep
      split at hstep
      · obtain ⟨counter, edge, heq, -, -⟩ := EventLoop.wakeup_eq l
        rw [heq] at hstep
        exact (Option.some.inj hstep) ▸ ⟨hpc, id⟩
      · cases hstep
  | callPush f =>
      rw [EventLoop.step] at hstep
      split at hstep
      · exact (Option.some.inj hstep) ▸ ⟨hpc, id⟩
      · cases hstep
  | callQuit =>
      rw [EventLoop.step] at hstep
      split at hstep
      · exact (Option.some.inj hstep) ▸ ⟨hpc, fun _ => rfl⟩
      · cases hstep
  | callWakeup =>
      rw [EventLoop.step] at hstep
      split at hstep
      · obtain ⟨counter, edge, heq, -, -⟩ := EventLoop.wakeup_eq l
        rw [heq] at hstep
        exact (Option.some.inj hstep) ▸ ⟨hpc, id⟩
      · cases hstep
  | poll before after events =>
      rw [EventLoop.step, EventLoop.poll] at hstep
      split at hstep
      · exact (Option.some.inj hstep) ▸ ⟨by simp, id⟩
      · cases hstep
  | next =>
      rw [EventLoop.step, EventLoop.next] at hstep
      split at hstep
      · cases hstep
      · split at hstep
        · rename_i hentry
          exact absurd hentry hpc
        · -- the test of `quit_` leads to the poll or out, not back to the entry
          refine (Option.some.inj hstep) ▸ ⟨?_, id⟩
          show (if l.quit_ then LoopPc.exited else LoopPc.poll) ≠ LoopPc.entry
          cases l.quit_ <;> decide
        · cases hstep
        · obtain rfl := Option.some.inj hstep
          unfold EventLoop.dispatch
          split
          · exact ⟨by simp, id⟩
          · exact ⟨by simp, id⟩
          · simp only
            split
            · exact ⟨by simp, id⟩
            · exact ⟨hpc, id⟩
        · exact (Option.some.inj hstep) ▸ ⟨by simp, id⟩
        · exact (Option.some.inj hstep) ▸ ⟨by simp, id⟩
        · exact (Option.some.inj hstep) ▸ ⟨by simp, id⟩
        · split at hstep
          · exact (Option.some.inj hstep) ▸ ⟨by simp, id⟩
          · exact (Option.some.inj hstep) ▸ ⟨by simp, id⟩
        · exact (Option.some.inj hstep) ▸ ⟨by simp, id⟩
        · cases hstep

/-- The steps of the owner's thread, one for each place. -/
inductive MainMoves (s : EventLoopThreadPool φ κ) : EventLoopThreadPool φ κ → Prop where
  | start (i : ℕ) (hpc : s.pc = .starting i) (hi : i < s.count_) :
      MainMoves s { s with
        threads_ := fun j => if j = i then true else s.threads_ j, pc := .starting (i + 1) }
  | started (i : ℕ) (hpc : s.pc = .starting i) (hi : s.count_ ≤ i) :
      MainMoves s { s with pc := .started }
  | destruct (hpc : s.pc = .started) : MainMoves s { s with pc := .quitting 0 }
  | store (i : ℕ) (hpc : s.pc = .quitting i) (hi : i < s.count_) :
      MainMoves s { s.setLoop i { s.loops_ i with quit_ := true } with pc := .waking i }
  | quitDone (i : ℕ) (hpc : s.pc = .quitting i) (hi : s.count_ ≤ i) :
      MainMoves s { s with pc := .joining 0 }
  | wake (i : ℕ) (hpc : s.pc = .waking i) :
      MainMoves s { s.setLoop i (s.loops_ i).wakeup with pc := .quitting (i + 1) }
  | join (i : ℕ) (hpc : s.pc = .joining i) (hi : i < s.count_) :
      MainMoves s { s with pc := .joining (i + 1) }
  | done (i : ℕ) (hpc : s.pc = .joining i) (hi : s.count_ ≤ i) : MainMoves s { s with pc := .done }

theorem main_moves (h : s.main = some t) : MainMoves s t := by
  unfold main at h
  split at h
  · rename_i j hpc
    split at h
    · exact (Option.some.inj h) ▸ .start j hpc (by assumption)
    · exact (Option.some.inj h) ▸ .started j hpc (by omega)
  · rename_i hpc
    exact (Option.some.inj h) ▸ .destruct hpc
  · rename_i j hpc
    split at h
    · exact (Option.some.inj h) ▸ .store j hpc (by assumption)
    · exact (Option.some.inj h) ▸ .quitDone j hpc (by omega)
  · rename_i j hpc
    exact (Option.some.inj h) ▸ .wake j hpc
  · rename_i j hpc
    split at h
    · split at h
      · exact (Option.some.inj h) ▸ .join j hpc (by assumption)
      · cases h
    · exact (Option.some.inj h) ▸ .done j hpc (by omega)
  · cases h

/-- Only the store itself makes it so. -/
theorem stored_step {e : PoolEvent φ κ} (hstep : step s e = some t) (h : Stored t i) :
    Stored s i ∨ (e = .main ∧ s.pc = .quitting i ∧ i < s.count_) := by
  cases e with
  | loop k event =>
      rw [step] at hstep
      split at hstep
      · obtain ⟨l, -, rfl⟩ := Option.map_eq_some_iff.mp hstep
        exact Or.inl h
      · cases hstep
  | main =>
      cases main_moves hstep with
      | start j hpc hj => exact h.elim
      | started j hpc hj => exact h.elim
      | destruct hpc => exact absurd h (Nat.not_lt_zero i)
      | store j hpc hj =>
          rcases Nat.lt_or_ge i j with hlt | hge
          · left
            rw [Stored, hpc]
            exact hlt
          · obtain rfl : i = j := Nat.le_antisymm h hge
            exact Or.inr ⟨rfl, hpc, hj⟩
      | quitDone j hpc hj =>
          left
          rw [Stored, hpc]
          exact Nat.lt_of_lt_of_le h hj
      | wake j hpc =>
          left
          rw [Stored, hpc]
          exact Nat.le_of_lt_succ h
      | join j hpc hj =>
          left
          rw [Stored, hpc]
          exact h
      | done j hpc hj =>
          left
          rw [Stored, hpc]
          exact h

/-- Every step keeps a thread that is past the entry there, and `quit_` set. -/
theorem kept_step {e : PoolEvent φ κ} (h : Kept s i) (hstep : step s e = some t) : Kept t i := by
  -- what a step does to loop `i` itself
  have key : (t.loops_ i).pc ≠ .entry
      ∧ ((s.loops_ i).quit_ = true → (t.loops_ i).quit_ = true)
      ∧ (e = .main → s.pc = .quitting i → i < s.count_ → (t.loops_ i).quit_ = true) := by
    cases e with
    | loop k event =>
        rw [step] at hstep
        split at hstep
        · obtain ⟨l, hl, rfl⟩ := Option.map_eq_some_iff.mp hstep
          by_cases hk : i = k
          · subst hk
            obtain ⟨h1, h2⟩ := loop_keeps h.past hl
            rw [setLoop_self]
            exact ⟨h1, h2, fun he => by cases he⟩
          · rw [setLoop_of_ne _ _ hk]
            exact ⟨h.past, id, fun he => by cases he⟩
        · cases hstep
    | main =>
        cases main_moves hstep with
        | store j hpc hj =>
            by_cases hk : i = j
            · subst hk
              simp only [setLoop_self]
              exact ⟨h.past, fun _ => trivial, fun _ _ _ => trivial⟩
            · simp only [setLoop_of_ne _ _ hk]
              refine ⟨h.past, id, fun _ hpc' _ => ?_⟩
              rw [hpc'] at hpc
              exact absurd (PoolPc.quitting.inj hpc) hk
        | wake j hpc =>
            by_cases hk : i = j
            · subst hk
              obtain ⟨counter, edge, heq, -, -⟩ := EventLoop.wakeup_eq (s.loops_ i)
              simp only [setLoop_self, heq]
              exact ⟨h.past, id, fun _ hpc' => by rw [hpc] at hpc'; cases hpc'⟩
            · simp only [setLoop_of_ne _ _ hk]
              exact ⟨h.past, id, fun _ hpc' => by rw [hpc] at hpc'; cases hpc'⟩
        | start j hpc hj => exact ⟨h.past, id, fun _ hpc' => by rw [hpc] at hpc'; cases hpc'⟩
        | started j hpc hj => exact ⟨h.past, id, fun _ hpc' => by rw [hpc] at hpc'; cases hpc'⟩
        | destruct hpc => exact ⟨h.past, id, fun _ hpc' => by rw [hpc] at hpc'; cases hpc'⟩
        | quitDone j hpc hj =>
            refine ⟨h.past, id, fun _ hpc' hi => ?_⟩
            rw [hpc'] at hpc
            obtain rfl := PoolPc.quitting.inj hpc
            exact absurd hi (Nat.not_lt.mpr hj)
        | join j hpc hj => exact ⟨h.past, id, fun _ hpc' => by rw [hpc] at hpc'; cases hpc'⟩
        | done j hpc hj => exact ⟨h.past, id, fun _ hpc' => by rw [hpc] at hpc'; cases hpc'⟩
  refine ⟨key.1, fun hstored => ?_⟩
  rcases stored_step hstep hstored with h1 | ⟨he, hpc, hi⟩
  · exact key.2.1 (h.quit h1)
  · exact key.2.2 he hpc hi

end Step

/-! ## Runs -/

/-- When the owner's thread sets `quit_` on a loop, the loop's own thread is
past the entry of `loop()`. -/
def StoresPast (s : EventLoopThreadPool φ κ) : PoolEvent φ κ → Prop
  | .main =>
      match s.pc with
      | .quitting i => i < s.count_ → (s.loops_ i).pc ≠ .entry
      | _ => True
  | .loop _ _ => True

instance (s : EventLoopThreadPool φ κ) : (e : PoolEvent φ κ) → Decidable (s.StoresPast e)
  | .main => by
      unfold StoresPast
      cases s.pc <;> infer_instance
  | .loop _ _ => isTrue trivial

/-- What every run keeps of the threads and of the loops: the destructor finds
all threads made, and no thread is inside user code before it has entered its
loop. -/
structure Made (s : EventLoopThreadPool φ κ) : Prop where
  threads : ∀ i, i < s.count_ → (∀ j, s.pc = .starting j → i < j) → s.threads_ i = true
  wakeful : ∀ i, (s.loops_ i).Wakeful

theorem made_init (count : ℕ) : Made (init count : EventLoopThreadPool φ κ) where
  threads := fun i _ h => absurd (h 0 rfl) (Nat.not_lt_zero i)
  wakeful := fun _ => EventLoop.wakeful_init

/-- A change of one loop that keeps its invariant. -/
theorem wakeful_setLoop {s : EventLoopThreadPool φ κ} (h : ∀ i, (s.loops_ i).Wakeful) {k : ℕ}
    {l : EventLoop φ κ} (hl : l.Wakeful) (i : ℕ) : ((s.setLoop k l).loops_ i).Wakeful := by
  by_cases hk : i = k
  · subst hk
    rw [setLoop_self]
    exact hl
  · rw [setLoop_of_ne _ _ hk]
    exact h i

theorem made_step {s t : EventLoopThreadPool φ κ} {e : PoolEvent φ κ} (h : Made s)
    (hstep : step s e = some t) : Made t := by
  -- past `start()` every thread is there
  have hall : (∀ j, s.pc ≠ .starting j) → ∀ i, i < s.count_ → s.threads_ i = true :=
    fun hpc i hi => h.threads i hi fun j hj => absurd hj (hpc j)
  cases e with
  | loop k event =>
      rw [step] at hstep
      split at hstep
      · obtain ⟨l, hl, rfl⟩ := Option.map_eq_some_iff.mp hstep
        exact ⟨h.threads, wakeful_setLoop h.wakeful (EventLoop.wakeful_step (h.wakeful k) hl)⟩
      · cases hstep
  | main =>
      cases main_moves hstep with
      | start j hpc hj =>
          refine ⟨fun i hi hlt => ?_, h.wakeful⟩
          show (if i = j then true else s.threads_ i) = true
          by_cases hij : i = j
          · rw [if_pos hij]
          · rw [if_neg hij]
            refine h.threads i hi fun j' hj' => ?_
            rw [hpc] at hj'
            obtain rfl := PoolPc.starting.inj hj'
            have := hlt (j + 1) rfl
            omega
      | started j hpc hj =>
          refine ⟨fun i hi _ => h.threads i hi fun j' hj' => ?_, h.wakeful⟩
          rw [hpc] at hj'
          obtain rfl := PoolPc.starting.inj hj'
          exact Nat.lt_of_lt_of_le hi hj
      | destruct hpc =>
          exact ⟨fun i hi _ => hall (fun j hj => by rw [hpc] at hj; cases hj) i hi, h.wakeful⟩
      | store j hpc hj =>
          have hl : EventLoop.Wakeful { s.loops_ j with quit_ := true } := by
            obtain ⟨h1, h2, h3, h4, h5, h6, h7, h8⟩ := h.wakeful j
            exact ⟨h1, h2, h3, h4, h5, h6, h7, h8⟩
          exact ⟨fun i hi _ => hall (fun j hj => by rw [hpc] at hj; cases hj) i hi,
            wakeful_setLoop h.wakeful hl⟩
      | quitDone j hpc hj =>
          exact ⟨fun i hi _ => hall (fun j hj => by rw [hpc] at hj; cases hj) i hi, h.wakeful⟩
      | wake j hpc =>
          have hw := (h.wakeful j).wakeup (s.loops_ j).writers (s.loops_ j).calling
            (h.wakeful j).caller
          have hl : (s.loops_ j).wakeup.Wakeful := by
            obtain ⟨counter, edge, heq, -, -⟩ := EventLoop.wakeup_eq (s.loops_ j)
            rw [heq] at hw ⊢
            exact hw
          exact ⟨fun i hi _ => hall (fun j hj => by rw [hpc] at hj; cases hj) i hi,
            wakeful_setLoop h.wakeful hl⟩
      | join j hpc hj =>
          exact ⟨fun i hi _ => hall (fun j hj => by rw [hpc] at hj; cases hj) i hi, h.wakeful⟩
      | done j hpc hj =>
          exact ⟨fun i hi _ => hall (fun j hj => by rw [hpc] at hj; cases hj) i hi, h.wakeful⟩

/-- The entry of `loop()`. -/
theorem next_entry {l : EventLoop φ κ} (hpc : l.pc = .entry) (hcalling : l.calling = false) :
    l.next = some { l with quit_ := false, pc := .test } := by
  unfold EventLoop.next
  rw [if_neg (by rw [hcalling]; decide)]
  simp only [hpc]

/-- A `quit()` that is stored while the thread is at the entry is lost when the
thread goes on. -/
theorem quit_lost {s : EventLoopThreadPool φ κ} {i : ℕ} (h : Made s) (hpc : s.pc = .quitting i)
    (hi : i < s.count_) (hentry : (s.loops_ i).pc = .entry) :
    ∃ t, Reach step s t ∧ Quitted t i ∧ ¬ Leaves t i := by
  have hthread : s.threads_ i = true :=
    h.threads i hi fun j hj => by rw [hpc] at hj; cases hj
  have hcalling : (s.loops_ i).calling = false := by
    by_contra hc
    have huser := (h.wakeful i).caller (by simpa using hc)
    rw [hentry] at huser
    cases huser
  -- the store, the write, and the thread's entry after them
  obtain ⟨s1, hs1⟩ : ∃ s1, s1 = { s.setLoop i { s.loops_ i with quit_ := true } with
    pc := .waking i } := ⟨_, rfl⟩
  obtain ⟨s2, hs2⟩ : ∃ s2, s2 = { s1.setLoop i (s1.loops_ i).wakeup with
    pc := .quitting (i + 1) } := ⟨_, rfl⟩
  have h1 : step s .main = some s1 := by
    rw [step, main, hpc, hs1]
    exact if_pos hi
  have h2 : step s1 .main = some s2 := by
    rw [hs2, hs1]
    rfl
  have hl : (s2.loops_ i).pc = .entry ∧ (s2.loops_ i).calling = false := by
    obtain ⟨counter, edge, heq, -, -⟩ := EventLoop.wakeup_eq (s1.loops_ i)
    rw [hs2, show ({ s1.setLoop i (s1.loops_ i).wakeup with
      pc := .quitting (i + 1) } : EventLoopThreadPool φ κ).loops_ i = (s1.loops_ i).wakeup from
      setLoop_self s1 i _, heq, hs1]
    simp only [setLoop_self]
    exact ⟨hentry, hcalling⟩
  have h3 : step s2 (.loop i .next)
      = some (s2.setLoop i { s2.loops_ i with quit_ := false, pc := .test }) := by
    have hguard : i < s2.count_ ∧ (ofThread (.next : LoopEvent φ κ) = true →
        s2.threads_ i = true) := by
      rw [hs2, hs1]
      exact ⟨hi, fun _ => hthread⟩
    rw [step, if_pos hguard, EventLoop.step, next_entry hl.1 hl.2]
    rfl
  refine ⟨_, reach_trans step (reach_step step h1)
    (reach_trans step (reach_step step h2) (reach_step step h3)), ?_, ?_⟩
  · rw [hs2]
    exact Nat.lt_succ_self i
  · intro hleaves
    unfold Leaves at hleaves
    rw [setLoop_self] at hleaves
    exact absurd (hleaves rfl) Bool.false_ne_true

/-- **A `quit()` is kept exactly when its loop has been entered.** In every run
in which the destructor sets `quit_` on loops whose threads are past the entry
of `loop()` only, no thread is ever at the test of the `while` with `quit_`
cleared once the `quit()` on its loop has completed. And in a state of any run in
which the destructor is about to set `quit_` on a loop, that no state reached
from there has the loop's thread at the test with `quit_` cleared after the
`quit()` has completed holds if and only if the thread is past the entry. -/
theorem quit_kept_iff (count : ℕ) (es : List (PoolEvent φ κ)) :
    (Along step StoresPast (init count : EventLoopThreadPool φ κ) es →
        Throughout step (fun t => ∀ i, Quitted t i → Leaves t i) (init count) es)
      ∧ ∀ s i, run step (init count) es = some s → s.pc = .quitting i → i < s.count_ →
        ((∀ t, Reach step s t → Quitted t i → Leaves t i) ↔ (s.loops_ i).pc ≠ .entry) := by
  constructor
  · intro hC
    refine throughout_of_along (I := fun s => ∀ i, Stored s i → Kept s i) ?_ ?_ hC ?_
    · intro s hI i hq _
      exact (hI i hq.stored).quit hq.stored
    · intro s e t hI hpast hstep i hstored
      rcases stored_step hstep hstored with h1 | ⟨rfl, hpc, hi⟩
      · exact kept_step (hI i h1) hstep
      · simp only [StoresPast, hpc] at hpast
        refine kept_step ⟨hpast hi, fun h1 => ?_⟩ hstep
        rw [Stored, hpc] at h1
        exact absurd h1 (Nat.lt_irrefl i)
    · intro i hstored
      exact hstored.elim
  · intro s i hrun hpc hi
    constructor
    · intro hleaves hentry
      have hmade : Made s := run_inv (fun _ _ _ h hs => made_step h hs) (made_init count) hrun
      obtain ⟨t, hreach, hquitted, hnot⟩ := quit_lost hmade hpc hi hentry
      exact hnot (hleaves t hreach hquitted)
    · intro hpast t hreach hquitted _
      have hkept : Kept s i := by
        refine ⟨hpast, fun h1 => ?_⟩
        rw [Stored, hpc] at h1
        exact absurd h1 (Nat.lt_irrefl i)
      exact (reach_inv (fun _ _ _ h hs => kept_step h hs) hkept hreach).quit hquitted.stored

/-- One loop, whose thread enters it before the destructor runs. -/
theorem quit_kept_one :
    Throughout step (fun t => ∀ i, Quitted t i → Leaves t i) (init 1 : EventLoopThreadPool ℕ ℕ)
      [.main, .loop 0 .next, .main, .main, .main, .main, .loop 0 .next] :=
  (quit_kept_iff 1 [.main, .loop 0 .next, .main, .main, .main, .main, .loop 0 .next]).1
    (by decide)

/-- The run that shows the condition is needed: one loop, whose thread is made
and told to quit before it has entered `loop()`. -/
theorem quit_not_kept :
    ∃ t, run step (init 1 : EventLoopThreadPool ℕ ℕ)
        [.main, .main, .main, .main, .main, .loop 0 .next] = some t
      ∧ Quitted t 0 ∧ (t.loops_ 0).pc = .test ∧ (t.loops_ 0).quit_ = false := by
  have heval : (run step (init 1 : EventLoopThreadPool ℕ ℕ)
      [.main, .main, .main, .main, .main, .loop 0 .next]).map
        (fun t => (t.pc, (t.loops_ 0).pc, (t.loops_ 0).quit_))
      = some (.quitting 1, .test, false) := by
    decide
  obtain ⟨t, hrun, ht⟩ := Option.map_eq_some_iff.mp heval
  simp only [Prod.mk.injEq] at ht
  refine ⟨t, hrun, ?_, ht.2⟩
  rw [Quitted, ht.1]
  exact Nat.zero_lt_one

end EventLoopThreadPool

end Libiak.Net
