/-
Runs of a partial step function, and the two rules every run-level result of
this development is proved by.

A machine here is a function `step : σ → ι → Option σ`: the state after an
event, or `none` where the event cannot happen (or where the program would do
something undefined). `run` iterates it over a list of events, so a run is a
computable object and a concrete one can be evaluated.

Three families of facts are wanted about runs; the first two differ in who is to
blame when they fail:

* an invariant that every run keeps, whatever the environment does
  (`run_inv`, `reach_inv`);
* a property that only the runs whose steps all meet a condition keep
  (`run_inv_along`), and, where the condition is the exact one, the equivalence
  `always_iff_along`: the property holds in every state of the run if and only
  if every step of it meets the condition. Its hypotheses are about one step
  from an invariant state, so a result about runs costs one case analysis;
* a condition on the history of a run, which says of each entry what has to be
  there before it (`EachAfter`); where the machine keeps the history, it is a
  condition on the steps (`eachAfter_run`).
-/
import Mathlib.Data.List.Basic
import Mathlib.Tactic.TypeStar

set_option autoImplicit false

namespace Libiak.Run

variable {σ ι : Type*} (step : σ → ι → Option σ)

/-! ## Runs -/

/-- The state after the events of a list, in order; `none` as soon as one of
them has no successor. -/
def run (s : σ) : List ι → Option σ
  | [] => some s
  | e :: es => (step s e).bind fun s' => run s' es

@[simp] theorem run_nil (s : σ) : run step s [] = some s := rfl

/-- A run of `e :: es` is a step followed by a run of `es`. -/
theorem run_cons {s t : σ} {e : ι} {es : List ι} :
    run step s (e :: es) = some t ↔ ∃ s', step s e = some s' ∧ run step s' es = some t := by
  simp only [run, Option.bind_eq_some_iff]

/-- Runs compose. -/
theorem run_append {s t : σ} {es fs : List ι} :
    run step s (es ++ fs) = some t ↔ ∃ m, run step s es = some m ∧ run step m fs = some t := by
  induction es generalizing s with
  | nil => simp
  | cons e es ih =>
      simp only [List.cons_append, run_cons, ih]
      constructor
      · rintro ⟨s', h1, m, h2, h3⟩
        exact ⟨m, ⟨s', h1, h2⟩, h3⟩
      · rintro ⟨m, ⟨s', h1, h2⟩, h3⟩
        exact ⟨s', h1, m, h2, h3⟩

/-- `t` is the state some run from `s` ends in. -/
def Reach (s t : σ) : Prop := ∃ es, run step s es = some t

theorem reach_trans {s t u : σ} (h1 : Reach step s t) (h2 : Reach step t u) :
    Reach step s u := by
  obtain ⟨es, h1⟩ := h1
  obtain ⟨fs, h2⟩ := h2
  exact ⟨es ++ fs, (run_append step).mpr ⟨t, h1, h2⟩⟩

/-- One step is a run. -/
theorem reach_step {s t : σ} {e : ι} (h : step s e = some t) : Reach step s t :=
  ⟨[e], by rw [run, h]; rfl⟩

/-! ## Conditions on the steps, and properties of the states, of a run -/

/-- Every step of the run from `s` over `es` is taken in a state, and on an
event, that `C` admits. A step without a successor ends the run, and nothing is
asked past it. -/
def Along (C : σ → ι → Prop) (s : σ) : List ι → Prop
  | [] => True
  | e :: es => C s e ∧ ∀ s', step s e = some s' → Along C s' es

/-- On a concrete run a condition on the steps can be evaluated. -/
instance Along.decidable {C : σ → ι → Prop} [∀ s e, Decidable (C s e)] :
    (s : σ) → (es : List ι) → Decidable (Along step C s es)
  | _, [] => isTrue trivial
  | s, e :: es =>
      match h : step s e with
      | none => decidable_of_iff (C s e)
          ⟨fun hC => ⟨hC, fun s' hs' => by rw [h] at hs'; cases hs'⟩, fun hC => hC.1⟩
      | some t =>
          have : Decidable (Along step C t es) := Along.decidable t es
          decidable_of_iff (C s e ∧ Along step C t es)
            ⟨fun hC => ⟨hC.1, fun s' hs' => by rw [h] at hs'; cases hs'; exact hC.2⟩,
              fun hC => ⟨hC.1, hC.2 t h⟩⟩

/-- The run from `s` over `es` goes through, and `P` holds in every state it
passes, the first and the last included. -/
def Always (P : σ → Prop) (s : σ) : List ι → Prop
  | [] => P s
  | e :: es => P s ∧ ∃ s', step s e = some s' ∧ Always P s' es

/-- `P` holds in every state the run from `s` over `es` passes, as far as it
goes. -/
def Throughout (P : σ → Prop) (s : σ) : List ι → Prop
  | [] => P s
  | e :: es => P s ∧ ∀ s', step s e = some s' → Throughout P s' es

theorem along_and {C D : σ → ι → Prop} {s : σ} {es : List ι} (hC : Along step C s es)
    (hD : Along step D s es) : Along step (fun s e => C s e ∧ D s e) s es := by
  induction es generalizing s with
  | nil => trivial
  | cons e es ih => exact ⟨⟨hC.1, hD.1⟩, fun s' hs' => ih (hC.2 s' hs') (hD.2 s' hs')⟩

/-- A condition that no event of the list can fail is met along the run. -/
theorem along_of_mem {C : σ → ι → Prop} {s : σ} {es : List ι} (h : ∀ e ∈ es, ∀ s, C s e) :
    Along step C s es := by
  induction es generalizing s with
  | nil => trivial
  | cons e es ih =>
      exact ⟨h e List.mem_cons_self s, fun s' _ => ih fun f hf => h f (List.mem_cons_of_mem e hf)⟩

/-- A condition on the steps of a run is one on those of its parts. -/
theorem along_append {C : σ → ι → Prop} {s : σ} {es fs : List ι} :
    Along step C s (es ++ fs)
      ↔ Along step C s es ∧ ∀ t, run step s es = some t → Along step C t fs := by
  induction es generalizing s with
  | nil => simp [Along]
  | cons e es ih =>
      simp only [List.cons_append, Along, ih, run_cons]
      constructor
      · rintro ⟨hC, h⟩
        exact ⟨⟨hC, fun s' hs' => (h s' hs').1⟩, fun t ⟨s', hs', ht⟩ => (h s' hs').2 t ht⟩
      · rintro ⟨⟨hC, h⟩, hfs⟩
        exact ⟨hC, fun s' hs' => ⟨h s' hs', fun t ht => hfs t ⟨s', hs', ht⟩⟩⟩

/-- What every step of a run meets is met by the step after any part of it. -/
theorem along_mid {C : σ → ι → Prop} {s t : σ} {e : ι} {es fs : List ι}
    (hC : Along step C s (es ++ e :: fs)) (hrun : run step s es = some t) : C t e := by
  obtain ⟨-, hafter⟩ := (along_append step).mp hC
  exact (hafter t hrun).1

/-- What holds in every state of a run holds in the state it ends in. -/
theorem always_last {P : σ → Prop} {s : σ} {es : List ι} (h : Always step P s es) :
    ∃ t, run step s es = some t ∧ P t := by
  induction es generalizing s with
  | nil => exact ⟨s, rfl, h⟩
  | cons e es ih =>
      obtain ⟨-, s', hs', h'⟩ := h
      obtain ⟨t, ht, hP⟩ := ih h'
      exact ⟨t, (run_cons step).mpr ⟨s', hs', ht⟩, hP⟩

theorem throughout_last {P : σ → Prop} {s t : σ} {es : List ι} (h : Throughout step P s es)
    (hrun : run step s es = some t) : P t := by
  induction es generalizing s with
  | nil =>
      simp only [run_nil, Option.some.injEq] at hrun
      exact hrun ▸ h
  | cons e es ih =>
      obtain ⟨s', hs', hrun'⟩ := (run_cons step).mp hrun
      exact ih (h.2 s' hs') hrun'

/-! ## Histories -/

/-- Each entry of a history is one that `P` admits after those `before` it. -/
def EachAfter {κ : Type*} (P : List κ → κ → Prop) (before : List κ) : List κ → Prop
  | [] => True
  | k :: rest => P before k ∧ EachAfter P (before ++ [k]) rest

instance EachAfter.decidable {κ : Type*} {P : List κ → κ → Prop}
    [∀ before k, Decidable (P before k)] :
    (before history : List κ) → Decidable (EachAfter P before history)
  | _, [] => isTrue trivial
  | before, k :: rest =>
      have : Decidable (EachAfter P (before ++ [k]) rest) := EachAfter.decidable _ rest
      inferInstanceAs (Decidable (_ ∧ _))

theorem eachAfter_append {κ : Type*} {P : List κ → κ → Prop} {before front back : List κ} :
    EachAfter P before (front ++ back)
      ↔ EachAfter P before front ∧ EachAfter P (before ++ front) back := by
  induction front generalizing before with
  | nil => simp [EachAfter]
  | cons k front ih =>
      rw [List.cons_append, EachAfter, EachAfter, ih, List.append_assoc, List.singleton_append,
        and_assoc]

/-- **The history rule.** Where each step adds what `entry` says to a history, the
entries a run adds meet a condition on what was there before exactly if each step
does. -/
theorem eachAfter_run {κ : Type*} {P : List κ → κ → Prop} (history : σ → List κ)
    (entry : σ → ι → Option κ)
    (hstep : ∀ s e t, step s e = some t → history t = history s ++ (entry s e).toList)
    {s t : σ} {es : List ι} (hrun : run step s es = some t) :
    EachAfter P [] (history t) ↔ EachAfter P [] (history s)
      ∧ Along step (fun s e => ∀ k ∈ entry s e, P (history s) k) s es := by
  induction es generalizing s with
  | nil =>
      obtain rfl := Option.some.inj hrun
      exact (and_iff_left trivial).symm
  | cons e es ih =>
      obtain ⟨u, hu, hrun'⟩ := (run_cons step).mp hrun
      have hentry : EachAfter P (history s) (entry s e).toList
          ↔ ∀ k ∈ entry s e, P (history s) k := by
        cases entry s e with
        | none => simp [EachAfter]
        | some k => simp [EachAfter]
      rw [ih hrun', hstep s e u hu, eachAfter_append, List.nil_append, hentry, and_assoc]
      refine and_congr_right fun _ => and_congr_right fun _ => ?_
      constructor
      · intro h s' hs'
        obtain rfl := Option.some.inj (hs'.symm.trans hu)
        exact h
      · exact fun h => h u hu

/-! ## The rules -/

section Rules

variable {step} {I P : σ → Prop} {E C : σ → ι → Prop}

/-- **The conditional invariant rule.** What every admitted step keeps, every
run of admitted steps keeps. -/
theorem run_inv_along (hstep : ∀ s e s', I s → C s e → step s e = some s' → I s')
    {s t : σ} {es : List ι} (h0 : I s) (hC : Along step C s es)
    (hrun : run step s es = some t) : I t := by
  induction es generalizing s with
  | nil =>
      simp only [run_nil, Option.some.injEq] at hrun
      exact hrun ▸ h0
  | cons e es ih =>
      obtain ⟨s', hs', hrun'⟩ := (run_cons step).mp hrun
      exact ih (hstep s e s' h0 hC.1 hs') (hC.2 s' hs') hrun'

/-- **The measure rule.** Where every admitted step lowers a measure, no run of them has more
steps than the measure it starts with. -/
theorem run_measure {μ : σ → ℕ} (hstep : ∀ s e s', I s → C s e → step s e = some s' → I s')
    (hless : ∀ s e s', I s → C s e → step s e = some s' → μ s' < μ s)
    {s t : σ} {es : List ι} (h0 : I s) (hC : Along step C s es)
    (hrun : run step s es = some t) : es.length + μ t ≤ μ s := by
  induction es generalizing s with
  | nil =>
      obtain rfl := Option.some.inj hrun
      exact Nat.le_of_eq (Nat.zero_add (μ s))
  | cons e es ih =>
      obtain ⟨s', hs', hrun'⟩ := (run_cons step).mp hrun
      have hrest := ih (hstep s e s' h0 hC.1 hs') (hC.2 s' hs') hrun'
      have hfirst := hless s e s' h0 hC.1 hs'
      rw [List.length_cons]
      omega

/-- **The invariant rule.** -/
theorem run_inv (hstep : ∀ s e s', I s → step s e = some s' → I s')
    {s t : σ} {es : List ι} (h0 : I s) (hrun : run step s es = some t) : I t := by
  induction es generalizing s with
  | nil =>
      simp only [run_nil, Option.some.injEq] at hrun
      exact hrun ▸ h0
  | cons e es ih =>
      obtain ⟨s', hs', hrun'⟩ := (run_cons step).mp hrun
      exact ih (hstep s e s' h0 hs') hrun'

theorem reach_inv (hstep : ∀ s e s', I s → step s e = some s' → I s')
    {s t : σ} (h0 : I s) (h : Reach step s t) : I t := by
  obtain ⟨es, h⟩ := h
  exact run_inv hstep h0 h

/-- **The progress rule.** If an admitted step from an invariant state always
has a successor, and a successor that is invariant again, a run of admitted
steps goes through and is invariant throughout. -/
theorem always_of_along (hI : ∀ s, I s → P s)
    (hstep : ∀ s e, I s → C s e → ∃ s', step s e = some s' ∧ I s')
    {s : σ} {es : List ι} (h0 : I s) (hC : Along step C s es) : Always step P s es := by
  induction es generalizing s with
  | nil => exact hI s h0
  | cons e es ih =>
      obtain ⟨s', hs', hI'⟩ := hstep s e h0 hC.1
      exact ⟨hI s h0, s', hs', ih hI' (hC.2 s' hs')⟩

/-- Two conditions on steps that agree in every invariant state agree along
runs, also along those that break off. -/
theorem along_iff_of_inv {D : σ → ι → Prop} (hiff : ∀ s e, I s → (C s e ↔ D s e))
    (hstep : ∀ s e s', I s → step s e = some s' → I s') {s : σ} {es : List ι} (h0 : I s) :
    Along step C s es ↔ Along step D s es := by
  induction es generalizing s with
  | nil => exact Iff.rfl
  | cons e es ih =>
      simp only [Along, hiff s e h0]
      refine and_congr_right fun _ => forall_congr' fun s' => ?_
      exact forall_congr' fun hs => ih (hstep s e s' h0 hs)

/-- What holds of every admitted step from an invariant state holds along every
run of admitted steps. -/
theorem along_of_inv {D : σ → ι → Prop} (hD : ∀ s e, I s → C s e → D s e)
    (hstep : ∀ s e s', I s → C s e → step s e = some s' → I s')
    {s : σ} {es : List ι} (h0 : I s) (hC : Along step C s es) : Along step D s es := by
  induction es generalizing s with
  | nil => trivial
  | cons e es ih =>
      exact ⟨hD s e h0 hC.1, fun s' hs' => ih (hstep s e s' h0 hC.1 hs') (hC.2 s' hs')⟩

/-- A step that is known to lead to an invariant state leads nowhere else. -/
theorem inv_of_progress (hstep : ∀ s e, I s → C s e → ∃ s', step s e = some s' ∧ I s')
    {s s' : σ} {e : ι} (hI : I s) (hC : C s e) (hs : step s e = some s') : I s' := by
  obtain ⟨t, ht, hIt⟩ := hstep s e hI hC
  obtain rfl := Option.some.inj (hs.symm.trans ht)
  exact hIt

/-- What every admitted step keeps holds throughout a run of admitted steps. -/
theorem throughout_of_along (hI : ∀ s, I s → P s)
    (hgood : ∀ s e s', I s → C s e → step s e = some s' → I s')
    {s : σ} {es : List ι} (hC : Along step C s es) (h0 : I s) : Throughout step P s es := by
  induction es generalizing s with
  | nil => exact hI s h0
  | cons e es ih =>
      exact ⟨hI s h0, fun s' hs' => ih (hC.2 s' hs') (hgood s e s' h0 hC.1 hs')⟩

/-- **The exactness rule for runs that go through.** -/
theorem throughout_iff_of_run (hI : ∀ s, I s → P s)
    (hgood : ∀ s e s', I s → C s e → step s e = some s' → I s')
    (hbad : ∀ s e s', I s → ¬ C s e → step s e = some s' → ¬ P s')
    {s t : σ} {es : List ι} (h0 : I s) (hrun : run step s es = some t) :
    Throughout step P s es ↔ Along step C s es := by
  refine ⟨fun h => ?_, fun hC => throughout_of_along hI hgood hC h0⟩
  induction es generalizing s with
  | nil => trivial
  | cons e es ih =>
      obtain ⟨u, hu, hrun'⟩ := (run_cons step).mp hrun
      have hrest := h.2 u hu
      have hC : C s e := by
        by_contra hn
        refine hbad s e u h0 hn hu ?_
        cases es with
        | nil => exact hrest
        | cons f fs => exact hrest.1
      refine ⟨hC, fun s' hs' => ?_⟩
      obtain rfl := Option.some.inj (hs'.symm.trans hu)
      exact ih (hgood s e s' h0 hC hs') hrun' hrest

/-- **The trap rule.** If a step that does not meet `C` leads into a trap `P`
that no step leads out of, a run that ends outside the trap has met `C`
throughout. -/
theorem along_of_trap (hstep : ∀ s e s', I s → step s e = some s' → I s')
    (hfall : ∀ s e s', I s → ¬ C s e → step s e = some s' → P s')
    (htrap : ∀ s e s', I s → P s → step s e = some s' → P s')
    {s t : σ} {es : List ι} (h0 : I s) (hrun : run step s es = some t) (hout : ¬ P t) :
    Along step C s es := by
  induction es generalizing s with
  | nil => trivial
  | cons e es ih =>
      obtain ⟨s', hs', hrun'⟩ := (run_cons step).mp hrun
      refine ⟨?_, fun u hu => ?_⟩
      · by_contra hbad
        refine hout (run_inv (I := fun s => I s ∧ P s) ?_
          ⟨hstep s e s' h0 hs', hfall s e s' h0 hbad hs'⟩ hrun').2
        exact fun s e s' h hs => ⟨hstep s e s' h.1 hs, htrap s e s' h.1 h.2 hs⟩
      · obtain rfl := Option.some.inj (hu.symm.trans hs')
        exact ih (hstep s e u h0 hs') hrun'

/-- Two conditions on steps that agree in every invariant state agree along
runs. -/
theorem along_congr {D : σ → ι → Prop} (hiff : ∀ s e, I s → E s e → (C s e ↔ D s e))
    (hstep : ∀ s e, I s → E s e → ∃ s', step s e = some s' ∧ I s')
    {s : σ} {es : List ι} (h0 : I s) (hE : Along step E s es) :
    Along step C s es ↔ Along step D s es := by
  induction es generalizing s with
  | nil => exact Iff.rfl
  | cons e es ih =>
      obtain ⟨t, ht, hI⟩ := hstep s e h0 hE.1
      have hrest : ∀ s', step s e = some s' → (Along step C s' es ↔ Along step D s' es) := by
        intro s' hs'
        obtain rfl := Option.some.inj (hs'.symm.trans ht)
        exact ih hI (hE.2 s' hs')
      simp only [Along, hiff s e h0 hE.1]
      exact and_congr_right fun _ =>
        ⟨fun h s' hs' => (hrest s' hs').mp (h s' hs'),
          fun h s' hs' => (hrest s' hs').mpr (h s' hs')⟩

/-- **The exactness rule.** `E` is what the environment is assumed to do and
`C` the condition on trial. If a step that meets `C` leads to an invariant
state, and a step that does not leads to a state where `P` fails, then along a
run of the assumed environment `P` holds in every state exactly when every step
meets `C`. -/
theorem always_iff_along (hI : ∀ s, I s → P s)
    (hgood : ∀ s e, I s → E s e → C s e → ∃ s', step s e = some s' ∧ I s')
    (hbad : ∀ s e s', I s → E s e → ¬ C s e → step s e = some s' → ¬ P s')
    {s : σ} {es : List ι} (h0 : I s) (hE : Along step E s es) :
    Always step P s es ↔ Along step C s es := by
  induction es generalizing s with
  | nil => exact ⟨fun _ => trivial, fun _ => hI s h0⟩
  | cons e es ih =>
      constructor
      · rintro ⟨-, s', hs', hrest⟩
        have hC : C s e := by
          by_contra hn
          refine hbad s e s' h0 hE.1 hn hs' ?_
          cases es with
          | nil => exact hrest
          | cons f fs => exact hrest.1
        obtain ⟨t, ht, hIt⟩ := hgood s e h0 hE.1 hC
        refine ⟨hC, fun u hu => ?_⟩
        have hut : u = t := Option.some.inj (hu.symm.trans ht)
        have hus : u = s' := Option.some.inj (hu.symm.trans hs')
        subst hut
        exact (ih hIt (hE.2 u hu)).mp (hus ▸ hrest)
      · rintro ⟨hC, hrest⟩
        obtain ⟨t, ht, hIt⟩ := hgood s e h0 hE.1 hC
        exact ⟨hI s h0, t, ht, (ih hIt (hE.2 t ht)).mpr (hrest t ht)⟩

/-- **The refinement rule.** If each step from an invariant state is seen, through `abs`, as
the step of the other machine that the event stands for, or as none, then so is each run. -/
theorem run_visible {τ κ : Type*} (step' : τ → κ → Option τ) (abs : σ → τ)
    (visible : ι → Option κ)
    (hstep : ∀ s e s', I s → step s e = some s' →
      I s' ∧ run step' (abs s) (visible e).toList = some (abs s'))
    {s t : σ} {es : List ι} (h0 : I s) (hrun : run step s es = some t) :
    I t ∧ run step' (abs s) (es.filterMap visible) = some (abs t) := by
  induction es generalizing s with
  | nil =>
      obtain rfl := Option.some.inj hrun
      exact ⟨h0, rfl⟩
  | cons e es ih =>
      obtain ⟨u, hu, hrun'⟩ := (run_cons step).mp hrun
      obtain ⟨hI, hfirst⟩ := hstep s e u h0 hu
      obtain ⟨ht, hrest⟩ := ih hI hrun'
      refine ⟨ht, ?_⟩
      have hsplit : (e :: es).filterMap visible = (visible e).toList ++ es.filterMap visible := by
        cases hv : visible e with
        | none => exact List.filterMap_cons_none hv
        | some k => exact List.filterMap_cons_some hv
      rw [hsplit]
      exact (run_append step').mpr ⟨_, hfirst, hrest⟩

end Rules

end Libiak.Run
