/-
What is left of the connections when nothing is under way.

A connection that has been closed comes to its end in several functors on up to
two loops, pushed by one another: `onClose`, the owner's `removeConnection`, and
`destroyInLoop`. The loops get through with them: while the users do nothing, each
step of a thread that has a call to finish and of a loop that has something to run
takes one from `stepsLeft`, and there is such a step until all is quiet
(`loops_finish`). Then the owners have exactly the connections that have not been
closed, so that the descriptor of every other one is closed with the user's last
pointer (`quiet_settled`).

The poller does not know any of the others if no `establishInLoop` runs that late
(`InTime`): `establish` tests `close_`, but the functor does not, and a call that
is past its test when the connection is closed registers the channel again.
-/
import Libiak.SendRefs
import Mathlib.Algebra.BigOperators.Group.Finset.Basic
import Mathlib.Algebra.Ring.Nat

set_option autoImplicit false

namespace Libiak.Net

open Libiak.Run

namespace ConnRefs

variable {ι : Type*}

/-! ## Quiet -/

/-- No call is under way, and no loop has a functor to run. -/
structure Quiet (s : ConnRefs ι) : Prop where
  callers : s.callers = []
  pending : ∀ l, (s.loops l).pendingFunctors_ = []
  batch : ∀ l, (s.loops l).inBatch = false

instance [Fintype ι] (s : ConnRefs ι) : Decidable s.Quiet :=
  decidable_of_iff (s.callers = [] ∧ (∀ l, (s.loops l).pendingFunctors_ = [])
    ∧ ∀ l, (s.loops l).inBatch = false)
    ⟨fun h => ⟨h.1, h.2.1, h.2.2⟩, fun h => ⟨h.callers, h.pending, h.batch⟩⟩

theorem Quiet.waiting {base : ι} {s : ConnRefs ι} (h : s.Quiet) (hmap : MapInv base s) (l : ι) :
    s.waiting l = [] := by
  unfold ConnRefs.waiting
  rw [(hmap.idle l (h.batch l)).1, h.pending l]
  rfl

/-- The clients have their connections as long as they are not closed. -/
def FieldInv (s : ConnRefs ι) : Prop :=
  ∀ c, s.connection_ c = true
    ↔ c < s.made ∧ (s.conn c).closeCallback_ = .ofClient ∧ (s.conn c).close_ = false

/-- When all is quiet the owners have what is not closed. -/
theorem Quiet.owner_iff {base : ι} {s : ConnRefs ι} (h : s.Quiet) (hmap : MapInv base s)
    (hfield : FieldInv s) {c : ℕ} (hc : c < s.made) :
    s.OwnerHeld c ↔ (s.conn c).close_ = false := by
  rw [ownerHeld_iff]
  constructor
  · rintro (⟨fd, hlookup⟩ | hconnection)
    · -- for a closed connection in the map a `removeConnection` would wait
      have hcount := hmap.removal fd c (hmap.entry fd c hlookup)
      rw [removals, h.waiting hmap base, List.count_nil] at hcount
      by_contra hclose
      rw [if_pos ⟨by simpa using hclose, hlookup⟩] at hcount
      cases hcount
    · exact ((hfield c).mp hconnection).2.2
  · intro hopen
    cases hcallback : (s.conn c).closeCallback_ with
    | ofServer fd => exact Or.inl ⟨fd, hmap.open_ fd c ⟨hc, hcallback⟩ hopen⟩
    | ofClient => exact Or.inr ((hfield c).mpr ⟨hc, hcallback, hopen⟩)

/-- Nobody else has it. -/
theorem Quiet.held_iff {base : ι} {s : ConnRefs ι} (h : s.Quiet) (hmap : MapInv base s)
    (hfield : FieldInv s) {c : ℕ} (hc : c < s.made) (huser : s.user c = 0) :
    s.Held c ↔ (s.conn c).close_ = false := by
  rw [← h.owner_iff hmap hfield hc]
  constructor
  · rintro ((hpos | ⟨f, hf, -⟩) | howner | ⟨l, f, hf, -⟩)
    · omega
    · rw [h.callers] at hf
      cases hf
    · exact howner
    · rw [h.waiting hmap l, (hmap.idle l (h.batch l)).2] at hf
      cases hf
  · exact fun howner => Or.inr (Or.inl howner)

/-! ## The field of a client -/

section FieldInv

variable {base : ι} {s t : ConnRefs ι}

theorem fieldInv_init (loop : ι) : FieldInv (init loop) := fun _ =>
  iff_of_false Bool.false_ne_true fun h => Nat.not_lt_zero _ h.1

theorem FieldInv.of_eq (h : FieldInv s) (hfield : t.connection_ = s.connection_)
    (hmade : t.made = s.made)
    (hcallback : ∀ c, (t.conn c).closeCallback_ = (s.conn c).closeCallback_)
    (hclose : ∀ c, (t.conn c).close_ = (s.conn c).close_) : FieldInv t := by
  intro c
  rw [hfield, hmade, hcallback, hclose]
  exact h c

/-- A new connection, in the field of a client or not. -/
theorem FieldInv.make (h : FieldInv s) {l : ι} {fd : ℕ} {callback : CloseCallback}
    {map : AList fun _ : ℕ => ℕ} {field : ℕ → Bool}
    (hold : ∀ c, c ≠ s.made → field c = s.connection_ c)
    (hnew : field s.made = true ↔ callback = .ofClient) :
    FieldInv { s.make l fd callback with connections_ := map, connection_ := field } := by
  have hconn : ∀ {c}, c ≠ s.made → (s.make l fd callback).conn c = s.conn c :=
    fun hc => s.conn_setConn_of_ne _ hc
  have hself : (s.make l fd callback).conn s.made = _ := s.conn_setConn s.made _
  intro c
  change field c = true ↔ c < s.made + 1 ∧ ((s.make l fd callback).conn c).closeCallback_
    = .ofClient ∧ ((s.make l fd callback).conn c).close_ = false
  by_cases hc : c = s.made
  · rw [hc, hself, hnew]
    simp
  · rw [hconn hc, hold c hc, h c]
    refine and_congr_left fun _ => ?_
    omega

theorem FieldInv.closing (h : FieldInv s) {c : ℕ} {field : ℕ → Bool}
    (hold : ∀ c', c' ≠ c → field c' = s.connection_ c') (hself : field c = false) :
    FieldInv { s.closing c with connection_ := field } := by
  intro c'
  change field c' = true ↔ c' < s.made ∧ ((s.closing c).conn c').closeCallback_ = .ofClient
    ∧ ((s.closing c).conn c').close_ = false
  by_cases hc : c' = c
  · rw [hc, hself, conn_closing]
    simp
  · rw [conn_closing_of_ne s hc, hold c' hc]
    exact h c'

variable [DecidableEq ι]

theorem FieldInv.onClose (h : FieldInv s) (c : ℕ) : FieldInv (s.onClose base c) := by
  rcases s.onClose_cases base c with heq | ⟨hopen, ⟨fd, hcb, heq⟩ | ⟨hcb, heq⟩⟩
  · rw [heq]
    exact h
  · -- the server's connection is in no client's field
    have hself : s.connection_ c = false := by
      rw [Bool.eq_false_iff]
      intro htrue
      have hclient := ((h c).mp htrue).2.1
      rw [hcb] at hclient
      cases hclient
    rw [heq]
    exact (h.closing (fun _ _ => rfl) hself).of_eq rfl rfl (fun _ => rfl) fun _ => rfl
  · rw [heq, clientOnClose]
    split
    · have hclosing : FieldInv
          { s.closing c with connection_ := Function.update s.connection_ c false } :=
        h.closing (fun c' hc => Function.update_of_ne hc _ _) (Function.update_self _ _ _)
      exact hclosing.of_eq rfl rfl (fun _ => rfl) fun _ => rfl
    · rename_i hnone
      exact h.closing (fun _ _ => rfl) (Bool.eq_false_iff.mpr hnone)

variable [Fintype ι]

theorem FieldInv.exec (h : FieldInv s) {f : RefFunctor} (hs : s.exec base f = some t) :
    FieldInv t := by
  cases f with
  | establishInLoop c =>
      obtain rfl := Option.some.inj hs
      unfold ConnRefs.establishInLoop
      split
      · exact h
      · exact h.of_eq rfl rfl (s.setConn_keeps RefConn.closeCallback_ _ rfl)
          (s.setConn_keeps RefConn.close_ _ rfl)
  | shutdownInLoop c => exact Option.some.inj hs ▸ h
  | onClose c => exact Option.some.inj hs ▸ h.onClose c
  | destroyInLoop c =>
      obtain rfl := Option.some.inj hs
      exact h.of_eq rfl rfl (s.setConn_keeps RefConn.closeCallback_ _ rfl)
        (s.setConn_keeps RefConn.close_ _ rfl)
  | send c =>
      change (if _ then _ else _) = some t at hs
      split at hs
      · exact Option.some.inj hs ▸ h
      · cases hs
  | removeConnection fd c =>
      obtain rfl := Option.some.inj hs
      exact h.of_eq rfl rfl (fun _ => rfl) fun _ => rfl

theorem FieldInv.step {e : RefEvent ι} (h : FieldInv s) (hs : step base s e = some t) :
    FieldInv t := by
  have hsame : ∀ {u : ConnRefs ι}, u.connection_ = s.connection_ → u.made = s.made →
      u.conn = s.conn → FieldInv u := fun hfield hmade hconn =>
    h.of_eq hfield hmade (fun _ => by rw [hconn]) fun _ => by rw [hconn]
  cases move_of_step hs with
  | setEventLoopThreadPool pool => exact hsame rfl rfl rfl
  | accept haccept =>
      obtain ⟨⟨l, index⟩, -, rfl⟩ := Option.map_eq_some_iff.mp haccept
      refine FieldInv.make (s := { s with indexLoop_ := index }) h (fun _ _ => rfl) ?_
      exact iff_of_false (fun htrue => Nat.lt_irrefl _ ((h s.made).mp htrue).1) (by simp)
  | connect l fd =>
      refine h.make (fun c hc => Function.update_of_ne hc _ _) ?_
      rw [Function.update_self]
      simp
  | copy _ => exact hsame rfl rfl rfl
  | drop _ => exact hsame rfl rfl rfl
  | callback _ => exact hsame rfl rfl rfl
  | @hangup c _ => exact h.onClose c
  | call _ _ => exact hsame rfl rfl rfl
  | push _ => exact hsame rfl rfl rfl
  | swap _ => exact hsame rfl rfl rfl
  | run _ hexec =>
      refine FieldInv.exec (h.of_eq ?_ ?_ ?_ ?_) hexec
      exacts [rfl, rfl, fun _ => rfl, fun _ => rfl]
  | finish _ => exact hsame rfl rfl rfl

end FieldInv

/-! ## The channel -/

/-- The end of `c` is still to come: its owner has it, or its `destroyInLoop` waits. -/
def Stays (s : ConnRefs ι) (c : ℕ) : Prop :=
  s.OwnerHeld c ∨ .destroyInLoop c ∈ s.waiting (s.conn c).loop_

instance (s : ConnRefs ι) (c : ℕ) : Decidable (s.Stays c) := inferInstanceAs (Decidable (_ ∨ _))

/-- No `establishInLoop` is run of a connection that is at its end. -/
def InTime (s : ConnRefs ι) : RefEvent ι → Prop
  | .run l => ∀ f ∈ (s.loops l).functors.head?, f = .establishInLoop f.conn → s.Stays f.conn
  | _ => True

instance (s : ConnRefs ι) : (e : RefEvent ι) → Decidable (InTime s e)
  | .run l => inferInstanceAs (Decidable (∀ f ∈ (s.loops l).functors.head?, _ → _))
  | .setEventLoopThreadPool _ | .accept _ | .connect _ _ | .copy _ | .drop _ | .callback _
  | .hangup _ | .call _ | .push _ | .swap _ => isTrue trivial

/-- The poller knows no connection that is at its end. -/
def Parted (s : ConnRefs ι) : Prop := ∀ c, (s.conn c).started_ = true → s.Stays c

section Parted

variable {base : ι} {s t : ConnRefs ι} {c : ℕ}

theorem parted_init (loop : ι) : Parted (init loop) := fun _ h => nomatch h

/-- What the owners have and what waits is no less than before. -/
theorem Stays.of_eq (h : s.Stays c) (howner : s.OwnerHeld c → t.OwnerHeld c)
    (hloop : (t.conn c).loop_ = (s.conn c).loop_)
    (hwaiting : ∀ l, .destroyInLoop c ∈ s.waiting l → .destroyInLoop c ∈ t.waiting l) :
    t.Stays c := by
  refine h.imp howner fun hdestroy => ?_
  rw [hloop]
  exact hwaiting _ hdestroy

theorem Parted.of_eq (h : Parted s)
    (howner : ∀ c, s.OwnerHeld c → t.OwnerHeld c)
    (hconn : ∀ c, (t.conn c).loop_ = (s.conn c).loop_
      ∧ ((t.conn c).started_ = true → (s.conn c).started_ = true))
    (hwaiting : ∀ l c, .destroyInLoop c ∈ s.waiting l → .destroyInLoop c ∈ t.waiting l) :
    Parted t := fun c hstarted =>
  (h c ((hconn c).2 hstarted)).of_eq (howner c) (hconn c).1 fun l => hwaiting l c

variable [DecidableEq ι]

theorem mem_waiting_setLoop {l l' : ι} {loop : RefLoop} {f : RefFunctor}
    (hloop : f ∈ s.waiting l → f ∈ loop.functors ++ loop.pendingFunctors_)
    (h : f ∈ s.waiting l') : f ∈ (s.setLoop l loop).waiting l' := by
  by_cases hl : l' = l
  · subst hl
    rw [waiting_setLoop]
    exact hloop h
  · rwa [waiting_setLoop_of_ne s loop hl]

theorem mem_waiting_runInLoop {l l' : ι} {f g : RefFunctor} (h : g ∈ s.waiting l') :
    g ∈ (s.runInLoop l f).waiting l' := by
  refine mem_waiting_setLoop (fun hg => ?_) h
  rw [← List.append_assoc]
  exact List.mem_append_left _ hg

theorem mem_waiting_push (l : ι) (f : RefFunctor) : f ∈ (s.runInLoop l f).waiting l := by
  rw [runInLoop, waiting_setLoop]
  simp

theorem Parted.runInLoop (h : Parted s) (l : ι) (f : RefFunctor) : Parted (s.runInLoop l f) :=
  h.of_eq (fun _ => id) (fun _ => ⟨rfl, id⟩) fun _ _ => mem_waiting_runInLoop

/-- A loop with another queue, of the same functors. -/
theorem Parted.setLoop (h : Parted s) {l : ι} {loop : RefLoop}
    (hloop : ∀ c, .destroyInLoop c ∈ s.waiting l →
      .destroyInLoop c ∈ loop.functors ++ loop.pendingFunctors_) : Parted (s.setLoop l loop) :=
  h.of_eq (fun _ => id) (fun _ => ⟨rfl, id⟩) fun _ c => mem_waiting_setLoop (hloop c)

/-- The owner lets go of `c` when it has queued its end. -/
theorem Parted.destroy (h : Parted s) {c : ℕ} {map : AList fun _ : ℕ => ℕ} {field : ℕ → Bool}
    (howner : ∀ c', c' ≠ c → s.OwnerHeld c' →
      ({ s with connections_ := map, connection_ := field } : ConnRefs ι).OwnerHeld c') :
    Parted { s.destroy c with connections_ := map, connection_ := field } := by
  intro c' hstarted
  by_cases hc : c' = c
  · subst hc
    exact Or.inr (mem_waiting_push _ _)
  · exact (h c' hstarted).of_eq (howner c' hc) rfl fun _ => mem_waiting_runInLoop

omit [DecidableEq ι] in
theorem Parted.make (h : Parted s) {l : ι} {fd : ℕ} {callback : CloseCallback}
    {map : AList fun _ : ℕ => ℕ} {field : ℕ → Bool}
    (howner : ∀ c, s.OwnerHeld c →
      ({ s with connections_ := map, connection_ := field } : ConnRefs ι).OwnerHeld c) :
    Parted { s.make l fd callback with connections_ := map, connection_ := field } := by
  intro c hstarted
  change ((s.make l fd callback).conn c).started_ = true at hstarted
  by_cases hc : c = s.made
  · rw [hc, show (s.make l fd callback).conn s.made = _ from s.conn_setConn s.made _] at hstarted
    cases hstarted
  · have hold : (s.make l fd callback).conn c = s.conn c := s.conn_setConn_of_ne _ hc
    rw [hold] at hstarted
    exact (h c hstarted).of_eq (howner c) (congrArg RefConn.loop_ hold) fun _ => id

omit [DecidableEq ι] in
theorem Parted.setConn (h : Parted s) {c : ℕ} {conn : RefConn ι}
    (hloop : conn.loop_ = (s.conn c).loop_) (hstarted : conn.started_ = true → s.Stays c) :
    Parted (s.setConn c conn) := by
  intro c' hc'
  by_cases hc : c' = c
  · subst hc
    rw [conn_setConn] at hc'
    exact (hstarted hc').of_eq id (by rw [conn_setConn, hloop]) fun _ => id
  · rw [conn_setConn_of_ne s conn hc] at hc'
    exact (h c' hc').of_eq id (by rw [conn_setConn_of_ne s conn hc]) fun _ => id

theorem Parted.onClose (h : Parted s) (c : ℕ) : Parted (s.onClose base c) := by
  have hclosing : Parted (s.closing c) := h.setConn rfl fun hstarted => h c hstarted
  rcases s.onClose_cases base c with heq | ⟨-, ⟨fd, -, heq⟩ | ⟨-, heq⟩⟩
  · rw [heq]
    exact h
  · rw [heq]
    exact hclosing.runInLoop _ _
  · rw [heq, clientOnClose]
    split
    · refine hclosing.destroy fun c' hc howner => ?_
      rw [ownerHeld_iff] at howner ⊢
      refine howner.imp_right fun hconnection => ?_
      exact (Function.update_of_ne hc _ _).trans hconnection
    · exact hclosing

variable [Fintype ι]

theorem Parted.exec (h : Parted s) (hmap : MapInv base s) {l : ι} {f : RefFunctor}
    {rest : List RefFunctor} (hfunctors : (s.loops l).functors = f :: rest)
    (htime : InTime s (.run l))
    (hs : (s.setLoop l { s.loops l with
      functors := rest, ran := (s.loops l).ran ++ [f] }).exec base f = some t) :
    Parted t := by
  set u := s.setLoop l { s.loops l with functors := rest, ran := (s.loops l).ran ++ [f] } with hu
  have hwaiting : s.waiting l = f :: (rest ++ (s.loops l).pendingFunctors_) := by
    unfold waiting
    rw [hfunctors, List.cons_append]
  -- what is not the functor itself waits on
  have hwaits : ∀ {l' g}, g ≠ f → g ∈ s.waiting l' → g ∈ u.waiting l' := by
    intro l' g hg
    refine mem_waiting_setLoop fun hmem => ?_
    rw [hwaiting, List.mem_cons] at hmem
    exact hmem.resolve_left hg
  have hpop : (∀ c, f ≠ .destroyInLoop c) → Parted u := fun hf =>
    h.of_eq (fun _ => id) (fun _ => ⟨rfl, id⟩) fun _ c => hwaits (Ne.symm (hf c))
  cases f with
  | establishInLoop c =>
      obtain rfl := Option.some.inj hs
      have hopen := hpop fun c' heq => by cases heq
      have hstays : u.Stays c := by
        have hhead : s.Stays c := htime (.establishInLoop c) (by rw [hfunctors]; rfl) rfl
        exact hhead.of_eq id rfl fun _ => hwaits (by simp)
      unfold ConnRefs.establishInLoop
      split
      · exact hopen
      · exact hopen.setConn rfl fun _ => hstays
  | shutdownInLoop c => exact Option.some.inj hs ▸ hpop fun c' heq => by cases heq
  | onClose c => exact Option.some.inj hs ▸ (hpop fun c' heq => by cases heq).onClose c
  | destroyInLoop c =>
      obtain rfl := Option.some.inj hs
      intro c' hstarted
      change ((u.setConn c { u.conn c with started_ := false }).conn c').started_ = true at hstarted
      by_cases hc : c' = c
      · rw [hc, conn_setConn] at hstarted
        cases hstarted
      · have hold := u.conn_setConn_of_ne { u.conn c with started_ := false } hc
        rw [hold] at hstarted
        refine (h c' hstarted).of_eq id (congrArg RefConn.loop_ hold) fun l' => hwaits ?_
        exact fun heq => hc (RefFunctor.destroyInLoop.inj heq)
  | send c =>
      change (if _ then _ else _) = some t at hs
      split at hs
      · exact Option.some.inj hs ▸ hpop fun c' heq => by cases heq
      · cases hs
  | removeConnection fd c =>
      obtain rfl := Option.some.inj hs
      obtain ⟨-, -, -, hentry, -⟩ := hmap.head hfunctors
      refine (hpop fun c' heq => by cases heq).destroy fun c' hc howner => ?_
      rw [ownerHeld_iff] at howner ⊢
      refine howner.imp_left fun ⟨fd', hlookup⟩ => ⟨fd', ?_⟩
      refine (AList.lookup_erase_ne fun hfd => hc ?_).trans hlookup
      -- the entry that goes is that of `c`
      rw [hfd] at hlookup
      exact Option.some.inj (hlookup.symm.trans hentry)

theorem Parted.step {e : RefEvent ι} (h : Parted s) (hmap : MapInv base s) (hkernel : Kernel s e)
    (htime : InTime s e) (hs : step base s e = some t) : Parted t := by
  have hsame : ∀ {u : ConnRefs ι}, u.connections_ = s.connections_ →
      u.connection_ = s.connection_ → u.conn = s.conn → u.loops = s.loops → Parted u := by
    intro u hmap' hfield hconn hloops
    refine h.of_eq (fun c howner => ?_) (fun c => by rw [hconn]; exact ⟨rfl, id⟩) fun l c hc => ?_
    · rw [ownerHeld_iff, hmap', hfield, ← ownerHeld_iff]
      exact howner
    · unfold waiting
      rw [hloops]
      exact hc
  cases move_of_step hs with
  | setEventLoopThreadPool pool => exact hsame rfl rfl rfl rfl
  | @accept fd _ haccept =>
      obtain ⟨⟨l, index⟩, -, rfl⟩ := Option.map_eq_some_iff.mp haccept
      refine Parted.make (s := { s with indexLoop_ := index }) h fun c howner => ?_
      rw [ownerHeld_iff] at howner ⊢
      refine howner.imp_left fun ⟨fd', hlookup⟩ => ⟨fd', ?_⟩
      refine (AList.lookup_insert_ne fun hfd => ?_).trans hlookup
      have hnone := hmap.fresh hkernel
      rw [← hfd] at hnone
      cases hlookup.symm.trans hnone
  | connect l fd =>
      refine h.make fun c howner => ?_
      rw [ownerHeld_iff] at howner ⊢
      refine howner.imp_right fun hconnection => ?_
      by_cases hc : c = s.made
      · rw [hc]
        exact Function.update_self _ _ _
      · exact (Function.update_of_ne hc _ _).trans hconnection
  | copy _ => exact hsame rfl rfl rfl rfl
  | drop _ => exact hsame rfl rfl rfl rfl
  | callback _ => exact hsame rfl rfl rfl rfl
  | @hangup c _ => exact h.onClose c
  | call _ _ => exact hsame rfl rfl rfl rfl
  | @push i f _ =>
      have hcallers : Parted ({ s with callers := s.callers.eraseIdx i }.hold f.conn) :=
        hsame rfl rfl rfl rfl
      exact hcallers.runInLoop _ f
  | @swap l hbatch =>
      refine h.setLoop fun c hc => ?_
      unfold waiting at hc
      rw [(hmap.idle l hbatch).1] at hc
      exact List.mem_append_left _ hc
  | run hfunctors hexec => exact h.exec hmap hfunctors htime hexec
  | @finish l hfunctors =>
      refine h.setLoop fun c hc => ?_
      unfold waiting at hc
      rwa [hfunctors] at hc

end Parted

/-! ## What the loops have to do -/

end ConnRefs

/-- The steps of its loop that a functor of a batch leads to: its own, and those of
what it pushes. -/
def RefFunctor.batchSteps : RefFunctor → ℕ
  | .onClose _ => 7
  | .removeConnection _ _ => 4
  | .establishInLoop _ | .shutdownInLoop _ | .destroyInLoop _ | .send _ => 1

/-- For a functor in a queue, the two ends of its batch as well. -/
def RefFunctor.queueSteps (f : RefFunctor) : ℕ := f.batchSteps + 2

namespace RefLoop

/-- The steps of a loop that are to come. -/
def stepsLeft (loop : RefLoop) : ℕ :=
  (loop.functors.map RefFunctor.batchSteps).sum
    + (loop.pendingFunctors_.map RefFunctor.queueSteps).sum + loop.inBatch.toNat

/-- A loop with one functor more in its queue. -/
def push (loop : RefLoop) (f : RefFunctor) : RefLoop :=
  { loop with pendingFunctors_ := loop.pendingFunctors_ ++ [f] }

/-- A loop past the first functor of its batch. -/
def pop (loop : RefLoop) (f : RefFunctor) (rest : List RefFunctor) : RefLoop :=
  { loop with functors := rest, ran := loop.ran ++ [f] }

/-- A loop past its batch. -/
def finish (loop : RefLoop) : RefLoop := { loop with functors := [], ran := [], inBatch := false }

/-- A loop with its queue for a batch. -/
def swap (loop : RefLoop) : RefLoop :=
  { pendingFunctors_ := [], functors := loop.pendingFunctors_, ran := [], inBatch := true }

variable {loop : RefLoop} {f : RefFunctor} {rest : List RefFunctor}

theorem stepsLeft_push (loop : RefLoop) (f : RefFunctor) :
    (loop.push f).stepsLeft = loop.stepsLeft + f.queueSteps := by
  simp only [stepsLeft, push, List.map_append, List.sum_append, List.map_singleton,
    List.sum_singleton]
  omega

theorem stepsLeft_pop (h : loop.functors = f :: rest) :
    (loop.pop f rest).stepsLeft + f.batchSteps = loop.stepsLeft := by
  simp only [stepsLeft, pop, h, List.map_cons, List.sum_cons]
  omega

theorem stepsLeft_finish (h : loop.functors = []) (hbatch : loop.inBatch = true) :
    loop.finish.stepsLeft + 1 = loop.stepsLeft := by
  simp only [stepsLeft, finish, h, hbatch, List.map_nil, List.sum_nil, Bool.toNat_false,
    Bool.toNat_true]

/-- The two ends of a batch are paid for by any of its functors. -/
theorem stepsLeft_swap (h : loop.functors = []) (hpending : loop.pendingFunctors_ ≠ []) :
    loop.swap.stepsLeft < loop.stepsLeft := by
  have hqueue : (loop.pendingFunctors_.map RefFunctor.queueSteps).sum
      = (loop.pendingFunctors_.map RefFunctor.batchSteps).sum
        + loop.pendingFunctors_.length * 2 := by
    unfold RefFunctor.queueSteps
    rw [List.sum_map_add, List.map_const', List.sum_replicate_nat]
  have hpos := List.length_pos_iff.mpr hpending
  simp only [stepsLeft, swap, h, hqueue, List.map_nil, List.sum_nil, Bool.toNat_true]
  omega

end RefLoop

namespace ConnRefs

variable {ι : Type*}

/-- How many steps threads and loops can take by themselves. -/
def stepsLeft [Fintype ι] (s : ConnRefs ι) : ℕ :=
  (s.callers.map fun f => f.queueSteps + 1).sum + ∑ l, (s.loops l).stepsLeft

/-- A thread goes on with its call, or a loop with what it has. -/
def Working (s : ConnRefs ι) : RefEvent ι → Prop
  | .push _ | .run _ => True
  | .swap l => (s.loops l).pendingFunctors_ ≠ []
  | .setEventLoopThreadPool _ | .accept _ | .connect _ _ | .copy _ | .drop _ | .callback _
  | .hangup _ | .call _ => False

instance (s : ConnRefs ι) : (e : RefEvent ι) → Decidable (s.Working e)
  | .push _ | .run _ => isTrue trivial
  | .swap l => inferInstanceAs (Decidable ((s.loops l).pendingFunctors_ ≠ []))
  | .setEventLoopThreadPool _ | .accept _ | .connect _ _ | .copy _ | .drop _ | .callback _
  | .hangup _ | .call _ => isFalse id

section Working

variable [DecidableEq ι] [Fintype ι] {base : ι} {s t : ConnRefs ι}

theorem stepsLeft_setLoop (s : ConnRefs ι) (l : ι) (loop : RefLoop) :
    (s.setLoop l loop).stepsLeft + (s.loops l).stepsLeft = s.stepsLeft + loop.stepsLeft := by
  have hothers : ∑ l' ∈ Finset.univ.erase l, ((s.setLoop l loop).loops l').stepsLeft
      = ∑ l' ∈ Finset.univ.erase l, (s.loops l').stepsLeft := by
    refine Finset.sum_congr rfl fun l' hl' => ?_
    rw [loops_setLoop_of_ne s loop (Finset.ne_of_mem_erase hl')]
  have hcallers : (s.setLoop l loop).callers = s.callers := rfl
  unfold stepsLeft
  rw [hcallers, ← Finset.add_sum_erase Finset.univ _ (Finset.mem_univ l), hothers, loops_setLoop,
    ← Finset.add_sum_erase Finset.univ (fun l' => (s.loops l').stepsLeft) (Finset.mem_univ l)]
  omega

theorem stepsLeft_runInLoop (s : ConnRefs ι) (l : ι) (f : RefFunctor) :
    (s.runInLoop l f).stepsLeft = s.stepsLeft + f.queueSteps := by
  have hset := s.stepsLeft_setLoop l ((s.loops l).push f)
  have hpush := (s.loops l).stepsLeft_push f
  change (s.setLoop l ((s.loops l).push f)).stepsLeft = s.stepsLeft + f.queueSteps
  omega

/-- What a functor pushes has fewer steps left than it had. -/
theorem stepsLeft_exec {f : RefFunctor} (hs : s.exec base f = some t) :
    t.stepsLeft + 1 ≤ s.stepsLeft + f.batchSteps := by
  have hdestroy : ∀ u : ConnRefs ι, ∀ c, (u.destroy c).stepsLeft = u.stepsLeft + 3 := fun u c =>
    u.stepsLeft_runInLoop _ _
  cases f with
  | establishInLoop c =>
      obtain rfl := Option.some.inj hs
      unfold establishInLoop
      split <;> exact Nat.le_refl _
  | shutdownInLoop c => exact Option.some.inj hs ▸ Nat.le_refl _
  | onClose c =>
      obtain rfl := Option.some.inj hs
      have hclosing : (s.closing c).stepsLeft = s.stepsLeft := rfl
      have hsteps : (RefFunctor.onClose c).batchSteps = 7 := rfl
      rcases s.onClose_cases base c with heq | ⟨-, ⟨fd, -, heq⟩ | ⟨-, heq⟩⟩
      · rw [heq]
        omega
      · rw [heq, serverOnClose, stepsLeft_runInLoop, hclosing]
        exact Nat.le_refl _
      · rw [heq, clientOnClose]
        split
        · have hpushed := hdestroy (s.closing c) c
          rw [hclosing] at hpushed
          change ((s.closing c).destroy c).stepsLeft + 1 ≤ s.stepsLeft + 7
          omega
        · omega
  | destroyInLoop c =>
      obtain rfl := Option.some.inj hs
      exact Nat.le_refl _
  | send c =>
      change (if _ then _ else _) = some t at hs
      split at hs
      · exact Option.some.inj hs ▸ Nat.le_refl _
      · cases hs
  | removeConnection fd c =>
      obtain rfl := Option.some.inj hs
      have hpushed := hdestroy { s with connections_ := s.connections_.erase fd } c
      have herase : ({ s with connections_ := s.connections_.erase fd } : ConnRefs ι).stepsLeft
          = s.stepsLeft := rfl
      rw [herase] at hpushed
      change (({ s with connections_ := s.connections_.erase fd } : ConnRefs ι).destroy c).stepsLeft
        + 1 ≤ s.stepsLeft + 4
      omega

/-- **One step less.** -/
theorem stepsLeft_step {e : RefEvent ι} (hmap : MapInv base s) (hworking : s.Working e)
    (hs : step base s e = some t) : t.stepsLeft < s.stepsLeft := by
  cases e with
  | push i =>
      obtain ⟨f, hf, rfl⟩ := Option.map_eq_some_iff.mp hs
      obtain ⟨hi, hget⟩ := List.getElem?_eq_some_iff.mp hf
      have hperm := (List.getElem_cons_eraseIdx_perm hi).map fun g => RefFunctor.queueSteps g + 1
      have hsum := hperm.sum_eq
      rw [List.map_cons, List.sum_cons, hget] at hsum
      rw [stepsLeft_runInLoop]
      change ((s.callers.eraseIdx i).map fun g => g.queueSteps + 1).sum
        + ∑ l, (s.loops l).stepsLeft + f.queueSteps < s.stepsLeft
      unfold stepsLeft
      omega
  | swap l =>
      obtain ⟨hbatch, ht⟩ := Option.ite_none_left_eq_some.mp hs
      obtain rfl := Option.some.inj ht
      have hidle := (hmap.idle l (by simpa using hbatch)).1
      have hset := s.stepsLeft_setLoop l (s.loops l).swap
      have hswap := RefLoop.stepsLeft_swap hidle hworking
      change (s.setLoop l (s.loops l).swap).stepsLeft < s.stepsLeft
      omega
  | run l =>
      obtain ⟨hbatch, -⟩ := Option.ite_none_right_eq_some.mp hs
      cases move_of_step hs with
      | @run _ f rest _ hfunctors hexec =>
          have hset := s.stepsLeft_setLoop l ((s.loops l).pop f rest)
          have hpop := RefLoop.stepsLeft_pop hfunctors
          have hrest : t.stepsLeft + 1
              ≤ (s.setLoop l ((s.loops l).pop f rest)).stepsLeft + f.batchSteps :=
            stepsLeft_exec hexec
          omega
      | finish hfunctors =>
          have hset := s.stepsLeft_setLoop l (s.loops l).finish
          have hfinish := RefLoop.stepsLeft_finish hfunctors hbatch
          change (s.setLoop l (s.loops l).finish).stepsLeft < s.stepsLeft
          omega
  | _ => exact hworking.elim

omit [DecidableEq ι] [Fintype ι] in
/-- What threads and loops do by themselves needs no kernel and drops no pointer. -/
theorem Working.admitted {e : RefEvent ι} (h : s.Working e) : Kernel s e ∧ KeepsSends base s e := by
  cases e with
  | push i => exact ⟨trivial, trivial⟩
  | swap l => exact ⟨trivial, trivial⟩
  | run l => exact ⟨trivial, trivial⟩
  | _ => exact h.elim

theorem Quiet.stops (h : s.Quiet) {e : RefEvent ι} (he : s.Working e) : step base s e = none := by
  cases e with
  | push i =>
      change (s.callers[i]?).map _ = none
      rw [h.callers]
      rfl
  | swap l => exact absurd (h.pending l) he
  | run l => exact if_neg (by rw [h.batch l]; decide)
  | _ => exact he.elim

omit [Fintype ι] in
/-- What a functor of a batch holds, the batch holds until it is over. -/
theorem Held.pop {l : ι} {c : ℕ} {f : RefFunctor} {rest : List RefFunctor} (h : s.Held c)
    (hfunctors : (s.loops l).functors = f :: rest) :
    (s.setLoop l ((s.loops l).pop f rest)).Held c := by
  refine h.imp_right (Or.imp_right fun ⟨l', g, hg, hc⟩ => ⟨l', g, ?_, hc⟩)
  by_cases hl : l' = l
  · subst hl
    rw [waiting_setLoop, loops_setLoop]
    unfold waiting at hg
    rw [hfunctors] at hg
    simp only [RefLoop.pop, List.mem_append, List.mem_cons] at hg ⊢
    tauto
  · rwa [waiting_setLoop_of_ne s _ hl, loops_setLoop_of_ne s _ hl]

/-- Every functor of a batch gets through. -/
theorem exec_ne_none {l : ι} {f : RefFunctor} {rest : List RefFunctor} (hsends : SendInv base s)
    (hfunctors : (s.loops l).functors = f :: rest) :
    (s.setLoop l ((s.loops l).pop f rest)).exec base f ≠ none := by
  cases f with
  | send c =>
      -- the connection is held by something else than the functor
      have hheld : s.Held c := by
        have hmem : .send c ∈ (s.loops l).functors := hfunctors ▸ List.mem_cons_self
        rw [hsends.loop l c (List.mem_append_left _ hmem)] at hmem
        rcases hsends.batch c hmem with huser | hkept
        · exact Or.inl huser
        · exact hkept.held
      change (if (s.setLoop l ((s.loops l).pop (.send c) rest)).Held c then _ else _) ≠ none
      rw [if_pos (hheld.pop hfunctors)]
      exact Option.some_ne_none _
  | _ => exact Option.some_ne_none _

/-- **No loop gets stuck.** -/
theorem quiet_of_stops (hsends : SendInv base s)
    (hstops : ∀ e, s.Working e → step base s e = none) : s.Quiet := by
  have hbatch : ∀ l, (s.loops l).inBatch = false := by
    intro l
    by_contra hbatch
    rw [Bool.not_eq_false] at hbatch
    have hnone := hstops (.run l) trivial
    change (if (s.loops l).inBatch = true then _ else _) = none at hnone
    rw [if_pos hbatch] at hnone
    cases hfunctors : (s.loops l).functors with
    | nil =>
        rw [hfunctors] at hnone
        cases hnone
    | cons f rest =>
        rw [hfunctors] at hnone
        exact exec_ne_none hsends hfunctors hnone
  refine ⟨?_, fun l => ?_, hbatch⟩
  · by_contra hcallers
    obtain ⟨f, fs, hcons⟩ := List.exists_cons_of_ne_nil hcallers
    have hnone := hstops (.push 0) trivial
    change (s.callers[0]?).map _ = none at hnone
    rw [hcons] at hnone
    cases hnone
  · by_contra hpending
    have hnone := hstops (.swap l) hpending
    change (if (s.loops l).inBatch = true then none else _) = none at hnone
    rw [hbatch l] at hnone
    cases hnone

end Working

/-! ## Runs -/

section Runs

variable [DecidableEq ι] [Fintype ι] {base : ι} {s t : ConnRefs ι}

/-- **What is left when nothing is under way.** In every run of accepts, connects,
calls in two steps, hang-ups and other callbacks, and batches on any number of
loops, that comes to rest: the map has exactly the server's connections that are
not closed; a connection the user has no pointer to is destroyed exactly if it is
closed; and if no `establishInLoop` was run of a connection at its end, the poller
knows no closed one. -/
theorem quiet_settled {es : List (RefEvent ι)}
    (hkernel : Along (ConnRefs.step base) Kernel (init base) es)
    (hrun : run (ConnRefs.step base) (init base) es = some s) (hquiet : s.Quiet) :
    (∀ fd c, s.connections_.lookup fd = some c ↔ s.Bound c fd ∧ (s.conn c).close_ = false)
      ∧ (∀ c < s.made, s.user c = 0 → (s.Held c ↔ (s.conn c).close_ = false))
      ∧ (Along (ConnRefs.step base) InTime (init base) es →
          ∀ c < s.made, (s.conn c).close_ = true → (s.conn c).started_ = false) := by
  have h : MapInv base s ∧ FieldInv s := by
    refine run_inv_along (I := fun s => MapInv base s ∧ FieldInv s) (fun s e s' hs hC ht => ?_)
      ⟨mapInv_init base base, fieldInv_init base⟩ hkernel hrun
    exact ⟨hs.1.step hC ht, hs.2.step ht⟩
  refine ⟨fun fd c => ⟨fun hlookup => ?_, fun hopen => h.1.open_ fd c hopen.1 hopen.2⟩,
    fun c hc huser => hquiet.held_iff h.1 h.2 hc huser, fun htime c hc hclose => ?_⟩
  · have hbound := h.1.entry fd c hlookup
    refine ⟨hbound, (hquiet.owner_iff h.1 h.2 hbound.1).mp ?_⟩
    exact ownerHeld_iff.mpr (Or.inl ⟨fd, hlookup⟩)
  · have hparted : MapInv base s ∧ Parted s := by
      refine run_inv_along (I := fun s => MapInv base s ∧ Parted s) (fun s e s' hs hC ht => ?_)
        ⟨mapInv_init base base, parted_init base⟩ (along_and _ hkernel htime) hrun
      exact ⟨hs.1.step hC.1 ht, hs.2.step hs.1 hC.1 hC.2 ht⟩
    rw [Bool.eq_false_iff]
    intro hstarted
    rcases hparted.2 c hstarted with howner | hdestroy
    · rw [hquiet.owner_iff h.1 h.2 hc, hclose] at howner
      cases howner
    · rw [hquiet.waiting h.1] at hdestroy
      cases hdestroy

/-- A connection on a loop of the pool is established and closed, and the pointers
are dropped. -/
def closed : List (RefEvent Bool) :=
  [.setEventLoopThreadPool (some [true]), .accept 5, .call (.establishInLoop 0), .push 0,
    .swap true, .run true, .run true, .call (.onClose 0), .push 0, .swap true, .run true,
    .run true, .swap false, .run false, .run false, .swap true, .run true, .run true,
    .drop 0, .drop 0, .drop 0]

theorem quiet_settled_closed : ∃ s : ConnRefs Bool,
    run (ConnRefs.step false) (init false) closed = some s
      ∧ s.connections_.lookup 5 = none ∧ ¬ s.Held 0 ∧ (s.conn 0).started_ = false := by
  have heval : (run (ConnRefs.step false) (init false) closed).map
      (fun s => (decide s.Quiet, s.user 0, (s.conn 0).close_, s.made))
        = some (true, 0, true, 1) := by
    decide +kernel
  obtain ⟨s, hrun, hs⟩ := Option.map_eq_some_iff.mp heval
  simp only [Prod.mk.injEq, decide_eq_true_eq] at hs
  obtain ⟨hquiet, huser, hclose, hmade⟩ := hs
  obtain ⟨hmap, hheld, hstarted⟩ := quiet_settled (by decide +kernel) hrun hquiet
  refine ⟨s, hrun, ?_, ?_, hstarted (by decide +kernel) 0 (by omega) hclose⟩
  · by_contra hsome
    obtain ⟨c, hc⟩ := Option.ne_none_iff_exists'.mp hsome
    obtain ⟨hbound, hopen⟩ := (hmap 5 c).mp hc
    have hzero : c = 0 := by
      have := hbound.1
      omega
    rw [hzero, hclose] at hopen
    cases hopen
  · rw [hheld 0 (by omega) huser, hclose]
    decide

/-- An `establish` that is past its test when the connection is closed: in the end
the channel of a closed connection is registered. -/
example : (run (ConnRefs.step false) (init false) [.setEventLoopThreadPool (some [true]),
    .accept 5, .copy 0, .call (.establishInLoop 0), .call (.onClose 0), .push 1,
    .swap true, .run true, .run true, .swap false, .run false, .run false,
    .swap true, .run true, .run true, .push 0, .swap true, .run true, .run true]).map
      (fun s => (decide s.Quiet, (s.conn 0).close_, (s.conn 0).started_))
    = some (true, true, true) := by
  decide +kernel

/-- **The loops come to rest by themselves.** From every state of such a run in
which no drop leaves a `send` behind, threads and loops can take no more than
`stepsLeft` steps without the users and the kernel; until all is quiet there is
one to take; and then no closed connection is left that the user has no pointer
to. -/
theorem loops_finish {es fs : List (RefEvent ι)}
    (hkernel : Along (ConnRefs.step base) Kernel (init base) es)
    (hkeeps : Along (ConnRefs.step base) (KeepsSends base) (init base) es)
    (hrun : run (ConnRefs.step base) (init base) es = some s)
    (hworking : Along (ConnRefs.step base) Working s fs)
    (hrest : run (ConnRefs.step base) s fs = some t) :
    fs.length ≤ s.stepsLeft
      ∧ (t.Quiet ↔ ∀ e, t.Working e → ConnRefs.step base t e = none)
      ∧ (t.Quiet → ∀ c < t.made, (t.conn c).close_ = true → t.user c = 0 → ¬ t.Held c) := by
  let I : ConnRefs ι → Prop := fun s => (SendInv base s ∧ MapInv base s) ∧ FieldInv s
  have hstep : ∀ s e s', I s → Kernel s e ∧ KeepsSends base s e →
      ConnRefs.step base s e = some s' → I s' := fun s e s' hs hC ht =>
    ⟨⟨hs.1.1.step hs.1.2 hC.1 hC.2 ht, hs.1.2.step hC.1 ht⟩, hs.2.step ht⟩
  have hs : I s := run_inv_along hstep
    ⟨⟨sendInv_init base base, mapInv_init base base⟩, fieldInv_init base⟩
    (along_and _ hkernel hkeeps) hrun
  have hstepW : ∀ s e s', I s → s.Working e → ConnRefs.step base s e = some s' → I s' :=
    fun s e s' hs hw ht => hstep s e s' hs hw.admitted ht
  have ht : I t := run_inv_along hstepW hs hworking hrest
  have hlength := run_measure hstepW
    (fun s e s' hs hw ht => stepsLeft_step hs.1.2 hw ht) hs hworking hrest
  refine ⟨by omega, ⟨fun hquiet e he => hquiet.stops he, quiet_of_stops ht.1.1⟩, ?_⟩
  intro hquiet c hc hclose huser hheld
  rw [hquiet.held_iff ht.1.2 ht.2 hc huser, hclose] at hheld
  cases hheld

/-- What is left of a close once it is queued, to the last step. -/
theorem loops_finish_closed : ∃ s t : ConnRefs Bool,
    run (ConnRefs.step false) (init false) (closed.take 9) = some s
      ∧ run (ConnRefs.step false) s ((closed.drop 9).take 9) = some t
      ∧ s.stepsLeft = 9 ∧ 9 ≤ s.stepsLeft
      ∧ ∀ e, t.Working e → ConnRefs.step false t e = none := by
  have heval : (run (ConnRefs.step false) (init false) (closed.take 9)).map (fun s =>
      (decide (Along (ConnRefs.step false) Working s ((closed.drop 9).take 9)), s.stepsLeft,
        (run (ConnRefs.step false) s ((closed.drop 9).take 9)).map fun t => decide t.Quiet))
      = some (true, 9, some true) := by
    decide +kernel
  obtain ⟨s, hrun, hs⟩ := Option.map_eq_some_iff.mp heval
  simp only [Prod.mk.injEq, decide_eq_true_eq, Option.map_eq_some_iff] at hs
  obtain ⟨hworking, hleft, t, hrest, hquiet⟩ := hs
  obtain ⟨hlength, hstops, -⟩ :=
    loops_finish (by decide +kernel) (by decide +kernel) hrun hworking hrest
  exact ⟨s, t, hrun, hrest, hleft, hlength, hstops.mp hquiet⟩

end Runs

end ConnRefs

end Libiak.Net
