/-
`TcpConnection::sendPack`, whose functor binds `this`.

The functors that come before it may be all that holds the connection. A
`sendPack` that is past its test of `close_` can be overtaken by the whole end of
its connection: `onClose`, the owner letting go, and `destroyInLoop`. If it
pushes only then, and its thread drops its pointer, the last one, the functor is
left in the queue with nothing that it points to.

What keeps a `send` safe is a chain of holders, each of which passes the
connection on to the next before it lets go: the owner until it queues
`removeConnection` or `destroyInLoop`, and these in the queue or in the batch of
the `send`, up to the end of that batch (`KeptPending`, `KeptBatch`). So only the
user can break it, by dropping its last pointer while the chain is not there
(`KeepsSends`), and a run in which no drop does that destroys no connection
before its sends have run (`send_alive`).
-/
import Libiak.ConnMap

set_option autoImplicit false

namespace Libiak.Net

open Libiak.Run

namespace ConnRefs

variable {ι : Type*}

/-- Something other than the user keeps `c` until what waits on its loop now is in
a batch: its owner, a `removeConnection` that will queue its `destroyInLoop`, or a
functor in the same queue. -/
def KeptPending (base : ι) (s : ConnRefs ι) (c : ℕ) : Prop :=
  s.OwnerHeld c ∨ (∃ f ∈ s.waiting base, f.removes = true ∧ f.conn = c)
    ∨ ∃ f ∈ (s.loops (s.conn c).loop_).pendingFunctors_, f.holds = some c

/-- Something other than the user keeps `c` until the batch of its loop is over. -/
def KeptBatch (base : ι) (s : ConnRefs ι) (c : ℕ) : Prop :=
  s.KeptPending base c
    ∨ ∃ f ∈ (s.loops (s.conn c).loop_).functors ++ (s.loops (s.conn c).loop_).ran,
        f.holds = some c

/-- The user has one pointer to `c`, and no thread calls through another. -/
def LastPointer (s : ConnRefs ι) (c : ℕ) : Prop := s.user c = 1 ∧ ∀ f ∈ s.callers, f.conn ≠ c

/-- The user does not drop its last pointer to a connection with a `send` that
waits, unless something else keeps the connection until the `send` has run. -/
def KeepsSends (base : ι) (s : ConnRefs ι) : RefEvent ι → Prop
  | .drop c => s.LastPointer c →
      (.send c ∈ (s.loops (s.conn c).loop_).pendingFunctors_ → s.KeptPending base c)
        ∧ (.send c ∈ (s.loops (s.conn c).loop_).functors → s.KeptBatch base c)
  | _ => True

instance (base : ι) (s : ConnRefs ι) (c : ℕ) : Decidable (s.KeptPending base c) :=
  inferInstanceAs (Decidable (_ ∨ (∃ f ∈ s.waiting base, f.removes = true ∧ f.conn = c)
    ∨ ∃ f ∈ (s.loops (s.conn c).loop_).pendingFunctors_, f.holds = some c))

instance (base : ι) (s : ConnRefs ι) (c : ℕ) : Decidable (s.KeptBatch base c) :=
  inferInstanceAs (Decidable (_ ∨ ∃ f ∈ (s.loops (s.conn c).loop_).functors
    ++ (s.loops (s.conn c).loop_).ran, f.holds = some c))

instance (s : ConnRefs ι) (c : ℕ) : Decidable (s.LastPointer c) :=
  inferInstanceAs (Decidable (_ ∧ ∀ f ∈ s.callers, f.conn ≠ c))

instance (base : ι) (s : ConnRefs ι) : (e : RefEvent ι) → Decidable (KeepsSends base s e)
  | .drop c => inferInstanceAs (Decidable (s.LastPointer c → _ ∧ _))
  | .setEventLoopThreadPool _ | .accept _ | .connect _ _ | .copy _ | .callback _ | .hangup _
  | .call _ | .push _ | .swap _ | .run _ => isTrue trivial

/-- The invariant of the sends. -/
structure SendInv (base : ι) (s : ConnRefs ι) : Prop where
  loop : ∀ l c, .send c ∈ s.waiting l → l = (s.conn c).loop_
  pending : ∀ c, .send c ∈ (s.loops (s.conn c).loop_).pendingFunctors_ →
    s.UserHeld c ∨ s.KeptPending base c
  batch : ∀ c, .send c ∈ (s.loops (s.conn c).loop_).functors →
    s.UserHeld c ∨ s.KeptBatch base c

theorem sendInv_init (base loop : ι) : SendInv base (init loop) where
  loop := fun l c hc => by simp [init, waiting] at hc
  pending := fun c hc => by simp [init] at hc
  batch := fun c hc => by simp [init] at hc

theorem ownerHeld_iff {s : ConnRefs ι} {c : ℕ} :
    s.OwnerHeld c ↔ (∃ fd, s.connections_.lookup fd = some c) ∨ s.connection_ c = true := by
  refine or_congr_left ⟨?_, ?_⟩
  · rintro ⟨⟨fd, c'⟩, hentry, rfl⟩
    exact ⟨fd, AList.mem_lookup_iff.mpr hentry⟩
  · rintro ⟨fd, hlookup⟩
    exact ⟨⟨fd, c⟩, AList.mem_lookup_iff.mp hlookup, rfl⟩

variable {base : ι} {s t u : ConnRefs ι} {c : ℕ}

/-- What keeps a connection is a strong pointer. -/
theorem KeptBatch.held (h : s.KeptBatch base c) : s.Held c := by
  rcases h with (howner | ⟨f, hf, hremoves, hc⟩ | ⟨f, hf, hc⟩) | ⟨f, hf, hc⟩
  · exact Or.inr (Or.inl howner)
  · -- a `removeConnection` holds its connection
    refine Or.inr (Or.inr ⟨base, f, List.mem_append_left _ hf, ?_⟩)
    cases f with
    | removeConnection fd c' => exact congrArg some hc
    | _ => cases hremoves
  · refine Or.inr (Or.inr ⟨(s.conn c).loop_, f, ?_, hc⟩)
    exact List.mem_append_left _ (List.mem_append_right _ hf)
  · refine Or.inr (Or.inr ⟨(s.conn c).loop_, f, ?_, hc⟩)
    rcases List.mem_append.mp hf with hfun | hran
    · exact List.mem_append_left _ (List.mem_append_left _ hfun)
    · exact List.mem_append_right _ hran

/-! ## Steps that pass the connection on -/

/-- From `s` to `t` no holder of `c` has let go without another one taking over. -/
structure PassesOn (base : ι) (s t : ConnRefs ι) (c : ℕ) : Prop where
  loop : (t.conn c).loop_ = (s.conn c).loop_
  user : s.UserHeld c → t.UserHeld c
  pending : s.KeptPending base c → t.KeptPending base c
  batch : s.KeptBatch base c → t.KeptBatch base c

theorem PassesOn.trans (h1 : PassesOn base s t c) (h2 : PassesOn base t u c) :
    PassesOn base s u c where
  loop := h2.loop.trans h1.loop
  user := fun h => h2.user (h1.user h)
  pending := fun h => h2.pending (h1.pending h)
  batch := fun h => h2.batch (h1.batch h)

/-- Where all are passed on, and a `send` that is new comes with a pointer of the
user, the invariant is kept. -/
theorem SendInv.of_passesOn (h : SendInv base s)
    (hpasses : ∀ l c, .send c ∈ s.waiting l → PassesOn base s t c)
    (hpending : ∀ l c, .send c ∈ (t.loops l).pendingFunctors_ →
      .send c ∈ (s.loops l).pendingFunctors_ ∨ (l = (t.conn c).loop_ ∧ t.UserHeld c))
    (hfunctors : ∀ l c, .send c ∈ (t.loops l).functors → .send c ∈ (s.loops l).functors) :
    SendInv base t where
  loop := fun l c hc => by
    rcases List.mem_append.mp hc with hf | hp
    · have hold : .send c ∈ s.waiting l := List.mem_append_left _ (hfunctors l c hf)
      exact (h.loop l c hold).trans (hpasses l c hold).loop.symm
    · rcases hpending l c hp with hp | hnew
      · have hold : .send c ∈ s.waiting l := List.mem_append_right _ hp
        exact (h.loop l c hold).trans (hpasses l c hold).loop.symm
      · exact hnew.1
  pending := fun c hc => by
    rcases hpending _ c hc with hp | hnew
    · have hpass := hpasses _ c (List.mem_append_right _ hp)
      rw [hpass.loop] at hp
      exact (h.pending c hp).imp hpass.user hpass.pending
    · exact Or.inl hnew.2
  batch := fun c hc => by
    have hf := hfunctors _ c hc
    have hpass := hpasses _ c (List.mem_append_left _ hf)
    rw [hpass.loop] at hf
    exact (h.batch c hf).imp hpass.user hpass.batch

/-- The queues are as they were, and nobody has let go. -/
theorem PassesOn.of_users (hloops : t.loops = s.loops)
    (hloop : (t.conn c).loop_ = (s.conn c).loop_) (huser : s.UserHeld c → t.UserHeld c)
    (howner : s.OwnerHeld c → t.OwnerHeld c) : PassesOn base s t c := by
  have hpending : s.KeptPending base c → t.KeptPending base c := by
    unfold KeptPending waiting
    rw [hloops, hloop]
    exact Or.imp_left howner
  refine ⟨hloop, huser, hpending, ?_⟩
  unfold KeptBatch
  rw [hloops, hloop]
  exact Or.imp_left hpending

theorem PassesOn.hold (c' : ℕ) : PassesOn base s (s.hold c') c := by
  refine PassesOn.of_users rfl rfl (Or.imp_left fun hpos => ?_) id
  change 0 < Function.update s.user c' (s.user c' + 1) c
  by_cases heq : c = c'
  · rw [heq, Function.update_self]
    exact Nat.succ_pos _
  · rwa [Function.update_of_ne heq]

theorem PassesOn.setConn {c' : ℕ} {conn : RefConn ι} (h : conn.loop_ = (s.conn c').loop_) :
    PassesOn base s (s.setConn c' conn) c :=
  PassesOn.of_users rfl (s.setConn_keeps RefConn.loop_ conn h c) id id

/-- A call takes the pointer of its thread with it. -/
theorem PassesOn.call (f : RefFunctor) :
    PassesOn base s { s.release f.conn with callers := s.callers ++ [f] } c := by
  refine PassesOn.of_users rfl rfl (fun huser => ?_) id
  by_cases heq : c = f.conn
  · -- it may have been the user's last one, but it is the caller's now
    exact Or.inr ⟨f, List.mem_append_right _ List.mem_cons_self, heq.symm⟩
  · rcases huser with hpos | ⟨g, hg, hc⟩
    · refine Or.inl ?_
      change 0 < Function.update s.user f.conn (s.user f.conn - 1) c
      rwa [Function.update_of_ne heq]
    · exact Or.inr ⟨g, List.mem_append_left _ hg, hc⟩

/-- A push gives the pointer of its thread back. -/
theorem PassesOn.returned {i : ℕ} {f : RefFunctor} (hf : s.callers[i]? = some f) :
    PassesOn base s (ConnRefs.hold { s with callers := s.callers.eraseIdx i } f.conn) c := by
  refine PassesOn.of_users rfl rfl (fun huser => ?_) id
  by_cases heq : c = f.conn
  · refine Or.inl ?_
    change 0 < Function.update s.user f.conn (s.user f.conn + 1) c
    rw [heq, Function.update_self]
    exact Nat.succ_pos _
  · rcases huser with hpos | ⟨g, hg, hc⟩
    · refine Or.inl ?_
      change 0 < Function.update s.user f.conn (s.user f.conn + 1) c
      rwa [Function.update_of_ne heq]
    · obtain ⟨j, hj⟩ := List.getElem?_of_mem hg
      refine Or.inr ⟨g, List.mem_eraseIdx_iff_getElem?.mpr ⟨j, ?_, hj⟩, hc⟩
      rintro rfl
      exact heq (hc.symm.trans (congrArg _ (Option.some.inj (hj.symm.trans hf))))

variable [DecidableEq ι]

/-- A loop with more functors waiting, and no fewer in the batch. -/
theorem PassesOn.setLoop {l : ι} {loop : RefLoop}
    (hremoves : ∀ f ∈ s.waiting l, f.removes = true → f.conn = c →
      f ∈ loop.functors ++ loop.pendingFunctors_)
    (hpending : ∀ f ∈ (s.loops l).pendingFunctors_, f ∈ loop.pendingFunctors_)
    (hbatch : ∀ f ∈ (s.loops l).functors ++ (s.loops l).ran, f ∈ loop.functors ++ loop.ran) :
    PassesOn base s (s.setLoop l loop) c := by
  have hkept : s.KeptPending base c → (s.setLoop l loop).KeptPending base c := by
    rintro (howner | ⟨f, hf, hremove, hc⟩ | ⟨f, hf, hc⟩)
    · exact Or.inl howner
    · refine Or.inr (Or.inl ⟨f, ?_, hremove, hc⟩)
      by_cases hl : base = l
      · rw [hl, waiting_setLoop]
        exact hremoves f (hl ▸ hf) hremove hc
      · rwa [waiting_setLoop_of_ne s loop hl]
    · refine Or.inr (Or.inr ⟨f, ?_, hc⟩)
      change f ∈ ((s.setLoop l loop).loops (s.conn c).loop_).pendingFunctors_
      by_cases hl : (s.conn c).loop_ = l
      · rw [hl, loops_setLoop]
        exact hpending f (hl ▸ hf)
      · rwa [loops_setLoop_of_ne s loop hl]
  refine ⟨rfl, id, hkept, ?_⟩
  rintro (hpend | ⟨f, hf, hc⟩)
  · exact Or.inl (hkept hpend)
  · refine Or.inr ⟨f, ?_, hc⟩
    change f ∈ ((s.setLoop l loop).loops (s.conn c).loop_).functors
      ++ ((s.setLoop l loop).loops (s.conn c).loop_).ran
    by_cases hl : (s.conn c).loop_ = l
    · rw [hl, loops_setLoop]
      exact hbatch f (hl ▸ hf)
    · rwa [loops_setLoop_of_ne s loop hl]

theorem PassesOn.runInLoop (l : ι) (f : RefFunctor) : PassesOn base s (s.runInLoop l f) c := by
  apply PassesOn.setLoop
  · intro g hg _ _
    rw [← List.append_assoc]
    exact List.mem_append_left _ hg
  · exact fun g hg => List.mem_append_left _ hg
  · exact fun g hg => hg

/-- A functor other than `removeConnection` for `c` goes to those that have run. -/
theorem PassesOn.pop {l : ι} {f : RefFunctor} {rest : List RefFunctor}
    (hfunctors : (s.loops l).functors = f :: rest) (hremoves : f.removes = true → f.conn ≠ c) :
    PassesOn base s (s.setLoop l { s.loops l with
      functors := rest, ran := (s.loops l).ran ++ [f] }) c := by
  apply PassesOn.setLoop
  · intro g hg hremove hc
    unfold waiting at hg
    rw [hfunctors, List.cons_append] at hg
    rcases List.mem_cons.mp hg with rfl | hg
    · exact absurd hc (hremoves hremove)
    · exact hg
  · exact fun g hg => hg
  · intro g hg
    rw [hfunctors] at hg
    simp only [List.mem_append, List.mem_cons, List.not_mem_nil, or_false] at hg ⊢
    tauto

/-- The client lets go of a connection that waits to be closed. -/
theorem PassesOn.clientOnClose (c' : ℕ) : PassesOn base s (s.clientOnClose c') c := by
  unfold ConnRefs.clientOnClose
  split
  · have hdestroy : PassesOn base s (s.destroy c') c := PassesOn.runInLoop _ _
    by_cases heq : c = c'
    · -- `destroyInLoop` has been queued before the field is cleared
      have hkept : ConnRefs.KeptPending base { s.destroy c' with
          connection_ := Function.update s.connection_ c' false } c := by
        refine Or.inr (Or.inr ⟨.destroyInLoop c', ?_, congrArg some heq.symm⟩)
        change _ ∈ ((s.destroy c').loops (s.conn c).loop_).pendingFunctors_
        unfold destroy ConnRefs.runInLoop
        rw [heq, loops_setLoop]
        exact List.mem_append_right _ List.mem_cons_self
      exact ⟨rfl, id, fun _ => hkept, fun _ => Or.inl hkept⟩
    · refine hdestroy.trans (PassesOn.of_users rfl rfl id (Or.imp_right fun hfield => ?_))
      change Function.update s.connection_ c' false c = true
      rwa [Function.update_of_ne heq]
  · exact PassesOn.of_users rfl rfl id id

omit [DecidableEq ι] in
theorem PassesOn.closing (c' : ℕ) : PassesOn base s (s.closing c') c := by
  have hconn : PassesOn base s (s.setConn c' { s.conn c' with close_ := true }) c :=
    PassesOn.setConn rfl
  exact (hconn.trans (PassesOn.hold c')).trans (PassesOn.of_users rfl rfl id id)

theorem PassesOn.onClose (c' : ℕ) : PassesOn base s (s.onClose base c') c := by
  rcases s.onClose_cases base c' with heq | ⟨-, ⟨fd, -, heq⟩ | ⟨-, heq⟩⟩
  · rw [heq]
    exact PassesOn.of_users rfl rfl id id
  · rw [heq]
    exact (PassesOn.closing c').trans (PassesOn.runInLoop _ _)
  · rw [heq]
    exact (PassesOn.closing c').trans (PassesOn.clientOnClose c')

/-- The owner lets go of the connection whose `removeConnection` runs, and of no
other. -/
theorem MapInv.passesOn (h : MapInv base s) {l : ι} {fd c' : ℕ} {rest : List RefFunctor}
    (hfunctors : (s.loops l).functors = .removeConnection fd c' :: rest) :
    PassesOn base s ((s.setLoop l { s.loops l with
      functors := rest, ran := (s.loops l).ran ++ [.removeConnection fd c'] }).removeConnection
        fd c') c := by
  obtain ⟨-, -, -, hentry, -⟩ := h.head hfunctors
  set u := s.setLoop l { s.loops l with
    functors := rest, ran := (s.loops l).ran ++ [.removeConnection fd c'] } with hu
  by_cases heq : c = c'
  · -- the entry and the functor go, and `destroyInLoop` is in the queue of its loop
    have hkept : ConnRefs.KeptPending base (u.removeConnection fd c') c := by
      refine Or.inr (Or.inr ⟨.destroyInLoop c', ?_, congrArg some heq.symm⟩)
      unfold ConnRefs.removeConnection destroy ConnRefs.runInLoop
      rw [heq]
      change _ ∈ ((ConnRefs.setLoop _ (s.conn c').loop_ _).loops (s.conn c').loop_).pendingFunctors_
      rw [loops_setLoop]
      exact List.mem_append_right _ List.mem_cons_self
    exact ⟨rfl, id, fun _ => hkept, fun _ => Or.inl hkept⟩
  · -- the entry under `fd` is that of `c'`
    have herase : PassesOn base s { s with connections_ := s.connections_.erase fd } c := by
      refine PassesOn.of_users rfl rfl id fun howner => ?_
      rw [ownerHeld_iff] at howner ⊢
      refine howner.imp_left fun ⟨fd', hlookup⟩ => ⟨fd', ?_⟩
      refine (AList.lookup_erase_ne fun hfd => heq ?_).trans hlookup
      rw [hfd, hentry] at hlookup
      exact (Option.some.inj hlookup).symm
    set e : ConnRefs ι := { s with connections_ := s.connections_.erase fd } with he
    have hpop : PassesOn base e (e.setLoop l { e.loops l with
        functors := rest, ran := (e.loops l).ran ++ [.removeConnection fd c'] }) c :=
      PassesOn.pop hfunctors fun _ => Ne.symm heq
    exact (herase.trans hpop).trans (PassesOn.runInLoop _ _)

omit [DecidableEq ι] in
/-- A new connection has an owner and an entry of its own. -/
theorem PassesOn.make {l : ι} {fd : ℕ} {callback : CloseCallback} {map : AList fun _ : ℕ => ℕ}
    {field : ℕ → Bool} (hc : c < s.made) (hmap : ∀ fd,
      s.connections_.lookup fd = some c → map.lookup fd = some c)
    (hfield : s.connection_ c = true → field c = true) :
    PassesOn base s { s.make l fd callback with connections_ := map, connection_ := field } c := by
  have hne : c ≠ s.made := Nat.ne_of_lt hc
  refine PassesOn.of_users rfl ?_ (Or.imp_left fun hpos => ?_) fun howner => ?_
  · change ((s.setConn s.made _).conn c).loop_ = _
    rw [conn_setConn_of_ne s _ hne]
  · change 0 < Function.update s.user s.made _ c
    rwa [Function.update_of_ne hne]
  · rw [ownerHeld_iff] at howner ⊢
    exact howner.imp (fun ⟨fd', hlookup⟩ => ⟨fd', hmap fd' hlookup⟩) hfield

/-! ## No new sends -/

/-- The sends of `t` are sends of `s`. -/
structure NoSend (s t : ConnRefs ι) : Prop where
  pending : ∀ l c, .send c ∈ (t.loops l).pendingFunctors_ → .send c ∈ (s.loops l).pendingFunctors_
  functors : ∀ l c, .send c ∈ (t.loops l).functors → .send c ∈ (s.loops l).functors

omit [DecidableEq ι] in
theorem NoSend.of_loops (h : t.loops = s.loops) : NoSend s t :=
  ⟨fun l c hc => by rwa [h] at hc, fun l c hc => by rwa [h] at hc⟩

omit [DecidableEq ι] in
theorem NoSend.trans (h1 : NoSend s t) (h2 : NoSend t u) : NoSend s u :=
  ⟨fun l c hc => h1.pending l c (h2.pending l c hc),
    fun l c hc => h1.functors l c (h2.functors l c hc)⟩

theorem NoSend.setLoop {l : ι} {loop : RefLoop}
    (hpending : ∀ c, .send c ∈ loop.pendingFunctors_ → .send c ∈ (s.loops l).pendingFunctors_)
    (hfunctors : ∀ c, .send c ∈ loop.functors → .send c ∈ (s.loops l).functors) :
    NoSend s (s.setLoop l loop) := by
  constructor
  all_goals
    intro l' c hc
    by_cases hl : l' = l
    · subst hl
      rw [loops_setLoop] at hc
      first | exact hpending c hc | exact hfunctors c hc
    · rwa [loops_setLoop_of_ne s loop hl] at hc

theorem NoSend.runInLoop (l : ι) {f : RefFunctor} (hf : f.holds = some f.conn) :
    NoSend s (s.runInLoop l f) := by
  constructor
  · intro l' c hc
    rcases s.pending_runInLoop hc with hold | ⟨-, rfl⟩
    · exact hold
    · cases hf
  · intro l' c hc
    rwa [functors_runInLoop] at hc

theorem NoSend.onClose (c' : ℕ) : NoSend s (s.onClose base c') := by
  have hclosing : NoSend s (s.closing c') := NoSend.of_loops rfl
  rcases s.onClose_cases base c' with heq | ⟨-, ⟨fd, -, heq⟩ | ⟨-, heq⟩⟩
  · rw [heq]
    exact NoSend.of_loops rfl
  · rw [heq]
    exact hclosing.trans (NoSend.runInLoop _ rfl)
  · rw [heq]
    apply hclosing.trans
    unfold clientOnClose
    split
    · have hdestroy : NoSend (s.closing c') ((s.closing c').destroy c') := NoSend.runInLoop _ rfl
      exact hdestroy.trans (NoSend.of_loops rfl)
    · exact NoSend.of_loops rfl

omit [DecidableEq ι] in
theorem SendInv.of_noSend (h : SendInv base s)
    (hpasses : ∀ l c, .send c ∈ s.waiting l → PassesOn base s t c) (hno : NoSend s t) :
    SendInv base t :=
  h.of_passesOn hpasses (fun l c hc => Or.inl (hno.pending l c hc)) hno.functors

/-! ## Batches -/

/-- What waits goes into a batch: what was kept until then is kept to its end. -/
theorem SendInv.swap (h : SendInv base s) {l : ι} (hidle : (s.loops l).functors = []) :
    SendInv base (s.setLoop l
      { pendingFunctors_ := [], functors := (s.loops l).pendingFunctors_, ran := []
        inBatch := true }) := by
  set loop : RefLoop := { pendingFunctors_ := [], functors := (s.loops l).pendingFunctors_
                          ran := [], inBatch := true } with hloop
  have hwaiting : ∀ l', (s.setLoop l loop).waiting l' = s.waiting l' := by
    intro l'
    by_cases hl : l' = l
    · rw [hl, waiting_setLoop]
      unfold waiting
      rw [hidle, List.append_nil, List.nil_append]
    · exact waiting_setLoop_of_ne s loop hl
  -- a functor of the queue may be of the batch now
  have hkept : ∀ c, s.KeptPending base c → (s.setLoop l loop).KeptBatch base c
      ∧ ((s.conn c).loop_ ≠ l → (s.setLoop l loop).KeptPending base c) := by
    rintro c (howner | hremove | ⟨f, hf, hc⟩)
    · exact ⟨Or.inl (Or.inl howner), fun _ => Or.inl howner⟩
    · rw [← hwaiting] at hremove
      exact ⟨Or.inl (Or.inr (Or.inl hremove)), fun _ => Or.inr (Or.inl hremove)⟩
    · -- on this loop the keeper moves with the `send`, on another nothing moves
      by_cases hl : (s.conn c).loop_ = l
      · refine ⟨Or.inr ⟨f, ?_, hc⟩, fun hne => absurd hl hne⟩
        change f ∈ ((s.setLoop l loop).loops (s.conn c).loop_).functors ++ _
        rw [hl] at hf
        rw [hl, loops_setLoop]
        exact List.mem_append_left _ hf
      · have hpend : (s.setLoop l loop).KeptPending base c := by
          refine Or.inr (Or.inr ⟨f, ?_, hc⟩)
          change f ∈ ((s.setLoop l loop).loops (s.conn c).loop_).pendingFunctors_
          rwa [loops_setLoop_of_ne s loop hl]
        exact ⟨Or.inl hpend, fun _ => hpend⟩
  constructor
  case loop =>
    intro l' c hc
    rw [hwaiting] at hc
    exact h.loop l' c hc
  case pending =>
    intro c hc
    change .send c ∈ ((s.setLoop l loop).loops (s.conn c).loop_).pendingFunctors_ at hc
    by_cases hl : (s.conn c).loop_ = l
    · rw [hl, loops_setLoop] at hc
      cases hc
    · rw [loops_setLoop_of_ne s loop hl] at hc
      exact (h.pending c hc).imp_right fun hk => (hkept c hk).2 hl
  case batch =>
    intro c hc
    change .send c ∈ ((s.setLoop l loop).loops (s.conn c).loop_).functors at hc
    by_cases hl : (s.conn c).loop_ = l
    · -- a `send` of the new batch was in the queue
      rw [hl, loops_setLoop] at hc
      exact (h.pending c (hl ▸ hc)).imp_right fun hk => (hkept c hk).1
    · rw [loops_setLoop_of_ne s loop hl] at hc
      rcases h.batch c hc with huser | hk | ⟨f, hf, hc⟩
      · exact Or.inl huser
      · exact Or.inr (hkept c hk).1
      · refine Or.inr (Or.inr ⟨f, ?_, hc⟩)
        change f ∈ ((s.setLoop l loop).loops (s.conn c).loop_).functors
          ++ ((s.setLoop l loop).loops (s.conn c).loop_).ran
        rwa [loops_setLoop_of_ne s loop hl]

/-- A batch without a functor left lets go of what it held. -/
theorem SendInv.finish (h : SendInv base s) {l : ι} (hfunctors : (s.loops l).functors = []) :
    SendInv base (s.setLoop l
      { s.loops l with functors := [], ran := [], inBatch := false }) := by
  set loop : RefLoop := { s.loops l with functors := [], ran := [], inBatch := false } with hloop
  have hwaiting : ∀ l', (s.setLoop l loop).waiting l' = s.waiting l' := by
    intro l'
    by_cases hl : l' = l
    · rw [hl, waiting_setLoop]
      unfold waiting
      rw [hfunctors]
    · exact waiting_setLoop_of_ne s loop hl
  have hpendings : ∀ l', ((s.setLoop l loop).loops l').pendingFunctors_
      = (s.loops l').pendingFunctors_ := by
    intro l'
    by_cases hl : l' = l
    · rw [hl, loops_setLoop]
    · rw [loops_setLoop_of_ne s loop hl]
  have hkept : ∀ c, s.KeptPending base c → (s.setLoop l loop).KeptPending base c := by
    intro c hk
    unfold KeptPending
    rw [hwaiting, hpendings]
    exact hk
  constructor
  case loop =>
    intro l' c hc
    rw [hwaiting] at hc
    exact h.loop l' c hc
  case pending =>
    intro c hc
    rw [hpendings] at hc
    exact (h.pending c hc).imp_right (hkept c)
  case batch =>
    intro c hc
    change .send c ∈ ((s.setLoop l loop).loops (s.conn c).loop_).functors at hc
    by_cases hl : (s.conn c).loop_ = l
    · rw [hl, loops_setLoop] at hc
      cases hc
    · rw [loops_setLoop_of_ne s loop hl] at hc
      refine (h.batch c hc).imp_right (Or.imp (hkept c) fun ⟨f, hf, hc⟩ => ⟨f, ?_, hc⟩)
      change f ∈ ((s.setLoop l loop).loops (s.conn c).loop_).functors
        ++ ((s.setLoop l loop).loops (s.conn c).loop_).ran
      rwa [loops_setLoop_of_ne s loop hl]

omit [DecidableEq ι] in
/-- The user drops a pointer that is not the last, or is not needed. -/
theorem SendInv.release (h : SendInv base s) {c' : ℕ}
    (hkeeps : KeepsSends base s (.drop c')) : SendInv base (s.release c') := by
  -- only the last pointer leaves a connection without the user
  have hheld : ∀ c, s.UserHeld c → (s.release c').UserHeld c ∨ (c = c' ∧ s.LastPointer c') := by
    rintro c (hpos | hcaller)
    · by_cases heq : c = c'
      · subst heq
        by_cases hlast : s.LastPointer c
        · exact Or.inr ⟨rfl, hlast⟩
        · refine Or.inl ?_
          unfold LastPointer at hlast
          by_cases hcaller : ∃ f ∈ s.callers, f.conn = c
          · exact Or.inr hcaller
          · push Not at hcaller
            have hone : s.user c ≠ 1 := fun hone => hlast ⟨hone, hcaller⟩
            refine Or.inl ?_
            change 0 < Function.update s.user c (s.user c - 1) c
            rw [Function.update_self]
            omega
      · refine Or.inl (Or.inl ?_)
        change 0 < Function.update s.user c' (s.user c' - 1) c
        rwa [Function.update_of_ne heq]
    · exact Or.inl (Or.inr hcaller)
  constructor
  case loop => exact h.loop
  case pending =>
    intro c hc
    rcases h.pending c hc with huser | hk
    · rcases hheld c huser with hold | ⟨rfl, hlast⟩
      · exact Or.inl hold
      · exact Or.inr ((hkeeps hlast).1 hc)
    · exact Or.inr hk
  case batch =>
    intro c hc
    rcases h.batch c hc with huser | hk
    · rcases hheld c huser with hold | ⟨rfl, hlast⟩
      · exact Or.inl hold
      · exact Or.inr ((hkeeps hlast).2 hc)
    · exact Or.inr hk

/-! ## Runs -/

variable [Fintype ι]

theorem SendInv.exec (h : SendInv base s) (hmap : MapInv base s) {l : ι} {f : RefFunctor}
    {rest : List RefFunctor} (hfunctors : (s.loops l).functors = f :: rest)
    (hs : (s.setLoop l { s.loops l with
      functors := rest, ran := (s.loops l).ran ++ [f] }).exec base f = some t) :
    SendInv base t := by
  set u := s.setLoop l { s.loops l with functors := rest, ran := (s.loops l).ran ++ [f] } with hu
  have hno : NoSend s u := by
    apply NoSend.setLoop
    · exact fun c hc => hc
    · intro c hc
      rw [hfunctors]
      exact List.mem_cons_of_mem f hc
  have hpop : f.removes = false → SendInv base u := by
    intro hremoves
    refine h.of_noSend (fun l' c _ => PassesOn.pop hfunctors fun htrue => ?_) hno
    rw [hremoves] at htrue
    cases htrue
  cases f with
  | establishInLoop c =>
      obtain rfl := Option.some.inj hs
      unfold establishInLoop
      split
      · exact hpop rfl
      · refine (hpop rfl).of_noSend (fun l' c' _ => ?_) (NoSend.of_loops rfl)
        have hconn : PassesOn base u (u.setConn c
            { u.conn c with establish_ := true, started_ := true }) c' := PassesOn.setConn rfl
        exact hconn.trans (PassesOn.hold c)
  | shutdownInLoop c =>
      obtain rfl := Option.some.inj hs
      exact hpop rfl
  | onClose c =>
      obtain rfl := Option.some.inj hs
      exact (hpop rfl).of_noSend (fun _ _ _ => PassesOn.onClose c) (NoSend.onClose c)
  | destroyInLoop c =>
      obtain rfl := Option.some.inj hs
      exact (hpop rfl).of_noSend (fun _ _ _ => PassesOn.setConn rfl) (NoSend.of_loops rfl)
  | send c =>
      change (if _ then _ else _) = some t at hs
      split at hs
      · obtain rfl := Option.some.inj hs
        exact hpop rfl
      · cases hs
  | removeConnection fd c =>
      obtain rfl := Option.some.inj hs
      refine h.of_noSend (fun _ _ _ => hmap.passesOn hfunctors) (hno.trans ?_)
      have herase : NoSend u { u with connections_ := u.connections_.erase fd } :=
        NoSend.of_loops rfl
      exact herase.trans (NoSend.runInLoop (f := .destroyInLoop c) _ rfl)

theorem SendInv.step {e : RefEvent ι} (h : SendInv base s) (hmap : MapInv base s)
    (hkernel : Kernel s e) (hkeeps : KeepsSends base s e) (hs : step base s e = some t) :
    SendInv base t := by
  have hmade : ∀ l c, .send c ∈ s.waiting l → c < s.made := fun l c hc => hmap.waits l _ hc
  have hhold : ∀ c, SendInv base (s.hold c) := fun c =>
    h.of_noSend (fun _ _ _ => PassesOn.hold c) (NoSend.of_loops rfl)
  cases move_of_step hs with
  | setEventLoopThreadPool pool =>
      exact h.of_noSend (fun _ _ _ => PassesOn.of_users rfl rfl id id) (NoSend.of_loops rfl)
  | accept haccept =>
      obtain ⟨⟨l, index⟩, -, rfl⟩ := Option.map_eq_some_iff.mp haccept
      refine h.of_noSend ?_ (NoSend.of_loops rfl)
      intro l' c hc
      have hindex : PassesOn base s { s with indexLoop_ := index } c :=
        PassesOn.of_users rfl rfl id id
      apply hindex.trans
      refine PassesOn.make (hmade l' c hc) ?_ id
      intro fd' hlookup
      refine (AList.lookup_insert_ne fun hfd => ?_).trans hlookup
      have hnone := hmap.fresh hkernel
      rw [← hfd] at hnone
      cases hlookup.symm.trans hnone
  | connect l fd =>
      refine h.of_noSend ?_ (NoSend.of_loops rfl)
      intro l' c hc
      refine PassesOn.make (hmade l' c hc) (fun _ hlookup => hlookup) ?_
      intro hfield
      rwa [Function.update_of_ne (Nat.ne_of_lt (hmade l' c hc))]
  | copy _ => exact hhold _
  | drop _ => exact h.release hkeeps
  | callback _ => exact hhold _
  | @hangup c _ => exact h.of_noSend (fun _ _ _ => PassesOn.onClose c) (NoSend.onClose c)
  | @call f _ _ => exact h.of_noSend (fun _ _ _ => PassesOn.call f) (NoSend.of_loops rfl)
  | @push i f hf =>
      apply h.of_passesOn
      · exact fun _ _ _ => (PassesOn.returned hf).trans (PassesOn.runInLoop _ f)
      · intro l c hc
        rcases pending_runInLoop _ hc with hold | ⟨rfl, rfl⟩
        · exact Or.inl hold
        · -- the thread that pushes a `send` has its pointer back
          refine Or.inr ⟨rfl, Or.inl ?_⟩
          change 0 < Function.update s.user c (s.user c + 1) c
          rw [Function.update_self]
          exact Nat.succ_pos _
      · intro l c hc
        rwa [functors_runInLoop] at hc
  | @swap l hbatch => exact h.swap (hmap.idle l hbatch).1
  | run hfunctors hexec => exact h.exec hmap hfunctors hexec
  | finish hfunctors => exact h.finish hfunctors

/-- **No send outlives its connection while no drop breaks the chain.** In every
run of accepts, connects, calls in two steps, hang-ups and other callbacks, and
batches on any number of loops, in which the user does not drop its last pointer
to a connection that a `send` waits for and nothing else keeps: a `send` at the
head of a batch is of a connection that has not been destroyed. -/
theorem send_alive {es : List (RefEvent ι)}
    (hkernel : Along (ConnRefs.step base) Kernel (init base) es)
    (hkeeps : Along (ConnRefs.step base) (KeepsSends base) (init base) es)
    (hrun : run (ConnRefs.step base) (init base) es = some s) {l : ι} {rest : List RefFunctor}
    (hfunctors : (s.loops l).functors = .send c :: rest) : s.Held c := by
  have h : SendInv base s ∧ MapInv base s := by
    refine run_inv_along (I := fun s => SendInv base s ∧ MapInv base s) (fun s e s' hs hC ht => ?_)
      ⟨sendInv_init base base, mapInv_init base base⟩ (along_and _ hkernel hkeeps) hrun
    exact ⟨hs.1.step hs.2 hC.1 hC.2 ht, hs.2.step hC.1 ht⟩
  have hmem : .send c ∈ (s.loops l).functors := hfunctors ▸ List.mem_cons_self
  rw [h.1.loop l c (List.mem_append_left _ hmem)] at hmem
  rcases h.1.batch c hmem with huser | hkept
  · exact Or.inl huser
  · exact hkept.held

/-- The user drops its last pointer while the server still has its own. -/
theorem send_alive_owned : ∃ s : ConnRefs Bool,
    run (ConnRefs.step false) (init false) [.setEventLoopThreadPool (some [true]), .accept 5,
      .call (.send 0), .push 0, .drop 0, .swap true] = some s
    ∧ (s.loops true).functors = [.send 0] ∧ ¬ s.UserHeld 0 ∧ s.Held 0 := by
  have heval : (run (ConnRefs.step false) (init false) [.setEventLoopThreadPool (some [true]),
      .accept 5, .call (.send 0), .push 0, .drop 0, .swap true]).map
        (fun s => ((s.loops true).functors, decide (s.UserHeld 0))) = some ([.send 0], false) := by
    decide +kernel
  obtain ⟨s, hrun, hs⟩ := Option.map_eq_some_iff.mp heval
  obtain ⟨hfunctors, huser⟩ := Prod.mk.inj hs
  exact ⟨s, hrun, hfunctors, of_decide_eq_false huser,
    send_alive (by decide +kernel) (by decide +kernel) hrun hfunctors⟩

/-- A thread is past the test of `sendPack` when another one closes the
connection, which goes through its whole end. Then the first thread pushes, and
the pointers are dropped. -/
theorem send_outlives : ¬ ∀ (es : List (RefEvent Bool)) (s : ConnRefs Bool),
    Along (ConnRefs.step false) Kernel (init false) es →
    run (ConnRefs.step false) (init false) es = some s →
    ∀ l c rest, (s.loops l).functors = .send c :: rest → s.Held c := by
  intro h
  have heval : (run (ConnRefs.step false) (init false) [.setEventLoopThreadPool (some [true]),
      .accept 5, .copy 0, .call (.send 0), .call (.onClose 0), .push 1,
      .swap true, .run true, .run true, .swap false, .run false, .run false,
      .swap true, .run true, .run true, .push 0, .drop 0, .drop 0, .drop 0, .swap true]).map
        (fun s => ((s.loops true).functors, decide (s.Held 0))) = some ([.send 0], false) := by
    decide +kernel
  obtain ⟨s, hrun, hs⟩ := Option.map_eq_some_iff.mp heval
  obtain ⟨hfunctors, hheld⟩ := Prod.mk.inj hs
  exact of_decide_eq_false hheld (h _ s (by decide +kernel) hrun true 0 [] hfunctors)

end ConnRefs

end Libiak.Net
