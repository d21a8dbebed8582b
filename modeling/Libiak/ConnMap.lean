/-
The connection map of `net/TcpServer.cpp`.

The map is keyed by descriptors, the kernel gives a descriptor out again once it
is closed, and `removeConnection` erases by the key alone, on the loop of the
server, some time after the loop of the connection has seen the close. What keeps
this right is who holds the connection: from `onAccept` until its own
`removeConnection` has run there is the entry, so that nothing destroys it and
the descriptor stays its own.

So much for one connection is a matter of counting (`MapInv`): before the close
callback no `removeConnection` for it waits, from then on exactly one, until it
has run.
-/
import Libiak.ConnRefs

set_option autoImplicit false

namespace Libiak.Net

open Libiak.Run

namespace RefFunctor

/-- The functor is a `removeConnection`. -/
def removes : RefFunctor → Bool
  | .removeConnection _ _ => true
  | _ => false

theorem ne_removeConnection {f : RefFunctor} (h : f.removes = false) (fd c : ℕ) :
    f ≠ .removeConnection fd c := by
  rintro rfl
  cases h

end RefFunctor

namespace ConnRefs

variable {ι : Type*}

/-- `c` was made by the server, whose close callback is bound to `fd`. -/
def Bound (s : ConnRefs ι) (c fd : ℕ) : Prop :=
  c < s.made ∧ (s.conn c).closeCallback_ = .ofServer fd

/-- The functors `removeConnection(fd, c)` that wait on `base`. -/
def removals (base : ι) (s : ConnRefs ι) (fd c : ℕ) : ℕ :=
  (s.waiting base).count (.removeConnection fd c)

/-- The invariant of the map. -/
structure MapInv (base : ι) (s : ConnRefs ι) : Prop where
  entry : ∀ fd c, s.connections_.lookup fd = some c → s.Bound c fd
  bound : ∀ fd c, s.Bound c fd → (s.conn c).sockFd_ = fd
  open_ : ∀ fd c, s.Bound c fd → (s.conn c).close_ = false → s.connections_.lookup fd = some c
  removal : ∀ fd c, s.Bound c fd → s.removals base fd c
    = if (s.conn c).close_ = true ∧ s.connections_.lookup fd = some c then 1 else 0
  calls : ∀ c, s.closeCallbacks c = if c < s.made ∧ (s.conn c).close_ = true then 1 else 0
  waits : ∀ l, ∀ f ∈ s.waiting l, f.conn < s.made
  removes : ∀ l fd c, .removeConnection fd c ∈ s.waiting l → l = base ∧ s.Bound c fd
  callers : ∀ f ∈ s.callers, f.conn < s.made ∧ f.removes = false
  user : ∀ c, 0 < s.user c → c < s.made
  idle : ∀ l, (s.loops l).Idle

theorem mapInv_init (base loop : ι) : MapInv base (init loop) where
  entry := fun fd c h => by simp [init] at h
  bound := fun fd c h => absurd h.1 (Nat.not_lt_zero c)
  open_ := fun fd c h => absurd h.1 (Nat.not_lt_zero c)
  removal := fun fd c h => absurd h.1 (Nat.not_lt_zero c)
  calls := fun c => (if_neg fun h => Nat.not_lt_zero c h.1).symm
  waits := fun l f hf => by simp [init, waiting] at hf
  removes := fun l fd c hf => by simp [init, waiting] at hf
  callers := fun f hf => by simp [init] at hf
  user := fun c h => absurd h (Nat.lt_irrefl 0)
  idle := fun l _ => ⟨rfl, rfl⟩

variable [DecidableEq ι] {base : ι} {s t : ConnRefs ι}

/-! ## What leaves the map alone -/

/-- A loop with another queue, of the same functors `removeConnection`. -/
theorem MapInv.setLoop (h : MapInv base s) {l : ι} {loop : RefLoop}
    (hwait : ∀ f ∈ loop.functors ++ loop.pendingFunctors_,
      f ∈ s.waiting l ∨ (f.conn < s.made ∧ f.removes = false))
    (hcount : ∀ fd c, (loop.functors ++ loop.pendingFunctors_).count (.removeConnection fd c)
      = (s.waiting l).count (.removeConnection fd c)) (hidle : loop.Idle) :
    MapInv base (s.setLoop l loop) where
  entry := h.entry
  bound := h.bound
  open_ := h.open_
  removal := fun fd c hb => by
    -- the count is about the loop of the server only
    refine Eq.trans ?_ (h.removal fd c hb)
    unfold removals
    by_cases hl : base = l
    · rw [hl, waiting_setLoop, hcount]
    · rw [waiting_setLoop_of_ne s loop hl]
  calls := h.calls
  waits := fun l' f hf => by
    by_cases hl : l' = l
    · rw [hl, waiting_setLoop] at hf
      rcases hwait f hf with hold | hnew
      · exact h.waits l f hold
      · exact hnew.1
    · rw [waiting_setLoop_of_ne s loop hl] at hf
      exact h.waits l' f hf
  removes := fun l' fd c hf => by
    by_cases hl : l' = l
    · rw [hl, waiting_setLoop] at hf
      rcases hwait _ hf with hold | hnew
      · exact hl ▸ h.removes l fd c hold
      · cases hnew.2
    · rw [waiting_setLoop_of_ne s loop hl] at hf
      exact h.removes l' fd c hf
  callers := h.callers
  user := h.user
  idle := fun l' => by
    by_cases hl : l' = l
    · rw [hl, loops_setLoop]
      exact hidle
    · rw [loops_setLoop_of_ne s loop hl]
      exact h.idle l'

theorem MapInv.runInLoop (h : MapInv base s) (l : ι) {f : RefFunctor} (hf : f.conn < s.made)
    (hremoves : f.removes = false) : MapInv base (s.runInLoop l f) := by
  apply h.setLoop
  · intro g hg
    rw [← List.append_assoc, List.mem_append, List.mem_singleton] at hg
    rcases hg with hold | rfl
    · exact Or.inl hold
    · exact Or.inr ⟨hf, hremoves⟩
  · intro fd c
    have hne : f ≠ .removeConnection fd c := RefFunctor.ne_removeConnection hremoves fd c
    rw [← List.append_assoc, List.count_append, List.count_singleton, if_neg (by simpa using hne)]
    rfl
  · exact h.idle l

/-- A functor other than `removeConnection` is taken out of the batch. -/
theorem MapInv.pop (h : MapInv base s) {l : ι} {f : RefFunctor} {rest ran : List RefFunctor}
    (hfunctors : (s.loops l).functors = f :: rest) (hremoves : f.removes = false) :
    MapInv base (s.setLoop l { s.loops l with functors := rest, ran := ran }) := by
  have hwaiting : s.waiting l = f :: (rest ++ (s.loops l).pendingFunctors_) := by
    unfold waiting
    rw [hfunctors, List.cons_append]
  apply h.setLoop
  · intro g hg
    rw [hwaiting]
    exact Or.inl (List.mem_cons_of_mem f hg)
  · intro fd c
    have hne : f ≠ .removeConnection fd c := RefFunctor.ne_removeConnection hremoves fd c
    rw [hwaiting, List.count_cons_of_ne hne]
  · exact (h.idle l).pop hfunctors

omit [DecidableEq ι] in
/-- A connection that has neither another descriptor nor another callback, and is
as closed as it was. -/
theorem MapInv.setConn (h : MapInv base s) {c : ℕ} {conn : RefConn ι}
    (hfd : conn.sockFd_ = (s.conn c).sockFd_) (hclose : conn.close_ = (s.conn c).close_)
    (hcallback : conn.closeCallback_ = (s.conn c).closeCallback_) :
    MapInv base (s.setConn c conn) := by
  have hfd' := s.setConn_keeps RefConn.sockFd_ conn hfd
  have hclose' := s.setConn_keeps RefConn.close_ conn hclose
  have hbound : ∀ c' fd, (s.setConn c conn).Bound c' fd ↔ s.Bound c' fd := by
    intro c' fd
    unfold Bound
    rw [s.setConn_keeps RefConn.closeCallback_ conn hcallback]
    rfl
  constructor
  case entry => exact fun fd c' hlookup => (hbound c' fd).mpr (h.entry fd c' hlookup)
  case bound => exact fun fd c' hb => (hfd' c').trans (h.bound fd c' ((hbound c' fd).mp hb))
  case open_ =>
    exact fun fd c' hb hopen =>
      h.open_ fd c' ((hbound c' fd).mp hb) ((hclose' c').symm.trans hopen)
  case removal =>
    intro fd c' hb
    rw [hclose']
    exact h.removal fd c' ((hbound c' fd).mp hb)
  case calls =>
    intro c'
    rw [hclose']
    exact h.calls c'
  case waits => exact h.waits
  case removes =>
    intro l fd c' hf
    rw [hbound]
    exact h.removes l fd c' hf
  case callers => exact h.callers
  case user => exact h.user
  case idle => exact h.idle

omit [DecidableEq ι] in
/-- Nothing but the pointers of the user and the threads, the fields of the
clients and the choice of the next loop has changed. -/
theorem MapInv.frame (h : MapInv base s) {pool : Option (List ι)} {index : ℕ} {field : ℕ → Bool}
    {user : ℕ → ℕ} {callers : List RefFunctor} (huser : ∀ c, 0 < user c → c < s.made)
    (hcallers : ∀ f ∈ callers, f.conn < s.made ∧ f.removes = false) :
    MapInv base { s with
      loopThreadPool_ := pool, indexLoop_ := index, connection_ := field, user := user
      callers := callers } :=
  ⟨h.entry, h.bound, h.open_, h.removal, h.calls, h.waits, h.removes, hcallers, huser, h.idle⟩

omit [DecidableEq ι] in
theorem MapInv.hold (h : MapInv base s) {c : ℕ} (hc : c < s.made) : MapInv base (s.hold c) := by
  refine h.frame (fun c' hpos => ?_) h.callers
  by_cases heq : c' = c
  · exact heq ▸ hc
  · rw [Function.update_of_ne heq] at hpos
    exact h.user c' hpos

omit [DecidableEq ι] in
theorem MapInv.release (h : MapInv base s) (c : ℕ) : MapInv base (s.release c) := by
  refine h.frame (fun c' hpos => ?_) h.callers
  by_cases heq : c' = c
  · rw [heq, Function.update_self] at hpos
    exact heq ▸ h.user c (Nat.lt_of_lt_of_le hpos (Nat.sub_le _ 1))
  · rw [Function.update_of_ne heq] at hpos
    exact h.user c' hpos

/-! ## What changes it -/

omit [DecidableEq ι] in
/-- A new connection, with its entry in the map if it is the server's. -/
theorem MapInv.make (h : MapInv base s) {l : ι} {fd : ℕ} {callback : CloseCallback}
    {map : AList fun _ : ℕ => ℕ} {field : ℕ → Bool}
    (hcallback : ∀ fd', callback = .ofServer fd' → fd = fd')
    (hmap : ∀ fd' c, map.lookup fd' = some c
      ↔ s.connections_.lookup fd' = some c ∨ (c = s.made ∧ callback = .ofServer fd')) :
    MapInv base { s.make l fd callback with connections_ := map, connection_ := field } := by
  have hold : ∀ {c}, c < s.made → (s.make l fd callback).conn c = s.conn c :=
    fun hc => s.conn_setConn_of_ne _ (Nat.ne_of_lt hc)
  have hnew : (s.make l fd callback).conn s.made = _ := s.conn_setConn s.made _
  have hbound : ∀ c fd', ({ s.make l fd callback with
      connections_ := map, connection_ := field } : ConnRefs ι).Bound c fd'
        ↔ s.Bound c fd' ∨ (c = s.made ∧ callback = .ofServer fd') := by
    intro c fd'
    unfold Bound
    constructor
    · rintro ⟨hc, hb⟩
      rcases Nat.lt_succ_iff_lt_or_eq.mp hc with hc | rfl
      · exact Or.inl ⟨hc, by rwa [hold hc] at hb⟩
      · exact Or.inr ⟨rfl, by rwa [hnew] at hb⟩
    · rintro (⟨hc, hb⟩ | ⟨rfl, hb⟩)
      · exact ⟨Nat.lt_succ_of_lt hc, by rwa [hold hc]⟩
      · exact ⟨Nat.lt_succ_self _, by rwa [hnew]⟩
  constructor
  case entry =>
    intro fd' c hlookup
    rw [hbound]
    exact ((hmap fd' c).mp hlookup).imp_left (h.entry fd' c)
  case bound =>
    intro fd' c hb
    rcases (hbound c fd').mp hb with hb | ⟨rfl, heq⟩
    · rw [hold hb.1]
      exact h.bound fd' c hb
    · rw [hnew]
      exact hcallback fd' heq
  case open_ =>
    intro fd' c hb hopen
    rcases (hbound c fd').mp hb with hb | hb
    · rw [hold hb.1] at hopen
      exact (hmap fd' c).mpr (Or.inl (h.open_ fd' c hb hopen))
    · exact (hmap fd' c).mpr (Or.inr hb)
  case removal =>
    intro fd' c hb
    rcases (hbound c fd').mp hb with hb | ⟨rfl, -⟩
    · -- the new entry is not that of an old connection
      have hne : c ≠ s.made := Nat.ne_of_lt hb.1
      simp only [hold hb.1, hmap, hne, false_and, or_false]
      exact h.removal fd' c hb
    · -- nothing that waits can be about a connection that was not made
      rw [hnew, if_neg (by simp)]
      exact List.count_eq_zero.mpr fun hmem => Nat.lt_irrefl _ (h.waits base _ hmem)
  case calls =>
    intro c
    refine (h.calls c).trans (if_congr ?_ rfl rfl)
    rcases Nat.lt_trichotomy c s.made with hc | rfl | hc
    · rw [hold hc]
      exact and_congr_left fun _ => ⟨Nat.lt_succ_of_lt, fun _ => hc⟩
    · rw [hnew]
      simp
    · exact ⟨fun hlt => absurd hlt.1 (Nat.lt_asymm hc),
        fun hlt => absurd hlt.1 (Nat.not_lt_of_le hc)⟩
  case waits => exact fun l' f hf => Nat.lt_succ_of_lt (h.waits l' f hf)
  case removes =>
    intro l' fd' c hf
    rw [hbound]
    exact (h.removes l' fd' c hf).imp_right Or.inl
  case callers => exact fun f hf => (h.callers f hf).imp_left Nat.lt_succ_of_lt
  case user =>
    intro c hpos
    by_cases hc : c = s.made
    · exact hc ▸ Nat.lt_succ_self s.made
    · have hpos : 0 < Function.update s.user s.made _ c := hpos
      rw [Function.update_of_ne hc] at hpos
      exact Nat.lt_succ_of_lt (h.user c hpos)
  case idle => exact h.idle

omit [DecidableEq ι] in
/-- The kernel does not return a descriptor that the map has an entry for. -/
theorem MapInv.fresh (h : MapInv base s) {fd : ℕ}
    (hkernel : ∀ c < s.made, s.Held c → (s.conn c).sockFd_ ≠ fd) :
    s.connections_.lookup fd = none := by
  -- its connection is held by the entry itself, and has not closed the descriptor
  by_contra hsome
  obtain ⟨c, hc⟩ := Option.ne_none_iff_exists'.mp hsome
  have hb := h.entry fd c hc
  exact hkernel c hb.1 (held_of_lookup hc) (h.bound fd c hb)

omit [DecidableEq ι] in
theorem MapInv.onAccept (h : MapInv base s) {fd : ℕ}
    (hkernel : ∀ c < s.made, s.Held c → (s.conn c).sockFd_ ≠ fd)
    (hs : s.onAccept base fd = some t) : MapInv base t := by
  have hfresh := h.fresh hkernel
  have haccepted : ∀ (l : ι) (index : ℕ), MapInv base
      { ({ s with indexLoop_ := index } : ConnRefs ι).make l fd (.ofServer fd) with
        connections_ := s.connections_.insert fd s.made } := by
    intro l index
    have hindex : MapInv base { s with indexLoop_ := index } := h.frame h.user h.callers
    apply hindex.make
    · exact fun fd' heq => CloseCallback.ofServer.inj heq
    · intro fd' c
      by_cases hfd : fd' = fd
      · subst hfd
        rw [AList.lookup_insert, hfresh]
        simp [eq_comm]
      · rw [AList.lookup_insert_ne hfd]
        simp [Ne.symm hfd]
  obtain ⟨⟨l, index⟩, -, rfl⟩ := Option.map_eq_some_iff.mp hs
  exact haccepted l index

omit [DecidableEq ι] in
theorem MapInv.onConnect (h : MapInv base s) (l : ι) (fd : ℕ) :
    MapInv base (s.onConnect l fd) := by
  apply h.make
  · exact fun fd' heq => nomatch heq
  · intro fd' c
    exact ⟨Or.inl, fun hor => hor.elim id fun hnew => nomatch hnew.2⟩

/-- The functors the close callback of a connection pushes to the loop of the
server. -/
def closeFunctors (s : ConnRefs ι) (c : ℕ) : List RefFunctor :=
  match (s.conn c).closeCallback_ with
  | .ofServer fd => [.removeConnection fd c]
  | .ofClient => []

omit [DecidableEq ι] in
theorem mem_closeFunctors {c fd c' : ℕ} :
    .removeConnection fd c' ∈ s.closeFunctors c
      ↔ c' = c ∧ (s.conn c).closeCallback_ = .ofServer fd := by
  unfold closeFunctors
  cases hcb : (s.conn c).closeCallback_ with
  | ofServer fd' => simp [and_comm, eq_comm]
  | ofClient => simp

/-- A connection is closed, and its callback has pushed its functors to the loop
of the server. -/
theorem MapInv.close (h : MapInv base s) {c : ℕ} (hc : c < s.made)
    (hopen : (s.conn c).close_ = false) (loop : RefLoop)
    (hloop : loop.functors ++ loop.pendingFunctors_ = s.waiting base ++ s.closeFunctors c)
    (hidle : loop.Idle) :
    MapInv base ((s.closing c).setLoop base loop) := by
  set u := (s.closing c).setLoop base loop with hu
  have hself : u.conn c = { s.conn c with close_ := true } := s.conn_closing c
  have hother : ∀ {c'}, c' ≠ c → u.conn c' = s.conn c' := fun hne => s.conn_closing_of_ne hne
  have hbound : ∀ c' fd, u.Bound c' fd ↔ s.Bound c' fd := by
    intro c' fd
    unfold Bound
    rw [show (u.conn c').closeCallback_ = (s.conn c').closeCallback_ from
      s.setConn_keeps RefConn.closeCallback_ { s.conn c with close_ := true } rfl c']
    rfl
  have hwaiting : u.waiting base = s.waiting base ++ s.closeFunctors c := by
    rw [waiting_setLoop, hloop]
  have hremovals : ∀ fd c', s.Bound c' fd → u.removals base fd c'
      = s.removals base fd c' + if c' = c then 1 else 0 := by
    intro fd c' hb
    unfold removals
    rw [hwaiting, List.count_append]
    congr 1
    by_cases heq : c' = c
    · subst heq
      unfold closeFunctors
      rw [hb.2, if_pos rfl, List.count_singleton_self]
    · rw [if_neg heq]
      exact List.count_eq_zero.mpr fun hmem => heq (mem_closeFunctors.mp hmem).1
  constructor
  case entry => exact fun fd c' hlookup => (hbound c' fd).mpr (h.entry fd c' hlookup)
  case bound =>
    intro fd c' hb
    refine Eq.trans ?_ (h.bound fd c' ((hbound c' fd).mp hb))
    exact s.setConn_keeps RefConn.sockFd_ { s.conn c with close_ := true } rfl c'
  case open_ =>
    intro fd c' hb hopen'
    by_cases heq : c' = c
    · rw [heq, hself] at hopen'
      cases hopen'
    · rw [hother heq] at hopen'
      exact h.open_ fd c' ((hbound c' fd).mp hb) hopen'
  case removal =>
    intro fd c' hb
    have hb' := (hbound c' fd).mp hb
    rw [hremovals fd c' hb', h.removal fd c' hb']
    by_cases heq : c' = c
    · -- none waited while it was open, and its entry is there
      subst heq
      rw [hself, hopen, if_neg (by simp), if_pos rfl, if_pos ⟨rfl, h.open_ fd c' hb' hopen⟩]
    · rw [hother heq, if_neg heq]
      rfl
  case calls =>
    intro c'
    by_cases heq : c' = c
    · subst heq
      rw [hself, if_pos ⟨hc, rfl⟩]
      have hzero := h.calls c'
      rw [hopen, if_neg (by simp)] at hzero
      simp only [hu, ConnRefs.setLoop, closing, Function.update_self, hzero]
    · rw [hother heq]
      simp only [hu, ConnRefs.setLoop, closing, Function.update_of_ne heq]
      exact h.calls c'
  case waits =>
    intro l f hf
    by_cases hl : l = base
    · rw [hl, hwaiting, List.mem_append] at hf
      rcases hf with hold | hnew
      · exact h.waits base f hold
      · unfold closeFunctors at hnew
        split at hnew
        · rw [List.mem_singleton] at hnew
          exact hnew ▸ hc
        · cases hnew
    · rw [waiting_setLoop_of_ne _ loop hl] at hf
      exact h.waits l f hf
  case removes =>
    intro l fd c' hf
    rw [hbound]
    by_cases hl : l = base
    · rw [hl, hwaiting, List.mem_append] at hf
      rcases hf with hold | hnew
      · exact ⟨hl, (h.removes base fd c' hold).2⟩
      · obtain ⟨rfl, hcb⟩ := mem_closeFunctors.mp hnew
        exact ⟨hl, hc, hcb⟩
    · rw [waiting_setLoop_of_ne _ loop hl] at hf
      exact h.removes l fd c' hf
  case callers => exact h.callers
  case user => exact (h.hold hc).user
  case idle =>
    intro l
    by_cases hl : l = base
    · rw [hl, loops_setLoop]
      exact hidle
    · rw [loops_setLoop_of_ne _ loop hl]
      exact h.idle l

theorem MapInv.onClose (h : MapInv base s) {c : ℕ} (hc : c < s.made) :
    MapInv base (s.onClose base c) := by
  rcases s.onClose_cases base c with heq | ⟨hopen, ⟨fd, hcb, heq⟩ | ⟨hcb, heq⟩⟩
  · rw [heq]
    exact h
  · -- the server's callback pushes the removal
    rw [heq]
    apply h.close hc hopen
    · unfold closeFunctors
      rw [hcb, ← List.append_assoc]
      rfl
    · exact h.idle base
  · -- the client's does without
    rw [heq]
    have hclosing : MapInv base (s.closing c) := by
      have hloop := h.close hc hopen (s.loops base) (by
        unfold closeFunctors
        rw [hcb, List.append_nil]
        rfl) (h.idle base)
      rwa [show (s.closing c).setLoop base (s.loops base) = s.closing c from
        congrArg (fun loops => { s.closing c with loops := loops })
          (Function.update_eq_self base s.loops)] at hloop
    unfold clientOnClose
    split
    · have hdestroy : MapInv base ((s.closing c).destroy c) := hclosing.runInLoop _ hc rfl
      exact hdestroy.frame hdestroy.user hdestroy.callers
    · exact hclosing

/-! ## Its own entry -/

omit [DecidableEq ι] in
/-- A `removeConnection` at the head of a batch is on the loop of the server, and
the entry under its descriptor is that of its connection. -/
theorem MapInv.head (h : MapInv base s) {l : ι} {fd c : ℕ} {rest : List RefFunctor}
    (hfunctors : (s.loops l).functors = .removeConnection fd c :: rest) :
    l = base ∧ s.Bound c fd ∧ (s.conn c).close_ = true ∧ s.connections_.lookup fd = some c
      ∧ (rest ++ (s.loops l).pendingFunctors_).count (.removeConnection fd c) = 0 := by
  have hwaiting : s.waiting l
      = .removeConnection fd c :: (rest ++ (s.loops l).pendingFunctors_) := by
    unfold waiting
    rw [hfunctors, List.cons_append]
  obtain ⟨rfl, hb⟩ := h.removes l fd c (hwaiting ▸ List.mem_cons_self)
  have hcount := h.removal fd c hb
  unfold removals at hcount
  rw [hwaiting, List.count_cons_self] at hcount
  split at hcount
  case isTrue hif => exact ⟨rfl, hb, hif.1, hif.2, Nat.succ.inj hcount⟩
  case isFalse => exact absurd hcount (Nat.succ_ne_zero _)

/-- The entry goes with the functor. -/
theorem MapInv.erase (h : MapInv base s) {l : ι} {fd c : ℕ} {rest ran : List RefFunctor}
    (hfunctors : (s.loops l).functors = .removeConnection fd c :: rest) :
    MapInv base { s.setLoop l { s.loops l with functors := rest, ran := ran } with
      connections_ := s.connections_.erase fd } := by
  obtain ⟨rfl, hb, hclose, hentry, hzero⟩ := h.head hfunctors
  have hwaiting : s.waiting l
      = .removeConnection fd c :: (rest ++ (s.loops l).pendingFunctors_) := by
    unfold waiting
    rw [hfunctors, List.cons_append]
  have hsub : ∀ l', ∀ f ∈ (s.setLoop l { s.loops l with
      functors := rest, ran := ran }).waiting l', f ∈ s.waiting l' := by
    intro l' f hf
    by_cases hl : l' = l
    · rw [hl, waiting_setLoop] at hf
      rw [hl, hwaiting]
      exact List.mem_cons_of_mem _ hf
    · rwa [waiting_setLoop_of_ne s _ hl] at hf
  constructor
  case entry =>
    intro fd' c' hlookup
    by_cases hfd : fd' = fd
    · rw [hfd, AList.lookup_erase] at hlookup
      cases hlookup
    · rw [AList.lookup_erase_ne hfd] at hlookup
      exact h.entry fd' c' hlookup
  case bound => exact h.bound
  case open_ =>
    intro fd' c' hb' hopen
    have hentry' := h.open_ fd' c' hb' hopen
    by_cases hfd : fd' = fd
    · -- the entry under `fd` is that of `c`, which is closed
      have heq : c = c' := Option.some.inj (hentry.symm.trans (hfd ▸ hentry'))
      change (s.conn c').close_ = false at hopen
      rw [← heq, hclose] at hopen
      cases hopen
    · exact (AList.lookup_erase_ne hfd).trans hentry'
  case removal =>
    intro fd' c' hb'
    have hcount := h.removal fd' c' hb'
    unfold removals at hcount
    rw [hwaiting] at hcount
    change ((s.setLoop l { s.loops l with functors := rest, ran := ran }).waiting l).count
        (.removeConnection fd' c')
      = if (s.conn c').close_ = true ∧ (s.connections_.erase fd).lookup fd' = some c' then 1 else 0
    rw [waiting_setLoop]
    by_cases hfd : fd' = fd
    · subst hfd
      rw [AList.lookup_erase, if_neg (by simp)]
      by_cases heq : c' = c
      · -- its only removal has just run
        rw [heq]
        exact hzero
      · -- another connection that had this descriptor has no entry, and no removal
        rw [hentry, if_neg fun hif => heq (Option.some.inj hif.2).symm] at hcount
        exact Nat.eq_zero_of_le_zero (hcount ▸ List.count_le_count_cons)
    · rw [List.count_cons_of_ne fun heq => hfd (RefFunctor.removeConnection.inj heq).1.symm]
        at hcount
      rw [AList.lookup_erase_ne hfd]
      exact hcount
  case calls => exact h.calls
  case waits => exact fun l' f hf => h.waits l' f (hsub l' f hf)
  case removes => exact fun l' fd' c' hf => h.removes l' fd' c' (hsub l' _ hf)
  case callers => exact h.callers
  case user => exact h.user
  case idle =>
    intro l'
    by_cases hl : l' = l
    · rw [hl]
      change ((s.setLoop l _).loops l).Idle
      rw [loops_setLoop]
      exact (h.idle l).pop hfunctors
    · change ((s.setLoop l _).loops l').Idle
      rw [loops_setLoop_of_ne s _ hl]
      exact h.idle l'

/-! ## Runs -/

variable [Fintype ι]

/-- The functor at the head of a batch has been run. -/
theorem MapInv.exec (h : MapInv base s) {l : ι} {f : RefFunctor} {rest ran : List RefFunctor}
    (hfunctors : (s.loops l).functors = f :: rest)
    (hs : (s.setLoop l { s.loops l with functors := rest, ran := ran }).exec base f = some t) :
    MapInv base t := by
  have hc : f.conn < s.made := by
    refine h.waits l f ?_
    unfold waiting
    rw [hfunctors]
    exact List.mem_append_left _ List.mem_cons_self
  have hpop : f.removes = false →
      MapInv base (s.setLoop l { s.loops l with functors := rest, ran := ran }) :=
    fun hremoves => h.pop hfunctors hremoves
  cases f with
  | establishInLoop c =>
      obtain rfl := Option.some.inj hs
      unfold ConnRefs.establishInLoop
      split
      · exact hpop rfl
      · refine MapInv.hold ?_ hc
        apply (hpop rfl).setConn <;> rfl
  | shutdownInLoop c =>
      obtain rfl := Option.some.inj hs
      exact hpop rfl
  | onClose c =>
      obtain rfl := Option.some.inj hs
      exact (hpop rfl).onClose hc
  | destroyInLoop c =>
      obtain rfl := Option.some.inj hs
      exact (hpop rfl).setConn rfl rfl rfl
  | send c =>
      change (if _ then _ else _) = some t at hs
      split at hs
      · obtain rfl := Option.some.inj hs
        exact hpop rfl
      · cases hs
  | removeConnection fd c =>
      obtain rfl := Option.some.inj hs
      exact (h.erase hfunctors).runInLoop _ hc rfl

theorem MapInv.step {e : RefEvent ι} (h : MapInv base s) (hkernel : Kernel s e)
    (hs : step base s e = some t) : MapInv base t := by
  cases move_of_step hs with
  | setEventLoopThreadPool pool => exact h.frame h.user h.callers
  | accept haccept => exact h.onAccept hkernel haccept
  | connect l fd => exact h.onConnect l fd
  | @copy c hpos => exact h.hold (h.user c hpos)
  | @drop c _ => exact h.release c
  | callback hhandling => exact h.hold hhandling.1
  | hangup hhandling => exact h.onClose hhandling.1
  | @call f hpos hadmits =>
      refine (h.release f.conn).frame (h.release f.conn).user ?_
      intro g hg
      rcases List.mem_append.mp hg with hold | hnew
      · exact h.callers g hold
      · rw [List.mem_singleton.mp hnew]
        refine ⟨h.user f.conn hpos, ?_⟩
        -- `removeConnection` is no function of the user's
        cases f with
        | removeConnection fd c => cases hadmits
        | _ => rfl
  | @push i f hf =>
      obtain ⟨hc, hremoves⟩ := h.callers f (List.mem_of_getElem? hf)
      have hcallers : MapInv base { s with callers := s.callers.eraseIdx i } :=
        h.frame h.user fun g hg => h.callers g (List.mem_of_mem_eraseIdx hg)
      exact (hcallers.hold hc).runInLoop _ hc hremoves
  | @swap l hbatch =>
      have hwaiting : s.waiting l = (s.loops l).pendingFunctors_ := by
        unfold waiting
        rw [(h.idle l hbatch).1, List.nil_append]
      apply h.setLoop
      · rw [hwaiting, List.append_nil]
        exact fun f hf => Or.inl hf
      · rw [hwaiting, List.append_nil]
        exact fun _ _ => rfl
      · exact fun hfalse => nomatch hfalse
  | run hfunctors hexec => exact h.exec hfunctors hexec
  | @finish l hfunctors =>
      have hwaiting : s.waiting l = (s.loops l).pendingFunctors_ := by
        unfold waiting
        rw [hfunctors, List.nil_append]
      apply h.setLoop
      · rw [hwaiting]
        exact fun f hf => Or.inl hf
      · rw [hwaiting]
        exact fun _ _ => rfl
      · exact fun _ => ⟨rfl, rfl⟩

/-- **The connection map is keyed right.** In every run of accepts, connects,
calls of the public functions in two steps each, hang-ups and other callbacks,
batches of queued functors on any number of loops, and a user that copies and
drops its pointers as it likes, with a kernel that gives out no descriptor of a
connection that has not been destroyed: every entry is of a connection that
somebody holds and that has the descriptor it is keyed by; an accept finds no
entry under its descriptor; no close callback runs twice; and a
`removeConnection` finds the entry of its own connection and erases that one. -/
theorem connections_own {es : List (RefEvent ι)}
    (hkernel : Along (ConnRefs.step base) Kernel (init base) es)
    (hrun : run (ConnRefs.step base) (init base) es = some s) :
    (∀ fd c, s.connections_.lookup fd = some c → s.Held c ∧ (s.conn c).sockFd_ = fd)
      ∧ (∀ fd t, Kernel s (.accept fd) → ConnRefs.step base s (.accept fd) = some t →
          s.connections_.lookup fd = none)
      ∧ (∀ c, s.closeCallbacks c ≤ 1)
      ∧ ∀ l fd c rest t, (s.loops l).functors = .removeConnection fd c :: rest →
          ConnRefs.step base s (.run l) = some t →
          s.connections_.lookup fd = some c
            ∧ ∀ fd', t.connections_.lookup fd'
              = if fd' = fd then none else s.connections_.lookup fd' := by
  have h : MapInv base s :=
    run_inv_along (fun _ _ _ hs hC ht => MapInv.step hs hC ht) (mapInv_init base base) hkernel hrun
  refine ⟨fun fd c hlookup => ⟨held_of_lookup hlookup, h.bound fd c (h.entry fd c hlookup)⟩,
    fun fd t hfd _ => h.fresh hfd, fun c => ?_, fun l fd c rest t hfunctors ht => ?_⟩
  · rw [h.calls c]
    split <;> decide
  · obtain ⟨-, -, -, hentry, -⟩ := h.head hfunctors
    refine ⟨hentry, fun fd' => ?_⟩
    cases move_of_step ht with
    | run hfunctors' hexec =>
        obtain ⟨rfl, rfl⟩ := List.cons.inj (hfunctors'.symm.trans hfunctors)
        obtain rfl := Option.some.inj hexec
        change (s.connections_.erase fd).lookup fd' = _
        by_cases hfd : fd' = fd
        · rw [hfd, AList.lookup_erase, if_pos rfl]
        · rw [AList.lookup_erase_ne hfd, if_neg hfd]
    | finish hnil => cases hnil.symm.trans hfunctors

/-- A connection on a loop of the pool is closed and destroyed, and its descriptor
comes back. -/
theorem connections_own_again : ∃ s : ConnRefs Bool,
    run (ConnRefs.step false) (init false) [.setEventLoopThreadPool (some [true]), .accept 5,
      .call (.onClose 0), .push 0, .drop 0, .swap true, .run true, .drop 0, .run true,
      .swap false, .run false, .run false, .swap true, .run true, .run true, .accept 5] = some s
    ∧ s.connections_.lookup 5 = some 1 ∧ ¬ s.Held 0 ∧ s.Held 1
    ∧ (s.conn 1).sockFd_ = 5 ∧ s.closeCallbacks 0 ≤ 1 := by
  have heval : (run (ConnRefs.step false) (init false) [.setEventLoopThreadPool (some [true]),
      .accept 5, .call (.onClose 0), .push 0, .drop 0, .swap true, .run true, .drop 0, .run true,
      .swap false, .run false, .run false, .swap true, .run true, .run true, .accept 5]).map
        (fun s => (s.connections_.lookup 5, decide (s.Held 0))) = some (some 1, false) := by
    decide +kernel
  obtain ⟨s, hrun, hs⟩ := Option.map_eq_some_iff.mp heval
  obtain ⟨hlookup, hheld⟩ := Prod.mk.inj hs
  obtain ⟨hentry, -, hcalls, -⟩ := connections_own (by decide +kernel) hrun
  exact ⟨s, hrun, hlookup, of_decide_eq_false hheld, (hentry 5 1 hlookup).1, (hentry 5 1 hlookup).2,
    hcalls 0⟩

end ConnRefs

end Libiak.Net
