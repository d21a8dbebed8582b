/-
The active list of a loop, with all of its channels.

`EPollPoller::poll` raises flags of channels and lists them, through
`Channel::addActivedChannel` and `EventLoop::addActivedChannel`;
`EventLoop::handleActivedChannels` goes through the list, and
`Channel::handleEvents` clears a flag and calls the callback behind it, if there is
one, one flag after the other. The callbacks, and whatever else runs in an
iteration, may change the interest and the gate of any channel; what was called is
recorded.

After a poll the list is that of the channels with a flag (`Listed`). Going through
a list is described by the flags it takes down (`Handled`): each test of
`handleEvents` takes down one, and descriptions of one piece after another compose,
so that the whole of it takes down every flag of every channel on the list.
-/
import Libiak.Channel
import Mathlib.Data.List.Nodup
import Mathlib.Logic.Function.Basic
import Mathlib.Data.Nat.Notation

set_option autoImplicit false

namespace Libiak.Net

variable {κ : Type*}

/-! ## The loop -/

/-- The flags of a channel that a poll raises, by the callback behind them. -/
inductive EventKind where
  | close
  | error
  | read
  | write
  deriving DecidableEq

namespace EventKind

/-- `rclose_`, `rerror_`, `rread_` and `rwrite_`. -/
def flag (c : Channel) : EventKind → Bool
  | .close => c.rclose_
  | .error => c.rerror_
  | .read => c.rread_
  | .write => c.rwrite_

/-- The flag set to `false`. -/
def clear (c : Channel) : EventKind → Channel
  | .close => { c with rclose_ := false }
  | .error => { c with rerror_ := false }
  | .read => { c with rread_ := false }
  | .write => { c with rwrite_ := false }

/-- In the order of `Channel::handleEvents`. -/
def all : List EventKind := [.close, .error, .read, .write]

end EventKind

/-- What the owners of a channel set and clear. -/
structure Interest where
  read_ : Bool
  write_ : Bool
  readable_ : Bool
  writeable_ : Bool

namespace Channel

def setInterest (c : Channel) (i : Interest) : Channel :=
  { c with
    read_ := i.read_, write_ := i.write_, readable_ := i.readable_, writeable_ := i.writeable_ }

/-- One of the four flags is set. -/
def pending (c : Channel) : Bool := c.rclose_ || c.rerror_ || c.rread_ || c.rwrite_

theorem pending_iff {c : Channel} : c.pending = true ↔ ∃ e : EventKind, e.flag c = true := by
  simp only [pending, Bool.or_eq_true]
  constructor
  · rintro (((h | h) | h) | h)
    · exact ⟨.close, h⟩
    · exact ⟨.error, h⟩
    · exact ⟨.read, h⟩
    · exact ⟨.write, h⟩
  · rintro ⟨e, h⟩
    cases e with
    | close => exact Or.inl (Or.inl (Or.inl h))
    | error => exact Or.inl (Or.inl (Or.inr h))
    | read => exact Or.inl (Or.inr h)
    | write => exact Or.inr h

end Channel

/-- An `EventLoop` with its channels, and the callbacks that have been called. -/
structure ActiveLoop (κ : Type*) where
  channels : κ → Channel
  activedChannels_ : List κ
  called : List (κ × EventKind)

/-- The code behind the callbacks: which of them there are, and what interest and
gates they leave behind, which depends on everything that was called. -/
structure Callbacks (κ : Type*) where
  bound : κ → EventKind → Bool
  leave : List (κ × EventKind) → κ → Interest

/-- One iteration: what is set and cleared before its poll, the event list, and the
callbacks. -/
structure Iteration (κ : Type*) where
  interest : κ → Interest
  events_ : List (κ × Events)
  callbacks : Callbacks κ

namespace ActiveLoop

/-- A loop with channels that have just been made. -/
def init : ActiveLoop κ :=
  { channels := fun _ => Channel.make, activedChannels_ := [], called := [] }

/-- The interest and the gate of every channel, as they are after something has
run. -/
def set (s : ActiveLoop κ) (interest : κ → Interest) : ActiveLoop κ :=
  { s with channels := fun k => (s.channels k).setInterest (interest k) }

/-- A call of a callback. -/
def call (cb : Callbacks κ) (s : ActiveLoop κ) (k : κ) (e : EventKind) : ActiveLoop κ :=
  { s with called := s.called ++ [(k, e)] }.set (cb.leave (s.called ++ [(k, e)]))

section Step

variable [DecidableEq κ]

def setChannel (s : ActiveLoop κ) (k : κ) (c : Channel) : ActiveLoop κ :=
  { s with channels := Function.update s.channels k c }

/-- One entry of the event list. -/
def pollEntry (s : ActiveLoop κ) (entry : κ × Events) : ActiveLoop κ :=
  let r := Channel.poll entry.1 entry.2 (s.channels entry.1, s.activedChannels_)
  { s.setChannel entry.1 r.1 with activedChannels_ := r.2 }

/-- `EPollPoller::poll`. -/
def poll (s : ActiveLoop κ) (events_ : List (κ × Events)) : ActiveLoop κ :=
  events_.foldl pollEntry s

/-- One of the tests of `Channel::handleEvents`. -/
def handleFlag (cb : Callbacks κ) (k : κ) (s : ActiveLoop κ) (e : EventKind) : ActiveLoop κ :=
  if e.flag (s.channels k) then
    -- the flag is down before the callback is called
    let s := s.setChannel k (e.clear (s.channels k))
    if cb.bound k e then s.call cb k e else s
  else s

/-- `Channel::handleEvents`. -/
def handleEvents (cb : Callbacks κ) (s : ActiveLoop κ) (k : κ) : ActiveLoop κ :=
  -- `actived_` first: a channel may be listed again by a later poll
  EventKind.all.foldl (handleFlag cb k) (s.setChannel k { s.channels k with actived_ := false })

/-- `EventLoop::handleActivedChannels`. -/
def handleActivedChannels (cb : Callbacks κ) (s : ActiveLoop κ) : ActiveLoop κ :=
  { s.activedChannels_.foldl (handleEvents cb) s with activedChannels_ := [] }

/-- An iteration up to the end of its poll. -/
def polled (s : ActiveLoop κ) (i : Iteration κ) : ActiveLoop κ := (s.set i.interest).poll i.events_

/-- An iteration. -/
def iterate (s : ActiveLoop κ) (i : Iteration κ) : ActiveLoop κ :=
  (s.polled i).handleActivedChannels i.callbacks

end Step

/-! ## One channel -/

section Gated

/-- What holds of a channel whose closing has been called back `n` times, in every
state of the loop. It is listed if one of its flags is set; and a closing is called
back once, and not before `closed_` has been set. -/
structure Gated (n : ℕ) (c : Channel) : Prop where
  listed : c.actived_ = c.pending
  closes : n + c.rclose_.toNat ≤ c.closed_.toNat

variable {n : ℕ} {ptr : κ} {p : Channel × List κ}

theorem gated_setInterest {c : Channel} (i : Interest) (h : Gated n c) :
    Gated n (c.setInterest i) := ⟨h.listed, h.closes⟩

theorem gated_add {c : Channel} {l : List κ} (hpending : c.pending = true)
    (hcloses : n + c.rclose_.toNat ≤ c.closed_.toNat) :
    Gated n (Channel.addActivedChannel ptr (c, l)).1 := by
  unfold Channel.addActivedChannel
  split
  · rename_i hactived
    exact ⟨Eq.trans hactived hpending.symm, hcloses⟩
  · exact ⟨hpending.symm, hcloses⟩

theorem gated_onClose (h : Gated n p.1) : Gated n (Channel.onClose ptr p).1 := by
  unfold Channel.onClose
  split
  · rename_i hopen
    rw [Bool.and_eq_true, Bool.not_eq_true'] at hopen
    -- nothing has been called back yet
    have hn : n = 0 := by
      have hcloses := h.closes
      rw [hopen.1, Bool.toNat_false] at hcloses
      omega
    apply gated_add rfl
    rw [hn]
    exact Nat.le_refl 1
  · exact h

theorem gated_onError (h : Gated n p.1) : Gated n (Channel.onError ptr p).1 := by
  unfold Channel.onError
  split
  · refine gated_add ?_ h.closes
    simp [Channel.pending]
  · exact h

theorem gated_onRead (h : Gated n p.1) : Gated n (Channel.onRead ptr p).1 := by
  unfold Channel.onRead
  split
  · refine gated_add ?_ h.closes
    simp [Channel.pending]
  · exact h

theorem gated_onWrite (h : Gated n p.1) : Gated n (Channel.onWrite ptr p).1 := by
  unfold Channel.onWrite
  split
  · refine gated_add ?_ h.closes
    simp [Channel.pending]
  · exact h

theorem gated_poll (events : Events) (h : Gated n p.1) :
    Gated n (Channel.poll ptr events p).1 := by
  have hite : ∀ (b : Bool) (f : Channel × List κ → Channel × List κ),
      (∀ q, Gated n q.1 → Gated n (f q).1) →
        ∀ q, Gated n q.1 → Gated n (if b then f q else q).1 := by
    intro b f hf q hq
    split
    · exact hf q hq
    · exact hq
  -- in the order of the tests
  have hclose := hite events.hup (Channel.onClose ptr) (fun _ => gated_onClose) p h
  have herror := hite events.err (Channel.onError ptr) (fun _ => gated_onError) _ hclose
  have hread := hite events.input (Channel.onRead ptr) (fun _ => gated_onRead) _ herror
  exact hite events.output (Channel.onWrite ptr) (fun _ => gated_onWrite) _ hread

end Gated

variable [DecidableEq κ]

/-! ## A poll -/

/-- The list is that of the channels with a flag, each of them once. -/
structure Listed (s : ActiveLoop κ) : Prop where
  nodup : s.activedChannels_.Nodup
  mem : ∀ k, k ∈ s.activedChannels_ ↔ (s.channels k).actived_ = true
  gated : ∀ k, Gated (s.called.count (k, .close)) (s.channels k)

theorem listed_init : Listed (init : ActiveLoop κ) where
  nodup := List.nodup_nil
  mem := by simp [init, Channel.make]
  gated := fun _ => ⟨rfl, Nat.le_refl 0⟩

theorem listed_set {s : ActiveLoop κ} (interest : κ → Interest) (h : Listed s) :
    Listed (s.set interest) where
  nodup := h.nodup
  mem := h.mem
  gated := fun k => gated_setInterest (interest k) (h.gated k)

theorem listed_pollEntry {s : ActiveLoop κ} (entry : κ × Events) (h : Listed s) :
    Listed (s.pollEntry entry) := by
  rcases entry with ⟨k, events⟩
  have hother : ∀ j, j ≠ k → (s.pollEntry (k, events)).channels j = s.channels j := by
    intro j hj
    exact Function.update_of_ne hj _ _
  have hthis : (s.pollEntry (k, events)).channels k
      = (Channel.poll k events (s.channels k, s.activedChannels_)).1 :=
    Function.update_self ..
  have hgated : ∀ j, Gated (s.called.count (j, .close)) ((s.pollEntry (k, events)).channels j) := by
    intro j
    by_cases hj : j = k
    · rw [hj, hthis]
      exact gated_poll events (h.gated k)
    · rw [hother j hj]
      exact h.gated j
  -- either the list stays, or the channel was not on it and is put at the end
  rcases (Channel.polled_poll k events (s.channels k, s.activedChannels_)).listed with
    ⟨hactived, hlist⟩ | ⟨hfree, hactived, hlist⟩
  · have hsame : (s.pollEntry (k, events)).activedChannels_ = s.activedChannels_ := hlist
    refine { nodup := ?_, mem := ?_, gated := hgated }
    · rw [hsame]
      exact h.nodup
    · intro j
      rw [hsame, h.mem j]
      by_cases hj : j = k
      · rw [hj, hthis, hactived]
      · rw [hother j hj]
  · have hlonger : (s.pollEntry (k, events)).activedChannels_ = s.activedChannels_ ++ [k] := hlist
    have hnew : k ∉ s.activedChannels_ := by
      intro hk
      rw [h.mem k, hfree] at hk
      exact Bool.false_ne_true hk
    refine { nodup := ?_, mem := ?_, gated := hgated }
    · rw [hlonger]
      simpa using h.nodup.concat hnew
    · intro j
      rw [hlonger, List.mem_append, List.mem_singleton]
      by_cases hj : j = k
      · rw [hj, hthis, hactived]
        simp
      · rw [hother j hj, ← h.mem j]
        simp [hj]

/-- **A poll**, whatever the event list is. -/
theorem listed_poll {s : ActiveLoop κ} (events_ : List (κ × Events)) (h : Listed s) :
    Listed (s.poll events_) := by
  unfold poll
  induction events_ generalizing s with
  | nil => exact h
  | cons entry rest ih => exact ih (listed_pollEntry entry h)

/-! ## Going through the list -/

section Handled

@[simp] theorem flag_setInterest (c : Channel) (i : Interest) (e : EventKind) :
    e.flag (c.setInterest i) = e.flag c := by
  cases e <;> rfl

@[simp] theorem actived_setInterest (c : Channel) (i : Interest) :
    (c.setInterest i).actived_ = c.actived_ := rfl

@[simp] theorem closed_setInterest (c : Channel) (i : Interest) :
    (c.setInterest i).closed_ = c.closed_ := rfl

theorem flag_clear (c : Channel) (e x : EventKind) :
    x.flag (e.clear c) = (x.flag c && !decide (x = e)) := by
  cases e <;> cases x <;> simp [EventKind.flag, EventKind.clear]

@[simp] theorem actived_clear (c : Channel) (e : EventKind) :
    (e.clear c).actived_ = c.actived_ := by
  cases e <;> rfl

@[simp] theorem closed_clear (c : Channel) (e : EventKind) : (e.clear c).closed_ = c.closed_ := by
  cases e <;> rfl

/-- From `s` to `t` the channels of `off` have been taken off the list, and the
flags of `down` have been taken down; each that was set has been called back, if
there is a callback. -/
structure Handled (cb : Callbacks κ) (off : κ → Bool) (down : κ → EventKind → Bool)
    (s t : ActiveLoop κ) : Prop where
  actived : ∀ k, (t.channels k).actived_ = ((s.channels k).actived_ && !off k)
  closed : ∀ k, (t.channels k).closed_ = (s.channels k).closed_
  flag : ∀ k (e : EventKind), e.flag (t.channels k) = (e.flag (s.channels k) && !down k e)
  count : ∀ k (e : EventKind), t.called.count (k, e)
    = s.called.count (k, e) + (e.flag (s.channels k) && down k e && cb.bound k e).toNat

variable {cb : Callbacks κ} {s t u : ActiveLoop κ}

/-- Nothing has been handled. -/
theorem Handled.refl (s : ActiveLoop κ) :
    Handled cb (fun _ => false) (fun _ _ => false) s s where
  actived := by simp
  closed := fun _ => rfl
  flag := by simp
  count := by simp

/-- One piece after another: what the first has taken down, the second does not find
set. -/
theorem Handled.trans {off off' : κ → Bool} {down down' : κ → EventKind → Bool}
    (h : Handled cb off down s t) (h' : Handled cb off' down' t u) :
    Handled cb (fun k => off k || off' k) (fun k e => down k e || down' k e) s u where
  actived := by
    intro k
    rw [h'.actived, h.actived, Bool.not_or, Bool.and_assoc]
  closed := fun k => (h'.closed k).trans (h.closed k)
  flag := by
    intro k e
    rw [h'.flag, h.flag, Bool.not_or, Bool.and_assoc]
  count := by
    intro k e
    -- a flag that is set is counted where it is taken down, and there only
    have hsplit : ∀ x d d' b : Bool, (x && d && b).toNat + (x && !d && d' && b).toNat
        = (x && (d || d') && b).toNat := by decide
    rw [h'.count, h.count, h.flag, Nat.add_assoc, hsplit]

theorem Handled.congr {off off' : κ → Bool} {down down' : κ → EventKind → Bool}
    (h : Handled cb off down s t) (hoff : ∀ k, off k = off' k)
    (hdown : ∀ k e, down k e = down' k e) : Handled cb off' down' s t := by
  rwa [← funext hoff, ← funext fun k => funext (hdown k)]

/-- A fold, if each of its steps is described. -/
theorem Handled.foldl {α : Type*} {f : ActiveLoop κ → α → ActiveLoop κ} {off : α → κ → Bool}
    {down : α → κ → EventKind → Bool} (hstep : ∀ s x, Handled cb (off x) (down x) s (f s x))
    (l : List α) (s : ActiveLoop κ) :
    Handled cb (fun k => l.any fun x => off x k) (fun k e => l.any fun x => down x k e) s
      (l.foldl f s) := by
  induction l generalizing s with
  | nil => exact Handled.refl s
  | cons x l ih =>
      -- one step, and then the rest from where the step ends
      simp only [List.any_cons, List.foldl_cons]
      exact (hstep s x).trans (ih (f s x))

section Clear

variable (s : ActiveLoop κ) (k : κ) (e : EventKind)

@[simp] theorem actived_setChannel_clear (j : κ) :
    ((s.setChannel k (e.clear (s.channels k))).channels j).actived_ = (s.channels j).actived_ := by
  by_cases hj : j = k
  · simp [setChannel, hj]
  · simp [setChannel, Function.update_of_ne hj]

@[simp] theorem closed_setChannel_clear (j : κ) :
    ((s.setChannel k (e.clear (s.channels k))).channels j).closed_ = (s.channels j).closed_ := by
  by_cases hj : j = k
  · simp [setChannel, hj]
  · simp [setChannel, Function.update_of_ne hj]

@[simp] theorem flag_setChannel_clear (j : κ) (x : EventKind) :
    x.flag ((s.setChannel k (e.clear (s.channels k))).channels j)
      = (x.flag (s.channels j) && !decide (j = k ∧ x = e)) := by
  by_cases hj : j = k
  · simp [setChannel, hj, flag_clear]
  · simp [setChannel, hj]

end Clear

/-- **One test of `handleEvents`** takes down one flag. -/
theorem handled_handleFlag (cb : Callbacks κ) (k : κ) (s : ActiveLoop κ) (e : EventKind) :
    Handled cb (fun _ => false) (fun j x => decide (j = k ∧ x = e)) s (handleFlag cb k s e) := by
  unfold handleFlag
  split
  · rename_i hset
    dsimp only
    split
    · -- the callback leaves interest and gates behind, but no flag
      rename_i hbound
      refine { actived := ?_, closed := ?_, flag := ?_, count := ?_ }
      · simp [call, set]
      · simp [call, set]
      · simp [call, set]
      · intro j x
        show (s.called ++ [(k, e)]).count (j, x) = _
        rw [List.count_append]
        by_cases h : j = k ∧ x = e
        · simp [h.1, h.2, hset, hbound]
        · have hne : (k, e) ≠ (j, x) := by
            rintro ⟨⟩
            exact h ⟨rfl, rfl⟩
          simp [h, hne]
    · rename_i hbound
      refine { actived := ?_, closed := ?_, flag := ?_, count := ?_ }
      · simp
      · simp
      · simp
      · intro j x
        by_cases h : j = k ∧ x = e
        · simp [h.1, h.2, hbound, setChannel]
        · simp [h, setChannel]
  · rename_i hset
    -- the flag is down already
    have hdown : ∀ j x, x.flag (s.channels j) = true → ¬(j = k ∧ x = e) := by
      rintro j x h ⟨rfl, rfl⟩
      exact hset h
    refine { actived := ?_, closed := fun _ => rfl, flag := ?_, count := ?_ }
    · simp
    · intro j x
      cases hx : x.flag (s.channels j) with
      | false => rfl
      | true => simp [hdown j x hx]
    · intro j x
      cases hx : x.flag (s.channels j) with
      | false => simp
      | true => simp [hdown j x hx]

/-- **`Channel::handleEvents`** takes down every flag of the channel. -/
theorem handled_handleEvents (cb : Callbacks κ) (s : ActiveLoop κ) (k : κ) :
    Handled cb (fun j => decide (j = k)) (fun j _ => decide (j = k)) s (handleEvents cb s k) := by
  have hoff : Handled cb (fun j => decide (j = k)) (fun _ _ => false) s
      (s.setChannel k { s.channels k with actived_ := false }) := by
    have hchannel : ∀ j, (s.setChannel k { s.channels k with actived_ := false }).channels j
        = { s.channels j with actived_ := (s.channels j).actived_ && !decide (j = k) } := by
      intro j
      by_cases hj : j = k
      · simp [setChannel, hj]
      · simp [setChannel, hj]
    refine { actived := ?_, closed := ?_, flag := ?_, count := ?_ }
    · intro j
      rw [hchannel]
    · intro j
      rw [hchannel]
    · intro j x
      rw [hchannel]
      cases x <;> simp [EventKind.flag]
    · simp [setChannel]
  have hall : ∀ x, x ∈ EventKind.all := by
    intro x
    cases x <;> decide
  apply (hoff.trans (Handled.foldl (handled_handleFlag cb k) EventKind.all _)).congr
  · simp
  · intro j x
    by_cases hj : j = k
    · simp [hj, hall]
    · simp [hj]

/-- **`EventLoop::handleActivedChannels`**: every channel of the list. -/
theorem handled_actived (cb : Callbacks κ) (s : ActiveLoop κ) :
    Handled cb (fun k => decide (k ∈ s.activedChannels_))
      (fun k _ => decide (k ∈ s.activedChannels_)) s (s.handleActivedChannels cb) := by
  have h := Handled.foldl (handled_handleEvents cb) s.activedChannels_ s
  have hmem : ∀ k, (s.activedChannels_.any fun x => decide (k = x))
      = decide (k ∈ s.activedChannels_) := by
    intro k
    rw [Bool.eq_iff_iff]
    simp
  have hall := h.congr hmem fun k _ => hmem k
  exact ⟨hall.actived, hall.closed, hall.flag, hall.count⟩

theorem Listed.mem_iff (h : Listed s) (k : κ) :
    k ∈ s.activedChannels_ ↔ ∃ e : EventKind, e.flag (s.channels k) = true := by
  rw [h.mem k, (h.gated k).listed, Channel.pending_iff]

/-- A flag stands on listed channels only. -/
theorem Listed.mem_of_flag (h : Listed s) {k : κ} {e : EventKind}
    (hset : e.flag (s.channels k) = true) : k ∈ s.activedChannels_ :=
  (h.mem_iff k).mpr ⟨e, hset⟩

/-- **What is called after a poll**: the callback behind each flag, once. -/
theorem count_handleActivedChannels (cb : Callbacks κ) (h : Listed s) (k : κ) (e : EventKind) :
    (s.handleActivedChannels cb).called.count (k, e)
      = s.called.count (k, e) + (e.flag (s.channels k) && cb.bound k e).toNat := by
  rw [(handled_actived cb s).count]
  cases hset : e.flag (s.channels k) with
  | false => rfl
  | true => simp [h.mem_of_flag hset]

theorem flag_handleActivedChannels (cb : Callbacks κ) (h : Listed s) (k : κ) (e : EventKind) :
    e.flag ((s.handleActivedChannels cb).channels k) = false := by
  rw [(handled_actived cb s).flag]
  cases hset : e.flag (s.channels k) with
  | false => rfl
  | true => simp [h.mem_of_flag hset]

theorem actived_handleActivedChannels (cb : Callbacks κ) (h : Listed s) (k : κ) :
    ((s.handleActivedChannels cb).channels k).actived_ = false := by
  rw [(handled_actived cb s).actived]
  cases hset : (s.channels k).actived_ with
  | false => rfl
  | true => simp [(h.mem k).mpr hset]

/-- **Going through the list**: nothing is listed, and no flag is left. -/
theorem listed_handleActivedChannels (cb : Callbacks κ) (h : Listed s) :
    Listed (s.handleActivedChannels cb) where
  nodup := List.nodup_nil
  mem := by
    intro k
    rw [actived_handleActivedChannels cb h]
    exact iff_of_false List.not_mem_nil Bool.false_ne_true
  gated := by
    intro k
    have hflag := flag_handleActivedChannels cb h k
    refine ⟨?_, ?_⟩
    · have hclose := hflag .close
      have herror := hflag .error
      have hread := hflag .read
      have hwrite := hflag .write
      simp only [EventKind.flag] at hclose herror hread hwrite
      rw [actived_handleActivedChannels cb h, Channel.pending, hclose, herror, hread, hwrite]
      rfl
    · -- a closing that was to be called back has been
      have hclose := hflag .close
      simp only [EventKind.flag] at hclose
      have hcloses := (h.gated k).closes
      have hle : ∀ a b : Bool, (a && b).toNat ≤ a.toNat := by decide
      have hflag_le := hle (s.channels k).rclose_ (cb.bound k .close)
      rw [hclose, count_handleActivedChannels cb h, (handled_actived cb s).closed, Bool.toNat_false]
      simp only [EventKind.flag]
      omega

end Handled

/-! ## Iterations -/

theorem listed_polled {s : ActiveLoop κ} (i : Iteration κ) (h : Listed s) : Listed (s.polled i) :=
  listed_poll i.events_ (listed_set i.interest h)

theorem listed_iterations (iterations : List (Iteration κ)) :
    Listed (iterations.foldl iterate (init : ActiveLoop κ)) := by
  have hrun : ∀ s : ActiveLoop κ, Listed s → Listed (iterations.foldl iterate s) := by
    induction iterations with
    | nil =>
        intro s h
        exact h
    | cons i rest ih =>
        intro s h
        exact ih _ (listed_handleActivedChannels i.callbacks (listed_polled i h))
  exact hrun init listed_init

/-- **Dispatch.** In every iteration, after whatever iterations: after the poll the
list is that of the channels with a flag, each of them once; the callback behind each
flag is called once, where there is one; and then nothing is listed, no flag is set,
and no closing of a channel has been called back twice. -/
theorem iterate_dispatches (iterations : List (Iteration κ)) (i : Iteration κ) :
    let s := iterations.foldl iterate (init : ActiveLoop κ)
    let p := s.polled i
    let q := s.iterate i
    (p.activedChannels_.Nodup
      ∧ ∀ k, k ∈ p.activedChannels_ ↔ ∃ e : EventKind, e.flag (p.channels k) = true)
    ∧ (∀ k (e : EventKind), q.called.count (k, e)
        = p.called.count (k, e) + if e.flag (p.channels k) && i.callbacks.bound k e then 1 else 0)
    ∧ q.activedChannels_ = []
    ∧ (∀ k, (q.channels k).actived_ = false ∧ ∀ e : EventKind, e.flag (q.channels k) = false)
    ∧ ∀ k, q.called.count (k, .close) ≤ 1 := by
  intro s p q
  have hp : Listed p := listed_polled i (listed_iterations iterations)
  have hq : Listed q := listed_handleActivedChannels i.callbacks hp
  refine ⟨⟨hp.nodup, hp.mem_iff⟩, ?_, rfl, ?_, ?_⟩
  · intro k e
    have hite : ∀ b : Bool, (if b then 1 else 0) = b.toNat := by decide
    rw [hite]
    exact count_handleActivedChannels i.callbacks hp k e
  · intro k
    refine ⟨actived_handleActivedChannels i.callbacks hp k, ?_⟩
    exact flag_handleActivedChannels i.callbacks hp k
  · intro k
    have hcloses := (hq.gated k).closes
    have hle := Bool.toNat_le (q.channels k).closed_
    omega

end ActiveLoop

end Libiak.Net
