/-
`net/Channel.h` and the part of `net/EPollPoller.cpp` that reports events to a
channel.

A `Channel` is a gate between an edge-triggered poller and the object that owns
a descriptor. `EPollPoller::poll` raises the flags of the events reported and
puts the channel on the loop's active list, once; `handleEvents` later clears
each flag and calls the callback behind it. `readable_` and `writeable_` are the
gate proper: an event that arrives while the flag is set is discarded, and only
the owner clears it, when it has read or written all it can. The edge that was
discarded does not come again, so an owner that leaves the flag set without
having reached the end of what it can do is never called again.

The active list is a parameter, a list over whatever names the channels of the
loop. `handleEvents` is in four pieces, one for each flag, since each of them
calls back into code that does many things.
-/
import Mathlib.Tactic.TypeStar

set_option autoImplicit false

namespace Libiak.Net

/-- `class Channel`, but for the descriptor and the callbacks. -/
structure Channel where
  read_ : Bool
  write_ : Bool
  rclose_ : Bool
  rerror_ : Bool
  rread_ : Bool
  rwrite_ : Bool
  started_ : Bool
  actived_ : Bool
  closed_ : Bool
  readable_ : Bool
  writeable_ : Bool
  deriving DecidableEq

/-- The events `epoll_wait` reports for one descriptor. `hup` stands for
`EPOLLRDHUP` and `EPOLLHUP`, which `EPollPoller::poll` does not tell apart. -/
structure Events where
  hup : Bool
  err : Bool
  input : Bool
  output : Bool
  deriving DecidableEq

/-- No event. -/
def Events.none : Events := ⟨false, false, false, false⟩

namespace Channel

/-- `Channel::Channel`. -/
def make : Channel :=
  { read_ := false, write_ := false, rclose_ := false, rerror_ := false, rread_ := false
    rwrite_ := false, started_ := false, actived_ := false, closed_ := false
    readable_ := false, writeable_ := false }

def enableRead (c : Channel) : Channel := { c with read_ := true }

def disableRead (c : Channel) : Channel := { c with read_ := false }

def enableWrite (c : Channel) : Channel := { c with write_ := true }

def disableWrite (c : Channel) : Channel := { c with write_ := false }

def enableAll (c : Channel) : Channel := { c with read_ := true, write_ := true }

def disableAll (c : Channel) : Channel := { c with read_ := false, write_ := false }

def disableReadable (c : Channel) : Channel := { c with readable_ := false }

def disableWriteable (c : Channel) : Channel := { c with writeable_ := false }

/-- `Channel::open`; `started_` is also what the poller has registered. -/
def «open» (c : Channel) : Channel := { c with started_ := true }

/-- `Channel::close`. -/
def close (c : Channel) : Channel := { c with started_ := false }

section Active

variable {κ : Type*} (ptr : κ)

/-- `Channel::addActivedChannel`. -/
def addActivedChannel (s : Channel × List κ) : Channel × List κ :=
  if s.1.actived_ then s else ({ s.1 with actived_ := true }, s.2 ++ [ptr])

/-- `Channel::onClose`. -/
def onClose (s : Channel × List κ) : Channel × List κ :=
  if !s.1.closed_ && !s.1.rclose_ then
    addActivedChannel ptr ({ s.1 with closed_ := true, rclose_ := true }, s.2)
  else s

/-- `Channel::onError`. -/
def onError (s : Channel × List κ) : Channel × List κ :=
  if !s.1.rerror_ then addActivedChannel ptr ({ s.1 with rerror_ := true }, s.2) else s

/-- `Channel::onRead`. -/
def onRead (s : Channel × List κ) : Channel × List κ :=
  if s.1.read_ && !s.1.readable_ && !s.1.rread_ then
    addActivedChannel ptr ({ s.1 with readable_ := true, rread_ := true }, s.2)
  else s

/-- `Channel::onWrite`. -/
def onWrite (s : Channel × List κ) : Channel × List κ :=
  if s.1.write_ && !s.1.writeable_ && !s.1.rwrite_ then
    addActivedChannel ptr ({ s.1 with writeable_ := true, rwrite_ := true }, s.2)
  else s

/-- What `EPollPoller::poll` does for one entry of the event list. -/
def poll (events : Events) (s : Channel × List κ) : Channel × List κ :=
  let s := if events.hup then onClose ptr s else s
  let s := if events.err then onError ptr s else s
  let s := if events.input then onRead ptr s else s
  if events.output then onWrite ptr s else s

end Active

/-! ## What a poll changes -/

section Poll

variable {κ : Type*} {ptr : κ} {events : Events} {s : Channel × List κ}

/-- What the events of one poll may do to a channel and to the active list. The
interest, the registration and a gate that is closed to events stay as they
are; a flag is raised only together with its gate, and only for an event that is
wanted; and a channel that is not on the list yet is put there by the first flag
raised. -/
structure Polled (ptr : κ) (s t : Channel × List κ) : Prop where
  read_eq : t.1.read_ = s.1.read_
  write_eq : t.1.write_ = s.1.write_
  started_eq : t.1.started_ = s.1.started_
  read_gate : (t.1.readable_ = s.1.readable_ ∧ t.1.rread_ = s.1.rread_)
    ∨ (s.1.readable_ = false ∧ t.1.readable_ = true ∧ t.1.rread_ = true ∧ t.1.actived_ = true)
  write_gate : (t.1.writeable_ = s.1.writeable_ ∧ t.1.rwrite_ = s.1.rwrite_)
    ∨ (s.1.writeable_ = false ∧ t.1.writeable_ = true ∧ t.1.rwrite_ = true
      ∧ t.1.actived_ = true)
  listed : (t.1.actived_ = s.1.actived_ ∧ t.2 = s.2)
    ∨ (s.1.actived_ = false ∧ t.1.actived_ = true ∧ t.2 = s.2 ++ [ptr])
  read_wanted : t.1.rread_ = true → s.1.rread_ = true ∨ s.1.read_ = true
  write_wanted : t.1.rwrite_ = true → s.1.rwrite_ = true ∨ s.1.write_ = true

theorem Polled.actived {t : Channel × List κ} (h : Polled ptr s t) (hs : s.1.actived_ = true) :
    t.1.actived_ = true := by
  rcases h.listed with ⟨e, -⟩ | ⟨-, e, -⟩
  · exact e.trans hs
  · exact e

theorem Polled.refl (s : Channel × List κ) : Polled ptr s s where
  read_eq := rfl
  write_eq := rfl
  started_eq := rfl
  read_gate := Or.inl ⟨rfl, rfl⟩
  write_gate := Or.inl ⟨rfl, rfl⟩
  listed := Or.inl ⟨rfl, rfl⟩
  read_wanted := Or.inl
  write_wanted := Or.inl

theorem Polled.trans {s t u : Channel × List κ} (h1 : Polled ptr s t) (h2 : Polled ptr t u) :
    Polled ptr s u where
  read_eq := h2.read_eq.trans h1.read_eq
  write_eq := h2.write_eq.trans h1.write_eq
  started_eq := h2.started_eq.trans h1.started_eq
  read_gate := by
    rcases h1.read_gate with ⟨e1, e2⟩ | ⟨e0, e1, e2, e3⟩
    · rw [← e1, ← e2]
      exact h2.read_gate
    · rcases h2.read_gate with ⟨f1, f2⟩ | ⟨f0, -⟩
      · exact Or.inr ⟨e0, f1.trans e1, f2.trans e2, h2.actived e3⟩
      · rw [e1] at f0
        cases f0
  write_gate := by
    rcases h1.write_gate with ⟨e1, e2⟩ | ⟨e0, e1, e2, e3⟩
    · rw [← e1, ← e2]
      exact h2.write_gate
    · rcases h2.write_gate with ⟨f1, f2⟩ | ⟨f0, -⟩
      · exact Or.inr ⟨e0, f1.trans e1, f2.trans e2, h2.actived e3⟩
      · rw [e1] at f0
        cases f0
  listed := by
    rcases h1.listed with ⟨e1, e2⟩ | ⟨e0, e1, e2⟩
    · rw [← e1, ← e2]
      exact h2.listed
    · rcases h2.listed with ⟨f1, f2⟩ | ⟨f0, -⟩
      · exact Or.inr ⟨e0, f1.trans e1, f2.trans e2⟩
      · rw [e1] at f0
        cases f0
  read_wanted := fun hu => by
    rcases h2.read_wanted hu with ht | ht
    · exact h1.read_wanted ht
    · exact Or.inr (h1.read_eq.symm.trans ht)
  write_wanted := fun hu => by
    rcases h2.write_wanted hu with ht | ht
    · exact h1.write_wanted ht
    · exact Or.inr (h1.write_eq.symm.trans ht)

/-- The channel a flag was raised on. -/
theorem polled_add {s : Channel × List κ} {c : Channel} (hread : c.read_ = s.1.read_)
    (hwrite : c.write_ = s.1.write_) (hstarted : c.started_ = s.1.started_)
    (hactived : c.actived_ = s.1.actived_)
    (hr : (c.readable_ = s.1.readable_ ∧ c.rread_ = s.1.rread_)
      ∨ (s.1.read_ = true ∧ s.1.readable_ = false ∧ c.readable_ = true ∧ c.rread_ = true))
    (hw : (c.writeable_ = s.1.writeable_ ∧ c.rwrite_ = s.1.rwrite_)
      ∨ (s.1.write_ = true ∧ s.1.writeable_ = false ∧ c.writeable_ = true ∧ c.rwrite_ = true)) :
    Polled ptr s (addActivedChannel ptr (c, s.2)) := by
  have hread' : c.rread_ = true → s.1.rread_ = true ∨ s.1.read_ = true := fun h =>
    hr.imp (fun ⟨_, heq⟩ => heq.symm.trans h) fun ⟨hwanted, _⟩ => hwanted
  have hwrite' : c.rwrite_ = true → s.1.rwrite_ = true ∨ s.1.write_ = true := fun h =>
    hw.imp (fun ⟨_, heq⟩ => heq.symm.trans h) fun ⟨hwanted, _⟩ => hwanted
  rw [addActivedChannel]
  by_cases hact : c.actived_ = true
  · rw [if_pos hact]
    exact
      { read_eq := hread
        write_eq := hwrite
        started_eq := hstarted
        read_gate := hr.imp_right fun ⟨_, h1, h2, h3⟩ => ⟨h1, h2, h3, hact⟩
        write_gate := hw.imp_right fun ⟨_, h1, h2, h3⟩ => ⟨h1, h2, h3, hact⟩
        listed := Or.inl ⟨hactived, rfl⟩
        read_wanted := hread'
        write_wanted := hwrite' }
  · rw [if_neg hact]
    have hact' : s.1.actived_ = false := by
      rw [← hactived]
      simpa using hact
    exact
      { read_eq := hread
        write_eq := hwrite
        started_eq := hstarted
        read_gate := hr.imp_right fun ⟨_, h1, h2, h3⟩ => ⟨h1, h2, h3, rfl⟩
        write_gate := hw.imp_right fun ⟨_, h1, h2, h3⟩ => ⟨h1, h2, h3, rfl⟩
        listed := Or.inr ⟨hact', rfl, rfl⟩
        read_wanted := hread'
        write_wanted := hwrite' }

theorem polled_onClose (s : Channel × List κ) : Polled ptr s (onClose ptr s) := by
  rw [onClose]
  split
  · exact polled_add rfl rfl rfl rfl (Or.inl ⟨rfl, rfl⟩) (Or.inl ⟨rfl, rfl⟩)
  · exact Polled.refl s

theorem polled_onError (s : Channel × List κ) : Polled ptr s (onError ptr s) := by
  rw [onError]
  split
  · exact polled_add rfl rfl rfl rfl (Or.inl ⟨rfl, rfl⟩) (Or.inl ⟨rfl, rfl⟩)
  · exact Polled.refl s

theorem polled_onRead (s : Channel × List κ) : Polled ptr s (onRead ptr s) := by
  rw [onRead]
  split
  · rename_i h
    simp only [Bool.and_eq_true, Bool.not_eq_true'] at h
    exact polled_add rfl rfl rfl rfl (Or.inr ⟨h.1.1, h.1.2, rfl, rfl⟩) (Or.inl ⟨rfl, rfl⟩)
  · exact Polled.refl s

theorem polled_onWrite (s : Channel × List κ) : Polled ptr s (onWrite ptr s) := by
  rw [onWrite]
  split
  · rename_i h
    simp only [Bool.and_eq_true, Bool.not_eq_true'] at h
    exact polled_add rfl rfl rfl rfl (Or.inl ⟨rfl, rfl⟩) (Or.inr ⟨h.1.1, h.1.2, rfl, rfl⟩)
  · exact Polled.refl s

/-- What comes after the hang-up in an entry of the event list. -/
theorem polled_rest (ptr : κ) (events : Events) (s : Channel × List κ) :
    Polled ptr (if events.hup then onClose ptr s else s) (poll ptr events s) := by
  have hite : ∀ (b : Bool) (f : Channel × List κ → Channel × List κ) (t : Channel × List κ),
      (∀ t, Polled ptr t (f t)) → Polled ptr t (if b then f t else t) := by
    intro b f t h
    cases b
    · exact Polled.refl t
    · exact h t
  exact ((hite events.err _ _ polled_onError).trans (hite events.input _ _ polled_onRead)).trans
    (hite events.output _ _ polled_onWrite)

/-- **One entry of the event list**, whatever events it has. -/
theorem polled_poll (ptr : κ) (events : Events) (s : Channel × List κ) :
    Polled ptr s (poll ptr events s) := by
  refine Polled.trans ?_ (polled_rest ptr events s)
  split
  · exact polled_onClose s
  · exact Polled.refl s

/-- Input that is reported passes a gate that is open. -/
theorem poll_input (ptr : κ) {events : Events} {s : Channel × List κ}
    (hinput : events.input = true) (hread : s.1.read_ = true) (hopen : s.1.readable_ = false) :
    (poll ptr events s).1.rread_ = true := by
  have hadd : ∀ t : Channel × List κ, (addActivedChannel ptr t).1.rread_ = t.1.rread_ := by
    intro t
    unfold addActivedChannel
    split <;> rfl
  -- what comes before the input leaves interest and gate as they are
  obtain ⟨t, ht⟩ : ∃ t, t = (if events.err then
      onError ptr (if events.hup then onClose ptr s else s)
    else if events.hup then onClose ptr s else s) := ⟨_, rfl⟩
  have hside : t.1.read_ = true ∧ (t.1.readable_ = false ∨ t.1.rread_ = true) := by
    have hclose : Polled ptr s (if events.hup then onClose ptr s else s) := by
      split
      · exact polled_onClose s
      · exact Polled.refl s
    have herr : Polled ptr s t := by
      rw [ht]
      split
      · exact hclose.trans (polled_onError _)
      · exact hclose
    refine ⟨herr.read_eq.trans hread, ?_⟩
    rcases herr.read_gate with ⟨h, -⟩ | ⟨-, -, h, -⟩
    · exact Or.inl (h.trans hopen)
    · exact Or.inr h
  have hraised : (onRead ptr t).1.rread_ = true := by
    unfold onRead
    split
    · rw [hadd]
    · rename_i hskip
      rcases hside.2 with h | h
      · simpa [hside.1, h] using hskip
      · exact h
  -- and what comes after it leaves the flag
  have hout : (poll ptr events s).1.rread_ = (onRead ptr t).1.rread_ := by
    simp only [poll, hinput, if_true, ← ht]
    split
    · unfold onWrite
      split
      · rw [hadd]
      · rfl
    · rfl
  rw [hout, hraised]

/-- What only a hang-up touches. -/
structure SameClose (s t : Channel × List κ) : Prop where
  closed : t.1.closed_ = s.1.closed_
  rclose : t.1.rclose_ = s.1.rclose_

theorem sameClose_add (s : Channel × List κ) : SameClose s (addActivedChannel ptr s) := by
  unfold addActivedChannel
  split <;> exact ⟨rfl, rfl⟩

theorem sameClose_onError (s : Channel × List κ) : SameClose s (onError ptr s) := by
  unfold onError
  split
  · exact ⟨(sameClose_add _).closed, (sameClose_add _).rclose⟩
  · exact ⟨rfl, rfl⟩

theorem sameClose_onRead (s : Channel × List κ) : SameClose s (onRead ptr s) := by
  unfold onRead
  split
  · exact ⟨(sameClose_add _).closed, (sameClose_add _).rclose⟩
  · exact ⟨rfl, rfl⟩

theorem sameClose_onWrite (s : Channel × List κ) : SameClose s (onWrite ptr s) := by
  unfold onWrite
  split
  · exact ⟨(sameClose_add _).closed, (sameClose_add _).rclose⟩
  · exact ⟨rfl, rfl⟩

/-- A hang-up is reported once: it raises `rclose_` unless that or `closed_` is set, and
no other event does. -/
theorem poll_hup (ptr : κ) (events : Events) (s : Channel × List κ) :
    (poll ptr events s).1.closed_ = (s.1.closed_ || (events.hup && !s.1.rclose_))
      ∧ (poll ptr events s).1.rclose_ = (s.1.rclose_ || (events.hup && !s.1.closed_)) := by
  have hite : ∀ (b : Bool) (f : Channel × List κ → Channel × List κ) (t : Channel × List κ),
      (∀ t, SameClose t (f t)) → SameClose t (if b then f t else t) := by
    intro b f t h
    cases b
    · exact ⟨rfl, rfl⟩
    · exact h t
  unfold poll
  dsimp only
  rw [(hite _ _ _ sameClose_onWrite).closed, (hite _ _ _ sameClose_onWrite).rclose,
    (hite _ _ _ sameClose_onRead).closed, (hite _ _ _ sameClose_onRead).rclose,
    (hite _ _ _ sameClose_onError).closed, (hite _ _ _ sameClose_onError).rclose]
  cases events.hup
  · simp
  · simp only [if_true, Bool.true_and]
    unfold onClose
    split
    · rename_i h
      simp only [Bool.and_eq_true, Bool.not_eq_true'] at h
      simp [(sameClose_add _).closed, (sameClose_add _).rclose, h]
    · rename_i h
      cases hc : s.1.closed_ <;> cases hr : s.1.rclose_ <;> simp [hc, hr] at h ⊢

/-- It puts the channel on the list. -/
theorem poll_hup_actived {events : Events} {s : Channel × List κ} (hhup : events.hup = true)
    (hclosed : s.1.closed_ = false) (hrclose : s.1.rclose_ = false) :
    (poll ptr events s).1.actived_ = true := by
  apply (polled_rest ptr events s).actived
  have hraise : (!s.1.closed_ && !s.1.rclose_) = true := by rw [hclosed, hrclose]; rfl
  rw [if_pos hhup, onClose, if_pos hraise, addActivedChannel]
  split
  · assumption
  · rfl

/-- An event list without events changes nothing. -/
theorem poll_none (s : Channel × List κ) : poll ptr Events.none s = s := rfl

end Poll

end Channel

end Libiak.Net
