/-
`net/Acceptor.cpp` on its event loop.

The listening descriptor is edge-triggered: after an edge, `onRead` accepts until
the kernel has nothing left, and only then opens the gate of the channel again.
It has three ways out of its loop, one for each kind of `errno`, and goes round
again after `EMFILE` and `ENFILE`. The way out for any other error leaves the
gate shut, and with it the acceptor deaf: no later edge passes
(`acceptor_rearmed_iff`).

The kernel chooses the events of a poll and the answers of `accept4` and of
`open`. What the acceptor shares its loop with does not touch its channel and
is left out.
-/
import Libiak.Channel
import Libiak.Run
import Libiak.Socket

set_option autoImplicit false

namespace Libiak.Net

open Libiak.Run

/-- `class Acceptor`. A descriptor that is `-1` is `none`; of `acceptCallback_`
it matters whether it is set. -/
structure Acceptor where
  channel_ : Channel
  listenning_ : Bool
  accept_ : Bool
  idleFd_ : Option ℕ
  acceptCallback_ : Bool
  deriving DecidableEq

/-- The functors `listen` and `close` queue. -/
inductive AcceptorFunctor where
  | listenInLoop
  | closeInLoop
  deriving DecidableEq

/-- Where the loop is: `accepting` is the call of `accept` in the loop of
`Acceptor::onRead`. -/
inductive AcceptorPc where
  | poll
  | dispatch
  | accepting
  | functors
  deriving DecidableEq

/-- An acceptor on its loop. The history: the descriptors handed to
`acceptCallback_`, and those closed. -/
structure AcceptorLoop where
  acceptor : Acceptor
  activedChannels_ : List Unit
  pendingFunctors_ : List AcceptorFunctor
  functors : List AcceptorFunctor
  pc : AcceptorPc
  handed : List ℕ
  closed : List ℕ
  deriving DecidableEq

/-- What can happen next. An `accept` comes with its answer, and with those of
the `accept` and the `open` that follow where the descriptors have run out. -/
inductive AcceptorEvent where
  | listen
  | close
  | setAcceptCallback
  | poll (events : Events)
  | handle
  | accept (sockFd : Except Errno ℕ) (idle null : Option ℕ)
  | functor

namespace Acceptor

/-- `Acceptor::Acceptor`. -/
def make (idleFd : Option ℕ) : Acceptor :=
  { channel_ := Channel.make.enableRead, listenning_ := false, accept_ := false
    idleFd_ := idleFd, acceptCallback_ := false }

/-- `Acceptor::listen`, and the functor it queues. -/
def listen (a : Acceptor) : Acceptor × Option AcceptorFunctor :=
  if a.accept_ then (a, none) else ({ a with accept_ := true }, some .listenInLoop)

/-- `Acceptor::close`. -/
def close (a : Acceptor) : Acceptor × Option AcceptorFunctor :=
  if !a.accept_ then (a, none) else ({ a with accept_ := false }, some .closeInLoop)

/-- `Acceptor::listenInLoop`. -/
def listenInLoop (a : Acceptor) : Acceptor :=
  if !a.accept_ || a.listenning_ then a
  else { a with listenning_ := true, channel_ := a.channel_.open }

/-- `Acceptor::closeInLoop`. -/
def closeInLoop (a : Acceptor) : Acceptor :=
  if a.accept_ then a else { a with channel_ := a.channel_.close }

theorem listen_cases (a : Acceptor) :
    a.listen.1.accept_ = true ∧ a.listen.1.channel_ = a.channel_ := by
  unfold listen
  split
  · rename_i haccept
    exact ⟨haccept, rfl⟩
  · exact ⟨rfl, rfl⟩

theorem close_channel (a : Acceptor) : a.close.1.channel_ = a.channel_ := by
  unfold close
  split
  · rfl
  · rfl

theorem listenInLoop_cases (a : Acceptor) : a.listenInLoop.accept_ = a.accept_
    ∧ (a.listenInLoop.channel_ = a.channel_
      ∨ (a.accept_ = true ∧ a.listenInLoop.channel_ = a.channel_.open)) := by
  unfold listenInLoop
  split
  · exact ⟨rfl, Or.inl rfl⟩
  · rename_i hopen
    simp only [Bool.or_eq_true, Bool.not_eq_true', not_or, Bool.not_eq_false] at hopen
    exact ⟨rfl, Or.inr ⟨hopen.1, rfl⟩⟩

theorem closeInLoop_cases (a : Acceptor) : a.closeInLoop.accept_ = a.accept_
    ∧ (a.closeInLoop.channel_ = a.channel_
      ∨ (a.accept_ = false ∧ a.closeInLoop.channel_ = a.channel_.close)) := by
  unfold closeInLoop
  split
  · exact ⟨rfl, Or.inl rfl⟩
  · rename_i hclose
    exact ⟨rfl, Or.inr ⟨Bool.eq_false_iff.mpr hclose, rfl⟩⟩

end Acceptor

namespace AcceptorLoop

def init (idleFd : Option ℕ) : AcceptorLoop :=
  { acceptor := Acceptor.make idleFd, activedChannels_ := [], pendingFunctors_ := []
    functors := [], pc := .poll, handed := [], closed := [] }

/-- A call, by any thread. -/
def call (s : AcceptorLoop) (r : Acceptor × Option AcceptorFunctor) : AcceptorLoop :=
  { s with acceptor := r.1, pendingFunctors_ := s.pendingFunctors_ ++ r.2.toList }

/-- A `poll`: only a registered channel has events reported. -/
def poll (s : AcceptorLoop) (events : Events) : Option AcceptorLoop :=
  if s.pc = .poll ∧ (s.acceptor.channel_.started_ = true ∨ events = Events.none) then
    let r := Channel.poll () events (s.acceptor.channel_, s.activedChannels_)
    some { s with
      acceptor := { s.acceptor with channel_ := r.1 }, activedChannels_ := r.2, pc := .dispatch }
  else none

/-- The end of `Channel::handleEvents`, behind the read callback. -/
def handled (s : AcceptorLoop) : AcceptorLoop :=
  { s with
    acceptor := { s.acceptor with channel_ := { s.acceptor.channel_ with rwrite_ := false } }
    pc := .dispatch }

/-- The next channel of the active list, whose only callback is `onRead`, up to
the loop of that function; or the swap of `doPendingFunctors`. -/
def handle (s : AcceptorLoop) : Option AcceptorLoop :=
  if s.pc = .dispatch then
    match s.activedChannels_ with
    | [] =>
        some { s with functors := s.pendingFunctors_, pendingFunctors_ := [], pc := .functors }
    | _ :: rest =>
        let c := { s.acceptor.channel_ with actived_ := false, rclose_ := false, rerror_ := false }
        let s' := { s with
          acceptor := { s.acceptor with channel_ := { c with rread_ := false } }
          activedChannels_ := rest }
        if c.rread_ && s.acceptor.accept_ then some { s' with pc := .accepting }
        else some s'.handled
  else none

/-- One turn of the loop of `Acceptor::onRead`. -/
def accept (s : AcceptorLoop) (sockFd : Except Errno ℕ) (idle null : Option ℕ) :
    Option AcceptorLoop :=
  if s.pc = .accepting then
    match sockFd with
    | .error .EAGAIN =>
        some { s with
          acceptor := { s.acceptor with channel_ := s.acceptor.channel_.disableReadable } }.handled
    | .error .EMFILE | .error .ENFILE =>
        -- the spare descriptor makes room for a connection that is dropped
        some { s with
          acceptor := { s.acceptor with idleFd_ := null }
          closed := s.closed ++ s.acceptor.idleFd_.toList ++ idle.toList }
    | .error _ => some s.handled
    | .ok sockFd =>
        if s.acceptor.acceptCallback_ then some { s with handed := s.handed ++ [sockFd] }
        else some { s with closed := s.closed ++ [sockFd] }
  else none

/-- The next functor of the batch, or the way back to `poll`. -/
def functor (s : AcceptorLoop) : Option AcceptorLoop :=
  if s.pc = .functors then
    match s.functors with
    | [] => some { s with pc := .poll }
    | .listenInLoop :: rest =>
        some { s with acceptor := s.acceptor.listenInLoop, functors := rest }
    | .closeInLoop :: rest =>
        some { s with acceptor := s.acceptor.closeInLoop, functors := rest }
  else none

def step (s : AcceptorLoop) : AcceptorEvent → Option AcceptorLoop
  | .listen => some (s.call s.acceptor.listen)
  | .close => some (s.call s.acceptor.close)
  | .setAcceptCallback => some { s with acceptor := { s.acceptor with acceptCallback_ := true } }
  | .poll events => s.poll events
  | .handle => s.handle
  | .accept sockFd idle null => s.accept sockFd idle null
  | .functor => s.functor

/-! ## What a step can do -/

/-- The steps of the machine, one constructor for each way through its
functions. -/
inductive Moves (s : AcceptorLoop) : AcceptorEvent → AcceptorLoop → Prop where
  | listen (a : Acceptor) (f : List AcceptorFunctor) (haccept : a.accept_ = true)
      (hchannel : a.channel_ = s.acceptor.channel_) : Moves s .listen { s with
        acceptor := a, pendingFunctors_ := s.pendingFunctors_ ++ f }
  | close (a : Acceptor) (f : List AcceptorFunctor)
      (hchannel : a.channel_ = s.acceptor.channel_) : Moves s .close { s with
        acceptor := a, pendingFunctors_ := s.pendingFunctors_ ++ f }
  | setAcceptCallback : Moves s .setAcceptCallback
      { s with acceptor := { s.acceptor with acceptCallback_ := true } }
  | poll (events : Events) (t : Channel × List Unit) (hpc : s.pc = .poll)
      (hreg : s.acceptor.channel_.started_ = true
        ∨ t = (s.acceptor.channel_, s.activedChannels_))
      (hpolled : Channel.Polled () (s.acceptor.channel_, s.activedChannels_) t) :
      Moves s (.poll events) { s with
        acceptor := { s.acceptor with channel_ := t.1 }, activedChannels_ := t.2, pc := .dispatch }
  | swap (hpc : s.pc = .dispatch) (hlist : s.activedChannels_ = []) : Moves s .handle { s with
      functors := s.pendingFunctors_, pendingFunctors_ := [], pc := .functors }
  | enter (rest : List Unit) (hpc : s.pc = .dispatch) (hlist : s.activedChannels_ = () :: rest)
      (hread : s.acceptor.channel_.rread_ = true) (haccept : s.acceptor.accept_ = true)
      (c : Channel) (hc : c = { s.acceptor.channel_ with
        actived_ := false, rclose_ := false, rerror_ := false, rread_ := false }) :
      Moves s .handle { s with
        acceptor := { s.acceptor with channel_ := c }, activedChannels_ := rest, pc := .accepting }
  | skip (rest : List Unit) (hpc : s.pc = .dispatch) (hlist : s.activedChannels_ = () :: rest)
      (hskip : s.acceptor.channel_.rread_ = false ∨ s.acceptor.accept_ = false)
      (c : Channel) (hc : c = { s.acceptor.channel_ with
        actived_ := false, rclose_ := false, rerror_ := false, rread_ := false
        rwrite_ := false }) :
      Moves s .handle { s with
        acceptor := { s.acceptor with channel_ := c }, activedChannels_ := rest }
  | rearm (sockFd : Except Errno ℕ) (idle null : Option ℕ) (hpc : s.pc = .accepting)
      (hagain : sockFd = .error .EAGAIN) (c : Channel)
      (hc : c = { s.acceptor.channel_ with readable_ := false, rwrite_ := false }) :
      Moves s (.accept sockFd idle null)
        { s with acceptor := { s.acceptor with channel_ := c }, pc := .dispatch }
  | turn (sockFd : Except Errno ℕ) (idle null fd : Option ℕ) (handed closed : List ℕ)
      (hpc : s.pc = .accepting)
      (hturn : ∀ err, sockFd = .error err → err = .EMFILE ∨ err = .ENFILE) :
      Moves s (.accept sockFd idle null)
        { s with acceptor := { s.acceptor with idleFd_ := fd }, handed := handed, closed := closed }
  | giveUp (err : Errno) (idle null : Option ℕ) (hpc : s.pc = .accepting)
      (herr : err ≠ .EAGAIN ∧ err ≠ .EMFILE ∧ err ≠ .ENFILE) (c : Channel)
      (hc : c = { s.acceptor.channel_ with rwrite_ := false }) :
      Moves s (.accept (.error err) idle null)
        { s with acceptor := { s.acceptor with channel_ := c }, pc := .dispatch }
  | functor (a : Acceptor) (rest : List AcceptorFunctor) (pc : AcceptorPc)
      (hpc : s.pc = .functors) (hpc' : pc = .functors ∨ pc = .poll)
      (haccept : a.accept_ = s.acceptor.accept_)
      (hchannel : a.channel_ = s.acceptor.channel_
        ∨ (s.acceptor.accept_ = true ∧ a.channel_ = s.acceptor.channel_.open)
        ∨ (s.acceptor.accept_ = false ∧ a.channel_ = s.acceptor.channel_.close)) :
      Moves s .functor { s with acceptor := a, functors := rest, pc := pc }

section Cases

variable {s t : AcceptorLoop}

theorem handle_moves (h : s.handle = some t) : Moves s .handle t := by
  unfold handle at h
  split at h
  · rename_i hpc
    split at h
    · rename_i hlist
      obtain rfl := Option.some.inj h
      exact .swap hpc hlist
    · rename_i rest hlist
      dsimp only at h
      split at h
      · rename_i hin
        obtain rfl := Option.some.inj h
        obtain ⟨hread, haccept⟩ := (Bool.and_eq_true _ _).mp hin
        exact .enter rest hpc hlist hread haccept _ rfl
      · rename_i hout
        obtain rfl := Option.some.inj h
        have hskip : s.acceptor.channel_.rread_ = false ∨ s.acceptor.accept_ = false := by
          simpa [← Bool.and_eq_false_iff] using hout
        have := Moves.skip (s := s) rest hpc hlist hskip _ rfl
        rw [hpc] at this
        exact this
  · cases h

theorem accept_moves {sockFd : Except Errno ℕ} {idle null : Option ℕ}
    (h : s.accept sockFd idle null = some t) : Moves s (.accept sockFd idle null) t := by
  unfold accept at h
  split at h
  · rename_i hpc
    split at h
    · obtain rfl := Option.some.inj h
      exact .rearm _ idle null hpc rfl _ rfl
    · obtain rfl := Option.some.inj h
      exact .turn _ idle null null s.handed _ hpc fun err herr => by cases herr; exact Or.inl rfl
    · obtain rfl := Option.some.inj h
      exact .turn _ idle null null s.handed _ hpc fun err herr => by cases herr; exact Or.inr rfl
    · rename_i err hagain hmfile hnfile
      obtain rfl := Option.some.inj h
      refine .giveUp err idle null hpc ⟨?_, ?_, ?_⟩ _ rfl
      · rintro rfl
        exact hagain rfl
      · rintro rfl
        exact hmfile rfl
      · rintro rfl
        exact hnfile rfl
    · split at h
      · obtain rfl := Option.some.inj h
        exact .turn _ idle null s.acceptor.idleFd_ _ s.closed hpc fun err herr => by cases herr
      · obtain rfl := Option.some.inj h
        exact .turn _ idle null s.acceptor.idleFd_ s.handed _ hpc fun err herr => by cases herr
  · cases h

theorem functor_moves (h : s.functor = some t) : Moves s .functor t := by
  unfold functor at h
  split at h
  · rename_i hpc
    split at h
    · obtain rfl := Option.some.inj h
      exact .functor s.acceptor s.functors .poll hpc (Or.inr rfl) rfl (Or.inl rfl)
    · rename_i rest hf
      obtain rfl := Option.some.inj h
      obtain ⟨haccept, hchannel⟩ := s.acceptor.listenInLoop_cases
      exact .functor s.acceptor.listenInLoop rest s.pc hpc (Or.inl hpc) haccept
        (hchannel.imp_right Or.inl)
    · rename_i rest hf
      obtain rfl := Option.some.inj h
      obtain ⟨haccept, hchannel⟩ := s.acceptor.closeInLoop_cases
      exact .functor s.acceptor.closeInLoop rest s.pc hpc (Or.inl hpc) haccept
        (hchannel.imp_right Or.inr)
  · cases h

/-- **What a step can do.** -/
theorem step_moves {e : AcceptorEvent} (h : step s e = some t) : Moves s e t := by
  cases e with
  | listen =>
      obtain rfl := Option.some.inj h
      obtain ⟨haccept, hchannel⟩ := s.acceptor.listen_cases
      exact .listen _ _ haccept hchannel
  | close =>
      obtain rfl := Option.some.inj h
      exact .close _ _ s.acceptor.close_channel
  | setAcceptCallback => exact (Option.some.inj h) ▸ .setAcceptCallback
  | poll events =>
      change s.poll events = some t at h
      unfold poll at h
      split at h
      · rename_i hguard
        obtain rfl := Option.some.inj h
        refine .poll events _ hguard.1 (hguard.2.imp_right fun hnone => ?_)
          (Channel.polled_poll () events _)
        rw [hnone, Channel.poll_none]
      · cases h
  | handle => exact handle_moves h
  | accept sockFd idle null => exact accept_moves h
  | functor => exact functor_moves h

end Cases

/-! ## The gate -/

/-- The way out of `onRead`, if this is one, opens the gate again, and
otherwise the loop goes on: an error is one of the three the loop knows. -/
def Rearms (_ : AcceptorLoop) : AcceptorEvent → Prop
  | .accept (.error err) _ _ => err = .EAGAIN ∨ err = .EMFILE ∨ err = .ENFILE
  | _ => True

/-- The gate of an acceptor that has not been closed is shut only while an edge
is being dealt with: it is pending on the active list, or `onRead` accepts. -/
structure Hears (s : AcceptorLoop) : Prop where
  read : s.acceptor.channel_.read_ = true
  listed : s.activedChannels_ = if s.acceptor.channel_.actived_ then [()] else []
  idle : s.pc ≠ .dispatch → s.acceptor.channel_.actived_ = false
  pending : s.acceptor.channel_.rread_ = true → s.acceptor.channel_.actived_ = true
  gate : s.acceptor.channel_.readable_ = true →
    s.pc = .accepting ∨ s.acceptor.channel_.rread_ = true
  fresh : s.acceptor.accept_ = false → s.acceptor.channel_.started_ = false
    ∧ s.acceptor.channel_.actived_ = false ∧ s.acceptor.channel_.readable_ = false

/-- The gate is shut with the flag, and while `onRead` accepts. -/
structure Edge (s : AcceptorLoop) : Prop where
  flag : s.acceptor.channel_.rread_ = true → s.acceptor.channel_.readable_ = true
  turn : s.pc = .accepting →
    s.acceptor.channel_.readable_ = true ∧ s.acceptor.channel_.rread_ = false

/-- Between the edge and the next one there is nobody left to open the gate. -/
structure Deaf (s : AcceptorLoop) : Prop where
  shut : s.acceptor.channel_.readable_ = true
  settled : s.acceptor.channel_.rread_ = false
  returned : s.pc ≠ .accepting

theorem hears_init (idleFd : Option ℕ) : Hears (init idleFd) where
  read := rfl
  listed := rfl
  idle := fun _ => rfl
  pending := fun h => by cases h
  gate := fun h => by cases h
  fresh := fun _ => ⟨rfl, rfl, rfl⟩

section Step

variable {s t : AcceptorLoop} {e : AcceptorEvent}

/-- A step that leaves the channel, or only its registration is new. -/
theorem Hears.congr (h : Hears s) (haccept : s.acceptor.accept_ = true → t.acceptor.accept_ = true)
    (hchannel : t.acceptor.channel_ = s.acceptor.channel_
      ∨ (s.acceptor.accept_ = true ∧ t.acceptor.channel_ = s.acceptor.channel_.open))
    (hlist : t.activedChannels_ = s.activedChannels_)
    (hpc : t.pc = s.pc ∨ (s.pc ≠ .dispatch ∧ s.pc ≠ .accepting)) : Hears t := by
  have hfields : t.acceptor.channel_.read_ = s.acceptor.channel_.read_
      ∧ t.acceptor.channel_.actived_ = s.acceptor.channel_.actived_
      ∧ t.acceptor.channel_.rread_ = s.acceptor.channel_.rread_
      ∧ t.acceptor.channel_.readable_ = s.acceptor.channel_.readable_ := by
    rcases hchannel with hsame | ⟨-, hopen⟩
    · rw [hsame]
      exact ⟨rfl, rfl, rfl, rfl⟩
    · rw [hopen]
      exact ⟨rfl, rfl, rfl, rfl⟩
  -- registration is not among the fields the invariant is about, but for `fresh`
  obtain ⟨hread, hactived, hrread, hreadable⟩ := hfields
  refine ⟨hread.trans h.read, ?_, ?_, ?_, ?_, ?_⟩
  · rw [hlist, hactived]
    exact h.listed
  · intro hne
    rw [hactived]
    rcases hpc with heq | ⟨hout, -⟩
    · exact h.idle (heq ▸ hne)
    · exact h.idle hout
  · rw [hrread, hactived]
    exact h.pending
  · intro hshut
    rw [hreadable] at hshut
    rw [hrread]
    rcases h.gate hshut with hin | hin
    · rcases hpc with heq | ⟨-, hout⟩
      · exact Or.inl (heq.trans hin)
      · exact absurd hin hout
    · exact Or.inr hin
  · intro hf
    have hf' : s.acceptor.accept_ = false := by
      by_contra hne
      rw [haccept (by simpa using hne)] at hf
      cases hf
    rw [hactived, hreadable]
    rcases hchannel with hsame | ⟨htrue, -⟩
    · rw [hsame]
      exact h.fresh hf'
    · rw [htrue] at hf'
      cases hf'

/-- Nothing is pending on a channel that is not on the active list. -/
theorem Hears.settled (h : Hears s) (hidle : s.acceptor.channel_.actived_ = false) :
    s.acceptor.channel_.rread_ = false := by
  by_contra hne
  rw [h.pending (by simpa using hne)] at hidle
  cases hidle

/-- Outside of `onRead` the gate is open, unless an edge is pending. -/
theorem Hears.gate_open (h : Hears s) (hpc : s.pc ≠ .accepting)
    (hread : s.acceptor.channel_.rread_ = false) : s.acceptor.channel_.readable_ = false := by
  by_contra hne
  rcases h.gate (by simpa using hne) with hin | hin
  · exact hpc hin
  · rw [hread] at hin
    cases hin

/-- The active list is that of one channel. -/
theorem Hears.head (h : Hears s) {rest : List Unit} (hlist : s.activedChannels_ = () :: rest) :
    s.acceptor.channel_.actived_ = true ∧ rest = [] := by
  have hlisted := h.listed
  rw [hlist] at hlisted
  by_cases hactived : s.acceptor.channel_.actived_ = true
  · rw [if_pos hactived] at hlisted
    exact ⟨hactived, (List.cons.inj hlisted).2⟩
  · rw [if_neg hactived] at hlisted
    cases hlisted

/-- Every step that rearms, but for a `close`, keeps the invariant. -/
theorem hears_step (h : Hears s) (hopen : e ≠ .close) (hC : Rearms s e)
    (hstep : step s e = some t) : Hears t := by
  cases step_moves hstep with
  | listen a f haccept hchannel =>
      exact h.congr (fun _ => haccept) (Or.inl hchannel) rfl (Or.inl rfl)
  | close a f hchannel => exact absurd rfl hopen
  | setAcceptCallback => exact h.congr id (Or.inl rfl) rfl (Or.inl rfl)
  | poll events r hpc hreg hpolled =>
      have hidle := h.idle (by rw [hpc]; decide)
      -- before the poll nothing is pending and the gate is open
      have hsettled := h.settled hidle
      have hgate := h.gate_open (by rw [hpc]; decide) hsettled
      refine ⟨hpolled.read_eq.trans h.read, ?_, fun hne => absurd rfl hne, ?_, ?_, ?_⟩
      · rcases hpolled.listed with ⟨hactived, hlist⟩ | ⟨-, hactived, hlist⟩
        · dsimp only
          rw [hlist, hactived]
          exact h.listed
        · dsimp only
          rw [hlist, hactived, h.listed, hidle]
          rfl
      · intro hread
        rcases hpolled.read_gate with ⟨-, hsame⟩ | ⟨-, -, -, hactived⟩
        · dsimp only at hread
          rw [hsame, hsettled] at hread
          cases hread
        · exact hactived
      · intro hshut
        rcases hpolled.read_gate with ⟨hsame, -⟩ | ⟨-, -, hread, -⟩
        · dsimp only at hshut
          rw [hsame, hgate] at hshut
          cases hshut
        · exact Or.inr hread
      · intro hf
        obtain ⟨hstarted, hactived, hreadable⟩ := h.fresh hf
        rcases hreg with hreg | rfl
        · rw [hstarted] at hreg
          cases hreg
        · exact ⟨hstarted, hactived, hreadable⟩
  | swap hpc hlist =>
      have hidle : s.acceptor.channel_.actived_ = false := by
        have hlisted := h.listed
        rw [hlist] at hlisted
        by_contra hne
        rw [if_pos (by simpa using hne)] at hlisted
        cases hlisted
      refine ⟨h.read, h.listed, fun _ => hidle, h.pending, fun hshut => ?_, h.fresh⟩
      rcases h.gate hshut with hin | hin
      · rw [hpc] at hin
        cases hin
      · exact Or.inr hin
  | enter rest hpc hlist hread haccept c hc =>
      -- the gate may be shut from here on, as long as the loop is in `onRead`
      subst hc
      refine ⟨h.read, (h.head hlist).2, fun _ => rfl, fun hr => (by cases hr),
        fun _ => Or.inl rfl, ?_⟩
      intro hf
      dsimp only at hf
      rw [haccept] at hf
      cases hf
  | skip rest hpc hlist hskip c hc =>
      -- a channel that was activated is one of a listening acceptor
      obtain ⟨hactived, hrest⟩ := h.head hlist
      have haccept : s.acceptor.accept_ = true := by
        by_contra hne
        rw [(h.fresh (by simpa using hne)).2.1] at hactived
        cases hactived
      have hread : s.acceptor.channel_.rread_ = false := by
        rcases hskip with hread | hf
        · exact hread
        · rw [haccept] at hf
          cases hf
      have hgate := h.gate_open (by rw [hpc]; decide) hread
      subst hc
      refine ⟨h.read, hrest, fun _ => rfl, fun hr => (by cases hr), ?_, ?_⟩
      · intro hshut
        dsimp only at hshut
        rw [hgate] at hshut
        cases hshut
      · intro hf
        dsimp only at hf
        rw [haccept] at hf
        cases hf
  | rearm sockFd idle null hpc hagain c hc =>
      -- `disableReadable` opens the gate on the way out
      subst hc
      have hidle := h.idle (by rw [hpc]; decide)
      exact ⟨h.read, h.listed, fun _ => hidle, h.pending, fun hshut => (by cases hshut),
        fun hf => ⟨(h.fresh hf).1, hidle, rfl⟩⟩
  | turn sockFd idle null fd handed closed hpc hturn =>
      exact h.congr id (Or.inl rfl) rfl (Or.inl rfl)
  | giveUp err idle null hpc herr c hc =>
      -- the way out that the condition excludes
      rcases hC with rfl | rfl | rfl
      · exact absurd rfl herr.1
      · exact absurd rfl herr.2.1
      · exact absurd rfl herr.2.2
  | functor a rest pc hpc hpc' haccept hchannel =>
      refine h.congr (fun ha => haccept.trans ha) ?_ rfl (Or.inr (by rw [hpc]; decide))
      rcases hchannel with hsame | ⟨ha, hopen⟩ | ⟨hf, hclose⟩
      · exact Or.inl hsame
      · exact Or.inr ⟨ha, hopen⟩
      · -- what is not registered stays so
        left
        obtain ⟨hstarted, -⟩ := h.fresh hf
        rw [hclose]
        unfold Channel.close
        rw [← hstarted]

/-- Opening and closing a channel leave its interest and its gate. -/
theorem registration_gate {c c' : Channel} (h : c' = c ∨ c' = c.open ∨ c' = c.close) :
    c'.read_ = c.read_ ∧ c'.readable_ = c.readable_ ∧ c'.rread_ = c.rread_ := by
  rcases h with rfl | rfl | rfl
  · exact ⟨rfl, rfl, rfl⟩
  · exact ⟨rfl, rfl, rfl⟩
  · exact ⟨rfl, rfl, rfl⟩

/-- After a functor the loop is not in `onRead`. -/
theorem ne_accepting {pc : AcceptorPc} (h : pc = .functors ∨ pc = .poll) : pc ≠ .accepting := by
  rcases h with rfl | rfl
  · decide
  · decide

/-- The interest of the channel never changes. -/
theorem read_step (hstep : step s e = some t) :
    t.acceptor.channel_.read_ = s.acceptor.channel_.read_ := by
  cases step_moves hstep with
  | listen a f haccept hchannel => exact congrArg Channel.read_ hchannel
  | close a f hchannel => exact congrArg Channel.read_ hchannel
  | setAcceptCallback => rfl
  | poll events r hpc hreg hpolled => exact hpolled.read_eq
  | swap hpc hlist => rfl
  | enter rest hpc hlist hread haccept c hc => rw [hc]
  | skip rest hpc hlist hskip c hc => rw [hc]
  | rearm sockFd idle null hpc hagain c hc => rw [hc]
  | turn sockFd idle null fd handed closed hpc hturn => rfl
  | giveUp err idle null hpc herr c hc => rw [hc]
  | functor a rest pc hpc hpc' haccept hchannel =>
      exact (registration_gate (hchannel.imp_right (Or.imp And.right And.right))).1

theorem edge_step (h : Edge s) (hstep : step s e = some t) : Edge t := by
  cases step_moves hstep with
  | listen a f haccept hchannel => exact ⟨hchannel ▸ h.flag, hchannel ▸ h.turn⟩
  | close a f hchannel => exact ⟨hchannel ▸ h.flag, hchannel ▸ h.turn⟩
  | setAcceptCallback => exact ⟨h.flag, h.turn⟩
  | poll events r hpc hreg hpolled =>
      refine ⟨fun hread => ?_, fun hin => by cases hin⟩
      rcases hpolled.read_gate with ⟨hshut, hsame⟩ | ⟨-, hshut, -⟩
      · exact hshut.trans (h.flag (hsame.symm.trans hread))
      · exact hshut
  | swap hpc hlist => exact ⟨h.flag, fun hin => by cases hin⟩
  | enter rest hpc hlist hread haccept c hc =>
      subst hc
      exact ⟨fun hr => (by cases hr), fun _ => ⟨h.flag hread, rfl⟩⟩
  | skip rest hpc hlist hskip c hc =>
      subst hc
      refine ⟨fun hr => (by cases hr), fun hin => ?_⟩
      rw [hpc] at hin
      cases hin
  | rearm sockFd idle null hpc hagain c hc =>
      subst hc
      refine ⟨fun hr => ?_, fun hin => by cases hin⟩
      dsimp only at hr
      rw [(h.turn hpc).2] at hr
      cases hr
  | turn sockFd idle null fd handed closed hpc hturn => exact ⟨h.flag, h.turn⟩
  | giveUp err idle null hpc herr c hc =>
      subst hc
      exact ⟨h.flag, fun hin => by cases hin⟩
  | functor a rest pc hpc hpc' haccept hchannel =>
      obtain ⟨-, hreadable, hrread⟩ :=
        registration_gate (hchannel.imp_right (Or.imp And.right And.right))
      exact ⟨fun hread => hreadable.trans (h.flag (hrread.symm.trans hread)),
        fun hin => absurd hin (ne_accepting hpc')⟩

/-- The way out that does not rearm leaves the acceptor deaf. -/
theorem deaf_of_not_rearms (h : Edge s) (hbad : ¬ Rearms s e) (hstep : step s e = some t) :
    Deaf t := by
  cases step_moves hstep with
  | giveUp err idle null hpc herr c hc =>
      subst hc
      exact ⟨(h.turn hpc).1, (h.turn hpc).2, fun hin => by cases hin⟩
  | rearm sockFd idle null hpc hagain c hc =>
      subst hagain
      exact absurd (Or.inl rfl) hbad
  | turn sockFd idle null fd handed closed hpc hturn =>
      refine absurd ?_ hbad
      cases sockFd with
      | error err => exact Or.inr (hturn err rfl)
      | ok fd => trivial
  | listen => exact absurd trivial hbad
  | close => exact absurd trivial hbad
  | setAcceptCallback => exact absurd trivial hbad
  | poll => exact absurd trivial hbad
  | swap => exact absurd trivial hbad
  | enter => exact absurd trivial hbad
  | skip => exact absurd trivial hbad
  | functor => exact absurd trivial hbad

/-- A gate that is shut with nobody to open it stays shut. -/
theorem deaf_step (h : Deaf s) (hstep : step s e = some t) : Deaf t := by
  cases step_moves hstep with
  | listen a f haccept hchannel =>
      exact ⟨hchannel ▸ h.shut, hchannel ▸ h.settled, h.returned⟩
  | close a f hchannel => exact ⟨hchannel ▸ h.shut, hchannel ▸ h.settled, h.returned⟩
  | setAcceptCallback => exact ⟨h.shut, h.settled, h.returned⟩
  | poll events r hpc hreg hpolled =>
      -- a shut gate lets no edge through
      rcases hpolled.read_gate with ⟨hshut, hread⟩ | ⟨hopen, -⟩
      · exact ⟨hshut.trans h.shut, hread.trans h.settled, fun hpc => by cases hpc⟩
      · rw [h.shut] at hopen
        cases hopen
  | swap hpc hlist => exact ⟨h.shut, h.settled, fun hpc => by cases hpc⟩
  | enter rest hpc hlist hread haccept c hc =>
      rw [h.settled] at hread
      cases hread
  | skip rest hpc hlist hskip c hc =>
      subst hc
      exact ⟨h.shut, rfl, h.returned⟩
  | rearm sockFd idle null hpc hagain c hc => exact absurd hpc h.returned
  | turn sockFd idle null fd handed closed hpc hturn => exact absurd hpc h.returned
  | giveUp err idle null hpc herr c hc => exact absurd hpc h.returned
  | functor a rest pc hpc hpc' haccept hchannel =>
      obtain ⟨-, hreadable, hrread⟩ :=
        registration_gate (hchannel.imp_right (Or.imp And.right And.right))
      exact ⟨hreadable.trans h.shut, hrread.trans h.settled, ne_accepting hpc'⟩

end Step

/-! ## Runs -/

/-- **The acceptor rearms exactly while every error of `accept4` is one its loop
knows.** In every run of an acceptor that is not closed, of calls of `listen`
from any thread and rounds of the loop with any events and any answers of
`accept4`: when the loop is about to poll, the gate of the channel is open if and
only if every error so far was `EAGAIN`, `EMFILE` or `ENFILE`. An edge that is
then reported reaches `onRead`. -/
theorem acceptor_rearmed_iff (idleFd : Option ℕ) {es : List AcceptorEvent} {t : AcceptorLoop}
    (hopen : ∀ e ∈ es, e ≠ .close) (hrun : run step (init idleFd) es = some t)
    (hpc : t.pc = .poll) :
    (t.acceptor.channel_.readable_ = false ↔ Along step Rearms (init idleFd) es)
      ∧ (t.acceptor.channel_.readable_ = false → ∀ events : Events, events.input = true →
        (Channel.poll () events (t.acceptor.channel_, t.activedChannels_)).1.rread_ = true) := by
  have hread : t.acceptor.channel_.read_ = true := by
    refine run_inv (I := fun s : AcceptorLoop => s.acceptor.channel_.read_ = true) ?_ rfl hrun
    exact fun s e s' h hs => (read_step hs).trans h
  refine ⟨⟨fun hgate => ?_, fun hC => ?_⟩, fun hgate events hinput => ?_⟩
  · refine along_of_trap (I := Edge) (P := Deaf) (fun _ _ _ h hs => edge_step h hs)
      (fun _ _ _ h hbad hs => deaf_of_not_rearms h hbad hs)
      (fun _ _ _ _ h hs => deaf_step h hs) ⟨fun h => (by cases h), fun h => by cases h⟩ hrun ?_
    intro hdeaf
    rw [hdeaf.shut] at hgate
    cases hgate
  · have hhears : Hears t := by
      refine run_inv_along (I := Hears) (C := fun s e => e ≠ .close ∧ Rearms s e) ?_
        (hears_init idleFd) (along_and step (along_of_mem step fun e he _ => hopen e he) hC) hrun
      exact fun s e s' h hs => hears_step h hs.1 hs.2
    by_contra hne
    rcases hhears.gate (by simpa using hne) with hin | hin
    · rw [hpc] at hin
      cases hin
    · have hidle := hhears.idle (by rw [hpc]; decide)
      rw [hhears.pending hin] at hidle
      cases hidle
  · exact Channel.poll_input () hinput hread hgate

/-- An edge, one connection accepted, and the loop about to poll again. -/
theorem acceptor_rearmed_accept : ∃ t,
    run step (init (some 3)) [.setAcceptCallback, .listen, .poll Events.none, .handle, .functor,
      .functor, .poll ⟨false, false, true, false⟩, .handle, .accept (.ok 7) none none,
      .accept (.error .EAGAIN) none none, .handle, .functor] = some t
    ∧ t.handed = [7]
    ∧ (t.acceptor.channel_.readable_ = false ↔ Along step Rearms (init (some 3))
      [.setAcceptCallback, .listen, .poll Events.none, .handle, .functor, .functor,
        .poll ⟨false, false, true, false⟩, .handle, .accept (.ok 7) none none,
        .accept (.error .EAGAIN) none none, .handle, .functor]) := by
  have heval : (run step (init (some 3)) [.setAcceptCallback, .listen, .poll Events.none, .handle,
      .functor, .functor, .poll ⟨false, false, true, false⟩, .handle, .accept (.ok 7) none none,
      .accept (.error .EAGAIN) none none, .handle, .functor]).map (fun t => (t.pc, t.handed))
      = some (.poll, [7]) := by
    decide
  obtain ⟨t, hrun, ht⟩ := Option.map_eq_some_iff.mp heval
  obtain ⟨hpc, hhanded⟩ := Prod.mk.inj ht
  exact ⟨t, hrun, hhanded, (acceptor_rearmed_iff (some 3) (by simp) hrun hpc).1⟩

/-- A connection that is aborted before it is accepted: the acceptor listens, its
channel is registered, and the gate stays shut. -/
theorem acceptor_deaf : ¬ ∀ (es : List AcceptorEvent) (t : AcceptorLoop),
    (∀ e ∈ es, e ≠ .close) → run step (init (some 3)) es = some t → t.pc = .poll →
    t.acceptor.accept_ = true → t.acceptor.channel_.started_ = true →
    t.acceptor.channel_.readable_ = false := by
  intro h
  have heval : (run step (init (some 3)) [.setAcceptCallback, .listen, .poll Events.none, .handle,
      .functor, .functor, .poll ⟨false, false, true, false⟩, .handle,
      .accept (.error (.other 103)) none none, .handle, .functor]).map
        (fun t => (t.pc, t.acceptor.accept_, t.acceptor.channel_.started_,
          t.acceptor.channel_.readable_))
      = some (.poll, true, true, true) := by
    decide
  obtain ⟨t, hrun, ht⟩ := Option.map_eq_some_iff.mp heval
  simp only [Prod.mk.injEq] at ht
  obtain ⟨hpc, haccept, hstarted, hshut⟩ := ht
  have hgate := h _ t (by simp) hrun hpc haccept hstarted
  rw [hshut] at hgate
  cases hgate

end AcceptorLoop

end Libiak.Net
