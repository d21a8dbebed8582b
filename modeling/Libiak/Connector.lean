/-
`net/Connector.cpp` on its event loop, and who owns the descriptors it opens.

A descriptor belongs to the connecting channel from `::connect` on until the
outcome is known; then it is handed to `connectCallback_`, or closed. Three
places let go of that. `connectInLoop` has no way out for a connection made at
once while no callback is set. `closeInLoop` closes the descriptor and leaves
`connecting_` and `channel_` as they are, so that the next `closeInLoop` closes
it again. And `resetChannel`, queued by `onWrite` for the channel it has
finished with, destroys whatever channel is there when it runs: an attempt
queued before it has put a new one in its place.

Those are the only ones: `OwnsOnce` is the condition that a step is none of
them, and in a run every descriptor has one owner at every moment if and only if
every step meets it (`connector_owns_iff`).

A descriptor is named by the number of those opened before it; the number the
kernel gives it may well be one that was closed.
-/
import Libiak.Channel
import Libiak.Run
import Libiak.Socket

set_option autoImplicit false

namespace Libiak.Net

open Libiak.Run

/-- `class Connector`. The channel comes with its descriptor; of
`connectCallback_` it matters whether it is set. -/
structure Connector where
  connect_ : Bool
  connecting_ : Bool
  channel_ : Option (ℕ × Channel)
  connectCallback_ : Bool
  deriving DecidableEq

/-- The functors the connector queues. -/
inductive ConnectorFunctor where
  | connectInLoop
  | closeInLoop
  | resetChannel
  deriving DecidableEq

/-- What the connector does besides changing its own state. -/
inductive ConnectorAct where
  | open (sockFd : ℕ)
  | callback (sockFd : ℕ)
  | close (sockFd : ℕ)
  | queue (functor : ConnectorFunctor)
  deriving DecidableEq

/-- The errors after which the attempt goes on in the background. -/
def Errno.connecting : Errno → Bool
  | .EINPROGRESS | .EINTR | .EISCONN => true
  | _ => false

/-- The errors after which `connectInLoop` tries again. -/
def Errno.retries : Errno → Bool
  | .EAGAIN | .EADDRINUSE | .EADDRNOTAVAIL | .ECONNREFUSED | .ENETUNREACH => true
  | _ => false

namespace Connector

/-- `Connector::Connector`. -/
def make : Connector :=
  { connect_ := false, connecting_ := false, channel_ := none, connectCallback_ := false }

/-- `Connector::connect`, and the functor it queues. -/
def connect (c : Connector) : Connector × ConnectorFunctor :=
  ({ c with connect_ := true }, .connectInLoop)

/-- `Connector::close`. -/
def close (c : Connector) : Connector × ConnectorFunctor :=
  ({ c with connect_ := false }, .closeInLoop)

/-- `Connector::connectInLoop`. `sockFd` is what `Socket::open` returned, `none`
for `-1`, on which `::connect` and `::close` fail with `EBADF`; `result` is what
`::connect` returned, `none` for 0. -/
def connectInLoop (c : Connector) (sockFd : Option ℕ) (result : Option Errno) :
    Connector × List ConnectorAct :=
  if !c.connect_ || c.connecting_ then (c, [])
  else
    match sockFd with
    | none => (c, [])
    | some sockFd =>
        match result with
        | none => (c, .open sockFd :: if c.connectCallback_ then [.callback sockFd] else [])
        | some err =>
            if err.connecting then
              ({ c with
                  connecting_ := true
                  channel_ := some (sockFd, Channel.make.enableWrite.open) }, [.open sockFd])
            else
              (c, .open sockFd :: .close sockFd
                :: if err.retries then [.queue .connectInLoop] else [])

/-- `Connector::closeInLoop`; without a value where there is no channel. -/
def closeInLoop (c : Connector) : Option (Connector × List ConnectorAct) :=
  if !c.connecting_ then some (c, [])
  else c.channel_.map fun (sockFd, channel) =>
    ({ c with channel_ := some (sockFd, channel.close) }, [.close sockFd])

/-- `Connector::resetChannel`. -/
def resetChannel (c : Connector) : Connector := { c with channel_ := none }

/-- `Connector::onWrite`. `connected` is that `SO_ERROR` could be read and is
0. -/
def onWrite (c : Connector) (connected : Bool) : Option (Connector × List ConnectorAct) :=
  if !c.connect_ || !c.connecting_ then some (c, [])
  else c.channel_.map fun (sockFd, channel) =>
    ({ c with channel_ := some (sockFd, channel.close), connecting_ := false },
      .queue .resetChannel
        :: if connected then
            [if c.connectCallback_ then .callback sockFd else .close sockFd]
          else [.close sockFd, .queue .connectInLoop])

/-- Everything `connectInLoop` can come to. -/
theorem connectInLoop_cases (c : Connector) (sockFd : Option ℕ) (result : Option Errno) :
    c.connectInLoop sockFd result = (c, [])
      ∨ (c.connect_ = true ∧ c.connecting_ = false ∧ ∃ fd,
        c.connectInLoop sockFd result
            = (c, .open fd :: if c.connectCallback_ then [.callback fd] else [])
          ∨ (∃ channel, c.connectInLoop sockFd result
            = ({ c with connecting_ := true, channel_ := channel }, [.open fd]))
          ∨ c.connectInLoop sockFd result = (c, [.open fd, .close fd])
          ∨ c.connectInLoop sockFd result
            = (c, [.open fd, .close fd, .queue .connectInLoop])) := by
  unfold connectInLoop
  by_cases hguard : (!c.connect_ || c.connecting_) = true
  · rw [if_pos hguard]
    exact Or.inl rfl
  · rw [if_neg hguard]
    simp only [Bool.or_eq_true, Bool.not_eq_true', not_or, Bool.not_eq_false,
      Bool.not_eq_true] at hguard
    cases sockFd with
    | none => exact Or.inl rfl
    | some fd =>
        refine Or.inr ⟨hguard.1, hguard.2, fd, ?_⟩
        cases result with
        | none => exact Or.inl rfl
        | some err =>
            right
            by_cases hconnecting : err.connecting = true
            · exact Or.inl ⟨_, if_pos hconnecting⟩
            · right
              by_cases hretries : err.retries = true
              · right
                simp only [if_neg hconnecting, if_pos hretries]
              · left
                simp only [if_neg hconnecting, if_neg hretries]

/-- Everything `onWrite` can come to. -/
theorem onWrite_cases {c : Connector} {connected : Bool} {r : Connector × List ConnectorAct}
    (h : c.onWrite connected = some r) :
    r = (c, []) ∨ (c.connect_ = true ∧ c.connecting_ = true ∧ ∃ channel fd,
      r = ({ c with channel_ := channel, connecting_ := false },
        .queue .resetChannel
          :: if connected then [if c.connectCallback_ then .callback fd else .close fd]
            else [.close fd, .queue .connectInLoop])) := by
  unfold onWrite at h
  by_cases hguard : (!c.connect_ || !c.connecting_) = true
  · rw [if_pos hguard] at h
    exact Or.inl (Option.some.inj h).symm
  · rw [if_neg hguard] at h
    simp only [Bool.or_eq_true, Bool.not_eq_true', not_or, Bool.not_eq_false] at hguard
    obtain ⟨⟨fd, channel⟩, -, heq⟩ := Option.map_eq_some_iff.mp h
    exact Or.inr ⟨hguard.1, hguard.2, _, fd, heq.symm⟩

end Connector

/-- Where the loop is. -/
inductive ConnectorPc where
  | poll
  | dispatch
  | functors
  deriving DecidableEq

/-- A connector on its loop. `callers` are the calls that have set their flag and
not pushed yet. The history: how many descriptors were opened, and which were
handed over and closed. -/
structure ConnectorLoop where
  connector : Connector
  activedChannels_ : List Unit
  callers : List ConnectorFunctor
  pendingFunctors_ : List ConnectorFunctor
  functors : List ConnectorFunctor
  pc : ConnectorPc
  opened : ℕ
  handed : List ℕ
  closed : List ℕ
  deriving DecidableEq

/-- What can happen next. A functor comes with the answers of the system calls
of `connectInLoop`, a dispatch with that of `SO_ERROR`. -/
inductive ConnectorEvent where
  | connect
  | close
  | setConnectCallback
  | push (i : ℕ)
  | poll (events : Events)
  | handle (connected : Bool)
  | functor (opens : Bool) (result : Option Errno)

namespace ConnectorLoop

def init : ConnectorLoop :=
  { connector := Connector.make, activedChannels_ := [], callers := [], pendingFunctors_ := []
    functors := [], pc := .poll, opened := 0, handed := [], closed := [] }

/-- A call, by any thread, up to its push. -/
def call (s : ConnectorLoop) (r : Connector × ConnectorFunctor) : ConnectorLoop :=
  { s with connector := r.1, callers := s.callers ++ [r.2] }

/-- The push of a call. -/
def push (s : ConnectorLoop) (i : ℕ) : Option ConnectorLoop :=
  s.callers[i]?.map fun f =>
    { s with callers := s.callers.eraseIdx i, pendingFunctors_ := s.pendingFunctors_ ++ [f] }

/-- What the connector has done, in order. -/
def act (s : ConnectorLoop) : ConnectorAct → ConnectorLoop
  | .open _ => { s with opened := s.opened + 1 }
  | .callback sockFd => { s with handed := s.handed ++ [sockFd] }
  | .close sockFd => { s with closed := s.closed ++ [sockFd] }
  | .queue f => { s with pendingFunctors_ := s.pendingFunctors_ ++ [f] }

def acts (s : ConnectorLoop) (r : Connector × List ConnectorAct) : ConnectorLoop :=
  r.2.foldl act { s with connector := r.1 }

/-- A channel of the connector is registered with the poller. -/
def registered (s : ConnectorLoop) : Bool :=
  match s.connector.channel_ with
  | some (_, channel) => channel.started_
  | none => false

/-- A `poll`: only a registered channel has events reported. -/
def poll (s : ConnectorLoop) (events : Events) : Option ConnectorLoop :=
  if s.pc = .poll ∧ (s.registered = true ∨ events = Events.none) then
    match s.connector.channel_ with
    | none => some { s with pc := .dispatch }
    | some (sockFd, channel) =>
        let r := Channel.poll () events (channel, s.activedChannels_)
        some { s with
          connector := { s.connector with channel_ := some (sockFd, r.1) }
          activedChannels_ := r.2, pc := .dispatch }
  else none

/-- `Channel::handleEvents` up to its test of `rwrite_`, and that flag. -/
def settle (channel : Channel) : Channel :=
  { channel with
    actived_ := false, rclose_ := false, rerror_ := false, rread_ := false, rwrite_ := false }

/-- The next channel of the active list, whose only callback is `onWrite`, or the
swap of `doPendingFunctors`. -/
def handle (s : ConnectorLoop) (connected : Bool) : Option ConnectorLoop :=
  if s.pc = .dispatch then
    match s.activedChannels_ with
    | [] =>
        some { s with functors := s.pendingFunctors_, pendingFunctors_ := [], pc := .functors }
    | _ :: rest => do
        let (sockFd, channel) ← s.connector.channel_
        let s' := { s with
          connector := { s.connector with channel_ := some (sockFd, settle channel) }
          activedChannels_ := rest }
        if channel.rwrite_ then (s'.connector.onWrite connected).map s'.acts else some s'
  else none

/-- The next functor of the batch, or the way back to `poll`. -/
def functor (s : ConnectorLoop) (opens : Bool) (result : Option Errno) : Option ConnectorLoop :=
  if s.pc = .functors then
    match s.functors with
    | [] => some { s with pc := .poll }
    | .connectInLoop :: rest =>
        some ({ s with functors := rest }.acts
          (s.connector.connectInLoop (if opens then some s.opened else none) result))
    | .closeInLoop :: rest => s.connector.closeInLoop.map { s with functors := rest }.acts
    | .resetChannel :: rest =>
        some { s with connector := s.connector.resetChannel, functors := rest }
  else none

def step (s : ConnectorLoop) : ConnectorEvent → Option ConnectorLoop
  | .connect => some (s.call s.connector.connect)
  | .close => some (s.call s.connector.close)
  | .setConnectCallback =>
      some { s with connector := { s.connector with connectCallback_ := true } }
  | .push i => s.push i
  | .poll events => s.poll events
  | .handle connected => s.handle connected
  | .functor opens result => s.functor opens result

/-! ## Owners -/

/-- The descriptor belongs to the connecting channel. -/
def Owns (s : ConnectorLoop) (fd : ℕ) : Prop :=
  s.connector.connecting_ = true
    ∧ ∃ channel, s.connector.channel_ = some (fd, channel) ∧ channel.started_ = true

/-- Every descriptor that was opened belongs to the connecting channel, or was
handed over once, or was closed once: exactly one of the three. -/
def OneOwner (s : ConnectorLoop) : Prop :=
  ∀ fd < s.opened, (s.Owns fd ∧ s.handed.count fd = 0 ∧ s.closed.count fd = 0)
    ∨ (¬ s.Owns fd ∧ s.handed.count fd + s.closed.count fd = 1)

/-- What can happen: a call that has been made is pushed, only a registered
channel has events reported, and the loop does what it is about to do. -/
def Enabled (s : ConnectorLoop) : ConnectorEvent → Prop
  | .push i => i < s.callers.length
  | .poll events => s.pc = .poll ∧ (s.registered = true ∨ events = Events.none)
  | .handle _ => s.pc = .dispatch
  | .functor _ _ => s.pc = .functors
  | _ => True

instance Enabled.decidable (s : ConnectorLoop) : (e : ConnectorEvent) → Decidable (s.Enabled e)
  | .push i => inferInstanceAs (Decidable (i < s.callers.length))
  | .poll _ => inferInstanceAs (Decidable (s.pc = .poll ∧ (s.registered = true ∨ _)))
  | .handle _ => inferInstanceAs (Decidable (s.pc = .dispatch))
  | .functor _ _ => inferInstanceAs (Decidable (s.pc = .functors))
  | .connect | .close | .setConnectCallback => isTrue trivial

/-- The step is none of the three that let go of a descriptor: a connection made
at once finds a callback, `closeInLoop` finds a channel that is registered, and
`resetChannel` finds no connecting channel. -/
def OwnsOnce (s : ConnectorLoop) : ConnectorEvent → Prop
  | .functor opens result =>
      match s.functors with
      | [] => True
      | .connectInLoop :: _ => s.connector.connect_ = true → s.connector.connecting_ = false →
          opens = true → result = none → s.connector.connectCallback_ = true
      | .closeInLoop :: _ => s.connector.connecting_ = true → s.registered = true
      | .resetChannel :: _ => s.connector.connecting_ = true → s.registered = false
  | _ => True

/-- Beside the owners: descriptors not opened yet have no history, the channel's
descriptor was opened, and a channel that waits on the active list is
registered. -/
structure Custody (s : ConnectorLoop) : Prop where
  one : OneOwner s
  fresh : ∀ fd, s.opened ≤ fd → s.handed.count fd = 0 ∧ s.closed.count fd = 0
  channel : ∀ fd channel, s.connector.channel_ = some (fd, channel) → fd < s.opened
  listed : s.activedChannels_ = []
    ∨ (s.activedChannels_ = [()] ∧ s.pc = .dispatch ∧ s.registered = true)

theorem custody_init : Custody init where
  one := fun fd hfd => absurd hfd (Nat.not_lt_zero fd)
  fresh := fun _ _ => ⟨rfl, rfl⟩
  channel := fun _ _ h => by cases h
  listed := Or.inl rfl

section Step

variable {s t : ConnectorLoop} {e : ConnectorEvent}

theorem registered_iff : s.registered = true ↔
    ∃ fd channel, s.connector.channel_ = some (fd, channel) ∧ channel.started_ = true := by
  unfold registered
  cases hchannel : s.connector.channel_ with
  | none =>
      constructor
      · intro h
        cases h
      · rintro ⟨_, _, h, -⟩
        cases h
  | some r =>
      constructor
      · intro h
        exact ⟨r.1, r.2, rfl, h⟩
      · rintro ⟨_, _, h, hstarted⟩
        cases h
        exact hstarted

/-- A step that leaves the owners and the history. -/
theorem Custody.congr (h : Custody s) (howns : ∀ fd, t.Owns fd ↔ s.Owns fd)
    (hopened : t.opened = s.opened) (hhanded : t.handed = s.handed) (hclosed : t.closed = s.closed)
    (hchannel : ∀ fd channel, t.connector.channel_ = some (fd, channel) → fd < s.opened)
    (hlisted : t.activedChannels_ = []
      ∨ (t.activedChannels_ = [()] ∧ t.pc = .dispatch ∧ t.registered = true)) : Custody t where
  one := by
    intro fd hfd
    rw [howns, hhanded, hclosed]
    exact h.one fd (hopened ▸ hfd)
  fresh := by
    rw [hopened, hhanded, hclosed]
    exact h.fresh
  channel := by
    rw [hopened]
    exact hchannel
  listed := hlisted

/-- One more descriptor was handed over or closed. -/
theorem count_history {handed handed' closed closed' : List ℕ} {fd : ℕ}
    (h : (handed' = handed ++ [fd] ∧ closed' = closed)
      ∨ (handed' = handed ∧ closed' = closed ++ [fd])) (x : ℕ) :
    handed'.count x + closed'.count x
      = handed.count x + closed.count x + if x = fd then 1 else 0 := by
  rcases h with ⟨rfl, rfl⟩ | ⟨rfl, rfl⟩
  · rw [List.count_append, List.count_singleton]
    simp only [beq_iff_eq, eq_comm (a := fd)]
    omega
  · rw [List.count_append, List.count_singleton]
    simp only [beq_iff_eq, eq_comm (a := fd)]
    omega

/-- The channel lets go of its descriptor, which is handed over or closed. -/
theorem Custody.dispose (h : Custody s) {fd : ℕ} (hfd : s.Owns fd) (hgone : ∀ fd, ¬ t.Owns fd)
    (hopened : t.opened = s.opened)
    (hhistory : (t.handed = s.handed ++ [fd] ∧ t.closed = s.closed)
      ∨ (t.handed = s.handed ∧ t.closed = s.closed ++ [fd]))
    (hchannel : ∀ fd channel, t.connector.channel_ = some (fd, channel) → fd < s.opened)
    (hlisted : t.activedChannels_ = []) : Custody t := by
  have hlt : fd < s.opened := by
    obtain ⟨-, channel, hc, -⟩ := hfd
    exact h.channel fd channel hc
  have hcount := count_history hhistory
  -- nothing is owned any more, so every count has to be one
  refine ⟨fun x hx => Or.inr ⟨hgone x, ?_⟩, fun x hx => ?_, ?_, Or.inl hlisted⟩
  · rw [hcount]
    rcases h.one x (hopened ▸ hx) with ⟨⟨-, c, hc, -⟩, h1, h2⟩ | ⟨hnot, h1⟩
    · -- the channel has one descriptor
      obtain ⟨-, c', hc', -⟩ := hfd
      rw [hc, Option.some.injEq, Prod.mk.injEq] at hc'
      rw [if_pos hc'.1, h1, h2]
    · have hne : x ≠ fd := by
        rintro rfl
        exact hnot hfd
      rw [if_neg hne, h1]
  · have := hcount x
    rw [if_neg (by omega)] at this
    have := h.fresh x (by omega)
    omega
  · rw [hopened]
    exact hchannel

/-- A descriptor is opened, while the channel has none; it goes to the channel,
or is handed over or closed. -/
theorem Custody.obtain (h : Custody s) (hnone : ∀ fd, ¬ s.Owns fd)
    (hopened : t.opened = s.opened + 1)
    (hhistory : ((∀ fd, t.Owns fd ↔ fd = s.opened) ∧ t.handed = s.handed ∧ t.closed = s.closed)
      ∨ ((∀ fd, ¬ t.Owns fd) ∧ ((t.handed = s.handed ++ [s.opened] ∧ t.closed = s.closed)
        ∨ (t.handed = s.handed ∧ t.closed = s.closed ++ [s.opened]))))
    (hchannel : ∀ fd channel, t.connector.channel_ = some (fd, channel) → fd < s.opened + 1)
    (hlisted : t.activedChannels_ = []) : Custody t := by
  obtain ⟨hfresh₁, hfresh₂⟩ := h.fresh s.opened (Nat.le_refl _)
  have hold : ∀ fd < s.opened, s.handed.count fd + s.closed.count fd = 1 := by
    intro fd hfd
    rcases h.one fd hfd with ⟨hown, -⟩ | ⟨-, h1⟩
    · exact absurd hown (hnone fd)
    · exact h1
  rcases hhistory with ⟨hown, hhanded, hclosed⟩ | ⟨hgone, hdisposed⟩
  -- in the background: the new descriptor is the channel's
  · refine ⟨fun fd hfd => ?_, fun fd hfd => ?_, hopened ▸ hchannel, Or.inl hlisted⟩
    · rw [hhanded, hclosed]
      by_cases heq : fd = s.opened
      · exact Or.inl ⟨(hown fd).mpr heq, heq ▸ hfresh₁, heq ▸ hfresh₂⟩
      · exact Or.inr ⟨fun h => heq ((hown fd).mp h), hold fd (by omega)⟩
    · rw [hhanded, hclosed]
      exact h.fresh fd (by omega)
  -- at once: it has been disposed of in the same step
  · have hcount := count_history hdisposed
    refine ⟨fun fd hfd => Or.inr ⟨hgone fd, ?_⟩, fun fd hfd => ?_, hopened ▸ hchannel,
      Or.inl hlisted⟩
    · rw [hcount]
      by_cases heq : fd = s.opened
      · rw [if_pos heq, heq, hfresh₁, hfresh₂]
      · rw [if_neg heq, hold fd (by omega)]
    · have := hcount fd
      rw [if_neg (by omega)] at this
      have := h.fresh fd (by omega)
      omega

/-- The channel is another one of the same descriptor. -/
theorem owns_congr {fd : ℕ} {c c' : Channel} (hs : s.connector.channel_ = some (fd, c))
    (ht : t.connector.channel_ = some (fd, c')) (hstarted : c'.started_ = c.started_)
    (hconnecting : t.connector.connecting_ = s.connector.connecting_) (x : ℕ) :
    t.Owns x ↔ s.Owns x := by
  unfold Owns
  rw [hs, ht, hconnecting]
  constructor
  · rintro ⟨hc, _, heq, h⟩
    cases heq
    exact ⟨hc, c, rfl, hstarted.symm.trans h⟩
  · rintro ⟨hc, _, heq, h⟩
    cases heq
    exact ⟨hc, c', rfl, hstarted.trans h⟩

/-- Without a connecting channel, or one that is registered, nothing is owned. -/
theorem not_owns_of_idle (h : s.connector.connecting_ = false) (fd : ℕ) : ¬ s.Owns fd := by
  rintro ⟨hc, -⟩
  rw [h] at hc
  cases hc

theorem not_owns_of_unregistered (h : s.registered = false) (fd : ℕ) : ¬ s.Owns fd := by
  rintro ⟨-, c, hc, hstarted⟩
  rw [registered_iff.mpr ⟨fd, c, hc, hstarted⟩] at h
  cases h

/-- The list is empty where the loop does not dispatch. -/
theorem Custody.unlisted (h : Custody s) (hpc : s.pc ≠ .dispatch) : s.activedChannels_ = [] := by
  rcases h.listed with hnil | ⟨-, hdispatch, -⟩
  · exact hnil
  · exact absurd hdispatch hpc

theorem custody_poll (h : Custody s) {events : Events} (hpc : s.pc = .poll)
    (hreg : s.registered = true ∨ events = Events.none) :
    ∃ t, s.poll events = some t ∧ Custody t := by
  have hnil := h.unlisted (by rw [hpc]; decide)
  unfold poll
  rw [if_pos ⟨hpc, hreg⟩]
  cases hchannel : s.connector.channel_ with
  | none => exact ⟨_, rfl, h.congr (fun _ => Iff.rfl) rfl rfl rfl h.channel (Or.inl hnil)⟩
  | some r =>
      obtain ⟨fd, c⟩ := r
      obtain ⟨u, hu⟩ : ∃ u, u = Channel.poll () events (c, s.activedChannels_) := ⟨_, rfl⟩
      have hpolled : Channel.Polled () (c, s.activedChannels_) u :=
        hu ▸ Channel.polled_poll () events _
      dsimp only
      rw [← hu]
      -- the poll leaves the registration, so the owner is the same
      refine ⟨_, rfl, h.congr (owns_congr hchannel rfl hpolled.started_eq rfl) rfl rfl rfl ?_ ?_⟩
      · intro fd' c' hc'
        cases hc'
        exact h.channel fd c hchannel
      · rcases hreg with hreg | rfl
        · have hstarted : u.1.started_ = true := by
            obtain ⟨fd', c', hc', hstarted⟩ := registered_iff.mp hreg
            rw [hchannel] at hc'
            cases hc'
            exact hpolled.started_eq.trans hstarted
          rcases hpolled.listed with ⟨-, hlist⟩ | ⟨-, -, hlist⟩
          · exact Or.inl (hlist.trans hnil)
          · right
            refine ⟨hlist.trans ?_, rfl, hstarted⟩
            rw [hnil]
            rfl
        · -- nothing is reported
          rw [Channel.poll_none] at hu
          exact Or.inl (by rw [hu]; exact hnil)

theorem custody_handle (h : Custody s) (connected : Bool) (hpc : s.pc = .dispatch) :
    ∃ t, s.handle connected = some t ∧ Custody t := by
  unfold handle
  rw [if_pos hpc]
  rcases h.listed with hnil | ⟨hlist, -, hreg⟩
  · rw [hnil]
    exact ⟨_, rfl, h.congr (fun _ => Iff.rfl) rfl rfl rfl h.channel (Or.inl rfl)⟩
  · obtain ⟨fd, c, hchannel, hstarted⟩ := registered_iff.mp hreg
    have hlt := h.channel fd c hchannel
    rw [hlist, hchannel]
    dsimp only [Option.bind_eq_bind, Option.bind_some]
    -- the channel of the dispatch, with its flags cleared
    have hsettled : Custody { s with
        connector := { s.connector with channel_ := some (fd, settle c) }
        activedChannels_ := [] } := by
      refine h.congr (owns_congr hchannel rfl rfl rfl) rfl rfl rfl ?_ (Or.inl rfl)
      intro fd' c' hc'
      cases hc'
      exact hlt
    split
    · unfold Connector.onWrite
      dsimp only
      by_cases hidle : (!s.connector.connect_ || !s.connector.connecting_) = true
      · rw [if_pos hidle]
        exact ⟨_, rfl, hsettled⟩
      · rw [if_neg hidle]
        simp only [Bool.or_eq_true, Bool.not_eq_true', not_or, Bool.not_eq_false] at hidle
        -- `onWrite` ends the attempt: it disposes of the descriptor on each of its ways
        have hown : s.Owns fd := ⟨hidle.2, c, hchannel, hstarted⟩
        have hchannel' : ∀ fd' c', some (fd, (settle c).close) = some (fd', c') →
            fd' < s.opened := by
          intro fd' c' hc'
          cases hc'
          exact hlt
        cases connected with
        | false =>
            exact ⟨_, rfl,
              h.dispose hown (not_owns_of_idle rfl) rfl (Or.inr ⟨rfl, rfl⟩) hchannel' rfl⟩
        | true =>
            cases hcallback : s.connector.connectCallback_ with
            | false =>
                exact ⟨_, rfl, h.dispose hown (not_owns_of_idle rfl) rfl (Or.inr ⟨rfl, rfl⟩)
                  hchannel' rfl⟩
            | true =>
                exact ⟨_, rfl, h.dispose hown (not_owns_of_idle rfl) rfl (Or.inl ⟨rfl, rfl⟩)
                  hchannel' rfl⟩
    · exact ⟨_, rfl, hsettled⟩

theorem custody_connectInLoop (h : Custody s) {rest : List ConnectorFunctor} (opens : Bool)
    (result : Option Errno) (hnil : s.activedChannels_ = [])
    (hC : s.connector.connect_ = true → s.connector.connecting_ = false → opens = true →
      result = none → s.connector.connectCallback_ = true) :
    Custody ({ s with functors := rest }.acts
      (s.connector.connectInLoop (if opens then some s.opened else none) result)) := by
  have hsame : Custody { s with functors := rest } :=
    h.congr (fun _ => Iff.rfl) rfl rfl rfl h.channel (Or.inl hnil)
  unfold Connector.connectInLoop
  by_cases hidle : (!s.connector.connect_ || s.connector.connecting_) = true
  · rw [if_pos hidle]
    exact hsame
  · rw [if_neg hidle]
    simp only [Bool.or_eq_true, Bool.not_eq_true', not_or, Bool.not_eq_false,
      Bool.not_eq_true] at hidle
    obtain ⟨hconnect, hconnecting⟩ := hidle
    have hnone : ∀ fd, ¬ s.Owns fd := not_owns_of_idle hconnecting
    have hchannel' : ∀ fd c, s.connector.channel_ = some (fd, c) → fd < s.opened + 1 :=
      fun fd c hc => Nat.lt_succ_of_lt (h.channel fd c hc)
    cases opens with
    | false => exact hsame
    | true =>
        rw [if_pos rfl]
        cases result with
        | none =>
            -- made at once: there is a callback to hand it to
            dsimp only
            rw [if_pos (hC hconnect hconnecting rfl rfl)]
            exact h.obtain hnone rfl
              (Or.inr ⟨not_owns_of_idle hconnecting, Or.inl ⟨rfl, rfl⟩⟩) hchannel' hnil
        | some err =>
            dsimp only
            cases herr : err.connecting with
            | true =>
                refine h.obtain hnone rfl (Or.inl ⟨fun fd => ?_, rfl, rfl⟩) ?_ hnil
                · constructor
                  · rintro ⟨-, c, hc, -⟩
                    cases hc
                    rfl
                  · rintro rfl
                    exact ⟨rfl, _, rfl, rfl⟩
                · intro fd c hc
                  cases hc
                  exact Nat.lt_succ_self _
            | false =>
                -- closed, whether it is tried again or not
                cases hretry : err.retries with
                | true =>
                    exact h.obtain hnone rfl
                      (Or.inr ⟨not_owns_of_idle hconnecting, Or.inr ⟨rfl, rfl⟩⟩) hchannel' hnil
                | false =>
                    exact h.obtain hnone rfl
                      (Or.inr ⟨not_owns_of_idle hconnecting, Or.inr ⟨rfl, rfl⟩⟩) hchannel' hnil

theorem custody_closeInLoop (h : Custody s) {rest : List ConnectorFunctor}
    (hnil : s.activedChannels_ = [])
    (hC : s.connector.connecting_ = true → s.registered = true) :
    ∃ t, s.connector.closeInLoop.map { s with functors := rest }.acts = some t ∧ Custody t := by
  unfold Connector.closeInLoop
  by_cases hidle : (!s.connector.connecting_) = true
  · rw [if_pos hidle]
    exact ⟨_, rfl, h.congr (fun _ => Iff.rfl) rfl rfl rfl h.channel (Or.inl hnil)⟩
  · rw [if_neg hidle]
    have hconnecting : s.connector.connecting_ = true := by simpa using hidle
    -- the channel still has its descriptor, and loses it to the close
    obtain ⟨fd, c, hchannel, hstarted⟩ := registered_iff.mp (hC hconnecting)
    rw [hchannel]
    refine ⟨_, rfl, h.dispose ⟨hconnecting, c, hchannel, hstarted⟩
      (not_owns_of_unregistered rfl) rfl (Or.inr ⟨rfl, rfl⟩) ?_ hnil⟩
    intro fd' c' hc'
    cases hc'
    exact h.channel fd c hchannel

/-- **One step.** A step that meets the condition can be taken, and keeps the
custody. -/
theorem custody_step (h : Custody s) (hE : s.Enabled e) (hC : s.OwnsOnce e) :
    ∃ t, step s e = some t ∧ Custody t := by
  cases e with
  | connect => exact ⟨_, rfl, h.congr (fun _ => Iff.rfl) rfl rfl rfl h.channel h.listed⟩
  | close => exact ⟨_, rfl, h.congr (fun _ => Iff.rfl) rfl rfl rfl h.channel h.listed⟩
  | setConnectCallback =>
      exact ⟨_, rfl, h.congr (fun _ => Iff.rfl) rfl rfl rfl h.channel h.listed⟩
  | push i =>
      show ∃ t, s.push i = some t ∧ Custody t
      unfold push
      rw [List.getElem?_eq_getElem hE]
      exact ⟨_, rfl, h.congr (fun _ => Iff.rfl) rfl rfl rfl h.channel h.listed⟩
  | poll events => exact custody_poll h hE.1 hE.2
  | handle connected => exact custody_handle h connected hE
  | functor opens result =>
      have hpc : s.pc = .functors := hE
      have hnil := h.unlisted (by rw [hpc]; decide)
      show ∃ t, s.functor opens result = some t ∧ Custody t
      unfold functor
      rw [if_pos hpc]
      unfold OwnsOnce at hC
      cases hf : s.functors with
      | nil => exact ⟨_, rfl, h.congr (fun _ => Iff.rfl) rfl rfl rfl h.channel (Or.inl hnil)⟩
      | cons f rest =>
          rw [hf] at hC
          cases f with
          | connectInLoop => exact ⟨_, rfl, custody_connectInLoop h opens result hnil hC⟩
          | closeInLoop => exact custody_closeInLoop h hnil hC
          | resetChannel =>
              -- the channel has let go of its descriptor before
              have hnone : ∀ fd, ¬ s.Owns fd := by
                intro fd hfd
                exact not_owns_of_unregistered (hC hfd.1) fd hfd
              refine ⟨_, rfl, h.congr (fun fd => ⟨?_, fun hfd => absurd hfd (hnone fd)⟩) rfl rfl
                rfl (fun fd c hc => by cases hc) (Or.inl hnil)⟩
              rintro ⟨-, c, hc, -⟩
              cases hc

/-- A step that does not meet the condition leaves a descriptor without an owner,
or disposes of one twice. -/
theorem custody_broken (h : Custody s) (hE : s.Enabled e) (hbad : ¬ s.OwnsOnce e)
    (hstep : step s e = some t) : ¬ OneOwner t := by
  intro hone
  cases e with
  | functor opens result =>
      have hpc : s.pc = .functors := hE
      change s.functor opens result = some t at hstep
      unfold functor at hstep
      rw [if_pos hpc] at hstep
      unfold OwnsOnce at hbad
      cases hf : s.functors with
      | nil =>
          rw [hf] at hbad
          exact hbad trivial
      | cons f rest =>
          rw [hf] at hstep hbad
          cases f with
          | connectInLoop =>
              simp only [Classical.not_forall] at hbad
              obtain ⟨hconnect, hconnecting, rfl, rfl, hcallback⟩ := hbad
              obtain rfl := Option.some.inj hstep
              -- the descriptor just opened went nowhere
              obtain ⟨hfresh₁, hfresh₂⟩ := h.fresh s.opened (Nat.le_refl _)
              unfold Connector.connectInLoop at hone
              rw [if_neg (by rw [hconnect, hconnecting]; decide), if_pos rfl] at hone
              dsimp only at hone
              rw [if_neg hcallback] at hone
              rcases hone s.opened (Nat.lt_succ_self _) with ⟨⟨hown, -⟩, -⟩ | ⟨-, hcount⟩
              · exact absurd (hconnecting.symm.trans hown) (by decide)
              · have hzero : s.handed.count s.opened + s.closed.count s.opened = 1 := hcount
                omega
          | closeInLoop =>
              simp only [Classical.not_forall] at hbad
              obtain ⟨hconnecting, hreg⟩ := hbad
              change s.connector.closeInLoop.map _ = some t at hstep
              unfold Connector.closeInLoop at hstep
              rw [if_neg (by rw [hconnecting]; decide)] at hstep
              cases hchannel : s.connector.channel_ with
              | none =>
                  rw [hchannel] at hstep
                  cases hstep
              | some r =>
                  obtain ⟨fd, c⟩ := r
                  rw [hchannel] at hstep
                  obtain rfl := Option.some.inj hstep
                  -- it was handed over or closed before, and is closed now
                  have hlt := h.channel fd c hchannel
                  have hnot := not_owns_of_unregistered (Bool.eq_false_iff.mpr hreg) fd
                  have hold : s.handed.count fd + s.closed.count fd = 1 := by
                    rcases h.one fd hlt with ⟨hown, -⟩ | ⟨-, hcount⟩
                    · exact absurd hown hnot
                    · exact hcount
                  have hnew := count_history (Or.inr ⟨rfl, rfl⟩ :
                    (s.handed = s.handed ++ [fd] ∧ _) ∨ (s.handed = s.handed
                      ∧ s.closed ++ [fd] = s.closed ++ [fd])) fd
                  rw [if_pos rfl, hold] at hnew
                  rcases hone fd hlt with ⟨⟨-, c', hc', hstarted⟩, -⟩ | ⟨-, hcount⟩
                  · cases hc'
                    cases hstarted
                  · have htwo : s.handed.count fd + (s.closed ++ [fd]).count fd = 1 := hcount
                    omega
          | resetChannel =>
              simp only [Classical.not_forall] at hbad
              obtain ⟨hconnecting, hreg⟩ := hbad
              obtain rfl := Option.some.inj hstep
              -- the connecting channel is gone, and its descriptor was not disposed of
              obtain ⟨fd, c, hchannel, hstarted⟩ :=
                registered_iff.mp (by simpa using hreg : s.registered = true)
              have hlt := h.channel fd c hchannel
              rcases h.one fd hlt with ⟨-, h1, h2⟩ | ⟨hnot, -⟩
              · rcases hone fd hlt with ⟨⟨-, c', hc', -⟩, -⟩ | ⟨-, hcount⟩
                · cases hc'
                · have hzero : s.handed.count fd + s.closed.count fd = 1 := hcount
                  omega
              · exact hnot ⟨hconnecting, c, hchannel, hstarted⟩
  | connect => exact hbad trivial
  | close => exact hbad trivial
  | setConnectCallback => exact hbad trivial
  | push i => exact hbad trivial
  | poll events => exact hbad trivial
  | handle connected => exact hbad trivial

end Step

/-! ## Runs -/

/-- **Every descriptor has one owner exactly while no step lets go of one.** In
every run of calls of `connect` and `close` from any thread, with or without a
callback set, and rounds of the loop with any events and any answers of
`::connect` and `SO_ERROR`: the run goes through, and in all its states every
descriptor that was opened belongs to the connecting channel, or was handed over
once, or was closed once, if and only if no connection was made at once without a
callback, no `closeInLoop` ran after another one of the same attempt, and no
`resetChannel` ran while a new channel was connecting. -/
theorem connector_owns_iff {es : List ConnectorEvent} (hE : Along step Enabled init es) :
    Always step OneOwner init es ↔ Along step OwnsOnce init es :=
  always_iff_along (fun _ h => h.one) (fun _ _ h hE hC => custody_step h hE hC)
    (fun _ _ _ h hE hbad hs => custody_broken h hE hbad hs) custody_init hE

/-- One attempt in the background, to its end. -/
theorem connector_owns_background :
    Always step OneOwner init [.setConnectCallback, .connect, .push 0, .poll Events.none,
        .handle true, .functor true (some .EINPROGRESS), .functor true none,
        .poll ⟨false, false, false, true⟩, .handle true]
      ↔ Along step OwnsOnce init [.setConnectCallback, .connect, .push 0, .poll Events.none,
        .handle true, .functor true (some .EINPROGRESS), .functor true none,
        .poll ⟨false, false, false, true⟩, .handle true] :=
  connector_owns_iff (by decide)

/-- Three runs that show the condition is needed. A connection made at once,
without a callback, is dropped. Two calls of `close` close a descriptor twice.
And a call of `connect` while an attempt is in the background queues another one
before the `resetChannel` of the first, which drops the second. -/
theorem connector_not_owns :
    ¬ Throughout step OneOwner init
        [.connect, .push 0, .poll Events.none, .handle true, .functor true none]
      ∧ ¬ Throughout step OneOwner init
        [.connect, .push 0, .poll Events.none, .handle true, .functor true (some .EINPROGRESS),
          .functor true none, .close, .push 0, .close, .push 0, .poll Events.none, .handle true,
          .functor true none, .functor true none]
      ∧ ¬ Throughout step OneOwner init
        [.setConnectCallback, .connect, .push 0, .poll Events.none, .handle true,
          .functor true (some .EINPROGRESS), .functor true none, .connect, .push 0,
          .poll ⟨false, false, false, true⟩, .handle true, .handle true,
          .functor true (some .EINPROGRESS), .functor true none] := by
  refine ⟨fun h => ?_, fun h => ?_, fun h => ?_⟩
  · have heval : (run step init
        [.connect, .push 0, .poll Events.none, .handle true, .functor true none]).map
          (fun t => (t.connector.connecting_, t.opened, t.handed, t.closed))
        = some (false, 1, [], []) := by
      decide
    obtain ⟨t, hrun, ht⟩ := Option.map_eq_some_iff.mp heval
    simp only [Prod.mk.injEq] at ht
    obtain ⟨hconnecting, hopened, hhanded, hclosed⟩ := ht
    rcases throughout_last step h hrun 0 (by omega) with ⟨⟨hown, -⟩, -⟩ | ⟨-, hcount⟩
    · rw [hconnecting] at hown
      cases hown
    · rw [hhanded, hclosed] at hcount
      cases hcount
  · have heval : (run step init
        [.connect, .push 0, .poll Events.none, .handle true, .functor true (some .EINPROGRESS),
          .functor true none, .close, .push 0, .close, .push 0, .poll Events.none, .handle true,
          .functor true none, .functor true none]).map (fun t => (t.opened, t.closed))
        = some (1, [0, 0]) := by
      decide
    obtain ⟨t, hrun, ht⟩ := Option.map_eq_some_iff.mp heval
    obtain ⟨hopened, hclosed⟩ := Prod.mk.inj ht
    rcases throughout_last step h hrun 0 (by omega) with ⟨-, -, hcount⟩ | ⟨-, hcount⟩
    · rw [hclosed] at hcount
      cases hcount
    · have htwo : t.closed.count 0 = 2 := by
        rw [hclosed]
        rfl
      omega
  · have heval : (run step init
        [.setConnectCallback, .connect, .push 0, .poll Events.none, .handle true,
          .functor true (some .EINPROGRESS), .functor true none, .connect, .push 0,
          .poll ⟨false, false, false, true⟩, .handle true, .handle true,
          .functor true (some .EINPROGRESS), .functor true none]).map
            (fun t => (t.connector.channel_, t.opened, t.handed, t.closed))
        = some (none, 2, [0], []) := by
      decide
    obtain ⟨t, hrun, ht⟩ := Option.map_eq_some_iff.mp heval
    simp only [Prod.mk.injEq] at ht
    obtain ⟨hchannel, hopened, hhanded, hclosed⟩ := ht
    rcases throughout_last step h hrun 1 (by omega) with ⟨⟨-, c, hown, -⟩, -⟩ | ⟨-, hcount⟩
    · rw [hchannel] at hown
      cases hown
    · rw [hhanded, hclosed] at hcount
      cases hcount

end ConnectorLoop

end Libiak.Net
