/-
Two connections and the network between them.

The state of a `Link` is an `Endpoint` for each side and the bytes on the way
from each. What a side writes to its socket goes to the end of its wire; what
`readv` brings in at the other is the front of that wire, as much of it or as
little as the network has delivered. An error or an end of stream may come at any
time. The two loops, the calls of the users on both sides and the network
interleave in every way.

No run loses or invents a byte on the wire (`wired_step`). Whether the bytes a
side pushed reach the user of the other in order is a matter of its own code, and
`Conn.Fair` is what each step has to meet: payloads are passed to `::write` in turn,
nothing is taken off a drained head ring, and reads end on rings. In a run of such steps the
bytes handed out at one side, those in its read chain, those on the wire, those in
the write chain of the other side and the payloads it still has queued are together
what was pushed there, in order (`link_carries`).
-/
import Libiak.Endpoint

set_option autoImplicit false

namespace Libiak.Net

open Libiak.Run

variable {α : Type*}

/-! ## What a step writes to the socket -/

section Written

variable {s t : Conn α} {e : Event α}

/-- A step only adds to the stream of the socket. -/
theorem Conn.stream_prefix (hstep : Conn.step s e = some t) : s.stream <+: t.stream := by
  cases Conn.step_moves hstep with
  | writev result hpc r hr => exact List.prefix_append _ _
  | send result data rest hpc hf c hc => exact List.prefix_append _ _
  | _ => exact List.prefix_refl _

/-- The bytes a step adds to the stream. -/
theorem Conn.stream_added (hstep : Conn.step s e = some t) :
    s.stream ++ t.stream.drop s.stream.length = t.stream := by
  obtain ⟨added, hadded⟩ := Conn.stream_prefix hstep
  rw [← hadded, List.drop_left]

end Written

/-! ## The machine -/

/-- The two ends of a link. -/
inductive Side where
  | client
  | server
  deriving DecidableEq

def Side.peer : Side → Side
  | .client => .server
  | .server => .client

@[simp] theorem Side.peer_peer (side : Side) : side.peer.peer = side := by
  cases side <;> rfl

theorem Side.peer_ne (side : Side) : side.peer ≠ side := by
  cases side <;> decide

/-- What is not one side is the other. -/
theorem Side.eq_peer {side other : Side} (h : other ≠ side) : other = side.peer := by
  cases side <;> cases other <;> first | rfl | exact absurd rfl h

/-- Two connected endpoints. `wire side` are the bytes on the way from `side` to
its peer. -/
structure Link (α : Type*) where
  ends : Side → Endpoint α
  wire : Side → List α

namespace Link

def init (capacity : Side → Capacity) (storage : Side → ℕ → ℕ → α) : Link α :=
  { ends := fun side => Endpoint.init (capacity side) (storage side), wire := fun _ => [] }

/-- A step of the endpoint of one side. What `readv` brings in there is the front of
the wire from the other. -/
def step [DecidableEq α] (l : Link α) (e : Side × Event α) : Option (Link α) :=
  if e.2.arrived <+: l.wire e.1.peer then
    ((l.ends e.1).step e.2).map fun p =>
      { ends := Function.update l.ends e.1 p
        wire := fun side =>
          if side = e.1 then
            l.wire side ++ p.machine.stream.drop (l.ends e.1).machine.stream.length
          else (l.wire side).drop e.2.arrived.length }
  else none

/-- What was read at one side and what is on the wire to it is what the other side
wrote. -/
def Wired (l : Link α) : Prop :=
  ∀ side, (l.ends side.peer).received ++ l.wire side = (l.ends side).machine.stream

/-- The conditions on a step of a side. -/
def Fair (l : Link α) (e : Side × Event α) : Prop := (l.ends e.1).machine.Fair e.2

instance [DecidableEq α] (l : Link α) (e : Side × Event α) : Decidable (l.Fair e) :=
  inferInstanceAs (Decidable ((l.ends e.1).machine.Fair e.2))

/-- Both ends are in order, and so is the network. -/
structure Sound (l : Link α) : Prop where
  kept : ∀ side, (l.ends side).Kept
  wired : Wired l

/-- Every byte pushed at a side is where it has got to, and in its place: with the
user of the other side, in the read chain there, on the wire, in the write chain or
still in a queue. -/
def Carried (l : Link α) : Prop :=
  ∀ side, (l.ends side.peer).delivered ++ (l.ends side.peer).machine.unread ++ l.wire side
    ++ (l.ends side).machine.buffered ++ (l.ends side).machine.queued = (l.ends side).machine.pushed

theorem wired_init (capacity : Side → Capacity) (storage : Side → ℕ → ℕ → α) :
    Wired (init capacity storage) := fun _ => rfl

theorem sound_init (capacity : Side → Capacity) (storage : Side → ℕ → ℕ → α) :
    Sound (init capacity storage) where
  kept := fun side => Endpoint.kept_init (capacity side) (storage side)
  wired := wired_init capacity storage

theorem Sound.carried {l : Link α} (h : Sound l) : Carried l := by
  intro side
  rw [(h.kept side.peer).order, h.wired side]
  exact (h.kept side).stream.order'

section Step

variable [DecidableEq α] {l m : Link α} {e : Side × Event α}

/-- What a step of the link does: one end takes its own step, and the wires change
at one end each. -/
theorem step_cases (hstep : step l e = some m) :
    ∃ p, (l.ends e.1).step e.2 = some p ∧ m.ends e.1 = p ∧ m.ends e.1.peer = l.ends e.1.peer
      ∧ m.wire e.1 = l.wire e.1 ++ p.machine.stream.drop (l.ends e.1).machine.stream.length
      ∧ e.2.arrived ++ m.wire e.1.peer = l.wire e.1.peer := by
  rw [step] at hstep
  split at hstep
  · rename_i hprefix
    obtain ⟨p, hp, rfl⟩ := Option.map_eq_some_iff.mp hstep
    refine ⟨p, hp, Function.update_self .., Function.update_of_ne e.1.peer_ne .., ?_, ?_⟩
    · exact if_pos rfl
    · obtain ⟨rest, hrest⟩ := hprefix
      simp only [if_neg e.1.peer_ne]
      rw [← hrest, List.drop_left]
  · cases hstep

/-- **The wire loses nothing**, whatever the two ends do. -/
theorem wired_step (h : Wired l) (hstep : step l e = some m) : Wired m := by
  obtain ⟨p, hp, hself, hpeer, hout, hin⟩ := step_cases hstep
  obtain ⟨s, hs, rfl⟩ := Option.map_eq_some_iff.mp hp
  have hwritten := Conn.stream_added hs
  intro side
  by_cases hside : side = e.1
  · -- what this side has written since is at the end of its wire
    subst hside
    rw [hpeer, hself, hout, ← List.append_assoc, h e.1]
    exact hwritten
  · -- what it has read is at the front of the other
    obtain rfl := Side.eq_peer hside
    rw [hpeer, Side.peer_peer, hself, List.append_assoc, hin]
    have := h e.1.peer
    rwa [Side.peer_peer] at this

/-- A step that meets the conditions keeps both ends and the network in order. -/
theorem sound_step (h : Sound l) (hF : l.Fair e) (hstep : step l e = some m) : Sound m := by
  refine ⟨fun side => ?_, wired_step h.wired hstep⟩
  obtain ⟨p, hp, hself, hpeer, -, -⟩ := step_cases hstep
  by_cases hside : side = e.1
  · subst hside
    rw [hself]
    exact Endpoint.kept_step (h.kept e.1) hF hp
  · obtain rfl := Side.eq_peer hside
    rw [hpeer]
    exact h.kept e.1.peer

end Step

/-! ## Runs -/

/-- **A link carries every byte once and in order.** In every run of two connected
endpoints, with any calls of the users on both sides and any behaviour of the two
kernels and of the network between them, in which by the answers of `::write` and
`::writev` every payload is passed on in turn, no `writev` takes bytes off a drained
head ring, every `ReadData` ends on a ring and counts stay below `2 ^ 32`: the bytes
handed out at a side, those in its read chain, those on the wire, those in the write chain of the
other side and those still queued there are what was pushed there, in order. -/
theorem link_carries [DecidableEq α] (capacity : Side → Capacity) (storage : Side → ℕ → ℕ → α)
    {es : List (Side × Event α)} (hF : Along step Fair (init capacity storage) es) :
    Throughout step Carried (init capacity storage) es :=
  throughout_of_along (fun _ h => h.carried) (fun _ _ _ h hF hs => sound_step h hF hs) hF
    (sound_init capacity storage)

/-- The events of a round in which `readv` brings `bytes` in, fewer than there was
room for. -/
def receiving (bytes : List ℕ) : List (Event ℕ) :=
  [.poll ⟨false, false, true, false⟩, .handle, .handle, .handle, .handle, .readv (.data bytes),
    .handle, .handle, .functor none]

/-- The events of one side. -/
def only (side : Side) (es : List (Event ℕ)) : List (Side × Event ℕ) := es.map (Prod.mk side)

/-- The client sends three bytes, of which its kernel takes two; the first arrives at
the server, whose user is given it, while the second is still on the wire. -/
def conversation : List (Side × Event ℕ) :=
  only .client (Conn.establishing ++ Conn.sending [1, 2, 3] (some 2))
    ++ only .server (Conn.establishing ++ receiving [1] ++ [.readData true 1])

theorem link_carries_three :
    Throughout step Carried
      (init (fun _ => BufferPool.eventLoopCapacity) fun _ _ _ => 0) conversation :=
  link_carries (fun _ => BufferPool.eventLoopCapacity) (fun _ _ _ => 0) (by decide +kernel)

/-- The run goes through, and the three bytes are where they should be. -/
example : (run step (init (fun _ => BufferPool.eventLoopCapacity) fun _ _ _ => 0)
    conversation).map (fun l => ((l.ends .server).delivered, l.wire .client,
      (l.ends .client).machine.buffered)) = some ([1], [2], [3]) := by
  decide +kernel

end Link

end Libiak.Net
