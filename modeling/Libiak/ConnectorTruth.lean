/-
`connecting_` and the attempt it stands for.

`connectInLoop` sets the flag with a new channel and `onWrite` clears it with the
close of that channel. The other two functors do not look after it: `closeInLoop`
closes the channel and its descriptor and leaves the flag, and `resetChannel`,
queued by `onWrite` for a channel that is done, destroys the channel of the next
attempt if that has started in between. After either the flag is set for good:
`connectInLoop` returns early ever after, and no event can come to clear it
(`stuck_step`). So the flag tells the truth in a state if and only if no step
before was one of the two (`connecting_truth_iff`).
-/
import Libiak.Connector

set_option autoImplicit false

namespace Libiak.Net

open Libiak.Run

namespace ConnectorLoop

/-- While `connecting_` is set there is a channel, registered with the poller, and
its descriptor has not been closed. -/
def Live (s : ConnectorLoop) : Prop :=
  s.connector.connecting_ = true → ∃ fd channel, s.connector.channel_ = some (fd, channel)
    ∧ channel.started_ = true ∧ fd ∉ s.closed

/-- Neither `closeInLoop` nor `resetChannel` runs while `connecting_` is set. -/
def LeavesAttempt (s : ConnectorLoop) : ConnectorEvent → Prop
  | .functor _ _ =>
      s.functors.head? = some .closeInLoop ∨ s.functors.head? = some .resetChannel →
        s.connector.connecting_ = false
  | _ => True

/-- `resetChannel` destroys no channel that is registered. -/
def Spares (s : ConnectorLoop) : ConnectorEvent → Prop
  | .functor _ _ => s.functors.head? = some .resetChannel → s.registered = false
  | _ => True

instance (s : ConnectorLoop) : (e : ConnectorEvent) → Decidable (LeavesAttempt s e)
  | .functor _ _ => inferInstanceAs (Decidable (_ → _))
  | .connect | .close | .setConnectCallback | .push _ | .poll _ | .handle _ => isTrue trivial

/-- The active list holds the channel at most, and only while it is dispatched. -/
def Listed (s : ConnectorLoop) : Prop :=
  s.activedChannels_ = [] ∨ (s.activedChannels_ = [()] ∧ s.pc = .dispatch)

/-- The flag is set and nothing will clear it. -/
structure Stuck (s : ConnectorLoop) : Prop where
  connecting : s.connector.connecting_ = true
  unregistered : s.registered = false
  unlisted : s.activedChannels_ = []

/-- The flag is set exactly while the channel is registered, and no descriptor of a
registered channel has been closed. -/
structure Truthful (s : ConnectorLoop) : Prop where
  truth : s.registered = s.connector.connecting_
  opened : ∀ fd channel, s.connector.channel_ = some (fd, channel) → fd < s.opened
  closed : ∀ fd ∈ s.closed, fd < s.opened
  apart : ∀ fd channel, s.connector.channel_ = some (fd, channel) → channel.started_ = true →
    fd ∉ s.closed

section Step

variable {s t : ConnectorLoop} {e : ConnectorEvent}

theorem registered_some {fd : ℕ} {channel : Channel}
    (h : s.connector.channel_ = some (fd, channel)) : s.registered = channel.started_ := by
  unfold registered
  rw [h]

theorem Truthful.live (h : Truthful s) : Live s := by
  intro hconnecting
  rw [← h.truth] at hconnecting
  obtain ⟨fd, channel, hchannel, hstarted⟩ := registered_iff.mp hconnecting
  exact ⟨fd, channel, hchannel, hstarted, h.apart fd channel hchannel hstarted⟩

theorem Stuck.not_live (h : Stuck s) : ¬ Live s := by
  intro hlive
  obtain ⟨fd, channel, hchannel, hstarted, -⟩ := hlive h.connecting
  have hunregistered := h.unregistered
  rw [registered_some hchannel, hstarted] at hunregistered
  cases hunregistered

/-- What a poll can do: report events of a registered channel, or nothing. -/
theorem poll_cases {events : Events} (h : s.poll events = some t) :
    s.pc = .poll ∧ (t = { s with pc := .dispatch }
      ∨ ∃ fd channel u, s.connector.channel_ = some (fd, channel) ∧ channel.started_ = true
        ∧ Channel.Polled () (channel, s.activedChannels_) u
        ∧ t = { s with
          connector := { s.connector with channel_ := some (fd, u.1) }
          activedChannels_ := u.2, pc := .dispatch }) := by
  unfold poll at h
  split at h
  · rename_i hguard
    obtain ⟨hpc, hreg⟩ := hguard
    refine ⟨hpc, ?_⟩
    split at h
    · exact Or.inl (Option.some.inj h).symm
    · rename_i fd channel hchannel
      dsimp only at h
      rw [registered_some hchannel] at hreg
      rcases hreg with hstarted | rfl
      · exact Or.inr ⟨fd, channel, _, hchannel, hstarted, Channel.polled_poll () events _,
          (Option.some.inj h).symm⟩
      · left
        rw [Channel.poll_none] at h
        rw [← Option.some.inj h, ← hchannel]
  · cases h

/-- What a dispatch can do: the swap, a channel with nothing to write, or
`onWrite`. -/
theorem handle_cases {connected : Bool} (h : s.handle connected = some t) :
    s.pc = .dispatch ∧ ((s.activedChannels_ = []
        ∧ t = { s with functors := s.pendingFunctors_, pendingFunctors_ := [], pc := .functors })
      ∨ ∃ rest fd channel, s.activedChannels_ = () :: rest
        ∧ s.connector.channel_ = some (fd, channel)
        ∧ (t = { s with
            connector := { s.connector with channel_ := some (fd, settle channel) }
            activedChannels_ := rest }
          ∨ ∃ r, Connector.onWrite
              { s.connector with channel_ := some (fd, settle channel) } connected = some r
            ∧ t = acts { s with
              connector := { s.connector with channel_ := some (fd, settle channel) }
              activedChannels_ := rest } r)) := by
  unfold handle at h
  split at h
  · rename_i hpc
    refine ⟨hpc, ?_⟩
    split at h
    · rename_i hnil
      exact Or.inl ⟨hnil, (Option.some.inj h).symm⟩
    · rename_i rest hlist
      rw [Option.bind_eq_bind] at h
      obtain ⟨⟨fd, channel⟩, hchannel, h⟩ := Option.bind_eq_some_iff.mp h
      dsimp only at h
      refine Or.inr ⟨rest, fd, channel, hlist, hchannel, ?_⟩
      split at h
      · obtain ⟨r, hr, rfl⟩ := Option.map_eq_some_iff.mp h
        exact Or.inr ⟨r, hr, rfl⟩
      · exact Or.inl (Option.some.inj h).symm
  · cases h

/-- What a functor can do. -/
theorem functor_cases {opens : Bool} {result : Option Errno}
    (h : s.functor opens result = some t) :
    s.pc = .functors ∧ ((s.functors = [] ∧ t = { s with pc := .poll })
      ∨ (∃ rest, s.functors = .connectInLoop :: rest
        ∧ t = acts { s with functors := rest }
          (s.connector.connectInLoop (if opens then some s.opened else none) result))
      ∨ (∃ rest r, s.functors = .closeInLoop :: rest ∧ s.connector.closeInLoop = some r
        ∧ t = acts { s with functors := rest } r)
      ∨ ∃ rest, s.functors = .resetChannel :: rest
        ∧ t = { s with connector := s.connector.resetChannel, functors := rest }) := by
  unfold functor at h
  split at h
  · rename_i hpc
    refine ⟨hpc, ?_⟩
    split at h
    · rename_i hnil
      exact Or.inl ⟨hnil, (Option.some.inj h).symm⟩
    · rename_i rest hcons
      exact Or.inr (Or.inl ⟨rest, hcons, (Option.some.inj h).symm⟩)
    · rename_i rest hcons
      obtain ⟨r, hr, rfl⟩ := Option.map_eq_some_iff.mp h
      exact Or.inr (Or.inr (Or.inl ⟨rest, r, hcons, hr, rfl⟩))
    · rename_i rest hcons
      exact Or.inr (Or.inr (Or.inr ⟨rest, hcons, (Option.some.inj h).symm⟩))
  · cases h

/-- Acts other than changes of the connector leave the active list and the
place of the loop. -/
theorem acts_frame (r : Connector × List ConnectorAct) :
    (s.acts r).connector = r.1 ∧ (s.acts r).activedChannels_ = s.activedChannels_
      ∧ (s.acts r).pc = s.pc := by
  unfold acts
  obtain ⟨c, list⟩ := r
  dsimp only
  obtain ⟨u, hu⟩ : ∃ u, u = { s with connector := c } := ⟨_, rfl⟩
  have hframe : u.connector = c ∧ u.activedChannels_ = s.activedChannels_ ∧ u.pc = s.pc := by
    rw [hu]
    exact ⟨rfl, rfl, rfl⟩
  rw [← hu]
  clear hu
  induction list generalizing u with
  | nil => exact hframe
  | cons a list ih =>
      apply ih
      cases a with
      | «open» fd => exact hframe
      | callback fd => exact hframe
      | close fd => exact hframe
      | queue f => exact hframe

theorem listed_step (h : Listed s) (hstep : step s e = some t) : Listed t := by
  have hidle : s.pc ≠ .dispatch → s.activedChannels_ = [] := by
    intro hne
    rcases h with hnil | ⟨-, hpc⟩
    · exact hnil
    · exact absurd hpc hne
  cases e with
  | connect => exact (Option.some.inj hstep) ▸ h
  | close => exact (Option.some.inj hstep) ▸ h
  | setConnectCallback => exact (Option.some.inj hstep) ▸ h
  | push i =>
      obtain ⟨f, -, rfl⟩ := Option.map_eq_some_iff.mp hstep
      exact h
  | poll events =>
      obtain ⟨hpc, rfl | ⟨fd, channel, u, -, -, hpolled, rfl⟩⟩ := poll_cases hstep
      · exact Or.inl (hidle (by rw [hpc]; decide))
      · have hnil := hidle (by rw [hpc]; decide)
        rcases hpolled.listed with ⟨-, hlist⟩ | ⟨-, -, hlist⟩
        · exact Or.inl (hlist.trans hnil)
        · refine Or.inr ⟨hlist.trans ?_, rfl⟩
          rw [hnil]
          rfl
  | handle connected =>
      obtain ⟨hpc, ⟨hnil, rfl⟩ | ⟨rest, fd, channel, hlist, -, h'⟩⟩ := handle_cases hstep
      · exact Or.inl hnil
      · have hrest : rest = [] := by
          rcases h with hnil | ⟨hone, -⟩
          · rw [hlist] at hnil
            cases hnil
          · rw [hlist] at hone
            exact (List.cons.inj hone).2
        rcases h' with rfl | ⟨r, -, rfl⟩
        · exact Or.inl hrest
        · exact Or.inl ((acts_frame r).2.1.trans hrest)
  | functor opens result =>
      obtain ⟨hpc, h'⟩ := functor_cases hstep
      have hnil := hidle (by rw [hpc]; decide)
      obtain ⟨-, rfl⟩ | ⟨rest, -, rfl⟩ | ⟨rest, r, -, -, rfl⟩ | ⟨rest, -, rfl⟩ := h'
      · exact Or.inl hnil
      · exact Or.inl ((acts_frame _).2.1.trans hnil)
      · exact Or.inl ((acts_frame _).2.1.trans hnil)
      · exact Or.inl hnil

/-- **A step of the two kinds leaves the flag set for good.** -/
theorem stuck_of_not_leaves (h : Listed s) (hbad : ¬ LeavesAttempt s e)
    (hstep : step s e = some t) : Stuck t := by
  cases e with
  | functor opens result =>
      obtain ⟨hpc, h'⟩ := functor_cases hstep
      have hnil : s.activedChannels_ = [] := by
        rcases h with hnil | ⟨-, hdispatch⟩
        · exact hnil
        · rw [hpc] at hdispatch
          cases hdispatch
      obtain ⟨hhead, hset⟩ : (s.functors.head? = some .closeInLoop
          ∨ s.functors.head? = some .resetChannel) ∧ ¬ s.connector.connecting_ = false :=
        Classical.not_imp.mp hbad
      have hconnecting : s.connector.connecting_ = true := by simpa using hset
      obtain ⟨hnone, -⟩ | ⟨rest, hcons, -⟩ | ⟨rest, r, hcons, hr, rfl⟩ | ⟨rest, hcons, rfl⟩ := h'
      · rw [hnone] at hhead
        simp at hhead
      · rw [hcons] at hhead
        simp at hhead
      · -- the channel is closed, the flag stays
        unfold Connector.closeInLoop at hr
        rw [if_neg (by simp [hconnecting])] at hr
        obtain ⟨⟨fd, channel⟩, -, rfl⟩ := Option.map_eq_some_iff.mp hr
        exact ⟨hconnecting, rfl, hnil⟩
      · exact ⟨hconnecting, rfl, hnil⟩
  | connect => exact absurd trivial hbad
  | close => exact absurd trivial hbad
  | setConnectCallback => exact absurd trivial hbad
  | push i => exact absurd trivial hbad
  | poll events => exact absurd trivial hbad
  | handle connected => exact absurd trivial hbad

/-- Nothing leads out of it: there is no event without a registered channel, and
`connectInLoop` returns early. -/
theorem stuck_step (h : Stuck s) (hstep : step s e = some t) : Stuck t := by
  obtain ⟨hconnecting, hunregistered, hnil⟩ := h
  cases e with
  | connect => exact (Option.some.inj hstep) ▸ ⟨hconnecting, hunregistered, hnil⟩
  | close => exact (Option.some.inj hstep) ▸ ⟨hconnecting, hunregistered, hnil⟩
  | setConnectCallback => exact (Option.some.inj hstep) ▸ ⟨hconnecting, hunregistered, hnil⟩
  | push i =>
      obtain ⟨f, -, rfl⟩ := Option.map_eq_some_iff.mp hstep
      exact ⟨hconnecting, hunregistered, hnil⟩
  | poll events =>
      obtain ⟨-, rfl | ⟨fd, channel, u, hchannel, hstarted, -, -⟩⟩ := poll_cases hstep
      · exact ⟨hconnecting, hunregistered, hnil⟩
      · rw [registered_some hchannel, hstarted] at hunregistered
        cases hunregistered
  | handle connected =>
      obtain ⟨-, ⟨-, rfl⟩ | ⟨rest, fd, channel, hlist, -⟩⟩ := handle_cases hstep
      · exact ⟨hconnecting, hunregistered, hnil⟩
      · rw [hnil] at hlist
        cases hlist
  | functor opens result =>
      obtain ⟨-, h'⟩ := functor_cases hstep
      obtain ⟨-, rfl⟩ | ⟨rest, -, rfl⟩ | ⟨rest, r, -, hr, rfl⟩ | ⟨rest, -, rfl⟩ := h'
      · exact ⟨hconnecting, hunregistered, hnil⟩
      · unfold Connector.connectInLoop
        rw [if_pos (by simp [hconnecting])]
        exact ⟨hconnecting, hunregistered, hnil⟩
      · unfold Connector.closeInLoop at hr
        rw [if_neg (by simp [hconnecting])] at hr
        obtain ⟨⟨fd, channel⟩, -, rfl⟩ := Option.map_eq_some_iff.mp hr
        exact ⟨hconnecting, rfl, hnil⟩
      · exact ⟨hconnecting, rfl, hnil⟩

/-- A channel that is closed leaves the flag clear, and any history of closes. -/
theorem Truthful.idle (h : Truthful s) (hregistered : t.registered = false)
    (hconnecting : t.connector.connecting_ = false) (hopened : s.opened ≤ t.opened)
    (hchannel : ∀ fd channel, t.connector.channel_ = some (fd, channel) →
      channel.started_ = false ∧ fd < s.opened)
    (hclosed : ∀ fd ∈ t.closed, fd ∈ s.closed ∨ fd < t.opened) : Truthful t where
  truth := hregistered.trans hconnecting.symm
  opened := fun fd channel hc => Nat.lt_of_lt_of_le (hchannel fd channel hc).2 hopened
  closed := fun fd hfd => by
    rcases hclosed fd hfd with hold | hnew
    · exact Nat.lt_of_lt_of_le (h.closed fd hold) hopened
    · exact hnew
  apart := fun fd channel hc hstarted => by
    rw [(hchannel fd channel hc).1] at hstarted
    cases hstarted

/-- `connectInLoop` starts an attempt with a descriptor that nobody has closed, or
closes what it has just opened. -/
theorem truthful_connectInLoop (h : Truthful s) {rest : List ConnectorFunctor} (opens : Bool)
    (result : Option Errno) :
    Truthful (acts { s with functors := rest }
      (s.connector.connectInLoop (if opens then some s.opened else none) result)) := by
  obtain ⟨htruth, hopened, hclosed, hapart⟩ := id h
  have hsame : Truthful { s with functors := rest } := ⟨htruth, hopened, hclosed, hapart⟩
  unfold Connector.connectInLoop
  by_cases hidle : (!s.connector.connect_ || s.connector.connecting_) = true
  · rw [if_pos hidle]
    exact hsame
  · rw [if_neg hidle]
    simp only [Bool.or_eq_true, Bool.not_eq_true', not_or, Bool.not_eq_false,
      Bool.not_eq_true] at hidle
    have hunregistered : s.registered = false := htruth.trans hidle.2
    have hchannel : ∀ fd channel, s.connector.channel_ = some (fd, channel) →
        channel.started_ = false ∧ fd < s.opened := by
      intro fd channel hc
      exact ⟨(registered_some hc).symm.trans hunregistered, hopened fd channel hc⟩
    have hnew : ∀ fd ∈ s.closed ++ [s.opened], fd ∈ s.closed ∨ fd < s.opened + 1 := by
      intro fd hfd
      rcases List.mem_append.mp hfd with hold | hlast
      · exact Or.inl hold
      · rw [List.mem_singleton.mp hlast]
        exact Or.inr (Nat.lt_succ_self _)
    cases opens with
    | false => exact hsame
    | true =>
        rw [if_pos rfl]
        cases result with
        | none =>
            dsimp only
            cases s.connector.connectCallback_ with
            | false =>
                exact h.idle hunregistered hidle.2 (Nat.le_succ _) hchannel fun _ => Or.inl
            | true =>
                exact h.idle hunregistered hidle.2 (Nat.le_succ _) hchannel fun _ => Or.inl
        | some err =>
            dsimp only
            cases err.connecting with
            | true =>
                -- the attempt: a new channel, with a new descriptor
                refine ⟨rfl, ?_, ?_, ?_⟩
                · intro fd channel hc
                  cases hc
                  exact Nat.lt_succ_self _
                · exact fun fd hfd => Nat.lt_succ_of_lt (hclosed fd hfd)
                · intro fd channel hc _ hmem
                  cases hc
                  exact Nat.lt_irrefl _ (hclosed _ hmem)
            | false =>
                cases err.retries with
                | true =>
                    exact h.idle hunregistered hidle.2 (Nat.le_succ _) hchannel hnew
                | false =>
                    exact h.idle hunregistered hidle.2 (Nat.le_succ _) hchannel hnew

/-- A dispatch ends the attempt as a whole, or leaves it. -/
theorem truthful_handle (h : Truthful s) {connected : Bool} (hstep : s.handle connected = some t) :
    Truthful t := by
  obtain ⟨htruth, hopened, hclosed, hapart⟩ := id h
  obtain ⟨-, ⟨-, rfl⟩ | ⟨rest, fd, channel, -, hchannel, h'⟩⟩ := handle_cases hstep
  · exact ⟨htruth, hopened, hclosed, hapart⟩
  · have hlt := hopened fd channel hchannel
    have hsettled : Truthful { s with
        connector := { s.connector with channel_ := some (fd, settle channel) }
        activedChannels_ := rest } := by
      refine ⟨?_, ?_, hclosed, ?_⟩
      · exact (registered_some hchannel).symm.trans htruth
      · intro fd' channel' hc
        cases hc
        exact hlt
      · intro fd' channel' hc hstarted
        cases hc
        exact hapart fd channel hchannel hstarted
    rcases h' with rfl | ⟨r, hr, rfl⟩
    · exact hsettled
    · unfold Connector.onWrite at hr
      dsimp only at hr
      split at hr
      · obtain rfl := Option.some.inj hr
        exact hsettled
      · obtain rfl := Option.some.inj hr
        have hgone : ∀ fd' channel', some (fd, (settle channel).close) = some (fd', channel') →
            channel'.started_ = false ∧ fd' < s.opened := by
          intro fd' channel' hc
          cases hc
          exact ⟨rfl, hlt⟩
        have hnew : ∀ x ∈ s.closed ++ [fd], x ∈ s.closed ∨ x < s.opened := by
          intro x hx
          rcases List.mem_append.mp hx with hold | hlast
          · exact Or.inl hold
          · rw [List.mem_singleton.mp hlast]
            exact Or.inr hlt
        cases connected with
        | false => exact h.idle rfl rfl (Nat.le_refl _) hgone hnew
        | true =>
            dsimp only
            cases s.connector.connectCallback_ with
            | false => exact h.idle rfl rfl (Nat.le_refl _) hgone hnew
            | true => exact h.idle rfl rfl (Nat.le_refl _) hgone fun _ => Or.inl

/-- **Every other step keeps the flag truthful.** -/
theorem truthful_step (h : Truthful s) (hC : LeavesAttempt s e) (hstep : step s e = some t) :
    Truthful t := by
  obtain ⟨htruth, hopened, hclosed, hapart⟩ := id h
  cases e with
  | connect => exact (Option.some.inj hstep) ▸ ⟨htruth, hopened, hclosed, hapart⟩
  | close => exact (Option.some.inj hstep) ▸ ⟨htruth, hopened, hclosed, hapart⟩
  | setConnectCallback => exact (Option.some.inj hstep) ▸ ⟨htruth, hopened, hclosed, hapart⟩
  | push i =>
      obtain ⟨f, -, rfl⟩ := Option.map_eq_some_iff.mp hstep
      exact ⟨htruth, hopened, hclosed, hapart⟩
  | poll events =>
      obtain ⟨-, rfl | ⟨fd, channel, u, hchannel, hstarted, hpolled, rfl⟩⟩ := poll_cases hstep
      · exact ⟨htruth, hopened, hclosed, hapart⟩
      · refine ⟨?_, ?_, hclosed, ?_⟩
        · rw [← htruth, registered_some hchannel]
          exact hpolled.started_eq
        · intro fd' channel' hc
          cases hc
          exact hopened fd channel hchannel
        · intro fd' channel' hc _
          cases hc
          exact hapart fd channel hchannel hstarted
  | handle connected => exact truthful_handle h hstep
  | functor opens result =>
      obtain ⟨-, h'⟩ := functor_cases hstep
      obtain ⟨-, rfl⟩ | ⟨rest, -, rfl⟩ | ⟨rest, r, hcons, hr, rfl⟩ | ⟨rest, hcons, rfl⟩ := h'
      · exact ⟨htruth, hopened, hclosed, hapart⟩
      · exact truthful_connectInLoop h opens result
      · -- no attempt to close
        have hidle : s.connector.connecting_ = false := hC (Or.inl (by rw [hcons]; rfl))
        unfold Connector.closeInLoop at hr
        rw [if_pos (by simp [hidle])] at hr
        obtain rfl := Option.some.inj hr
        exact ⟨htruth, hopened, hclosed, hapart⟩
      · -- no attempt to destroy
        have hidle : s.connector.connecting_ = false := hC (Or.inr (by rw [hcons]; rfl))
        refine ⟨hidle.symm, fun _ _ hc => ?_, hclosed, fun _ _ hc => ?_⟩
        · cases hc
        · cases hc

/-- With a truthful flag `resetChannel` finds a channel that is closed. -/
theorem Truthful.spares (h : Truthful s) (hC : LeavesAttempt s e) : Spares s e := by
  cases e with
  | functor opens result => exact fun hhead => h.truth.trans (hC (Or.inr hhead))
  | _ => trivial

end Step

theorem truthful_init : Truthful init :=
  ⟨rfl, fun _ _ h => (by cases h), fun _ h => absurd h List.not_mem_nil, fun _ _ h => by cases h⟩

/-- **The flag tells the truth exactly while it is left alone.** In every run of
calls of `connect` and `close` from any thread and rounds of the loop, with any
events and any answers of the system calls: in the state it ends in, a set
`connecting_` has a channel behind it that is registered and whose descriptor is
open, if and only if no `closeInLoop` and no `resetChannel` of the run was made
while the flag was set; and in such a run no `resetChannel` destroys a channel that
is registered. -/
theorem connecting_truth_iff (es : List ConnectorEvent) (t : ConnectorLoop)
    (hrun : run step init es = some t) :
    (Live t ↔ Along step LeavesAttempt init es)
      ∧ (Along step LeavesAttempt init es → Along step Spares init es) := by
  refine ⟨⟨fun hlive => ?_, fun hC => ?_⟩, fun hC => ?_⟩
  · exact along_of_trap (I := Listed) (P := Stuck) (fun _ _ _ h hs => listed_step h hs)
      (fun _ _ _ h hbad hs => stuck_of_not_leaves h hbad hs)
      (fun _ _ _ _ h hs => stuck_step h hs) (Or.inl rfl) hrun fun hstuck => hstuck.not_live hlive
  · exact (run_inv_along (fun _ _ _ h hC hs => truthful_step h hC hs) truthful_init hC hrun).live
  · exact along_of_inv (fun _ _ h hC => h.spares hC)
      (fun _ _ _ h hC hs => truthful_step h hC hs) truthful_init hC

/-- An attempt that fails and is made again, with `resetChannel` run in between:
the second attempt is live when the loop is about to poll. -/
theorem connecting_truth_retry : ∃ t,
    run step init [.connect, .push 0, .poll Events.none, .handle false,
      .functor true (some .EINPROGRESS), .functor true none,
      .poll ⟨false, false, false, true⟩, .handle false, .handle false, .functor true none,
      .functor true (some .EINPROGRESS), .functor true none] = some t
    ∧ t.pc = .poll ∧ t.connector.connecting_ = true ∧ Live t := by
  have heval : (run step init [.connect, .push 0, .poll Events.none, .handle false,
      .functor true (some .EINPROGRESS), .functor true none,
      .poll ⟨false, false, false, true⟩, .handle false, .handle false, .functor true none,
      .functor true (some .EINPROGRESS), .functor true none]).map
        (fun t => (t.pc, t.connector.connecting_)) = some (.poll, true) := by
    decide
  obtain ⟨t, hrun, ht⟩ := Option.map_eq_some_iff.mp heval
  obtain ⟨hpc, hconnecting⟩ := Prod.mk.inj ht
  exact ⟨t, hrun, hpc, hconnecting, (connecting_truth_iff _ t hrun).1.mpr (by decide)⟩

/-- `connect` and `close` while the attempt is in the background: the loop is about
to poll with the flag set, the channel closed and its descriptor closed too. -/
theorem connecting_lies : ∃ t,
    run step init [.connect, .push 0, .poll Events.none, .handle false,
      .functor true (some .EINPROGRESS), .functor true none, .close, .push 0,
      .poll Events.none, .handle false, .functor true none, .functor true none] = some t
    ∧ t.pc = .poll ∧ t.connector.connecting_ = true ∧ t.registered = false ∧ t.closed = [0]
    ∧ ¬ Live t := by
  have heval : (run step init [.connect, .push 0, .poll Events.none, .handle false,
      .functor true (some .EINPROGRESS), .functor true none, .close, .push 0,
      .poll Events.none, .handle false, .functor true none, .functor true none]).map
        (fun t => (t.pc, t.connector.connecting_, t.registered, t.closed, t.activedChannels_))
      = some (.poll, true, false, [0], []) := by
    decide
  obtain ⟨t, hrun, ht⟩ := Option.map_eq_some_iff.mp heval
  simp only [Prod.mk.injEq] at ht
  obtain ⟨hpc, hconnecting, hregistered, hclosed, hnil⟩ := ht
  exact ⟨t, hrun, hpc, hconnecting, hregistered, hclosed,
    (Stuck.mk hconnecting hregistered hnil).not_live⟩

end ConnectorLoop

end Libiak.Net
