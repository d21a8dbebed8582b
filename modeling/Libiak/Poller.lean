/-
`net/EPollPoller.cpp` on its loop: which channels are registered, and how large the
array of events is.

The kernel behind `epollFd_` answers as it likes: it grants a call of `epoll_ctl` or
refuses it, and it chooses the entries that `epoll_wait` hands out. The poller does
nothing about a call that fails, so there are two ideas of the registration: what the
calls have asked for (`asked`), which is what `started_` says, and what those have that
were granted (`registered`). The first is right whatever the kernel answers, and has the
calls for a channel in the order in which none of them has to fail for what went before
it (`Ctl.InTurn`). The second is behind it only where the kernel has refused to add a
channel (`Registered`).

When `epoll_wait` fills the array, `poll` makes it twice as large. It is never larger than
twice the largest number of channels that were registered (`poller_sound`). A channel
that stays ready, behind others, is reported by the poll after which `eventSize_` has
grown past them, so a burst of ready channels is gone after logarithmically many polls
(`ready_reported`).
-/
import Mathlib.Algebra.Ring.Nat
import Mathlib.Data.List.Perm.Subperm
import Libiak.ActiveList
import Libiak.EventMask
import Libiak.Run

set_option autoImplicit false

namespace Libiak.Net

open Libiak.Run

variable {κ : Type*}

/-! ## The calls of `epoll_ctl` -/

/-- A call of `epoll_ctl` for a channel, and whether the kernel granted it. -/
structure Ctl (κ : Type*) where
  channel : κ
  ctl : EpollCtl
  granted : Bool
  deriving DecidableEq

section Calls

variable [DecidableEq κ]

/-- Whether channel `k` is to be registered, after a call. -/
def Ctl.ask (k : κ) (asked : Bool) (c : Ctl κ) : Bool :=
  if c.channel = k then
    match c.ctl.op with
    | .add => true
    | .mod => asked
    | .del => false
  else asked

/-- The channels that are registered, after a call. -/
def Ctl.register (registered : List κ) (c : Ctl κ) : List κ :=
  if c.granted then
    match c.ctl.op with
    | .add => registered.insert c.channel
    | .mod => registered
    | .del => registered.erase c.channel
  else registered

/-- What the calls have asked for. -/
def asked (calls : List (Ctl κ)) (k : κ) : Bool := calls.foldl (Ctl.ask k) false

/-- What those that were granted have brought about. -/
def registered (calls : List (Ctl κ)) : List κ := calls.foldl Ctl.register []

/-- A channel is added where it is not to be registered already, and changed and removed
where it is: `epoll_ctl` has no reason to fail with `EEXIST` or `ENOENT`, if it has granted
what was asked before. -/
def Ctl.InTurn (before : List (Ctl κ)) (c : Ctl κ) : Prop :=
  match c.ctl.op with
  | .add => asked before c.channel = false
  | .mod | .del => asked before c.channel = true

theorem asked_append (calls : List (Ctl κ)) (c : Ctl κ) (k : κ) :
    asked (calls ++ [c]) k = c.ask k (asked calls k) := by
  rw [asked, List.foldl_append]
  rfl

theorem registered_append (calls : List (Ctl κ)) (c : Ctl κ) :
    registered (calls ++ [c]) = c.register (registered calls) := by
  rw [registered, List.foldl_append]
  rfl

end Calls

/-! ## The poller and its loop -/

/-- An `EventLoop` with its `EPollPoller`. `events_` is how many elements the array has
that was allocated last; `reported` are the entries that `epoll_wait` has handed out. -/
structure PollLoop (κ : Type*) where
  loop : ActiveLoop κ
  eventSize_ : ℕ
  events_ : ℕ
  calls : List (Ctl κ)
  reported : List (κ × Events)

/-- A call of a member function of a channel, with the word that the automatic variable
of the poller holds and the answer of `epoll_ctl`, should it be called; the setting of
interest and gates; a poll, with the entries `epoll_wait` hands out; and
`handleActivedChannels`. -/
inductive PollEvent (κ : Type*) where
  | call (k : κ) (call : ChannelCall) (word : UInt32) (granted : Bool)
  | set (interest : κ → Interest)
  | poll (answer : List (κ × Events))
  | handle (callbacks : Callbacks κ)

namespace PollLoop

/-- `kEventSizeInit`. -/
def kEventSizeInit : ℕ := 16

/-- `EPollPoller::EPollPoller`. -/
def init : PollLoop κ :=
  { loop := ActiveLoop.init, eventSize_ := kEventSizeInit, events_ := kEventSizeInit
    calls := [], reported := [] }

variable [DecidableEq κ]

/-- A call of a member function of a channel. The poller does nothing about a call of
`epoll_ctl` that fails. -/
def invoke (s : PollLoop κ) (k : κ) (call : ChannelCall) (word : UInt32) (granted : Bool) :
    PollLoop κ :=
  let r := (s.loop.channels k).invoke word call
  { s with
    loop := s.loop.setChannel k r.1
    calls := s.calls ++ r.2.toList.map fun ctl => ⟨k, ctl, granted⟩ }

/-- `EPollPoller::poll`. The entries are read from the array, which must have them; and
the shift must not leave an `int`. -/
def poll (s : PollLoop κ) (answer : List (κ × Events)) : Option (PollLoop κ) :=
  -- no events, or an error
  if answer.length = 0 then some s
  else if s.events_ < answer.length then none
  else
    let s' := { s with loop := s.loop.poll answer, reported := s.reported ++ answer }
    if answer.length = s.eventSize_ then
      if s.eventSize_ * 2 < 2 ^ 31 then
        some { s' with eventSize_ := s.eventSize_ * 2, events_ := s.eventSize_ * 2 }
      else none
    else some s'

def step (s : PollLoop κ) : PollEvent κ → Option (PollLoop κ)
  | .call k call word granted => some (s.invoke k call word granted)
  | .set interest => some { s with loop := s.loop.set interest }
  | .poll answer => s.poll answer
  | .handle callbacks => some { s with loop := s.loop.handleActivedChannels callbacks }

end PollLoop

/-! ## What a loop leaves of the registration -/

namespace ActiveLoop

/-- The same channels are started. -/
def SameStarted (s t : ActiveLoop κ) : Prop :=
  ∀ k, (t.channels k).started_ = (s.channels k).started_

theorem SameStarted.foldl {α : Type*} {f : ActiveLoop κ → α → ActiveLoop κ}
    (hstep : ∀ s x, SameStarted s (f s x)) (l : List α) (s : ActiveLoop κ) :
    SameStarted s (l.foldl f s) := by
  induction l generalizing s with
  | nil => exact fun _ => rfl
  | cons x l ih => exact fun k => (ih (f s x) k).trans (hstep s x k)

variable [DecidableEq κ]

theorem sameStarted_setChannel {s : ActiveLoop κ} {k : κ} {c : Channel}
    (h : c.started_ = (s.channels k).started_) : SameStarted s (s.setChannel k c) := by
  intro j
  by_cases hj : j = k
  · subst hj
    simp only [setChannel, Function.update_self, h]
  · simp only [setChannel, Function.update_of_ne hj]

theorem sameStarted_poll (s : ActiveLoop κ) (events_ : List (κ × Events)) :
    SameStarted s (s.poll events_) := by
  refine SameStarted.foldl (fun s entry => ?_) events_ s
  exact sameStarted_setChannel
    (Channel.polled_poll entry.1 entry.2 (s.channels entry.1, s.activedChannels_)).started_eq

theorem sameStarted_handle (cb : Callbacks κ) (s : ActiveLoop κ) :
    SameStarted s (s.handleActivedChannels cb) := by
  refine SameStarted.foldl (fun s k => ?_) s.activedChannels_ s
  intro j
  refine (SameStarted.foldl (fun s e => ?_) EventKind.all _ j).trans
    (sameStarted_setChannel (c := { s.channels k with actived_ := false }) rfl j)
  unfold handleFlag
  split
  · have hclear : SameStarted s (s.setChannel k (e.clear (s.channels k))) :=
      sameStarted_setChannel (by cases e <;> rfl)
    dsimp only
    split
    · exact hclear
    · exact hclear
  · exact fun _ => rfl

end ActiveLoop

namespace PollLoop

variable [DecidableEq κ] {s t : PollLoop κ} {e : PollEvent κ}

/-! ## Registration -/

/-- What a call of a member function does about the registration: nothing, or one call of
`epoll_ctl`, by which `started_` goes up, stays up or goes down. -/
inductive Invoked (s : PollLoop κ) (k : κ) (call : ChannelCall) (granted : Bool)
    (t : PollLoop κ) : Prop where
  | silent (hcalls : t.calls = s.calls) (hstarted : ActiveLoop.SameStarted s.loop t.loop)
  | add (ctl : EpollCtl) (hop : ctl.op = .add) (hbefore : (s.loop.channels k).started_ = false)
      (hcalls : t.calls = s.calls ++ [⟨k, ctl, granted⟩])
      (hstarted : ∀ j, (t.loop.channels j).started_
        = if j = k then true else (s.loop.channels j).started_)
  | mod (ctl : EpollCtl) (hop : ctl.op = .mod) (hbefore : (s.loop.channels k).started_ = true)
      (hcalls : t.calls = s.calls ++ [⟨k, ctl, granted⟩])
      (hstarted : ActiveLoop.SameStarted s.loop t.loop)
  | del (ctl : EpollCtl) (hop : ctl.op = .del) (hcall : call = .close)
      (hbefore : (s.loop.channels k).started_ = true)
      (hcalls : t.calls = s.calls ++ [⟨k, ctl, granted⟩])
      (hstarted : ∀ j, (t.loop.channels j).started_
        = if j = k then false else (s.loop.channels j).started_)

/-- What `started_` becomes. -/
theorem setChannel_started (s : ActiveLoop κ) (k j : κ) (c : Channel) :
    ((s.setChannel k c).channels j).started_
      = if j = k then c.started_ else (s.channels j).started_ := by
  unfold ActiveLoop.setChannel
  by_cases hj : j = k
  · rw [if_pos hj, hj]
    simp only [Function.update_self]
  · rw [if_neg hj]
    simp only [Function.update_of_ne hj]

/-- **What a call can do.** -/
theorem invoked (s : PollLoop κ) (k : κ) (call : ChannelCall) (word : UInt32) (granted : Bool) :
    Invoked s k call granted (s.invoke k call word granted) := by
  have hsilent : ∀ c, c.started_ = (s.loop.channels k).started_ →
      (s.loop.channels k).invoke word call = (c, none) →
      Invoked s k call granted (s.invoke k call word granted) := by
    intro c hc hinvoke
    unfold invoke
    rw [hinvoke]
    exact .silent (List.append_nil _) (ActiveLoop.sameStarted_setChannel hc)
  cases call with
  | «open» =>
      cases hstarted : (s.loop.channels k).started_ with
      | true =>
          exact hsilent _ rfl (by simp [Channel.invoke, hstarted])
      | false =>
          have hinvoke : (s.loop.channels k).invoke word .open = ((s.loop.channels k).open,
              some (EPollPoller.addChannel word (s.loop.channels k))) := by
            simp [Channel.invoke, hstarted]
          unfold invoke
          rw [hinvoke]
          exact .add _ rfl hstarted rfl fun j => setChannel_started _ k j _
  | update =>
      cases hstarted : (s.loop.channels k).started_ with
      | false => exact hsilent _ rfl (by simp [Channel.invoke, hstarted])
      | true =>
          have hinvoke : (s.loop.channels k).invoke word .update = (s.loop.channels k,
              some (EPollPoller.updateChannel word (s.loop.channels k))) := by
            simp [Channel.invoke, hstarted]
          unfold invoke
          rw [hinvoke]
          exact .mod _ rfl hstarted rfl (ActiveLoop.sameStarted_setChannel rfl)
  | close =>
      cases hstarted : (s.loop.channels k).started_ with
      | false => exact hsilent _ rfl (by simp [Channel.invoke, hstarted])
      | true =>
          have hinvoke : (s.loop.channels k).invoke word .close = ((s.loop.channels k).close,
              some EPollPoller.removeChannel) := by
            simp [Channel.invoke, hstarted]
          unfold invoke
          rw [hinvoke]
          exact .del _ rfl rfl hstarted rfl fun j => setChannel_started _ k j _
  | enableRead => exact hsilent (s.loop.channels k).enableRead rfl rfl
  | disableRead => exact hsilent (s.loop.channels k).disableRead rfl rfl
  | enableWrite => exact hsilent (s.loop.channels k).enableWrite rfl rfl
  | disableWrite => exact hsilent (s.loop.channels k).disableWrite rfl rfl
  | enableAll => exact hsilent (s.loop.channels k).enableAll rfl rfl
  | disableAll => exact hsilent (s.loop.channels k).disableAll rfl rfl

/-- The calls are in turn, and `started_` is what they have asked for; the channels that
are registered are started and there once; and a channel that is started and not
registered is one that the kernel has refused to add. -/
structure Registered (s : PollLoop κ) : Prop where
  inTurn : EachAfter Ctl.InTurn [] s.calls
  asked : ∀ k, (s.loop.channels k).started_ = asked s.calls k
  nodup : (registered s.calls).Nodup
  started : ∀ k ∈ registered s.calls, (s.loop.channels k).started_ = true
  missing : ∀ k, (s.loop.channels k).started_ = true → k ∉ registered s.calls →
    ∃ c ∈ s.calls, c.channel = k ∧ c.ctl.op = .add ∧ c.granted = false

/-- The array is as large as `eventSize_` says, which has been doubled some number of
times. -/
structure Grown (s : PollLoop κ) : Prop where
  size : s.events_ = s.eventSize_
  power : ∃ j, s.eventSize_ = kEventSizeInit * 2 ^ j

theorem registered_init : Registered (init : PollLoop κ) where
  inTurn := trivial
  asked := fun _ => rfl
  nodup := List.nodup_nil
  started := fun k hk => absurd hk List.not_mem_nil
  missing := fun k hk => by cases hk

omit [DecidableEq κ] in
theorem grown_init : Grown (init : PollLoop κ) := ⟨rfl, 0, rfl⟩

/-- A step without a call of `epoll_ctl`. -/
theorem Registered.frame (h : Registered s) (hcalls : t.calls = s.calls)
    (hstarted : ActiveLoop.SameStarted s.loop t.loop) : Registered t where
  inTurn := by rw [hcalls]; exact h.inTurn
  asked := fun k => by rw [hstarted k, hcalls]; exact h.asked k
  nodup := by rw [hcalls]; exact h.nodup
  started := fun k hk => by
    rw [hcalls] at hk
    exact (hstarted k).trans (h.started k hk)
  missing := fun k hk => by
    rw [hcalls]
    exact h.missing k ((hstarted k).symm.trans hk)

/-- A call of `epoll_ctl` in its turn leaves the calls in turn. -/
theorem inTurn_append {calls : List (Ctl κ)} {c : Ctl κ} (h : EachAfter Ctl.InTurn [] calls)
    (hc : c.InTurn calls) : EachAfter Ctl.InTurn [] (calls ++ [c]) :=
  eachAfter_append.mpr ⟨h, hc, trivial⟩

/-- A call of `epoll_ctl` in its turn, with `started_` as it asks. -/
theorem Registered.call (h : Registered s) {c : Ctl κ} (hturn : c.InTurn s.calls)
    (hcalls : t.calls = s.calls ++ [c])
    (hasked : ∀ j, (t.loop.channels j).started_ = c.ask j (s.loop.channels j).started_)
    (hnodup : (registered t.calls).Nodup)
    (hstarted : ∀ j ∈ registered t.calls, (t.loop.channels j).started_ = true)
    (hmissing : ∀ j, (t.loop.channels j).started_ = true → j ∉ registered t.calls →
      (c.channel = j ∧ c.ctl.op = .add ∧ c.granted = false)
        ∨ (s.loop.channels j).started_ = true ∧ j ∉ registered s.calls) : Registered t where
  inTurn := by
    rw [hcalls]
    exact inTurn_append h.inTurn hturn
  asked := fun j => by rw [hasked, hcalls, asked_append, h.asked j]
  nodup := hnodup
  started := hstarted
  missing := fun j hj hnot => by
    rw [hcalls]
    rcases hmissing j hj hnot with hc | ⟨hbefore, hnotBefore⟩
    · exact ⟨c, List.mem_append_right _ List.mem_cons_self, hc⟩
    · obtain ⟨d, hd, hrest⟩ := h.missing j hbefore hnotBefore
      exact ⟨d, List.mem_append_left _ hd, hrest⟩

/-- **A call of a member function of a channel**, if the kernel removes what it has
registered. -/
theorem registered_invoked {k : κ} {call : ChannelCall} {granted : Bool} (h : Registered s)
    (hdel : call = .close → k ∈ registered s.calls → granted = true)
    (hinvoked : Invoked s k call granted t) : Registered t := by
  cases hinvoked with
  | silent hcalls hstarted => exact h.frame hcalls hstarted
  | add ctl hop hbefore hcalls hstarted =>
      have hregistered : registered t.calls
          = if granted then (registered s.calls).insert k else registered s.calls := by
        rw [hcalls, registered_append, Ctl.register, hop]
      refine h.call ?_ hcalls (fun j => ?_) ?_ (fun j hj => ?_) fun j hj hnot => ?_
      · rw [Ctl.InTurn, hop]
        exact (h.asked k).symm.trans hbefore
      · rw [hstarted, Ctl.ask, hop]
        simp only [eq_comm]
      · rw [hregistered]
        split
        · exact h.nodup.insert
        · exact h.nodup
      · -- what the kernel has added is `k`, which is started now
        rw [hstarted]
        split
        · rfl
        · rename_i hne
          rw [hregistered] at hj
          split at hj
          · exact h.started j ((List.mem_insert_iff.mp hj).resolve_left hne)
          · exact h.started j hj
      · rw [hregistered] at hnot
        rw [hstarted] at hj
        by_cases hjk : j = k
        · subst hjk
          cases granted with
          | false => exact Or.inl ⟨rfl, hop, rfl⟩
          | true => exact absurd (List.mem_insert_self) hnot
        · rw [if_neg hjk] at hj
          refine Or.inr ⟨hj, fun hmem => hnot ?_⟩
          split
          · exact List.mem_insert_of_mem hmem
          · exact hmem
  | mod ctl hop hbefore hcalls hstarted =>
      have hregistered : registered t.calls = registered s.calls := by
        rw [hcalls, registered_append, Ctl.register, hop]
        simp
      refine h.call ?_ hcalls (fun j => ?_) ?_ (fun j hj => ?_) fun j hj hnot => ?_
      · rw [Ctl.InTurn, hop]
        exact (h.asked k).symm.trans hbefore
      · rw [hstarted, Ctl.ask, hop]
        simp
      · rw [hregistered]
        exact h.nodup
      · rw [hregistered] at hj
        exact (hstarted j).trans (h.started j hj)
      · rw [hregistered] at hnot
        exact Or.inr ⟨(hstarted j).symm.trans hj, hnot⟩
  | del ctl hop hcall hbefore hcalls hstarted =>
      have hregistered : registered t.calls = (registered s.calls).erase k := by
        rw [hcalls, registered_append, Ctl.register, hop]
        by_cases hmem : k ∈ registered s.calls
        · rw [if_pos (hdel hcall hmem)]
        · simp [List.erase_of_not_mem hmem]
      refine h.call ?_ hcalls (fun j => ?_) ?_ (fun j hj => ?_) fun j hj hnot => ?_
      · rw [Ctl.InTurn, hop]
        exact (h.asked k).symm.trans hbefore
      · rw [hstarted, Ctl.ask, hop]
        simp only [eq_comm]
      · rw [hregistered]
        exact h.nodup.erase k
      · rw [hregistered] at hj
        obtain ⟨hne, hmem⟩ := h.nodup.mem_erase_iff.mp hj
        rw [hstarted, if_neg hne]
        exact h.started j hmem
      · rw [hstarted] at hj
        split at hj
        · cases hj
        · rename_i hne
          rw [hregistered] at hnot
          exact Or.inr ⟨hj, fun hmem => hnot (h.nodup.mem_erase_iff.mpr ⟨hne, hmem⟩)⟩

/-! ## The array -/

/-- What a poll does: it reports what `epoll_wait` hands out, and doubles the array
where that filled it. -/
structure Polled (s : PollLoop κ) (answer : List (κ × Events)) (t : PollLoop κ) : Prop where
  reported : t.reported = s.reported ++ answer
  calls : t.calls = s.calls
  loop : t.loop = s.loop.poll answer
  array : (answer.length = s.eventSize_ ∧ t.eventSize_ = s.eventSize_ * 2
      ∧ t.events_ = s.eventSize_ * 2)
    ∨ ((answer.length = 0 ∨ answer.length ≠ s.eventSize_)
      ∧ t.eventSize_ = s.eventSize_ ∧ t.events_ = s.events_)

theorem polled_of_poll {answer : List (κ × Events)} (h : s.poll answer = some t) :
    Polled s answer t := by
  unfold poll at h
  dsimp only at h
  split at h
  · rename_i hnone
    rw [List.eq_nil_of_length_eq_zero hnone]
    exact (Option.some.inj h) ▸ ⟨(List.append_nil _).symm, rfl, rfl,
      Or.inr ⟨Or.inl rfl, rfl, rfl⟩⟩
  · split at h
    · cases h
    · split at h
      · rename_i hfull
        split at h
        · exact (Option.some.inj h) ▸ ⟨rfl, rfl, rfl, Or.inl ⟨hfull, rfl, rfl⟩⟩
        · cases h
      · rename_i hfull
        exact (Option.some.inj h) ▸ ⟨rfl, rfl, rfl, Or.inr ⟨Or.inr hfull, rfl, rfl⟩⟩

/-- A poll goes through while the array is as large as it should be and a larger one
can be counted in an `int`. -/
theorem poll_some {answer : List (κ × Events)} (h : Grown s)
    (hanswer : answer.length ≤ s.eventSize_)
    (hsize : answer.length = s.eventSize_ → s.eventSize_ * 2 < 2 ^ 31) :
    ∃ t, s.poll answer = some t := by
  unfold poll
  dsimp only
  split
  · exact ⟨_, rfl⟩
  · rw [if_neg (by rw [h.size]; exact Nat.not_lt.mpr hanswer)]
    split
    · rename_i hfull
      rw [if_pos (hsize hfull)]
      exact ⟨_, rfl⟩
    · exact ⟨_, rfl⟩

theorem grown_poll {answer : List (κ × Events)} (h : Grown s) (hp : Polled s answer t) :
    Grown t := by
  obtain ⟨j, hj⟩ := h.power
  rcases hp.array with ⟨-, hsize, hevents⟩ | ⟨-, hsize, hevents⟩
  · refine ⟨hevents.trans hsize.symm, j + 1, ?_⟩
    rw [hsize, hj, Nat.pow_succ, Nat.mul_assoc]
  · exact ⟨by rw [hevents, hsize, h.size], j, hsize.trans hj⟩

/-! ## Runs -/

/-- What the kernel answers: it removes a channel that it has registered, and hands out
at most as many entries as the array is said to have, of registered channels, each of
them once. -/
def Answers (s : PollLoop κ) : PollEvent κ → Prop
  | .call k call _ granted => call = .close → k ∈ registered s.calls → granted = true
  | .poll answer => answer.length ≤ s.eventSize_ ∧ (answer.map Prod.fst).Nodup
      ∧ ∀ k ∈ answer.map Prod.fst, k ∈ registered s.calls
  | .set _ | .handle _ => True

instance (s : PollLoop κ) : (e : PollEvent κ) → Decidable (s.Answers e)
  | .call k call _ granted =>
      inferInstanceAs (Decidable (call = .close → k ∈ registered s.calls → granted = true))
  | .poll answer => inferInstanceAs (Decidable (answer.length ≤ s.eventSize_
      ∧ (answer.map Prod.fst).Nodup ∧ ∀ k ∈ answer.map Prod.fst, k ∈ registered s.calls))
  | .set _ | .handle _ => isTrue trivial

/-- At most `n` channels are registered. -/
def AtMost (n : ℕ) (s : PollLoop κ) (_ : PollEvent κ) : Prop := (registered s.calls).length ≤ n

instance (n : ℕ) (s : PollLoop κ) (e : PollEvent κ) : Decidable (s.AtMost n e) :=
  inferInstanceAs (Decidable ((registered s.calls).length ≤ n))

/-- A step that is not a poll leaves the array alone, and what has been reported. -/
theorem array_step (hstep : step s e = some t) (hpoll : ∀ answer, e ≠ .poll answer) :
    t.eventSize_ = s.eventSize_ ∧ t.events_ = s.events_ ∧ t.reported = s.reported := by
  cases e with
  | call k call word granted => exact (Option.some.inj hstep) ▸ ⟨rfl, rfl, rfl⟩
  | set interest => exact (Option.some.inj hstep) ▸ ⟨rfl, rfl, rfl⟩
  | poll answer => exact absurd rfl (hpoll answer)
  | handle callbacks => exact (Option.some.inj hstep) ▸ ⟨rfl, rfl, rfl⟩

/-- **Registration**, whatever the step is. -/
theorem registered_step (h : Registered s) (hA : s.Answers e) (hstep : step s e = some t) :
    Registered t := by
  cases e with
  | call k call word granted =>
      exact (Option.some.inj hstep) ▸ registered_invoked h hA (invoked s k call word granted)
  | set interest => exact (Option.some.inj hstep) ▸ h.frame rfl fun _ => rfl
  | poll answer =>
      have hp := polled_of_poll hstep
      refine h.frame hp.calls ?_
      rw [hp.loop]
      exact ActiveLoop.sameStarted_poll s.loop answer
  | handle callbacks =>
      exact (Option.some.inj hstep) ▸ h.frame rfl
        (ActiveLoop.sameStarted_handle callbacks s.loop)

theorem grown_step (h : Grown s) (hstep : step s e = some t) : Grown t := by
  by_cases hpoll : ∃ answer, e = .poll answer
  · obtain ⟨answer, rfl⟩ := hpoll
    exact grown_poll h (polled_of_poll hstep)
  · obtain ⟨hsize, hevents, -⟩ := array_step hstep fun answer he => hpoll ⟨answer, he⟩
    obtain ⟨j, hj⟩ := h.power
    exact ⟨by rw [hsize, hevents, h.size], j, hsize.trans hj⟩

/-- What holds in every state of a run that has at most `n` channels registered. -/
structure Sound (n : ℕ) (s : PollLoop κ) : Prop where
  registered : Registered s
  grown : Grown s
  bounded : s.eventSize_ ≤ max kEventSizeInit (2 * n)

/-- Every step goes through. -/
theorem sound_step {n : ℕ} (hn : n < 2 ^ 30) (h : Sound n s) (hC : s.Answers e ∧ s.AtMost n e) :
    ∃ t, step s e = some t ∧ Sound n t := by
  obtain ⟨hanswers, hatMost⟩ := hC
  have hbounded := h.bounded
  unfold AtMost at hatMost
  -- what is handed out is no more than is registered
  have hfew : ∀ answer, e = .poll answer → answer.length ≤ n := by
    rintro answer rfl
    have hle := (List.subperm_of_subset hanswers.2.1 hanswers.2.2).length_le
    rw [List.length_map] at hle
    omega
  obtain ⟨t, ht⟩ : ∃ t, step s e = some t := by
    cases e with
    | call k call word granted => exact ⟨_, rfl⟩
    | set interest => exact ⟨_, rfl⟩
    | poll answer =>
        have hlength := hfew answer rfl
        exact poll_some h.grown hanswers.1 fun hfull => by omega
    | handle callbacks => exact ⟨_, rfl⟩
  refine ⟨t, ht, registered_step h.registered hanswers ht, grown_step h.grown ht, ?_⟩
  by_cases hpoll : ∃ answer, e = .poll answer
  · -- the array is doubled only when all of it is handed out, so it had at most `n` entries
    obtain ⟨answer, rfl⟩ := hpoll
    have hlength := hfew answer rfl
    rcases (polled_of_poll ht).array with ⟨hfull, hsize, -⟩ | ⟨-, hsize, -⟩
    · rw [hsize]
      omega
    · rw [hsize]
      exact hbounded
  · rw [(array_step ht fun answer he => hpoll ⟨answer, he⟩).1]
    exact hbounded

/-- **The poller.** Every run of a loop and its poller goes through, of calls of the member
functions of any channels in any order, polls and dispatches, with any answers of the
kernel: it may refuse to add and to change a channel, but removes one it has registered;
`epoll_wait` hands out any entries of registered channels, each once, and no more than it
is asked for; and no more than `n` channels are registered, with `n < 2 ^ 30`. In every
state `started_` says what `epoll_ctl` has been asked for, a channel was never asked to
be added twice or to be changed or removed without, those registered are those started
but the ones the kernel has refused to add, and the array has the size `eventSize_` says,
a power of two times 16 and at most `2 n`. -/
theorem poller_sound {n : ℕ} (hn : n < 2 ^ 30) {es : List (PollEvent κ)}
    (hA : Along step Answers init es) (hN : Along step (AtMost n) init es) :
    Always step (Sound n) init es :=
  always_of_along (fun _ h => h) (fun _ _ h hC => sound_step hn h hC)
    ⟨registered_init, grown_init, Nat.le_max_left _ _⟩ (along_and step hA hN)

/-- Channels `0` to `16` want input and are opened, one more than the array holds; the
kernel refuses to add channel `17`. -/
def burst : List (PollEvent ℕ) :=
  (List.range 17).flatMap (fun k => [.call k .enableRead 0 true, .call k .open 0 true])
    ++ [.call 17 .open 0 false]

/-- Input for some channels. -/
def readable (l : List ℕ) : List (ℕ × Events) := l.map fun k => (k, ⟨false, false, true, false⟩)

/-- Their input is reported in two polls; meanwhile one is closed, another is changed, and
so is the one that is not registered, which fails. -/
def drained : List (PollEvent ℕ) :=
  [.poll (readable (List.range 16)), .call 3 .close 0 true, .call 4 .update 0 true,
    .call 17 .update 0 false, .poll (readable [16])]

theorem poller_sound_burst : Always step (Sound 17) init (burst ++ drained) :=
  poller_sound (by decide) (by decide +kernel) (by decide +kernel)

/-! ## How long a ready channel waits -/

/-- How many polls there are among some events. -/
def polls (es : List (PollEvent κ)) : ℕ :=
  es.countP fun
    | .poll _ => true
    | _ => false

/-- The channels that have been reported since `before` entries had been. -/
def since (s : PollLoop κ) (before : ℕ) : List κ := (s.reported.drop before).map Prod.fst

/-- `epoll_wait` goes round robin through the channels that are ready: until it hands out
channel `k`, it fills the array, and hands out none of the others a second time. -/
def TakesTurns (ready : List κ) (k : κ) (before : ℕ) (s : PollLoop κ) : PollEvent κ → Prop
  | .poll answer => k ∈ s.since before ∨ k ∈ answer.map Prod.fst
      ∨ (answer.length = s.eventSize_ ∧ (s.since before ++ answer.map Prod.fst).Nodup
        ∧ ∀ j ∈ answer.map Prod.fst, j ∈ ready)
  | .call _ _ _ _ | .set _ | .handle _ => True

instance (ready : List κ) (k : κ) (before : ℕ) (s : PollLoop κ) :
    (e : PollEvent κ) → Decidable (s.TakesTurns ready k before e)
  | .poll answer => inferInstanceAs (Decidable (k ∈ s.since before ∨ k ∈ answer.map Prod.fst
      ∨ (answer.length = s.eventSize_ ∧ (s.since before ++ answer.map Prod.fst).Nodup
        ∧ ∀ j ∈ answer.map Prod.fst, j ∈ ready)))
  | .call _ _ _ _ | .set _ | .handle _ => isTrue trivial

variable {ready : List κ} {k : κ} {before : ℕ}

omit [DecidableEq κ] in
/-- What a step adds to what was reported since. -/
theorem since_append {answer : List (κ × Events)} (h : t.reported = s.reported ++ answer)
    (hbefore : before ≤ s.reported.length) :
    t.since before = s.since before ++ answer.map Prod.fst := by
  unfold since
  rw [h, List.drop_append_of_le_length hbefore, List.map_append]

/-- Entries are only ever added to what has been reported. -/
theorem reported_step (hstep : step s e = some t) :
    ∃ answer, t.reported = s.reported ++ answer := by
  by_cases hpoll : ∃ answer, e = .poll answer
  · obtain ⟨answer, rfl⟩ := hpoll
    exact ⟨answer, (polled_of_poll hstep).reported⟩
  · obtain ⟨-, -, hreported⟩ := array_step hstep fun answer he => hpoll ⟨answer, he⟩
    exact ⟨[], by rw [hreported, List.append_nil]⟩

/-- What was reported since stays so. -/
theorem since_run {es : List (PollEvent κ)} (hrun : run step s es = some t)
    (hbefore : before ≤ s.reported.length) (hk : k ∈ s.since before) : k ∈ t.since before := by
  refine (run_inv (I := fun u => before ≤ u.reported.length ∧ k ∈ u.since before) ?_
    ⟨hbefore, hk⟩ hrun).2
  rintro u e v ⟨hle, hmem⟩ hstep
  obtain ⟨answer, hanswer⟩ := reported_step hstep
  refine ⟨?_, ?_⟩
  · rw [hanswer, List.length_append]
    omega
  · rw [since_append hanswer hle]
    exact List.mem_append_left _ hmem

omit [DecidableEq κ] in
/-- The entries of `m + 1` polls that all fill the array: `size`, and then those of `m`
polls that begin with twice that. -/
theorem taken_succ (size m : ℕ) :
    size * (2 ^ (m + 1) - 1) = size + size * 2 * (2 ^ m - 1) := by
  obtain ⟨x, hx⟩ := Nat.exists_eq_add_of_le (Nat.one_le_two_pow (n := m))
  rw [Nat.pow_succ, hx, show (1 + x) * 2 - 1 = 1 + 2 * x by omega, Nat.add_sub_cancel_left,
    Nat.mul_add, Nat.mul_one, Nat.mul_assoc]

/-- A channel that is ready is reported by the poll after which as many entries have been
taken as there are ready channels. -/
theorem reported_of_turns {es : List (PollEvent κ)} (hrun : run step s es = some t)
    (hturns : Along step (TakesTurns ready k before) s es) (hbefore : before ≤ s.reported.length)
    (hk : k ∈ ready) (hnodup : (s.since before).Nodup) (hsub : ∀ j ∈ s.since before, j ∈ ready)
    (hpolls : ready.length ≤ (s.since before).length + s.eventSize_ * (2 ^ polls es - 1)) :
    k ∈ t.since before := by
  induction es generalizing s with
  | nil =>
      obtain rfl := Option.some.inj hrun
      -- all the others have been reported, and so it has been
      by_contra hmissing
      have hle := (List.subperm_of_subset (List.nodup_cons.mpr ⟨hmissing, hnodup⟩)
        (List.cons_subset.mpr ⟨hk, hsub⟩)).length_le
      rw [List.length_cons] at hle
      simp only [polls, List.countP_nil] at hpolls
      omega
  | cons e es ih =>
      obtain ⟨s', hs', hrun'⟩ := (run_cons step).mp hrun
      obtain ⟨hturn, hturns'⟩ := hturns
      obtain ⟨answer, hanswer⟩ := reported_step hs'
      have hle : before ≤ s'.reported.length := by
        rw [hanswer, List.length_append]
        omega
      by_cases hpoll : ∃ answer, e = .poll answer
      · obtain ⟨answer, rfl⟩ := hpoll
        have hp := polled_of_poll hs'
        have hsince := since_append hp.reported hbefore
        rcases hturn with hdone | hdone | ⟨hfull, hnodup', hready⟩
        · exact since_run hrun hbefore hdone
        · refine since_run hrun' hle ?_
          rw [hsince]
          exact List.mem_append_right _ hdone
        · -- the next poll takes twice as many
          refine ih hrun' (hturns' s' hs') hle (by rw [hsince]; exact hnodup') ?_ ?_
          · intro j hj
            rw [hsince] at hj
            exact (List.mem_append.mp hj).elim (hsub j) (hready j)
          · have hcount : polls (.poll answer :: es) = polls es + 1 := List.countP_cons_of_pos rfl
            have hsize : s'.eventSize_ = s.eventSize_ * 2 := by
              rcases hp.array with ⟨-, hsize, -⟩ | ⟨hnone | hshort, hsize, -⟩
              · exact hsize
              · omega
              · exact absurd hfull hshort
            rw [hcount, taken_succ] at hpolls
            rw [hsince, List.length_append, List.length_map, hsize]
            omega
      · obtain ⟨hsize, -, hreported⟩ := array_step hs' fun answer he => hpoll ⟨answer, he⟩
        have hsince : s'.since before = s.since before := by rw [since, since, hreported]
        have hcount : polls (e :: es) = polls es := by
          refine List.countP_cons_of_neg ?_
          cases e with
          | poll answer => exact absurd ⟨answer, rfl⟩ hpoll
          | call k call word granted => exact Bool.false_ne_true
          | set interest => exact Bool.false_ne_true
          | handle callbacks => exact Bool.false_ne_true
        rw [hcount] at hpolls
        exact ih hrun' (hturns' s' hs') hle (hsince ▸ hnodup) (hsince ▸ hsub)
          (by rw [hsince, hsize]; exact hpolls)

/-- **The latency of the poller.** Take any state of a run, and any channels that are
ready there. If `epoll_wait` goes round robin through them, it hands out each of them as
soon as `16 * (2 ^ m - 1)` is no less than their number, `m` being the polls since:
whatever the kernel answers besides, and whatever is opened, closed and dispatched
meanwhile. -/
theorem ready_reported {es fs : List (PollEvent κ)} (hs : run step init es = some s)
    (ht : run step s fs = some t) (hk : k ∈ ready)
    (hturns : Along step (TakesTurns ready k s.reported.length) s fs)
    (hpolls : ready.length ≤ kEventSizeInit * (2 ^ polls fs - 1)) :
    ∃ events, (k, events) ∈ t.reported.drop s.reported.length := by
  have hgrown : Grown s := run_inv (fun _ _ _ => grown_step) grown_init hs
  have hsize : kEventSizeInit ≤ s.eventSize_ := by
    obtain ⟨j, hj⟩ := hgrown.power
    rw [hj]
    exact Nat.le_mul_of_pos_right _ (Nat.two_pow_pos j)
  have hnone : s.since s.reported.length = [] := by rw [since, List.drop_length, List.map_nil]
  have hmem : k ∈ t.since s.reported.length := by
    refine reported_of_turns ht hturns (Nat.le_refl _) hk ?_ ?_ ?_
    · rw [hnone]
      exact List.nodup_nil
    · rw [hnone]
      exact fun j hj => absurd hj List.not_mem_nil
    · exact Nat.le_trans hpolls (Nat.le_trans (Nat.mul_le_mul_right _ hsize) (Nat.le_add_left _ _))
  obtain ⟨⟨j, events⟩, hentry, rfl⟩ := List.mem_map.mp hmem
  exact ⟨events, hentry⟩

/-- The last of a burst is in the second of two polls. -/
theorem ready_reported_last :
    ∃ t, run step ((run step init burst).get (by decide +kernel)) drained = some t
      ∧ ∃ events, (16, events) ∈ t.reported := by
  obtain ⟨t, ht⟩ := Option.isSome_iff_exists.mp (show (run step
    ((run step init burst).get (by decide +kernel)) drained).isSome = true by decide +kernel)
  obtain ⟨events, hmem⟩ := ready_reported (Option.some_get _).symm ht
    (show 16 ∈ List.range 17 by decide) (by decide +kernel) (by decide +kernel)
  exact ⟨t, ht, events, List.mem_of_mem_drop hmem⟩

end PollLoop

end Libiak.Net
