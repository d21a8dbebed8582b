/-
The masks a channel is registered with.

`EPollPoller::addChannel` and `updateChannel` each build the mask in an automatic
variable: bits are or-ed into `event.events`, which nothing has been assigned to. What
the variable holds before is a parameter here, another word for every call, and a run
of a channel is a function of these words; what two runs over the same calls hand to
`epoll_ctl` can then be compared. The word is visible to `epoll_ctl` bit by bit, so
the masks are those of the channel's interest exactly if no word has a bit besides
(`ctls_interest_iff`).

The descriptor and the pointer that are handed over as well are the same in every
call, and are left out.
-/
import Libiak.Channel
import Mathlib.Data.Nat.Notation

set_option autoImplicit false

namespace Libiak.Net

/-! ## Registration -/

/-- The bits of `<sys/epoll.h>`. -/
def EPOLLIN : UInt32 := 0x001

def EPOLLOUT : UInt32 := 0x004

def EPOLLERR : UInt32 := 0x008

def EPOLLRDHUP : UInt32 := 0x2000

def EPOLLET : UInt32 := 0x80000000

inductive CtlOp where
  | add
  | mod
  | del
  deriving DecidableEq

/-- A call of `epoll_ctl`; it has no events where `nullptr` is handed over. -/
structure EpollCtl where
  op : CtlOp
  events : Option UInt32
  deriving DecidableEq

namespace EPollPoller

/-- `event.events`, when `epoll_ctl` is called; `word` is what it holds at first. -/
def events (word : UInt32) (channel : Channel) : UInt32 :=
  -- nothing has been assigned to `event.events` before it is or-ed into
  let events := if channel.read_ then word ||| EPOLLIN else word
  let events := if channel.write_ then events ||| EPOLLOUT else events
  events ||| (EPOLLERR ||| EPOLLRDHUP ||| EPOLLET)

/-- `EPollPoller::addChannel`. -/
def addChannel (word : UInt32) (channel : Channel) : EpollCtl :=
  { op := .add, events := some (events word channel) }

/-- `EPollPoller::updateChannel`. -/
def updateChannel (word : UInt32) (channel : Channel) : EpollCtl :=
  { op := .mod, events := some (events word channel) }

/-- `EPollPoller::removeChannel`. -/
def removeChannel : EpollCtl := { op := .del, events := none }

end EPollPoller

/-- A call of a member function of `Channel` that is about its registration. -/
inductive ChannelCall where
  | enableRead
  | disableRead
  | enableWrite
  | disableWrite
  | enableAll
  | disableAll
  | «open»
  | update
  | close
  deriving DecidableEq

namespace Channel

open EPollPoller

/-- The call, and the call of `epoll_ctl` that it makes. -/
def invoke (word : UInt32) (c : Channel) : ChannelCall → Channel × Option EpollCtl
  | .enableRead => (c.enableRead, none)
  | .disableRead => (c.disableRead, none)
  | .enableWrite => (c.enableWrite, none)
  | .disableWrite => (c.disableWrite, none)
  | .enableAll => (c.enableAll, none)
  | .disableAll => (c.disableAll, none)
  | .open => if !c.started_ then (c.open, some (addChannel word c)) else (c, none)
  | .update => if c.started_ then (c, some (updateChannel word c)) else (c, none)
  | .close => if c.started_ then (c.close, some removeChannel) else (c, none)

/-- What a run hands to `epoll_ctl`, each with the channel at the time of the call.
The `k`-th call finds `words k` in its automatic variable. -/
def ctls (words : ℕ → UInt32) (c : Channel) : List ChannelCall → List (Channel × EpollCtl)
  | [] => []
  | call :: calls =>
      let r := c.invoke (words 0) call
      r.2.toList.map (fun ctl => (c, ctl)) ++ r.1.ctls (fun k => words (k + 1)) calls

/-- The events among them. -/
def masks (l : List (Channel × EpollCtl)) : List UInt32 := l.filterMap fun x => x.2.events

/-- What a channel is interested in. -/
def interest (c : Channel) : UInt32 :=
  (if c.read_ then EPOLLIN else 0) ||| (if c.write_ then EPOLLOUT else 0)
    ||| (EPOLLERR ||| EPOLLRDHUP ||| EPOLLET)

/-- Each mask is the interest at the time of the call. -/
def Masked (l : List (Channel × EpollCtl)) : Prop :=
  ∀ x ∈ l, ∀ mask, x.2.events = some mask → mask = x.1.interest

/-- The call builds a mask. -/
def registers (c : Channel) : ChannelCall → Bool
  | .open => !c.started_
  | .update => c.started_
  | _ => false

/-- No call that builds a mask finds a bit in its automatic variable besides those of
the interest. -/
def Clean (words : ℕ → UInt32) (c : Channel) : List ChannelCall → Prop
  | [] => True
  | call :: calls =>
      (c.registers call = true → words 0 &&& ~~~c.interest = 0)
        ∧ (c.invoke (words 0) call).1.Clean (fun k => words (k + 1)) calls

/-! ## Words and masks -/

theorem events_eq (word : UInt32) (c : Channel) :
    EPollPoller.events word c = word ||| c.interest := by
  unfold EPollPoller.events interest
  cases c.read_ <;> cases c.write_ <;> simp [UInt32.or_assoc]

/-- A word leaves a mask as it is exactly if it has no bit besides. -/
theorem or_eq_right_iff (w m : UInt32) : w ||| m = m ↔ w &&& ~~~m = 0 := by
  have hbit : ∀ a b : Bool, (a || b) = b ↔ (a && !b) = false := by decide
  simp only [← UInt32.toBitVec_inj, UInt32.toBitVec_or, UInt32.toBitVec_and, UInt32.toBitVec_not,
    UInt32.toBitVec_zero]
  -- bit by bit, where it is `hbit`
  constructor
  · intro h
    apply BitVec.eq_of_getLsbD_eq
    intro i hi
    have hor := congrArg (fun v : BitVec 32 => v.getLsbD i) h
    simp only [BitVec.getLsbD_or, hbit] at hor
    simp only [BitVec.getLsbD_and, BitVec.getLsbD_not, hi, decide_true, Bool.true_and,
      BitVec.getLsbD_zero, hor]
  · intro h
    apply BitVec.eq_of_getLsbD_eq
    intro i hi
    have hand := congrArg (fun v : BitVec 32 => v.getLsbD i) h
    simp only [BitVec.getLsbD_and, BitVec.getLsbD_not, hi, decide_true, Bool.true_and,
      BitVec.getLsbD_zero] at hand
    rw [BitVec.getLsbD_or, hbit]
    exact hand

/-- Where the channel is does not depend on the words. -/
theorem invoke_fst (v w : UInt32) (c : Channel) (call : ChannelCall) :
    (c.invoke v call).1 = (c.invoke w call).1 := by
  cases call <;> simp only [invoke] <;> split <;> rfl

/-- **One call**: the mask it builds has the bits of the word and those of the
interest. -/
theorem events_invoke (w : UInt32) (c : Channel) (call : ChannelCall) :
    (c.invoke w call).2.bind EpollCtl.events
      = if c.registers call then some (w ||| c.interest) else none := by
  cases call with
  | «open» =>
      cases hstarted : c.started_ with
      | false => simp [invoke, registers, hstarted, EPollPoller.addChannel, events_eq]
      | true => simp [invoke, registers, hstarted]
  | update =>
      cases hstarted : c.started_ with
      | false => simp [invoke, registers, hstarted]
      | true => simp [invoke, registers, hstarted, EPollPoller.updateChannel, events_eq]
  | close =>
      cases hstarted : c.started_ with
      | false => simp [invoke, registers, hstarted]
      | true => simp [invoke, registers, hstarted, EPollPoller.removeChannel]
  | _ => rfl

/-- The mask of the first call, if it builds one, comes first. -/
theorem masks_cons (words : ℕ → UInt32) (c : Channel) (call : ChannelCall)
    (calls : List ChannelCall) :
    masks (c.ctls words (call :: calls))
      = (if c.registers call then [words 0 ||| c.interest] else [])
        ++ masks ((c.invoke (words 0) call).1.ctls (fun k => words (k + 1)) calls) := by
  have hcall := events_invoke (words 0) c call
  rw [ctls, masks, List.filterMap_append]
  congr 1
  cases hctl : (c.invoke (words 0) call).2 with
  | none =>
      rw [hctl, Option.bind_none] at hcall
      split at hcall
      · cases hcall
      · rename_i hreg
        simp [hreg]
  | some ctl =>
      rw [hctl, Option.bind_some] at hcall
      split at hcall
      · rename_i hreg
        simp [hreg, hcall]
      · rename_i hreg
        simp [hreg, hcall]

/-- The mask of one call is the interest if the word is clean. -/
theorem masked_invoke_iff (w : UInt32) (c : Channel) (call : ChannelCall) :
    Masked ((c.invoke w call).2.toList.map fun ctl => (c, ctl))
      ↔ (c.registers call = true → w &&& ~~~c.interest = 0) := by
  have hmasked : Masked ((c.invoke w call).2.toList.map fun ctl => (c, ctl))
      ↔ ∀ mask, (c.invoke w call).2.bind EpollCtl.events = some mask → mask = c.interest := by
    cases hctl : (c.invoke w call).2 with
    | none => simp [Masked]
    | some ctl => simp [Masked]
  rw [hmasked, events_invoke, ← or_eq_right_iff]
  split
  · rename_i hreg
    simp [hreg]
  · rename_i hreg
    simp [hreg]

theorem masked_append {l m : List (Channel × EpollCtl)} :
    Masked (l ++ m) ↔ Masked l ∧ Masked m := by
  simp only [Masked, List.mem_append, or_imp, forall_and]

/-! ## Runs -/

/-- **A run** registers the interest if all its words are clean. -/
theorem masked_ctls_iff (words : ℕ → UInt32) (c : Channel) (calls : List ChannelCall) :
    Masked (c.ctls words calls) ↔ c.Clean words calls := by
  induction calls generalizing words c with
  | nil => simp [ctls, Clean, Masked]
  | cons call calls ih => rw [ctls, Clean, masked_append, masked_invoke_iff, ih]

/-- Clean words leave no trace. -/
theorem masks_eq_of_clean {a b : ℕ → UInt32} {c : Channel} {calls : List ChannelCall}
    (ha : c.Clean a calls) (hb : c.Clean b calls) :
    masks (c.ctls a calls) = masks (c.ctls b calls) := by
  induction calls generalizing a b c with
  | nil => rfl
  | cons call calls ih =>
      -- both runs go on from the same channel
      rw [Clean] at ha hb
      rw [masks_cons, masks_cons, invoke_fst (b 0) (a 0)]
      rw [invoke_fst (b 0) (a 0)] at hb
      rw [ih ha.2 hb.2]
      split
      · rename_i hreg
        rw [(or_eq_right_iff _ _).mpr (ha.1 hreg), (or_eq_right_iff _ _).mpr (hb.1 hreg)]
      · rfl

/-- **Registered interest.** Two runs over the same calls hand over the same masks,
those of the interest at each call, if and only if the automatic variables of both
have no bit at first that the mask is not to have. -/
theorem ctls_interest_iff (a b : ℕ → UInt32) (c : Channel) (calls : List ChannelCall) :
    (masks (c.ctls a calls) = masks (c.ctls b calls)
        ∧ Masked (c.ctls a calls) ∧ Masked (c.ctls b calls))
      ↔ c.Clean a calls ∧ c.Clean b calls := by
  rw [masked_ctls_iff, masked_ctls_iff]
  constructor
  · rintro ⟨-, h⟩
    exact h
  · intro h
    exact ⟨masks_eq_of_clean h.1 h.2, h⟩

/-- Bit 30, which is `EPOLLONESHOT`, is in the variable of `addChannel`, and `epoll_ctl`
is told to disarm the descriptor after one event. -/
theorem ctls_oneShot :
    ¬ ∀ (a b : ℕ → UInt32) (calls : List ChannelCall),
      masks (make.ctls a calls) = masks (make.ctls b calls)
        ∧ Masked (make.ctls a calls) ∧ Masked (make.ctls b calls) := by
  intro h
  have hmasks := (h (fun _ => 0x40000000) (fun _ => 0) [.enableRead, .open]).1
  revert hmasks
  decide

end Channel

end Libiak.Net
