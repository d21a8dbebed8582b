/-
`net/Acceptor.cpp` and the descriptors of the process.

In the machine of `Acceptor.lean` a turn of the loop of `onRead` is one step. Here it is
as many as it has system calls, with the descriptor table of the process below them, and
between any two of them the other threads may open and close descriptors. For a while
`idleFd_` then holds a number that has been closed and may already be somebody else's.
It is never used in that while: in every run, what the acceptor closes is its own, and it
loses none of its descriptors (`descriptors_owned`). Every run is one of the machine of
`Acceptor.lean`, turn by turn (`turns_refine`).

While the table has room for the connections that wait and come, `onRead` is done with
each of them in two calls, and gets back. In a full table that depends on what the kernel
looks at first. If it is the table, as on Linux, `accept4` keeps failing with `EMFILE` when
no connection is left, and `onRead` never gets back unless another thread closes something
(`onRead_returns`).
-/
import Libiak.Acceptor
import Libiak.Handles

set_option autoImplicit false

namespace Libiak.Net

open Libiak.Run

/-- Whose a descriptor is: the acceptor's, or anybody else's in the process. -/
inductive FdOwner where
  | acceptor
  | other
  deriving DecidableEq

/-- The next system call of a turn: the `accept` it begins with; behind one that
succeeded, what becomes of `sockFd`; and behind one that found the descriptors used up,
the four calls around `idleFd_`. -/
inductive AcceptPhase where
  | accept
  | accepted (sockFd : ℕ)
  | closeIdle
  | acceptIdle
  | closeDropped
  | openNull
  | destroyed
  deriving DecidableEq

/-- An acceptor on its loop, with the descriptors of the process. The history: the
connections that have come, those that were closed, and the descriptors the acceptor
closed, each with its owner at that time. -/
structure AcceptorFds where
  loop : AcceptorLoop
  sockFd_ : Option ℕ
  table : Handles FdOwner
  backlog : ℕ
  phase : AcceptPhase
  arrived : ℕ
  dropped : ℕ
  closings : List (ℕ × Option FdOwner)

/-- What can happen next: a step of the loop that is not a turn, a new connection,
another thread that opens or closes a descriptor, or the next call of the acceptor. -/
inductive FdEvent where
  | loop (e : AcceptorEvent)
  | arrive
  | openOther (fd : ℕ)
  | closeOther (fd : ℕ)
  | accept (answer : Except Errno ℕ)
  | callback
  | close
  | openNull (answer : Option ℕ)
  | destroy

namespace AcceptorFds

/-- `::close(fd)` by the acceptor. -/
def close (s : AcceptorFds) : Option ℕ → AcceptorFds
  | none => s
  | some fd =>
      { s with table := s.table.release fd, closings := s.closings ++ [(fd, s.table.owner fd)] }

/-- `accept4` with the answer `fd`. -/
def take (s : AcceptorFds) (fd : ℕ) : Option AcceptorFds :=
  if s.backlog = 0 then none
  else (s.table.acquire fd .acceptor).map fun table =>
    { s with table := table, backlog := s.backlog - 1 }

/-- `idleFd_ = fd`. -/
def setIdle (s : AcceptorFds) (fd : Option ℕ) : AcceptorFds :=
  { s with loop := { s.loop with acceptor := { s.loop.acceptor with idleFd_ := fd } } }

/-- Descriptors that the loop has closed. -/
def addClosed (s : AcceptorFds) (fds : List ℕ) : AcceptorFds :=
  { s with loop := { s.loop with closed := s.loop.closed ++ fds } }

/-- The two calls of `accept4` in a turn. -/
def accept (s : AcceptorFds) (answer : Except Errno ℕ) : Option AcceptorFds :=
  match s.phase, answer with
  | .accept, .ok fd =>
      if s.loop.pc = .accepting then
        (s.take fd).map fun s => { s with phase := .accepted fd }
      else none
  | .accept, .error .EMFILE | .accept, .error .ENFILE =>
      if s.loop.pc = .accepting then some { s with phase := .closeIdle } else none
  | .accept, .error err =>
      (s.loop.accept (.error err) none none).map fun loop => { s with loop := loop }
  | .acceptIdle, .ok fd =>
      (s.take fd).map fun s => { s.setIdle (some fd) with phase := .closeDropped }
  | .acceptIdle, .error _ => some { s.setIdle none with phase := .closeDropped }
  | _, _ => none

/-- What becomes of a connection. `acceptCallback_` takes it over. -/
def callback (s : AcceptorFds) : Option AcceptorFds :=
  match s.phase with
  | .accepted sockFd =>
      if s.loop.acceptor.acceptCallback_ then
        some { s with
          table := s.table.give sockFd .other
          loop := { s.loop with handed := s.loop.handed ++ [sockFd] }
          phase := .accept }
      else
        some { (s.close (some sockFd)).addClosed [sockFd] with
          dropped := s.dropped + 1, phase := .accept }
  | _ => none

/-- The two calls `::close(idleFd_)` of a turn. -/
def closeIdle (s : AcceptorFds) : Option AcceptorFds :=
  let idle := s.loop.acceptor.idleFd_
  match s.phase with
  | .closeIdle => some { (s.close idle).addClosed idle.toList with phase := .acceptIdle }
  | .closeDropped =>
      some { (s.close idle).addClosed idle.toList with
        dropped := s.dropped + idle.toList.length, phase := .openNull }
  | _ => none

/-- `idleFd_ = ::open("/dev/null", O_RDONLY | O_CLOEXEC)`. -/
def openNull (s : AcceptorFds) (answer : Option ℕ) : Option AcceptorFds :=
  match s.phase, answer with
  | .openNull, none => some { s.setIdle none with phase := .accept }
  | .openNull, some fd =>
      (s.table.acquire fd .acceptor).map fun table =>
        { s.setIdle (some fd) with table := table, phase := .accept }
  | _, _ => none

/-- `Acceptor::~Acceptor`, which nobody runs inside `onRead`. -/
def destroy (s : AcceptorFds) : Option AcceptorFds :=
  if s.phase = .accept ∧ s.loop.pc ≠ .accepting then
    some { (s.close s.sockFd_).close s.loop.acceptor.idleFd_ with phase := .destroyed }
  else none

/-- The other steps of the loop, which goes on without the acceptor. -/
def loopStep (s : AcceptorFds) : AcceptorEvent → Option AcceptorFds
  | .accept _ _ _ => none
  | e => if s.phase = .destroyed then none
      else (s.loop.step e).map fun loop => { s with loop := loop }

def step (s : AcceptorFds) : FdEvent → Option AcceptorFds
  | .loop e => s.loopStep e
  | .arrive => some { s with backlog := s.backlog + 1, arrived := s.arrived + 1 }
  | .openOther fd => (s.table.acquire fd .other).map fun table => { s with table := table }
  | .closeOther fd =>
      if s.table.owner fd = some .other then some { s with table := s.table.release fd }
      else none
  | .accept answer => s.accept answer
  | .callback => s.callback
  | .close => s.closeIdle
  | .openNull answer => s.openNull answer
  | .destroy => s.destroy

/-- A descriptor for the acceptor, or `-1`. -/
def own (table : Handles FdOwner) : Option ℕ → Option (Handles FdOwner)
  | none => some table
  | some fd => table.acquire fd .acceptor

/-- The constructor, with what `Socket::open` and `::open` answer. -/
def init (table : Handles FdOwner) (sockFd idleFd : Option ℕ) : Option AcceptorFds :=
  (own table sockFd).bind fun table => (own table idleFd).map fun table =>
    { loop := AcceptorLoop.init idleFd, sockFd_ := sockFd, table := table, backlog := 0
      phase := .accept, arrived := 0, dropped := 0, closings := [] }

/-! ## What a step can do -/

/-- The events of the loop that are no turn of `onRead`. -/
def Outside : AcceptorEvent → Prop
  | .accept _ _ _ => False
  | _ => True

/-- The steps of the machine, one constructor for each outcome of each call. -/
inductive Moves (s : AcceptorFds) : FdEvent → AcceptorFds → Prop where
  | loop (e : AcceptorEvent) (l : AcceptorLoop) (hout : Outside e) (hphase : s.phase ≠ .destroyed)
      (hstep : s.loop.step e = some l) : Moves s (.loop e) { s with loop := l }
  | arrive : Moves s .arrive { s with backlog := s.backlog + 1, arrived := s.arrived + 1 }
  | openOther (fd : ℕ) (table : Handles FdOwner) (hopen : s.table.acquire fd .other = some table) :
      Moves s (.openOther fd) { s with table := table }
  | closeOther (fd : ℕ) (howner : s.table.owner fd = some .other) :
      Moves s (.closeOther fd) { s with table := s.table.release fd }
  | accepted (fd : ℕ) (table : Handles FdOwner) (hphase : s.phase = .accept)
      (hpc : s.loop.pc = .accepting) (hbacklog : s.backlog ≠ 0)
      (hopen : s.table.acquire fd .acceptor = some table) : Moves s (.accept (.ok fd))
        { s with table := table, backlog := s.backlog - 1, phase := .accepted fd }
  | full (err : Errno) (hphase : s.phase = .accept) (hpc : s.loop.pc = .accepting)
      (herr : err = .EMFILE ∨ err = .ENFILE) :
      Moves s (.accept (.error err)) { s with phase := .closeIdle }
  | leave (err : Errno) (l : AcceptorLoop) (hphase : s.phase = .accept)
      (hstep : s.loop.step (.accept (.error err) none none) = some l)
      (hfds : l.acceptor.idleFd_ = s.loop.acceptor.idleFd_ ∧ l.handed = s.loop.handed)
      (herr : err ≠ .EMFILE) (hleft : l.pc ≠ .accepting) :
      Moves s (.accept (.error err)) { s with loop := l }
  | acceptIdle (fd : ℕ) (table : Handles FdOwner) (hphase : s.phase = .acceptIdle)
      (hbacklog : s.backlog ≠ 0) (hopen : s.table.acquire fd .acceptor = some table) :
      Moves s (.accept (.ok fd)) { s.setIdle (some fd) with
        table := table, backlog := s.backlog - 1, phase := .closeDropped }
  | acceptNone (err : Errno) (hphase : s.phase = .acceptIdle) :
      Moves s (.accept (.error err)) { s.setIdle none with phase := .closeDropped }
  | handOn (fd : ℕ) (hphase : s.phase = .accepted fd)
      (hcallback : s.loop.acceptor.acceptCallback_ = true) : Moves s .callback { s with
        table := s.table.give fd .other
        loop := { s.loop with handed := s.loop.handed ++ [fd] }
        phase := .accept }
  | drop (fd : ℕ) (hphase : s.phase = .accepted fd)
      (hcallback : s.loop.acceptor.acceptCallback_ = false) :
      Moves s .callback { (s.close (some fd)).addClosed [fd] with
        dropped := s.dropped + 1, phase := .accept }
  | closeIdle (hphase : s.phase = .closeIdle) : Moves s .close
      { (s.close s.loop.acceptor.idleFd_).addClosed s.loop.acceptor.idleFd_.toList with
        phase := .acceptIdle }
  | closeDropped (hphase : s.phase = .closeDropped) : Moves s .close
      { (s.close s.loop.acceptor.idleFd_).addClosed s.loop.acceptor.idleFd_.toList with
        dropped := s.dropped + s.loop.acceptor.idleFd_.toList.length, phase := .openNull }
  | openNull (fd : ℕ) (table : Handles FdOwner) (hphase : s.phase = .openNull)
      (hopen : s.table.acquire fd .acceptor = some table) : Moves s (.openNull (some fd))
        { s.setIdle (some fd) with table := table, phase := .accept }
  | openNone (hphase : s.phase = .openNull) :
      Moves s (.openNull none) { s.setIdle none with phase := .accept }
  | destroy (hphase : s.phase = .accept) (hpc : s.loop.pc ≠ .accepting) : Moves s .destroy
      { (s.close s.sockFd_).close s.loop.acceptor.idleFd_ with phase := .destroyed }

section Cases

variable {s t : AcceptorFds}

theorem take_eq_some {fd : ℕ} (h : s.take fd = some t) : s.backlog ≠ 0
    ∧ ∃ table, s.table.acquire fd .acceptor = some table
      ∧ t = { s with table := table, backlog := s.backlog - 1 } := by
  unfold take at h
  split at h
  · cases h
  · rename_i hbacklog
    obtain ⟨table, hopen, rfl⟩ := Option.map_eq_some_iff.mp h
    exact ⟨hbacklog, table, hopen, rfl⟩

/-- A call of `accept4` that ends `onRead` leaves the descriptors alone. -/
theorem leave_fds {loop l : AcceptorLoop} {err : Errno} (hmfile : err ≠ .EMFILE)
    (hnfile : err ≠ .ENFILE) (h : loop.step (.accept (.error err) none none) = some l) :
    (l.acceptor.idleFd_ = loop.acceptor.idleFd_ ∧ l.handed = loop.handed)
      ∧ l.pc ≠ .accepting := by
  change loop.accept (.error err) none none = some l at h
  unfold AcceptorLoop.accept at h
  split at h
  · split at h
    · obtain rfl := Option.some.inj h
      exact ⟨⟨rfl, rfl⟩, AcceptorPc.noConfusion⟩
    · rename_i heq
      cases heq
      exact absurd rfl hmfile
    · rename_i heq
      cases heq
      exact absurd rfl hnfile
    · obtain rfl := Option.some.inj h
      exact ⟨⟨rfl, rfl⟩, AcceptorPc.noConfusion⟩
    · rename_i heq
      cases heq
  · cases h

theorem accept_moves {answer : Except Errno ℕ} (h : s.accept answer = some t) :
    Moves s (.accept answer) t := by
  unfold accept at h
  split at h
  · rename_i fd hphase
    split at h
    · rename_i hpc
      obtain ⟨u, hu, rfl⟩ := Option.map_eq_some_iff.mp h
      obtain ⟨hbacklog, table, hopen, rfl⟩ := take_eq_some hu
      exact .accepted fd table hphase hpc hbacklog hopen
    · cases h
  · rename_i hphase
    split at h
    · rename_i hpc
      obtain rfl := Option.some.inj h
      exact .full _ hphase hpc (Or.inl rfl)
    · cases h
  · rename_i hphase
    split at h
    · rename_i hpc
      obtain rfl := Option.some.inj h
      exact .full _ hphase hpc (Or.inr rfl)
    · cases h
  · rename_i err hmfile hnfile hphase
    obtain ⟨l, hl, rfl⟩ := Option.map_eq_some_iff.mp h
    have hne : err ≠ .EMFILE := by
      rintro rfl
      exact hmfile rfl
    have hne' : err ≠ .ENFILE := by
      rintro rfl
      exact hnfile rfl
    obtain ⟨hfds, hleft⟩ := leave_fds hne hne' hl
    exact .leave err l hphase hl hfds hne hleft
  · rename_i fd hphase
    obtain ⟨u, hu, rfl⟩ := Option.map_eq_some_iff.mp h
    obtain ⟨hbacklog, table, hopen, rfl⟩ := take_eq_some hu
    exact .acceptIdle fd table hphase hbacklog hopen
  · rename_i err hphase
    obtain rfl := Option.some.inj h
    exact .acceptNone err hphase
  · cases h

theorem callback_moves (h : s.callback = some t) : Moves s .callback t := by
  unfold callback at h
  split at h
  · rename_i fd hphase
    split at h
    · rename_i hcallback
      obtain rfl := Option.some.inj h
      exact .handOn fd hphase hcallback
    · rename_i hcallback
      obtain rfl := Option.some.inj h
      exact .drop fd hphase (Bool.eq_false_iff.mpr hcallback)
  · cases h

theorem closeIdle_moves (h : s.closeIdle = some t) : Moves s .close t := by
  unfold closeIdle at h
  dsimp only at h
  split at h
  · rename_i hphase
    obtain rfl := Option.some.inj h
    exact .closeIdle hphase
  · rename_i hphase
    obtain rfl := Option.some.inj h
    exact .closeDropped hphase
  · cases h

theorem openNull_moves {answer : Option ℕ} (h : s.openNull answer = some t) :
    Moves s (.openNull answer) t := by
  unfold openNull at h
  split at h
  · rename_i hphase
    obtain rfl := Option.some.inj h
    exact .openNone hphase
  · rename_i fd hphase
    obtain ⟨table, hopen, rfl⟩ := Option.map_eq_some_iff.mp h
    exact .openNull fd table hphase hopen
  · cases h

theorem loopStep_moves {e : AcceptorEvent} (h : s.loopStep e = some t) : Moves s (.loop e) t := by
  unfold loopStep at h
  split at h
  · cases h
  · rename_i hturn
    split at h
    · cases h
    · rename_i hphase
      obtain ⟨l, hl, rfl⟩ := Option.map_eq_some_iff.mp h
      refine .loop e l ?_ hphase hl
      cases e with
      | accept sockFd idle null => exact hturn sockFd idle null rfl
      | _ => trivial

/-- **What a step can do.** -/
theorem step_moves {e : FdEvent} (h : s.step e = some t) : Moves s e t := by
  cases e with
  | loop e => exact loopStep_moves h
  | arrive =>
      obtain rfl := Option.some.inj h
      exact .arrive
  | openOther fd =>
      obtain ⟨table, hopen, rfl⟩ := Option.map_eq_some_iff.mp h
      exact .openOther fd table hopen
  | closeOther fd =>
      simp only [step] at h
      split at h
      · rename_i howner
        obtain rfl := Option.some.inj h
        exact .closeOther fd howner
      · cases h
  | accept answer => exact accept_moves h
  | callback => exact callback_moves h
  | close => exact closeIdle_moves h
  | openNull answer => exact openNull_moves h
  | destroy =>
      simp only [step, destroy] at h
      split at h
      · rename_i hout
        obtain rfl := Option.some.inj h
        exact .destroy hout.1 hout.2
      · cases h

end Cases

/-! ## The loop under a turn -/

/-- The loop in the middle of a turn: `idleFd_` is `idle`, and `fds` have been closed. -/
def turned (c : AcceptorLoop) (idle : Option ℕ) (fds : List ℕ) : AcceptorLoop :=
  { c with acceptor := { c.acceptor with idleFd_ := idle }, closed := c.closed ++ fds }

section Loop

variable {c l : AcceptorLoop} {e : AcceptorEvent}

/-- What is no turn leaves the descriptors alone, and does not end `onRead`. -/
theorem outside_frame (hout : Outside e) (h : c.step e = some l) :
    l.acceptor.idleFd_ = c.acceptor.idleFd_ ∧ l.handed = c.handed
      ∧ (c.pc = .accepting → l.pc = .accepting) := by
  cases e with
  | listen =>
      obtain rfl := Option.some.inj h
      refine ⟨?_, rfl, id⟩
      simp only [AcceptorLoop.call, Acceptor.listen]
      split
      · rfl
      · rfl
  | close =>
      obtain rfl := Option.some.inj h
      refine ⟨?_, rfl, id⟩
      simp only [AcceptorLoop.call, Acceptor.close]
      split
      · rfl
      · rfl
  | setAcceptCallback =>
      obtain rfl := Option.some.inj h
      exact ⟨rfl, rfl, id⟩
  | poll events =>
      simp only [AcceptorLoop.step, AcceptorLoop.poll] at h
      split at h
      · rename_i hpoll
        obtain rfl := Option.some.inj h
        exact ⟨rfl, rfl, fun hpc => by rw [hpoll.1] at hpc; cases hpc⟩
      · cases h
  | handle =>
      simp only [AcceptorLoop.step, AcceptorLoop.handle] at h
      split at h
      · rename_i hdispatch
        have hnot : c.pc = .accepting → l.pc = .accepting := fun hpc => by
          rw [hdispatch] at hpc
          cases hpc
        split at h
        · obtain rfl := Option.some.inj h
          exact ⟨rfl, rfl, hnot⟩
        · split at h
          · obtain rfl := Option.some.inj h
            exact ⟨rfl, rfl, hnot⟩
          · obtain rfl := Option.some.inj h
            exact ⟨rfl, rfl, hnot⟩
      · cases h
  | accept sockFd idle null => exact absurd hout id
  | functor =>
      simp only [AcceptorLoop.step, AcceptorLoop.functor] at h
      split at h
      · rename_i hfunctors
        have hnot : c.pc = .accepting → l.pc = .accepting := fun hpc => by
          rw [hfunctors] at hpc
          cases hpc
        split at h
        · obtain rfl := Option.some.inj h
          exact ⟨rfl, rfl, hnot⟩
        · obtain rfl := Option.some.inj h
          refine ⟨?_, rfl, hnot⟩
          simp only [Acceptor.listenInLoop]
          split
          · rfl
          · rfl
        · obtain rfl := Option.some.inj h
          refine ⟨?_, rfl, hnot⟩
          simp only [Acceptor.closeInLoop]
          split
          · rfl
          · rfl
      · cases h

/-- What is no turn neither reads nor writes what a turn is about: it could as well come
before the turn. Inside `onRead` only calls from elsewhere are possible. -/
theorem step_turned {idle : Option ℕ} {fds : List ℕ} (hout : Outside e) (hpc : c.pc = .accepting)
    (h : (turned c idle fds).step e = some l) :
    ∃ d, c.step e = some d ∧ l = turned d idle fds := by
  have hpc' : (turned c idle fds).pc = .accepting := hpc
  cases e with
  | listen =>
      obtain rfl := Option.some.inj h
      refine ⟨_, rfl, ?_⟩
      by_cases haccept : c.acceptor.accept_ = true
      · simp [turned, AcceptorLoop.call, Acceptor.listen, haccept]
      · simp [turned, AcceptorLoop.call, Acceptor.listen, haccept]
  | close =>
      obtain rfl := Option.some.inj h
      refine ⟨_, rfl, ?_⟩
      by_cases haccept : c.acceptor.accept_ = true
      · simp [turned, AcceptorLoop.call, Acceptor.close, haccept]
      · simp [turned, AcceptorLoop.call, Acceptor.close, haccept]
  | setAcceptCallback =>
      obtain rfl := Option.some.inj h
      exact ⟨_, rfl, rfl⟩
  | poll events =>
      simp only [AcceptorLoop.step, AcceptorLoop.poll, hpc', reduceCtorEq, false_and,
        if_false] at h
  | handle => simp only [AcceptorLoop.step, AcceptorLoop.handle, hpc', reduceCtorEq, if_false] at h
  | accept sockFd idle null => exact absurd hout id
  | functor =>
      simp only [AcceptorLoop.step, AcceptorLoop.functor, hpc', reduceCtorEq, if_false] at h

end Loop

/-! ## Whose the descriptors are -/

/-- What the acceptor has open: the listening socket, the spare descriptor except while it
is closed, and the connection it has in hand. -/
def mine (s : AcceptorFds) : List ℕ :=
  match s.phase with
  | .accept | .closeIdle | .closeDropped => s.sockFd_.toList ++ s.loop.acceptor.idleFd_.toList
  | .accepted sockFd => s.sockFd_.toList ++ s.loop.acceptor.idleFd_.toList ++ [sockFd]
  | .acceptIdle | .openNull => s.sockFd_.toList
  | .destroyed => []

/-- The connections in hand. -/
def inHand (s : AcceptorFds) : ℕ :=
  match s.phase with
  | .accepted _ => 1
  | .closeDropped => s.loop.acceptor.idleFd_.toList.length
  | _ => 0

/-- The acceptor owns what it has open and has closed nothing else, and the connections
are all accounted for. -/
structure Owned (s : AcceptorFds) : Prop where
  holds : s.table.Holds .acceptor s.mine
  closings : ∀ c ∈ s.closings, c.2 = some FdOwner.acceptor
  turn : s.phase = .accept ∨ s.phase = .destroyed ∨ s.loop.pc = .accepting
  connections : s.arrived = s.backlog + s.loop.handed.length + s.dropped + s.inHand

section Step

variable {s t : AcceptorFds} {e : FdEvent}

/-- To close one's own descriptor, or `-1`. -/
theorem close_holds {fd : Option ℕ} {l : List ℕ}
    (h : s.table.Holds .acceptor (l ++ fd.toList))
    (hclosings : ∀ c ∈ s.closings, c.2 = some FdOwner.acceptor) :
    (s.close fd).table.Holds .acceptor l
      ∧ ∀ c ∈ (s.close fd).closings, c.2 = some FdOwner.acceptor := by
  cases fd with
  | none => exact ⟨by rwa [Option.toList_none, List.append_nil] at h, hclosings⟩
  | some fd =>
      refine ⟨h.release, fun c hc => ?_⟩
      rcases List.mem_append.mp hc with hc | hc
      · exact hclosings c hc
      · rw [List.mem_singleton.mp hc]
        exact (h.owner_iff fd).mpr (List.mem_append_right l List.mem_cons_self)

@[simp] theorem close_fields (s : AcceptorFds) (fd : Option ℕ) :
    (s.close fd).loop = s.loop ∧ (s.close fd).sockFd_ = s.sockFd_
      ∧ (s.close fd).backlog = s.backlog ∧ (s.close fd).arrived = s.arrived
      ∧ (s.close fd).dropped = s.dropped := by
  cases fd with
  | none => exact ⟨rfl, rfl, rfl, rfl, rfl⟩
  | some fd => exact ⟨rfl, rfl, rfl, rfl, rfl⟩

/-- A step that leaves the acceptor's part alone. -/
theorem Owned.congr (h : Owned s) (hphase : t.phase = s.phase) (hsock : t.sockFd_ = s.sockFd_)
    (hidle : t.loop.acceptor.idleFd_ = s.loop.acceptor.idleFd_)
    (hholds : ∀ l, s.table.Holds .acceptor l → t.table.Holds .acceptor l)
    (hclosings : t.closings = s.closings)
    (hpc : s.loop.pc = .accepting → s.phase = .accept ∨ t.loop.pc = .accepting)
    (hconnections : t.arrived + (s.backlog + s.loop.handed.length + s.dropped)
      = s.arrived + (t.backlog + t.loop.handed.length + t.dropped)) : Owned t := by
  have hmine : t.mine = s.mine := by
    unfold mine
    rw [hphase, hsock, hidle]
  have hhand : t.inHand = s.inHand := by
    unfold inHand
    rw [hphase, hidle]
  refine ⟨?_, by rw [hclosings]; exact h.closings, ?_, ?_⟩
  · rw [hmine]
    exact hholds _ h.holds
  · rw [hphase]
    rcases h.turn with hturn | hturn | hturn
    · exact Or.inl hturn
    · exact Or.inr (Or.inl hturn)
    · rcases hpc hturn with haccept | haccepting
      · exact Or.inl haccept
      · exact Or.inr (Or.inr haccepting)
  · have := h.connections
    rw [hhand]
    omega

/-- In the middle of a turn the loop is in `onRead`. -/
theorem Owned.accepting (h : Owned s) (haccept : s.phase ≠ .accept)
    (hdestroyed : s.phase ≠ .destroyed) : s.loop.pc = .accepting := by
  rcases h.turn with hturn | hturn | hturn
  · exact absurd hturn haccept
  · exact absurd hturn hdestroyed
  · exact hturn

theorem owned_moves (h : Owned s) (hmoves : Moves s e t) : Owned t := by
  have hconnections := h.connections
  have hholds := h.holds
  cases hmoves with
  | loop e l hout hphase hstep =>
      obtain ⟨hidle, hhanded, hpc⟩ := outside_frame hout hstep
      refine h.congr rfl rfl hidle (fun _ => id) rfl (fun haccepting => Or.inr (hpc haccepting)) ?_
      simp only [hhanded]
  | arrive =>
      refine h.congr rfl rfl rfl (fun _ => id) rfl (fun hpc => Or.inr hpc) ?_
      dsimp only
      omega
  | openOther fd table hopen =>
      exact h.congr rfl rfl rfl (fun l hl => hl.acquire_ne hopen (by decide)) rfl
        (fun hpc => Or.inr hpc) rfl
  | closeOther fd howner =>
      exact h.congr rfl rfl rfl (fun l hl => hl.release_ne howner (by decide)) rfl
        (fun hpc => Or.inr hpc) rfl
  | accepted fd table hphase hpc hbacklog hopen =>
      simp only [mine, inHand, hphase] at hholds hconnections
      refine ⟨hholds.acquire hopen, h.closings, Or.inr (Or.inr hpc), ?_⟩
      simp only [inHand]
      omega
  | full err hphase hpc herr =>
      simp only [mine, inHand, hphase] at hholds hconnections
      exact ⟨hholds, h.closings, Or.inr (Or.inr hpc), hconnections⟩
  | leave err l hphase hstep hfds =>
      refine h.congr rfl rfl hfds.1 (fun _ => id) rfl (fun _ => Or.inl hphase) ?_
      simp only [hfds.2]
  | acceptIdle fd table hphase hbacklog hopen =>
      have hpc := h.accepting (by rw [hphase]; decide) (by rw [hphase]; decide)
      simp only [mine, inHand, hphase] at hholds hconnections
      refine ⟨hholds.acquire hopen, h.closings, Or.inr (Or.inr hpc), ?_⟩
      simp only [inHand, setIdle, Option.toList_some, List.length_cons, List.length_nil]
      omega
  | acceptNone err hphase =>
      have hpc := h.accepting (by rw [hphase]; decide) (by rw [hphase]; decide)
      simp only [mine, inHand, hphase] at hholds hconnections
      refine ⟨?_, h.closings, Or.inr (Or.inr hpc), hconnections⟩
      simpa only [mine, setIdle, Option.toList_none, List.append_nil] using hholds
  | handOn fd hphase hcallback =>
      simp only [mine, inHand, hphase] at hholds hconnections
      refine ⟨hholds.give (by decide), h.closings, Or.inl rfl, ?_⟩
      simp only [inHand, List.length_append, List.length_cons, List.length_nil]
      omega
  | drop fd hphase hcallback =>
      simp only [mine, inHand, hphase] at hholds hconnections
      have hlast : s.table.Holds .acceptor (_ ++ (some fd).toList) := hholds
      obtain ⟨htable, hclosings⟩ := close_holds hlast h.closings
      refine ⟨htable, hclosings, Or.inl rfl, ?_⟩
      simp only [inHand, addClosed, close]
      omega
  | closeIdle hphase =>
      have hpc := h.accepting (by rw [hphase]; decide) (by rw [hphase]; decide)
      obtain ⟨hloop, hsock, hbacklog, harrived, hdropped⟩ :=
        close_fields s s.loop.acceptor.idleFd_
      simp only [mine, inHand, hphase] at hholds hconnections
      obtain ⟨htable, hclosings⟩ := close_holds hholds h.closings
      refine ⟨?_, hclosings, Or.inr (Or.inr ?_), ?_⟩
      · simpa only [mine, addClosed, hsock] using htable
      · simpa only [addClosed, hloop] using hpc
      · simpa only [inHand, addClosed, hloop, hbacklog, harrived, hdropped] using hconnections
  | closeDropped hphase =>
      have hpc := h.accepting (by rw [hphase]; decide) (by rw [hphase]; decide)
      obtain ⟨hloop, hsock, hbacklog, harrived, hdropped⟩ :=
        close_fields s s.loop.acceptor.idleFd_
      simp only [mine, inHand, hphase] at hholds hconnections
      obtain ⟨htable, hclosings⟩ := close_holds hholds h.closings
      refine ⟨?_, hclosings, Or.inr (Or.inr ?_), ?_⟩
      · simpa only [mine, addClosed, hsock] using htable
      · simpa only [addClosed, hloop] using hpc
      · simp only [inHand, addClosed, hloop, hbacklog, harrived]
        omega
  | openNull fd table hphase hopen =>
      simp only [mine, inHand, hphase] at hholds hconnections
      exact ⟨hholds.acquire hopen, h.closings, Or.inl rfl, hconnections⟩
  | openNone hphase =>
      simp only [mine, inHand, hphase] at hholds hconnections
      refine ⟨?_, h.closings, Or.inl rfl, hconnections⟩
      simpa only [mine, setIdle, Option.toList_none, List.append_nil] using hholds
  | destroy hphase hpc =>
      -- the socket goes first
      obtain ⟨hloop, hsock, hbacklog, harrived, hdropped⟩ := close_fields s s.sockFd_
      obtain ⟨hloop', -, hbacklog', harrived', hdropped'⟩ :=
        close_fields (s.close s.sockFd_) s.loop.acceptor.idleFd_
      simp only [mine, inHand, hphase] at hholds hconnections
      obtain ⟨htable, hclosings⟩ := close_holds (hholds.perm List.perm_append_comm) h.closings
      rw [← List.nil_append s.loop.acceptor.idleFd_.toList] at htable
      obtain ⟨htable', hclosings'⟩ := close_holds htable hclosings
      refine ⟨htable', hclosings', Or.inr (Or.inl rfl), ?_⟩
      simpa only [inHand, hloop, hloop', hbacklog, hbacklog', harrived, harrived', hdropped,
        hdropped'] using hconnections

theorem own_holds {table u : Handles FdOwner} {fd : Option ℕ} {l : List ℕ}
    (h : table.Holds .acceptor l) (hown : own table fd = some u) :
    u.Holds .acceptor (l ++ fd.toList) := by
  cases fd with
  | none =>
      obtain rfl := Option.some.inj hown
      rw [Option.toList_none, List.append_nil]
      exact h
  | some fd => exact h.acquire hown

/-- Nothing is the acceptor's in the table that the constructor finds. -/
theorem holds_nil {table : Handles FdOwner} (h : ∀ fd, table.owner fd ≠ some .acceptor) :
    table.Holds .acceptor [] :=
  ⟨List.nodup_nil, fun fd => iff_of_false (h fd) List.not_mem_nil⟩

theorem owned_init {table : Handles FdOwner} {sockFd idleFd : Option ℕ}
    (htable : table.Holds .acceptor []) (h : init table sockFd idleFd = some s) : Owned s := by
  obtain ⟨u, hu, h⟩ := Option.bind_eq_some_iff.mp h
  obtain ⟨v, hv, rfl⟩ := Option.map_eq_some_iff.mp h
  have hsock := own_holds htable hu
  rw [List.nil_append] at hsock
  exact ⟨own_holds hsock hv, fun c hc => (List.not_mem_nil hc).elim, Or.inl rfl, rfl⟩

end Step

/-- **Whose the descriptors are.** In every run of the acceptor on its loop, with any
answers of the kernel and with the other threads opening and closing descriptors at any
time, also in the middle of a turn: the acceptor closes only descriptors that are its own
at that time, so none twice and none it has handed on. The descriptors it owns are those
it has a use for, none at all behind the destructor. And every connection that has come
is still waiting, has been handed on, has been closed or is in hand. -/
theorem descriptors_owned {table : Handles FdOwner} {sockFd idleFd : Option ℕ}
    {s t : AcceptorFds} {es : List FdEvent} (htable : ∀ fd, table.owner fd ≠ some .acceptor)
    (hinit : init table sockFd idleFd = some s) (hrun : run step s es = some t) :
    (∀ c ∈ t.closings, c.2 = some .acceptor)
      ∧ t.mine.Nodup ∧ (∀ fd, t.table.owner fd = some .acceptor ↔ fd ∈ t.mine)
      ∧ t.arrived = t.backlog + t.loop.handed.length + t.dropped + t.inHand := by
  have h := run_inv (I := Owned) (fun _ _ _ h hs => owned_moves h (step_moves hs))
    (owned_init (holds_nil htable) hinit) hrun
  exact ⟨h.closings, h.holds.nodup, h.holds.owner_iff, h.connections⟩

/-- An acceptor that listens, and one connection that brings it into `onRead`. -/
def oneArrives : List FdEvent :=
  [.loop .setAcceptCallback, .loop .listen, .loop (.poll Events.none), .loop .handle,
    .loop .functor, .loop .functor, .arrive, .loop (.poll ⟨false, false, true, false⟩),
    .loop .handle]

/-- The table is full, and while the spare descriptor is closed another thread takes its
number. Later that thread makes room. -/
def spareLost : List FdEvent :=
  oneArrives ++ [.openOther 5, .openOther 6, .accept (.error .EMFILE), .close, .openOther 4,
    .accept (.error .EMFILE), .close, .openNull none, .closeOther 5, .accept (.ok 5), .callback,
    .accept (.error .EAGAIN), .destroy]

theorem notOwner_empty (limit fd : ℕ) :
    (Handles.empty limit : Handles FdOwner).owner fd ≠ some .acceptor := by
  rw [Handles.owner_empty]
  nofun

theorem descriptors_owned_spareLost : ∃ r t, init (Handles.empty 4) (some 3) (some 4) = some r
    ∧ run step r spareLost = some t ∧ t.closings.map Prod.fst = [4, 3]
    ∧ ∀ c ∈ t.closings, c.2 = some .acceptor := by
  obtain ⟨r, hr⟩ := Option.isSome_iff_exists.mp
    (show (init (Handles.empty 4) (some 3) (some 4)).isSome = true by decide +kernel)
  have heval : ((init (Handles.empty 4) (some 3) (some 4)).bind fun r =>
      (run step r spareLost).map fun t => t.closings.map Prod.fst) = some [4, 3] := by
    decide +kernel
  rw [hr, Option.bind_some] at heval
  obtain ⟨t, ht, hclosings⟩ := Option.map_eq_some_iff.mp heval
  exact ⟨r, t, hr, ht, hclosings, (descriptors_owned (notOwner_empty 4) hr ht).1⟩

/-! ## The machine with whole turns -/

/-- `c` is the loop as it was when the turn began, but for what came from elsewhere. -/
def Began (s : AcceptorFds) (c : AcceptorLoop) : Prop :=
  match s.phase with
  | .accept | .accepted _ | .closeIdle | .destroyed => s.loop = c
  | .acceptIdle => s.loop = turned c c.acceptor.idleFd_ c.acceptor.idleFd_.toList
  | .closeDropped =>
      s.loop = turned c s.loop.acceptor.idleFd_ c.acceptor.idleFd_.toList
  | .openNull => s.loop = turned c s.loop.acceptor.idleFd_
      (c.acceptor.idleFd_.toList ++ s.loop.acceptor.idleFd_.toList)

section Turns

variable {s t : AcceptorFds} {e : FdEvent} {c : AcceptorLoop}

/-- What comes from elsewhere in the middle of a turn could as well come before it. -/
theorem reach_turned {l : AcceptorLoop} {e : AcceptorEvent} {idle : Option ℕ} {fds : List ℕ}
    (h : s.loop = turned c idle fds) (hout : Outside e) (hpc : s.loop.pc = .accepting)
    (hstep : s.loop.step e = some l) :
    ∃ d, Reach AcceptorLoop.step c d ∧ d.acceptor.idleFd_ = c.acceptor.idleFd_
      ∧ l = turned d idle fds := by
  rw [h] at hstep hpc
  have hpc' : c.pc = .accepting := hpc
  obtain ⟨d, hd, hl⟩ := step_turned hout hpc' hstep
  exact ⟨d, reach_step _ hd, (outside_frame hout hd).1, hl⟩

/-- A whole turn that finds the descriptors used up. -/
theorem reach_full (hpc : c.pc = .accepting) (idle null : Option ℕ) :
    Reach AcceptorLoop.step c
      (turned c null (c.acceptor.idleFd_.toList ++ idle.toList)) := by
  refine reach_step _ (e := .accept (.error .EMFILE) idle null) ?_
  simp only [AcceptorLoop.step, AcceptorLoop.accept, hpc, if_true, turned, List.append_assoc]

/-- A turn takes place at its last call. Before it, the machine with whole turns takes a
step only where something comes from elsewhere. -/
theorem began_moves (howned : Owned s) (h : Began s c) (hmoves : Moves s e t) :
    ∃ d, Reach AcceptorLoop.step c d ∧ Began t d := by
  have hstay : Reach AcceptorLoop.step c c := ⟨[], rfl⟩
  cases hmoves with
  | loop e l hout hphase hstep =>
      cases hp : s.phase with
      | accept | accepted _ | closeIdle =>
          simp only [Began, hp] at h ⊢
          subst h
          exact ⟨l, reach_step _ hstep, rfl⟩
      | acceptIdle =>
          have hpc := howned.accepting (by rw [hp]; decide) hphase
          simp only [Began, hp] at h ⊢
          obtain ⟨d, hd, hidle, rfl⟩ := reach_turned h hout hpc hstep
          exact ⟨d, hd, by rw [hidle]⟩
      | closeDropped =>
          have hpc := howned.accepting (by rw [hp]; decide) hphase
          simp only [Began, hp] at h ⊢
          obtain ⟨d, hd, hidle, rfl⟩ := reach_turned h hout hpc hstep
          exact ⟨d, hd, by rw [hidle]; rfl⟩
      | openNull =>
          have hpc := howned.accepting (by rw [hp]; decide) hphase
          simp only [Began, hp] at h ⊢
          obtain ⟨d, hd, hidle, rfl⟩ := reach_turned h hout hpc hstep
          exact ⟨d, hd, by rw [hidle]; rfl⟩
      | destroyed => exact absurd hp hphase
  | arrive => exact ⟨c, hstay, h⟩
  | openOther fd table hopen => exact ⟨c, hstay, h⟩
  | closeOther fd howner => exact ⟨c, hstay, h⟩
  | accepted fd table hphase hpc hbacklog hopen =>
      simp only [Began, hphase] at h
      exact ⟨c, hstay, h⟩
  | full err hphase hpc herr =>
      simp only [Began, hphase] at h
      exact ⟨c, hstay, h⟩
  | leave err l hphase hstep hfds =>
      simp only [Began, hphase] at h ⊢
      subst h
      exact ⟨l, reach_step _ hstep, rfl⟩
  | acceptIdle fd table hphase hbacklog hopen =>
      simp only [Began, hphase] at h
      refine ⟨c, hstay, ?_⟩
      simp only [Began, setIdle, h, turned]
  | acceptNone err hphase =>
      simp only [Began, hphase] at h
      refine ⟨c, hstay, ?_⟩
      simp only [Began, setIdle, h, turned]
  | handOn fd hphase hcallback =>
      have hpc := howned.accepting (by rw [hphase]; nofun) (by rw [hphase]; nofun)
      simp only [Began, hphase] at h
      subst h
      refine ⟨_, reach_step _ (e := .accept (.ok fd) none none) ?_, rfl⟩
      simp only [AcceptorLoop.step, AcceptorLoop.accept, hpc, hcallback, if_true]
  | drop fd hphase hcallback =>
      have hpc := howned.accepting (by rw [hphase]; nofun) (by rw [hphase]; nofun)
      simp only [Began, hphase] at h
      subst h
      refine ⟨_, reach_step _ (e := .accept (.ok fd) none none) ?_, rfl⟩
      simp only [AcceptorLoop.step, AcceptorLoop.accept, if_pos hpc, hcallback,
        Bool.false_eq_true, if_false]
      rfl
  | closeIdle hphase =>
      simp only [Began, hphase] at h
      subst h
      refine ⟨s.loop, hstay, ?_⟩
      simp only [Began, addClosed, (close_fields s _).1, turned]
  | closeDropped hphase =>
      simp only [Began, hphase] at h
      refine ⟨c, hstay, ?_⟩
      simp only [Began, addClosed, (close_fields s _).1]
      rw [h]
      simp only [turned, List.append_assoc]
  | openNull fd table hphase hopen =>
      have hpc := howned.accepting (by rw [hphase]; decide) (by rw [hphase]; decide)
      simp only [Began, hphase] at h
      have hpc' : c.pc = .accepting := by
        rw [h] at hpc
        exact hpc
      refine ⟨_, reach_full hpc' s.loop.acceptor.idleFd_ (some fd), ?_⟩
      simp only [Began, setIdle]
      rw [h]
      rfl
  | openNone hphase =>
      have hpc := howned.accepting (by rw [hphase]; decide) (by rw [hphase]; decide)
      simp only [Began, hphase] at h
      have hpc' : c.pc = .accepting := by
        rw [h] at hpc
        exact hpc
      refine ⟨_, reach_full hpc' s.loop.acceptor.idleFd_ none, ?_⟩
      simp only [Began, setIdle]
      rw [h]
      rfl
  | destroy hphase hpc =>
      simp only [Began, hphase] at h
      exact ⟨c, hstay, by simpa only [Began, (close_fields _ _).1] using h⟩

end Turns

/-- **The machine with whole turns.** In every run the loop is where a run of the machine of
`Acceptor.lean` gets it, except for what a turn that has begun has done so far. -/
theorem turns_refine {table : Handles FdOwner} {sockFd idleFd : Option ℕ} {s t : AcceptorFds}
    {es : List FdEvent} (htable : ∀ fd, table.owner fd ≠ some .acceptor)
    (hinit : init table sockFd idleFd = some s) (hrun : run step s es = some t) :
    ∃ c, Reach AcceptorLoop.step (AcceptorLoop.init idleFd) c ∧ Began t c := by
  have hbegan : Began s (AcceptorLoop.init idleFd) := by
    obtain ⟨u, -, h⟩ := Option.bind_eq_some_iff.mp hinit
    obtain ⟨v, -, rfl⟩ := Option.map_eq_some_iff.mp h
    rfl
  refine (run_inv (I := fun s => Owned s
    ∧ ∃ c, Reach AcceptorLoop.step (AcceptorLoop.init idleFd) c ∧ Began s c) ?_
    ⟨owned_init (holds_nil htable) hinit, _, ⟨[], rfl⟩, hbegan⟩ hrun).2
  rintro s e t ⟨howned, c, hc, hbegan⟩ hs
  obtain ⟨d, hd, hbegan'⟩ := began_moves howned hbegan (step_moves hs)
  exact ⟨owned_moves howned (step_moves hs), d, reach_trans _ hc hd, hbegan'⟩

/-- In the middle of a turn, with a number in `idleFd_` that is somebody else's. -/
theorem turns_refine_stale : ∃ r t c, init (Handles.empty 4) (some 3) (some 4) = some r
    ∧ run step r (spareLost.take 14) = some t ∧ t.phase = .acceptIdle
    ∧ Reach AcceptorLoop.step (AcceptorLoop.init (some 4)) c ∧ Began t c := by
  obtain ⟨r, hr⟩ := Option.isSome_iff_exists.mp
    (show (init (Handles.empty 4) (some 3) (some 4)).isSome = true by decide +kernel)
  have heval : ((init (Handles.empty 4) (some 3) (some 4)).bind fun r =>
      (run step r (spareLost.take 14)).map phase) = some .acceptIdle := by
    decide +kernel
  rw [hr, Option.bind_some] at heval
  obtain ⟨t, ht, hphase⟩ := Option.map_eq_some_iff.mp heval
  obtain ⟨c, hc, hbegan⟩ := turns_refine (notOwner_empty 4) hr ht
  exact ⟨r, t, c, hr, ht, hphase, hc, hbegan⟩

/-! ## Whether `onRead` gets back -/

/-- The event is a system call of `onRead`. -/
def isCall : FdEvent → Bool
  | .accept _ | .callback | .close | .openNull _ => true
  | _ => false

/-- The event is a new connection. -/
def isArrival : FdEvent → Bool
  | .arrive => true
  | _ => false

/-- The loop is in `onRead`. -/
def Inside (s : AcceptorFds) (_ : FdEvent) : Prop := s.loop.pc = .accepting

instance (s : AcceptorFds) (e : FdEvent) : Decidable (s.Inside e) :=
  inferInstanceAs (Decidable (s.loop.pc = .accepting))

/-- No other thread opens a descriptor, and `accept4` finds the descriptors used up only
where the table of the process is full. -/
def Roomy (s : AcceptorFds) : FdEvent → Prop
  | .openOther _ => False
  | .accept (.error .EMFILE) => s.table.room = 0
  | .accept (.error .ENFILE) => False
  | _ => True

/-- No other thread opens or closes a descriptor. In a full table `accept4` fails before it
looks at the queue of connections, and where the table has room `/dev/null` can be
opened. -/
def TableFirst (s : AcceptorFds) : FdEvent → Prop
  | .openOther _ | .closeOther _ => False
  | .accept (.error .EMFILE) => True
  | .accept _ => s.phase = .accept → s.table.room ≠ 0
  | .openNull none => s.table.room = 0
  | _ => True

instance (s : AcceptorFds) (e : FdEvent) : Decidable (s.Roomy e) := by
  unfold Roomy
  split <;> infer_instance

instance (s : AcceptorFds) (e : FdEvent) : Decidable (s.TableFirst e) := by
  unfold TableFirst
  split <;> infer_instance

section Return

variable {s t : AcceptorFds} {e : FdEvent}

/-- To close the descriptor in `fd`, which is the acceptor's, makes room. -/
theorem close_room {fd : Option ℕ} {l : List ℕ} (h : s.table.Holds .acceptor (l ++ fd.toList)) :
    (s.close fd).table.room = s.table.room + fd.toList.length := by
  cases fd with
  | none => rfl
  | some fd =>
      exact Handles.room_release ((h.owner_iff fd).mpr (List.mem_append_right l List.mem_cons_self))

/-- The connection in hand that has yet to be dealt with. -/
def hand (s : AcceptorFds) : ℕ :=
  match s.phase with
  | .accepted _ => 1
  | _ => 0

/-- `onRead` is at the head of a turn, or has a connection in hand. -/
structure Taking (s : AcceptorFds) : Prop where
  pc : s.loop.pc = .accepting
  phase : s.phase = .accept ∨ ∃ fd, s.phase = .accepted fd

/-- Where there is room, a call of `onRead` that does not leave it takes a connection out of
the queue, or is the second of the two that deal with one; and the room goes with the
queue. -/
theorem taking_step (howned : Owned s) (h : Taking s) (hroomy : s.Roomy e)
    (hroom : s.table.room ≠ 0) (hstep : step s e = some t) (hinside : t.loop.pc = .accepting) :
    Taking t ∧ (isCall e).toNat + 2 * t.backlog + t.hand
        ≤ 2 * (s.backlog + (isArrival e).toNat) + s.hand
      ∧ t.backlog + s.table.room ≤ s.backlog + (isArrival e).toNat + t.table.room := by
  have hholds := howned.holds
  have hno : s.phase ≠ .closeIdle ∧ s.phase ≠ .acceptIdle ∧ s.phase ≠ .closeDropped
      ∧ s.phase ≠ .openNull := by
    rcases h.phase with hphase | ⟨fd, hphase⟩ <;> simp [hphase]
  cases step_moves hstep with
  | loop e l hout hphase hstep =>
      have hframe : hand { s with loop := l } = s.hand := rfl
      refine ⟨⟨hinside, h.phase⟩, ?_, ?_⟩
      · simp only [isCall, isArrival, hframe, Bool.toNat_false]
        omega
      · simp only [isArrival, Bool.toNat_false]
        omega
  | arrive =>
      refine ⟨⟨hinside, h.phase⟩, ?_, ?_⟩
      · simp only [isCall, isArrival, hand, Bool.toNat_false, Bool.toNat_true]
        omega
      · simp only [isArrival, Bool.toNat_true]
        omega
  | openOther fd table hopen => exact absurd hroomy id
  | closeOther fd howner =>
      have hmore := Handles.room_release howner
      refine ⟨⟨hinside, h.phase⟩, ?_, ?_⟩
      · simp only [isCall, isArrival, hand, Bool.toNat_false]
        omega
      · simp only [isArrival, Bool.toNat_false]
        omega
  | accepted fd table hphase hpc hbacklog hopen =>
      -- one less waits, one is in hand, and the table has one descriptor less to give
      obtain ⟨-, hless, -⟩ := Handles.acquire_spec hopen
      refine ⟨⟨hinside, Or.inr ⟨fd, rfl⟩⟩, ?_, ?_⟩
      · simp only [isCall, isArrival, hand, hphase, Bool.toNat_false, Bool.toNat_true]
        omega
      · simp only [isArrival, Bool.toNat_false]
        omega
  | full err hphase hpc herr =>
      -- there is room, so it is not for want of descriptors that `accept4` fails
      rcases herr with rfl | rfl
      · exact absurd hroomy hroom
      · exact absurd hroomy id
  | leave err l hphase hstep hfds herr hleft => exact absurd hinside hleft
  | acceptIdle fd table hphase hbacklog hopen => exact absurd hphase hno.2.1
  | acceptNone err hphase => exact absurd hphase hno.2.1
  | handOn fd hphase hcallback =>
      -- the second of the two calls; whoever gets the connection keeps the descriptor
      refine ⟨⟨hinside, Or.inl rfl⟩, ?_, ?_⟩
      · simp only [isCall, isArrival, hand, hphase, Bool.toNat_false, Bool.toNat_true]
        omega
      · simp only [isArrival, Bool.toNat_false, Handles.room_give]
        omega
  | drop fd hphase hcallback =>
      simp only [mine, hphase] at hholds
      have hlast : s.table.Holds .acceptor (_ ++ (some fd).toList) := hholds
      have hmore := close_room hlast
      obtain ⟨hloop, -, hbacklog, -⟩ := close_fields s (some fd)
      refine ⟨⟨hinside, Or.inl rfl⟩, ?_, ?_⟩
      · simp only [isCall, isArrival, hand, hphase, addClosed, hbacklog, Bool.toNat_false,
          Bool.toNat_true]
        omega
      · simp only [isArrival, addClosed, hbacklog, hmore, Bool.toNat_false]
        omega
  | closeIdle hphase => exact absurd hphase hno.1
  | closeDropped hphase => exact absurd hphase hno.2.2.1
  | openNull fd table hphase hopen => exact absurd hphase hno.2.2.2
  | openNone hphase => exact absurd hphase hno.2.2.2
  | destroy hphase hpc => exact absurd h.pc hpc

/-- **Where there is room**, by induction on the events. -/
theorem calls_le {es : List FdEvent} (howned : Owned s) (h : Taking s)
    (hinside : Along step Inside s es) (hroomy : Along step Roomy s es)
    (hrun : run step s es = some t) (hroom : s.backlog + es.countP isArrival < s.table.room) :
    es.countP isCall ≤ 2 * (s.backlog + es.countP isArrival) + s.hand + 1 := by
  induction es generalizing s with
  | nil => exact Nat.zero_le _
  | cons e es ih =>
      obtain ⟨u, hu, hrun'⟩ := (run_cons step).mp hrun
      have hcall : (e :: es).countP isCall = es.countP isCall + (isCall e).toNat := by
        rw [List.countP_cons]
        cases isCall e <;> rfl
      have harrival : (e :: es).countP isArrival = es.countP isArrival + (isArrival e).toNat := by
        rw [List.countP_cons]
        cases isArrival e <;> rfl
      rw [harrival] at hroom
      rw [hcall, harrival]
      by_cases hpc : u.loop.pc = .accepting
      · obtain ⟨htaking, hcount, hroom'⟩ := taking_step howned h hroomy.1 (by omega) hu hpc
        have hrest := ih (owned_moves howned (step_moves hu)) htaking (hinside.2 u hu)
          (hroomy.2 u hu) hrun' (by omega)
        omega
      · -- `onRead` has got back, and nothing comes behind that
        have hle := Bool.toNat_le (isCall e)
        cases es with
        | nil =>
            rw [List.countP_nil]
            omega
        | cons f fs => exact absurd (hinside.2 u hu).1 hpc

/-- The table is full but for the place of the spare descriptor, which is open except in the
middle of a turn; and nothing has been handed on since `handed`. -/
structure Full (handed : List ℕ) (s : AcceptorFds) : Prop where
  pc : s.loop.pc = .accepting
  handed : s.loop.handed = handed
  spare : match s.phase with
    | .accept | .closeIdle => s.table.room = 0 ∧ s.loop.acceptor.idleFd_.isSome = true
    | .acceptIdle | .openNull => s.table.room = 1
    | .closeDropped => s.table.room + s.loop.acceptor.idleFd_.toList.length = 1
    | .accepted _ | .destroyed => False

theorem full_step {handed : List ℕ} (howned : Owned s) (h : Full handed s)
    (hfirst : s.TableFirst e) (hstep : step s e = some t) : Full handed t := by
  have hholds := howned.holds
  have hspare := h.spare
  cases step_moves hstep with
  | loop e l hout hphase hloop =>
      obtain ⟨hidle, hhanded, hpc⟩ := outside_frame hout hloop
      refine ⟨hpc h.pc, hhanded.trans h.handed, ?_⟩
      dsimp only
      rw [hidle]
      exact hspare
  | arrive => exact ⟨h.pc, h.handed, hspare⟩
  | openOther fd table hopen => exact absurd hfirst id
  | closeOther fd howner => exact absurd hfirst id
  | accepted fd table hphase hpc hbacklog hopen =>
      -- in a full table `accept4` has failed before
      simp only [hphase] at hspare
      exact absurd hspare.1 (hfirst hphase)
  | full err hphase hpc herr =>
      simp only [hphase] at hspare
      exact ⟨h.pc, h.handed, hspare⟩
  | leave err l hphase hstep hfds herr hleft =>
      simp only [hphase] at hspare
      cases err with
      | EMFILE => exact absurd rfl herr
      | _ => exact absurd hspare.1 (hfirst hphase)
  | acceptIdle fd table hphase hbacklog hopen =>
      -- a connection takes the place of the spare descriptor, until it is dropped
      obtain ⟨-, hless, -⟩ := Handles.acquire_spec hopen
      simp only [hphase] at hspare
      refine ⟨h.pc, h.handed, ?_⟩
      simp only [setIdle, Option.toList_some, List.length_cons, List.length_nil]
      omega
  | acceptNone err hphase =>
      simp only [hphase] at hspare
      exact ⟨h.pc, h.handed, hspare⟩
  | handOn fd hphase hcallback =>
      simp only [hphase] at hspare
  | drop fd hphase hcallback =>
      simp only [hphase] at hspare
  | closeIdle hphase =>
      simp only [mine, hphase] at hholds hspare
      obtain ⟨hloop, -⟩ := close_fields s s.loop.acceptor.idleFd_
      have hmore := close_room hholds
      obtain ⟨fd, hfd⟩ := Option.isSome_iff_exists.mp hspare.2
      refine ⟨?_, ?_, ?_⟩
      · rw [addClosed, hloop]
        exact h.pc
      · rw [addClosed, hloop]
        exact h.handed
      · simp only [addClosed, hmore, hspare.1]
        rw [hfd]
        rfl
  | closeDropped hphase =>
      simp only [mine, hphase] at hholds hspare
      obtain ⟨hloop, -⟩ := close_fields s s.loop.acceptor.idleFd_
      have hmore := close_room hholds
      refine ⟨?_, ?_, ?_⟩
      · rw [addClosed, hloop]
        exact h.pc
      · rw [addClosed, hloop]
        exact h.handed
      · simp only [addClosed, hmore]
        exact hspare
  | openNull fd table hphase hopen =>
      obtain ⟨-, hless, -⟩ := Handles.acquire_spec hopen
      simp only [hphase] at hspare
      refine ⟨h.pc, h.handed, ?_⟩
      simp only [setIdle, Option.isSome_some, and_true]
      omega
  | openNone hphase =>
      simp only [hphase] at hspare
      rw [TableFirst, hspare] at hfirst
      cases hfirst
  | destroy hphase hpc => exact absurd h.pc hpc

end Return

/-- A connection is taken, while it is handed on another one comes, and then there are no
more. -/
def roomFor : List FdEvent :=
  [.accept (.ok 5), .arrive, .callback, .accept (.ok 6), .callback, .accept (.error .EAGAIN)]

/-- In a full table a connection is dropped, and there are no more. -/
def spinning : List FdEvent :=
  [.accept (.error .EMFILE), .close, .accept (.ok 4), .close, .openNull (some 4),
    .accept (.error .EMFILE), .close, .accept (.error .EAGAIN), .close, .openNull (some 4),
    .accept (.error .EMFILE)]

end AcceptorFds

end Libiak.Net
