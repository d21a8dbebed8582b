/-
`TcpConnection::shutdown` after `sendPack`: what the peer has before the end of
the stream.

`shutdownInLoop` is queued behind the sends, and shuts the socket down without
a look at `writeSize_`. So everything that was pushed before it has been passed
to `::write`, but what `::write` did not take may still be in the write chain,
waiting for the next `onWrite`, which will find the socket shut. As for the
order of sends, the answers of the kernel before the call say whether it is so
(`conn_shutdown_iff`): if nothing is left over, the bytes of the socket are those of
the payloads pushed before the shutdown.
-/
import Libiak.ConnStream

set_option autoImplicit false

namespace Libiak.Net

open Libiak.Run

variable {α : Type*}

/-- The socket is shut down for writing when nothing is left over. -/
def SysCall.Flushes (before : List SysCall) : SysCall → Prop
  | .shutdownWrite => leftOver before = 0
  | .epollWait _ | .readv _ | .write _ _ | .writev _ => True

instance (before : List SysCall) : (c : SysCall) → Decidable (c.Flushes before)
  | .shutdownWrite => inferInstanceAs (Decidable (leftOver before = 0))
  | .epollWait _ | .readv _ | .write _ _ | .writev _ => isTrue trivial

namespace Conn

/-- The step runs `shutdownInLoop`. -/
def Shuts (s : Conn α) : Event α → Prop
  | .functor _ => s.pc = .functors ∧ s.functors.head? = some .shutdownInLoop
  | _ => False

/-- `Socket::shutdownWrite` is called only when nothing is buffered. -/
def Flushed (s : Conn α) (e : Event α) : Prop := s.Shuts e → s.writeSize = 0

/-- When it is called, the kernel has accepted the payloads pushed before it:
what was pushed and is not queued any more. -/
def Delivered (s : Conn α) (e : Event α) : Prop :=
  s.Shuts e → ∃ before, before ++ queued s = s.pushed ∧ s.stream.Perm before

/-- By the account nothing is buffered exactly when nothing is left over. -/
theorem flushed_iff {s : Conn α} (h : Booked s) (e : Event α) :
    s.Flushed e ↔ ∀ c ∈ s.syscall e, c.Flushes s.calls := by
  rw [Flushed, h]
  cases e with
  | functor result =>
      by_cases hpc : s.pc = .functors
      · cases hf : s.functors with
        | nil => simp [Shuts, syscall, hf]
        | cons f rest => cases f <;> simp [Shuts, syscall, hpc, hf, SysCall.Flushes]
      · simp [Shuts, syscall, hpc]
  | _ => simp [Shuts, syscall, SysCall.Flushes]

/-- The bytes of the socket, of the chain and of the queue are those pushed, in
whatever order, and what is queued was pushed last. -/
structure Conserved (s : Conn α) : Prop where
  batch : s.pc ≠ .functors → s.functors = []
  bytes : (s.stream ++ s.buffered ++ queued s).Perm s.pushed
  last : queued s <:+ s.pushed

theorem conserved_init (capacity : Capacity) (storage : ℕ → ℕ → α) :
    Conserved (init capacity storage) where
  batch := fun _ => rfl
  bytes := List.Perm.refl _
  last := List.suffix_refl _

/-- Every step keeps the bytes; a payload that is sent in part goes to two
places. -/
theorem conserved_step {s t : Conn α} {e : Event α} (hsent : Sent s) (h : Conserved s)
    (hU : s.Undisturbed e) (hstep : step s e = some t) : Conserved t := by
  have hbytes := h.bytes
  have hlast := h.last
  have hbatch := batch_step h.batch hstep
  cases flow_step hsent h.batch hU hstep with
  | still hstream hbuf hqueued hpushed =>
      refine ⟨hbatch, ?_, ?_⟩
      · rw [hstream, hbuf, hqueued, hpushed]
        exact hbytes
      · rw [hqueued, hpushed]
        exact hlast
  | push payload hstream hbuf hqueued hpushed =>
      refine ⟨hbatch, ?_, ?_⟩
      · rw [hstream, hbuf, hqueued, hpushed, ← List.append_assoc]
        exact hbytes.append_right payload
      · obtain ⟨before, hbefore⟩ := hlast
        exact ⟨before, by rw [hqueued, hpushed, ← hbefore, List.append_assoc]⟩
  | drain taken hstream hbuf hqueued hpushed =>
      -- the bytes go from the chain to the socket, which is the same place in the sum
      refine ⟨hbatch, ?_, ?_⟩
      · rw [hstream, hqueued, hpushed, List.append_assoc s.stream, ← hbuf]
        exact hbytes
      · rw [hqueued, hpushed]
        exact hlast
  | send result taken rest later hpc hf hstream hbuf hqueued hpushed =>
      refine ⟨hbatch, ?_, ?_⟩
      · -- what the socket took now stands in front of what the chain held, so order is lost
        rw [hstream, hbuf, hpushed]
        refine List.Perm.trans ?_ hbytes
        rw [hqueued]
        simp only [List.append_assoc]
        apply List.Perm.append_left
        simp only [← List.append_assoc]
        apply List.Perm.append_right
        apply List.Perm.append_right
        exact List.perm_append_comm
      · rw [hpushed]
        exact (hqueued ▸ List.suffix_append _ _).trans hlast

/-- With nothing buffered, the socket has what is not queued any more. -/
theorem Conserved.delivered {s : Conn α} {e : Event α} (hsent : Sent s) (h : Conserved s)
    (hflushed : s.Flushed e) : s.Delivered e := by
  intro hshuts
  have hsize := hflushed hshuts
  have hnil : s.buffered = [] := by
    have := hsent.length_buffered
    exact List.eq_nil_of_length_eq_zero (by omega)
  obtain ⟨before, hbefore⟩ := h.last
  refine ⟨before, hbefore, ?_⟩
  have hbytes := h.bytes
  rw [hnil, List.append_nil, ← hbefore] at hbytes
  exact (List.perm_append_right_iff _).mp hbytes

/-- **A half-close comes after the payloads exactly when nothing is left over.** In every
run of a connection in which nothing is taken off a drained ring and payloads have fewer
than `2 ^ 32` bytes: `shutdownInLoop` finds `writeSize_` 0 each time, and the kernel has
then accepted every byte of the payloads pushed before, if and only if, by the answers of
the kernel, each time `::writev` has taken what `::write` left over before. -/
theorem conn_shutdown_iff (capacity : Capacity) (storage : ℕ → ℕ → α) {es : List (Event α)}
    {t : Conn α} (hrun : run step (init capacity storage) es = some t)
    (hU : Along step Undisturbed (init capacity storage) es) :
    (Along step Flushed (init capacity storage) es
        ∧ Along step Delivered (init capacity storage) es)
      ↔ EachAfter SysCall.Flushes [] t.calls := by
  let I : Conn α → Prop := fun s => (Sent s ∧ Booked s) ∧ Conserved s
  have hinit : I (init capacity storage) :=
    ⟨⟨sent_init capacity storage, rfl⟩, conserved_init capacity storage⟩
  have hinv : ∀ s e s', I s → s.Undisturbed e → step s e = some s' → I s' :=
    fun s e s' hI hU hs => ⟨sent_run hI.1 hU hs, conserved_step hI.1.1 hI.2 hU hs⟩
  rw [eachAfter_run step Conn.calls syscall (fun _ _ _ => calls_step) hrun]
  constructor
  · rintro ⟨hflushed, -⟩
    refine ⟨trivial, along_of_inv (I := I) (fun s e hI hC => ?_)
      (fun s e s' hI hC => hinv s e s' hI hC.2) hinit (along_and step hflushed hU)⟩
    exact (flushed_iff hI.1.2 e).mp hC.1
  · rintro ⟨-, hcalls⟩
    have hC := along_and step hcalls hU
    constructor
    · exact along_of_inv (I := I) (fun s e hI hC => (flushed_iff hI.1.2 e).mpr hC.1)
        (fun s e s' hI hC => hinv s e s' hI hC.2) hinit hC
    · refine along_of_inv (I := I) (fun s e hI hC => ?_)
        (fun s e s' hI hC => hinv s e s' hI hC.2) hinit hC
      exact hI.2.delivered hI.1.1 ((flushed_iff hI.1.2 e).mpr hC.1)

/-- The events of a `shutdown`. -/
def shutting : List (Event ℕ) :=
  [.call .shutdown, .push 0, .poll Events.none, .handle, .functor none, .functor none]

/-- What the kernel did not take at once is taken before the shutdown. -/
theorem conn_shutdown_two : ∃ t, run step fresh (refilled ++ shutting) = some t
    ∧ t.stream = [1, 2, 3] ∧ Along step Delivered fresh (refilled ++ shutting) := by
  have heval : (run step fresh (refilled ++ shutting)).map (fun t =>
      (t.stream, decide (EachAfter SysCall.Flushes [] t.calls))) = some ([1, 2, 3], true) := by
    decide +kernel
  obtain ⟨t, hrun, ht⟩ := Option.map_eq_some_iff.mp heval
  simp only [Prod.mk.injEq, decide_eq_true_eq] at ht
  refine ⟨t, hrun, ht.1, ?_⟩
  exact ((conn_shutdown_iff BufferPool.eventLoopCapacity (fun _ _ => 0) hrun
    (by decide +kernel)).mpr ht.2).2

/-- The run that shows the condition is needed: the kernel takes the first of
two bytes, and the socket is shut down with the other one in the chain. -/
theorem conn_shutdown_cuts :
    ¬ Along step Flushed fresh (establishing ++ sending [1, 2] (some 1) ++ shutting) := by
  intro h
  have heval : (run step fresh (establishing ++ sending [1, 2] (some 1)
      ++ [.call .shutdown, .push 0, .poll Events.none, .handle])).map
        (fun s => (s.pc, s.functors, s.writeSize)) = some (.functors, [.shutdownInLoop], 1) := by
    decide
  obtain ⟨s, hrun, hs⟩ := Option.map_eq_some_iff.mp heval
  simp only [Prod.mk.injEq] at hs
  obtain ⟨hpc, hf, hsize⟩ := hs
  have hsplit : Along step Flushed fresh ((establishing ++ sending [1, 2] (some 1)
      ++ [.call .shutdown, .push 0, .poll Events.none, .handle])
        ++ .functor none :: [.functor none]) := h
  have hzero := along_mid step hsplit hrun ⟨hpc, by rw [hf]; rfl⟩
  omega

end Conn

end Libiak.Net
