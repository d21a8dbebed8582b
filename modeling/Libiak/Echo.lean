/-
`net/tests/TcpClient_test.cpp` and `net/tests/TcpServer_test.cpp`: the client
sends a greeting when its connection is established, and each side sends back what
it receives.

The callback of both programs reads as many bytes as `onRead` reported into an array
of 1024 on the stack. The report can be of two whole rings, so nothing in the
callback keeps it inside the array. What does is that the two programs together never
have more bytes on their way than the greeting has: each side pushes what it has been
handed, and nothing else (`Echoes`). So wherever the bytes are, they are the greeting
turned round, the reads always end with the read chain, and the array is never overrun
by a read. The print that follows is another matter: it goes on to the next zero, and
nothing puts one behind the bytes, so whether it ends inside the array is up to what
the stack held there (`echo_circulates`).
-/
import Mathlib.Data.List.Rotate
import Libiak.Link

set_option autoImplicit false

namespace Libiak.Net

open Libiak.Run

variable {α : Type*}

/-! ## The programs -/

/-- `sendPack` called on the thread of the loop: its test and its push are not
separated by another step. -/
def Endpoint.sendPack (p : Endpoint α) (data : List α) : Option (Endpoint α) :=
  (p.step (.call (.sendPack data))).bind fun q =>
    if p.machine.conn.close_ then some q else q.step (.push p.machine.callers.length)

namespace Echo

/-- What the stack holds in the bytes of `msg`. -/
abbrev Stack (α : Type*) := Fin 1024 → α

/-- The text that `operator<<` prints of an array: it must have a zero. -/
def cString [Zero α] [DecidableEq α] (msg : List α) : Option (List α) :=
  if 0 ∈ msg then some (msg.takeWhile (· ≠ 0)) else none

/-- `onRecv` of the two programs. More than `msg` holds is undefined, to read or to
print; a `ReadData` that fails leaves `msg` as it was. -/
def onRecv [Zero α] [DecidableEq α] (stack : Stack α) (p : Endpoint α) (size : ℕ) :
    Option (Endpoint α) :=
  if size ≤ 1024 then do
    let io ← p.machine.conn.io
    let r ← ReadData io true size
    let q ← p.step (.readData true size)
    let msg := if r.1 then r.2.1 ++ (List.ofFn stack).drop size else List.ofFn stack
    let _ ← cString msg
    q.sendPack (msg.take size)
  else none

/-- The callbacks the programs set. The server sets no connect callback. -/
def invoke [Zero α] [DecidableEq α] (greeting : Option (List α)) (stack : Stack α)
    (p : Endpoint α) : Callback → Option (Endpoint α)
  | .connect => match greeting with
      | some data => p.sendPack data
      | none => some p
  | .recv size => onRecv stack p size
  | .send _ | .disconnect => some p

/-- What `onConnect` sends. -/
def greeting (hello : List α) : Side → Option (List α)
  | .client => some hello
  | .server => none

end Echo

/-- The calls that the programs make in their callbacks only. -/
def Event.inCallback : Event α → Bool
  | .call (.sendPack _) | .readData _ _ => true
  | _ => false

/-- A step of the link, and the callbacks it invokes, with what they find on the
stack. -/
def Echo.step [Zero α] [DecidableEq α] (hello : List α) (l : Link α) :
    (Side × Event α) × Echo.Stack α → Option (Link α)
  | (e, stack) =>
    if e.2.inCallback then none
    else do
      let m ← l.step e
      let invoked := (m.ends e.1).machine.callbacks.drop (l.ends e.1).machine.callbacks.length
      let p ← invoked.foldlM (Echo.invoke (Echo.greeting hello e.1) stack) (m.ends e.1)
      some { m with ends := Function.update m.ends e.1 p }

/-! ## Which callbacks a step invokes -/

namespace Conn

/-- The callbacks a step invokes: `connect` when it establishes the connection, `recv`
when it brings bytes in, and else only such as the programs ignore. -/
inductive Invoked (s : Conn α) (e : Event α) (t : Conn α) : List Callback → Prop
  | connect (hbefore : s.conn.establish_ = false) (hafter : t.conn.establish_ = true)
      (harrived : e.arrived = []) : Invoked s e t [.connect]
  | recv (harrived : e.arrived ≠ []) (hbefore : s.conn.establish_ = true)
      (hafter : t.conn.establish_ = true) : Invoked s e t [.recv (u32 e.arrived.length)]
  | ignored (callbacks : List Callback)
      (hignored : ∀ cb ∈ callbacks, cb = .disconnect ∨ ∃ n, cb = .send n)
      (harrived : e.arrived = []) (hest : t.conn.establish_ = s.conn.establish_) :
      Invoked s e t callbacks

section Step

variable {s t : Conn α} {e : Event α}

/-- A step that invokes nothing. -/
theorem invoked_nothing (hcallbacks : t.callbacks = s.callbacks) (harrived : e.arrived = [])
    (hest : t.conn.establish_ = s.conn.establish_) :
    ∃ invoked, t.callbacks = s.callbacks ++ invoked ∧ Invoked s e t invoked :=
  ⟨[], by rw [hcallbacks, List.append_nil],
    .ignored [] (fun cb hcb => absurd hcb List.not_mem_nil) harrived hest⟩

theorem onClose_callbacks (c : TcpConnection α) : ∀ cb ∈ c.onClose.2, cb = .disconnect := by
  intro cb hcb
  rw [TcpConnection.onClose] at hcb
  split at hcb
  · exact absurd hcb List.not_mem_nil
  · exact List.mem_singleton.mp hcb

/-- The callbacks of a turn of `onRead`. -/
theorem onRead_callbacks {c : TcpConnection α} {result : Readv α} {u : TcpConnection.Turn α}
    {io : IoBuffers α} (hio : c.io = some io) (hinv : ReadInv io)
    (h : c.onRead result = some u) :
    u.conn.establish_ = c.establish_
      ∧ ((result.bytes = [] ∧ ∀ cb ∈ u.callbacks, cb = .disconnect)
        ∨ (result.bytes ≠ [] ∧ u.callbacks = [.recv (u32 result.bytes.length)])) := by
  rw [TcpConnection.onRead, hio, Option.bind_eq_bind, Option.bind_some] at h
  obtain ⟨⟨io', outcome⟩, hturn, h⟩ := Option.bind_eq_some_iff.mp h
  obtain ⟨-, -, hreports⟩ := onRead.turn_intake hinv hturn
  cases outcome with
  | error =>
      obtain rfl := Option.some.inj h
      exact ⟨rfl, Or.inl ⟨hreports, fun cb hcb => absurd hcb List.not_mem_nil⟩⟩
  | eof =>
      obtain rfl := Option.some.inj h
      exact ⟨TcpConnection.onClose_establish _, Or.inl ⟨hreports, onClose_callbacks _⟩⟩
  | overlong => exact absurd hreports id
  | short readsize =>
      obtain ⟨hne, rfl⟩ := hreports
      obtain rfl := Option.some.inj h
      exact ⟨rfl, Or.inr ⟨hne, rfl⟩⟩
  | full readsize =>
      obtain ⟨hne, rfl⟩ := hreports
      obtain rfl := Option.some.inj h
      exact ⟨rfl, Or.inr ⟨hne, rfl⟩⟩

/-- **The callbacks of a step.** -/
theorem invoked_step (hsent : Sent s) (h : Reads s) (hstep : step s e = some t) :
    ∃ invoked, t.callbacks = s.callbacks ++ invoked ∧ Invoked s e t invoked := by
  cases step_moves hstep with
  | closePending c hpc hc =>
      refine ⟨c.onClose.2, rfl, .ignored _ (fun cb hcb => ?_) rfl ?_⟩
      · exact Or.inl (onClose_callbacks c cb hcb)
      · rw [hc]
        exact TcpConnection.onClose_establish _
  | readv result hpc u hu =>
      obtain ⟨io, r, hio, -, hio'⟩ := onRead_turn hu
      obtain ⟨hest, hcases⟩ := onRead_callbacks hio (h.chain io hio) hu
      refine ⟨u.callbacks, rfl, ?_⟩
      rcases hcases with ⟨harrived, hignored⟩ | ⟨harrived, hrecv⟩
      · exact .ignored _ (fun cb hcb => Or.inl (hignored cb hcb)) harrived hest
      · -- the buffers exist, so the connection has been established
        have hbefore : s.conn.establish_ = true := by
          by_contra hest
          rw [hsent.unset (Bool.eq_false_iff.mpr hest)] at hio
          cases hio
        rw [hrecv]
        exact .recv harrived hbefore (hest.trans hbefore)
  | writev result hpc u hu =>
      obtain ⟨io, r, hio, -, ⟨-, rfl⟩ | ⟨-, n, rfl⟩ | ⟨-, n, rfl⟩⟩ := TcpConnection.onWrite_cases hu
      · exact ⟨[], rfl, .ignored _ (fun cb hcb => absurd hcb List.not_mem_nil) rfl rfl⟩
      · refine ⟨[.send n], rfl, .ignored _ (fun cb hcb => Or.inr ⟨n, ?_⟩) rfl rfl⟩
        exact List.mem_singleton.mp hcb
      · refine ⟨[.send n], rfl, .ignored _ (fun cb hcb => Or.inr ⟨n, ?_⟩) rfl rfl⟩
        exact List.mem_singleton.mp hcb
  | establishInLoop result rest hpc hf =>
      cases hest : s.conn.establish_ with
      | true =>
          refine invoked_nothing ?_ rfl ?_
          · rw [TcpConnection.establishInLoop, if_pos hest]
            exact List.append_nil _
          · rw [TcpConnection.establishInLoop, if_pos hest]
      | false =>
          refine ⟨[.connect], ?_, .connect hest ?_ rfl⟩
          · simp only [TcpConnection.establishInLoop, hest, Bool.false_eq_true, if_false]
          · simp only [TcpConnection.establishInLoop, hest, Bool.false_eq_true, if_false]
  | onClose result rest hpc hf =>
      refine ⟨s.conn.onClose.2, rfl, .ignored _ (fun cb hcb => ?_) rfl ?_⟩
      · exact Or.inl (onClose_callbacks s.conn cb hcb)
      · exact TcpConnection.onClose_establish _
  | send result data rest hpc hf c hc =>
      refine invoked_nothing rfl rfl ?_
      obtain ⟨-, ⟨-, rfl⟩ | ⟨-, io, r, -, -, rfl⟩⟩ := TcpConnection.send_cases hc
      · rfl
      · rfl
  | _ => exact invoked_nothing rfl rfl rfl

/-- Outside of the callbacks nothing is pushed that has a payload. -/
theorem pushed_step (hcallers : ∀ f ∈ s.callers, f.payload = []) (hcb : e.inCallback = false)
    (hstep : step s e = some t) :
    t.pushed = s.pushed ∧ ∀ f ∈ t.callers, f.payload = [] := by
  cases step_moves hstep with
  | call c =>
      refine ⟨rfl, fun f hf => ?_⟩
      rcases List.mem_append.mp hf with hf | hf
      · exact hcallers f hf
      · have hcall := Option.mem_toList.mp hf
        cases c with
        | sendPack data => cases hcb
        | establish =>
            simp only [Call.functor, TcpConnection.establish] at hcall
            split at hcall
            · cases hcall
            · exact (Option.some.inj hcall) ▸ rfl
        | shutdown =>
            simp only [Call.functor, TcpConnection.shutdown] at hcall
            split at hcall
            · cases hcall
            · exact (Option.some.inj hcall) ▸ rfl
        | close =>
            simp only [Call.functor, TcpConnection.close] at hcall
            split at hcall
            · cases hcall
            · exact (Option.some.inj hcall) ▸ rfl
        | destroy => exact (Option.some.inj hcall) ▸ rfl
  | push i f hf =>
      refine ⟨?_, fun g hg => hcallers g (List.mem_of_mem_eraseIdx hg)⟩
      rw [hcallers f (List.mem_of_getElem? hf), List.append_nil]
  | _ => exact ⟨rfl, hcallers⟩

/-! ## What the callbacks do -/

/-- The bytes that are read are all of those there are: a read that takes the whole
chain does not stop inside a ring. -/
theorem splitsRing_lt {rings : List (Buffer α)} {n : ℕ} (h : SplitsRing rings n) :
    n < total rings := by
  induction rings generalizing n with
  | nil => exact absurd h id
  | cons b rings ih =>
      rw [total_cons]
      rcases h with ⟨-, hlt⟩ | ⟨hlt, hrest⟩
      · omega
      · have := ih hrest
        omega

theorem not_stopsBehindHead {io : IoBuffers α} (h : ReadInv io) :
    ¬ StopsBehindHead io io.readSize_ := by
  obtain ⟨front, tail, spare, hshape⟩ := h
  obtain ⟨head, rings, hrings⟩ : ∃ b rings, front ++ [tail] = b :: rings :=
    List.exists_cons_of_ne_nil (by simp)
  rw [stopsBehindHead_iff hshape hrings, hshape.size_eq, hrings, total_cons]
  rintro ⟨-, hsplit⟩
  have := splitsRing_lt hsplit
  omega

/-- A `ReadData` of all that is there. -/
theorem readAll_spec (h : Reads s) (hne : s.unread ≠ []) :
    ∃ io io', s.conn.io = some io
      ∧ ReadData io true s.unread.length = some (true, s.unread, io')
      ∧ step s (.readData true s.unread.length)
          = some { s with conn := { s.conn with io := some io' } }
      ∧ s.copied (.readData true s.unread.length) = s.unread
      ∧ s.Orderly (.readData true s.unread.length)
      ∧ readContent io' = [] := by
  obtain ⟨io, hio⟩ : ∃ io, s.conn.io = some io := by
    cases hio : s.conn.io with
    | none =>
        rw [unread, hio] at hne
        exact absurd rfl hne
    | some io => exact ⟨io, rfl⟩
  have hinv := h.chain io hio
  have hsmall := h.small
  rw [unread_of_some hio] at hne hsmall ⊢
  rw [← hinv.length_content] at hsmall ⊢
  have hpos : 0 < io.readSize_ := by
    rw [hinv.length_content]
    exact List.length_pos_iff.mpr hne
  have hstops := not_stopsBehindHead hinv
  obtain ⟨front, tail, spare, hshape⟩ := id hinv
  obtain ⟨io', hread, hgood, -⟩ := ReadData_spec hshape hpos (Nat.le_refl _) hsmall
  obtain ⟨-, hcontent⟩ := hgood hstops
  rw [hinv.length_content, List.take_length] at hread
  rw [hinv.length_content, List.drop_length] at hcontent
  rw [← hinv.length_content] at hread
  refine ⟨io, io', hio, hread, ?_, ?_, ?_, hcontent⟩
  · simp only [step, readData, hio, hread, Option.map_some]
  · rw [copied, hio, Option.bind_some, hread]
    rfl
  · intro io₁ hio₁ _ _ _
    obtain rfl := Option.some.inj (hio.symm.trans hio₁)
    exact hstops

end Step

end Conn

/-- A `sendPack` on the thread of the loop leaves its functor at the end of the queue,
unless the connection is closed. -/
theorem Endpoint.sendPack_eq (p : Endpoint α) (data : List α) :
    p.sendPack data = some (if p.machine.conn.close_ then p else
      { p with machine := { p.machine with
          pendingFunctors_ := p.machine.pendingFunctors_ ++ [.send data]
          pushed := p.machine.pushed ++ data } }) := by
  cases hclose : p.machine.conn.close_ with
  | true =>
      simp only [Endpoint.sendPack, Endpoint.step, Conn.step, Call.functor,
        TcpConnection.sendPack, hclose, Event.arrived, Conn.copied, if_true, Option.map_some,
        Option.bind_some, Option.toList_none, List.append_nil]
  | false =>
      simp only [Endpoint.sendPack, Endpoint.step, Conn.step, Call.functor,
        TcpConnection.sendPack, hclose, Event.arrived, Conn.copied, Bool.false_eq_true, if_false,
        Option.map_some, Option.bind_some, Option.toList_some, List.append_nil,
        List.getElem?_concat_length, Functor.payload]
      rw [List.eraseIdx_append_of_length_le (Nat.le_refl _), Nat.sub_self]
      simp

/-- It keeps the endpoint in order. -/
theorem Endpoint.kept_sendPack {p q : Endpoint α} {data : List α} (h : p.Kept)
    (hsend : p.sendPack data = some q) : q.Kept := by
  obtain ⟨m, hm, hsend⟩ := Option.bind_eq_some_iff.mp hsend
  have hkept : m.Kept := Endpoint.kept_step (e := .call (.sendPack data)) h
    ⟨Conn.inTurn_of_none rfl, trivial, trivial⟩ hm
  split at hsend
  · exact (Option.some.inj hsend) ▸ hkept
  · exact Endpoint.kept_step (e := .push _) hkept
      ⟨Conn.inTurn_of_none rfl, trivial, trivial⟩ hsend

namespace Echo

/-! ## One side -/

/-- What a side of the two programs has pushed: its greeting, and what it has been
handed. Between two steps it has been handed all that came in. -/
structure Echoes (greeting : Option (List α)) (p : Endpoint α) : Prop where
  idle : p.machine.unread = []
  callers : ∀ f ∈ p.machine.callers, f.payload = []
  fresh : p.machine.conn.establish_ = false → p.machine.pushed = [] ∧ p.delivered = []
  pushed : p.machine.pushed <+: greeting.getD [] ++ p.delivered
  echoed : p.machine.conn.establish_ = true → p.machine.conn.close_ = false →
    p.machine.pushed = greeting.getD [] ++ p.delivered

theorem echoes_init (greeting : Option (List α)) (capacity : Capacity) (storage : ℕ → ℕ → α) :
    Echoes greeting (Endpoint.init capacity storage) where
  idle := rfl
  callers := fun f hf => absurd hf List.not_mem_nil
  fresh := fun _ => ⟨rfl, rfl⟩
  pushed := List.nil_prefix
  echoed := fun h => by cases h

/-- Where bytes come in, there is a zero among them or behind them on the stack. -/
def Ends [Zero α] (stack : Stack α) (bytes : List α) : Prop :=
  bytes ≠ [] → 0 ∈ bytes ++ (List.ofFn stack).drop bytes.length

instance [Zero α] [DecidableEq α] (stack : Stack α) (bytes : List α) :
    Decidable (Ends stack bytes) := inferInstanceAs (Decidable (_ → _))

section Side

variable {greeting : Option (List α)} {p q : Endpoint α} {e : Event α}

/-- What comes in is read at once, so it is all there is in the read chain. -/
theorem Echoes.orderly (h : Echoes greeting p) (hkept : p.Kept) (hcb : e.inCallback = false)
    (hlen : e.arrived.length ≤ 1024) : p.machine.Orderly e := by
  cases e with
  | readData data size => cases hcb
  | readv result =>
      intro io hio
      have hidle := h.idle
      rw [Conn.unread_of_some hio] at hidle
      rw [(hkept.reads.chain io hio).length_content, hidle]
      exact Nat.lt_of_le_of_lt (Nat.add_le_add_left hlen 0) (by decide)
  | _ => trivial

variable (greeting) in
/-- `sendPack` of `data`, by a side that has been handed `delivered`. -/
theorem Echoes.sendPack (data : List α) (hidle : q.machine.unread = [])
    (hcallers : ∀ f ∈ q.machine.callers, f.payload = [])
    (hest : q.machine.conn.establish_ = true)
    (hpushed : q.machine.pushed <+: greeting.getD [] ++ q.delivered)
    (hopen : q.machine.conn.close_ = false →
      q.machine.pushed ++ data = greeting.getD [] ++ q.delivered) :
    ∃ r, q.sendPack data = some r ∧ Echoes greeting r ∧ r.received = q.received
      ∧ r.machine.stream = q.machine.stream := by
  refine ⟨_, q.sendPack_eq data, ?_, ?_, ?_⟩
  · cases hclose : q.machine.conn.close_ with
    | true =>
        rw [if_pos rfl]
        refine ⟨hidle, hcallers, fun h => ?_, hpushed, fun _ h => ?_⟩
        · rw [hest] at h
          cases h
        · rw [hclose] at h
          cases h
    | false =>
        rw [if_neg Bool.false_ne_true]
        refine ⟨hidle, hcallers, fun h => ?_, ?_, fun _ _ => hopen hclose⟩
        · rw [hest] at h
          cases h
        · rw [hopen hclose]
  · split <;> rfl
  · split <;> rfl

variable [Zero α] [DecidableEq α] {stack : Stack α}

variable (greeting) in
/-- `onRecv`, when it is told how much is in the read chain. -/
theorem onRecv_spec (hreads : q.machine.Reads) (hne : q.machine.unread ≠ [])
    (hlen : q.machine.unread.length ≤ 1024) (hcallers : ∀ f ∈ q.machine.callers, f.payload = [])
    (hest : q.machine.conn.establish_ = true)
    (hpushed : q.machine.pushed <+: greeting.getD [] ++ q.delivered)
    (hopen : q.machine.conn.close_ = false → q.machine.pushed = greeting.getD [] ++ q.delivered) :
    ∃ r, onRecv stack q q.machine.unread.length
        = (if Ends stack q.machine.unread then some r else none) ∧ Echoes greeting r
      ∧ r.received = q.received ∧ r.machine.stream = q.machine.stream ∧ (q.Kept → r.Kept) := by
  obtain ⟨io, io', hio, hread, hstep, hcopied, horderly, hnil⟩ := Conn.readAll_spec hreads hne
  have hstep' : q.step (.readData true q.machine.unread.length)
      = some { machine := { q.machine with conn := { q.machine.conn with io := some io' } }
               received := q.received ++ [], delivered := q.delivered ++ q.machine.unread } := by
    rw [Endpoint.step, hstep, hcopied]
    rfl
  obtain ⟨r, hsend, hechoes, hreceived, hstream⟩ := Echoes.sendPack greeting
    q.machine.unread
    (q := { machine := { q.machine with conn := { q.machine.conn with io := some io' } }
            received := q.received ++ [], delivered := q.delivered ++ q.machine.unread })
    (by rw [Conn.unread_of_some rfl, hnil]) hcallers hest
    (hpushed.trans (by rw [← List.append_assoc]; exact List.prefix_append _ _))
    (fun hclose => by rw [hopen hclose, List.append_assoc])
  refine ⟨r, ?_, hechoes, hreceived.trans (List.append_nil _), hstream, fun hkept => ?_⟩
  · rw [onRecv, if_pos hlen, hio, Option.bind_eq_bind, Option.bind_some, hread]
    simp only [Option.bind_eq_bind, Option.bind_some, hstep', if_true, List.take_left, hsend,
      cString, Ends, hne, ne_eq, not_false_eq_true, forall_const]
    split <;> rfl
  · exact Endpoint.kept_sendPack (Endpoint.kept_step (e := .readData true _) hkept
      ⟨Conn.inTurn_of_none rfl, trivial, horderly⟩ hstep') hsend

/-- Callbacks the programs do not set. -/
theorem invoke_ignored {callbacks : List Callback} (q : Endpoint α)
    (h : ∀ cb ∈ callbacks, cb = .disconnect ∨ ∃ n, cb = .send n) :
    callbacks.foldlM (invoke greeting stack) q = some q := by
  induction callbacks with
  | nil => rfl
  | cons cb callbacks ih =>
      rw [List.foldlM_cons]
      have hrest := ih fun c hc => h c (List.mem_cons_of_mem cb hc)
      rcases h cb (List.mem_cons_self ..) with rfl | ⟨n, rfl⟩
      · exact hrest
      · exact hrest

variable (stack) in
/-- **A step of a side and its callbacks.** They go through if what they print ends,
and then the side has pushed what it has been handed. -/
theorem echoes_step (hkept : p.Kept) (h : Echoes greeting p) (hcb : e.inCallback = false)
    (hlen : e.arrived.length ≤ 1024) (hstep : p.step e = some q) :
    ∃ r, (q.machine.callbacks.drop p.machine.callbacks.length).foldlM (invoke greeting stack) q
        = (if Ends stack e.arrived then some r else none)
      ∧ Echoes greeting r ∧ r.received = q.received ∧ r.machine.stream = q.machine.stream
      ∧ (q.Kept → r.Kept) := by
  obtain ⟨s, hs, rfl⟩ := Option.map_eq_some_iff.mp hstep
  obtain ⟨hreads, hbalance⟩ :=
    Conn.reads_step hkept.sent hkept.reads (h.orderly hkept hcb hlen) hs
  obtain ⟨hpushed, hcallers⟩ := Conn.pushed_step h.callers hcb hs
  have hcopied : p.machine.copied e = [] := by
    cases e with
    | readData data size => cases hcb
    | _ => rfl
  rw [hcopied, h.idle, List.nil_append, List.nil_append] at hbalance
  have hopen : s.conn.close_ = false → p.machine.conn.close_ = false := fun hs' => by
    by_contra hclose
    rw [Conn.close_step (Bool.not_eq_false _ ▸ hclose) hs] at hs'
    cases hs'
  obtain ⟨invoked, hcallbacks, hinvoked⟩ := Conn.invoked_step hkept.sent hkept.reads hs
  rw [show s.callbacks.drop p.machine.callbacks.length = invoked by
    rw [hcallbacks, List.drop_left]]
  rw [hcopied, List.append_nil]
  have hpre : s.pushed <+: greeting.getD [] ++ p.delivered := by
    rw [hpushed]
    exact h.pushed
  cases hinvoked with
  | connect hbefore hafter harrived =>
      obtain ⟨hnone, hdelivered⟩ := h.fresh hbefore
      have hends : Ends stack e.arrived := fun hne => absurd harrived hne
      simp only [if_pos hends]
      rw [harrived] at hbalance
      cases greeting with
      | none =>
          -- the server sends nothing by itself
          refine ⟨_, rfl, ⟨hbalance, hcallers, fun h => ?_, hpre, fun _ _ => ?_⟩, rfl, rfl, id⟩
          · rw [hafter] at h
            cases h
          · rw [hpushed, hnone, hdelivered]
            rfl
      | some data =>
          obtain ⟨r, hsend, hechoes, hreceived, hstream⟩ := Echoes.sendPack
            (some data) data (q := ⟨s, p.received ++ e.arrived, p.delivered⟩)
            hbalance hcallers hafter hpre (fun _ => by
              rw [hpushed, hnone, hdelivered]
              exact (List.append_nil _).symm)
          refine ⟨r, ?_, hechoes, hreceived, hstream, fun hk => Endpoint.kept_sendPack hk hsend⟩
          rw [List.foldlM_cons, invoke, hsend]
          rfl
  | recv harrived hbefore hafter =>
      have hunread : s.unread.length ≤ 1024 := by
        rw [hbalance]
        exact hlen
      obtain ⟨r, hrecv, hechoes, hreceived, hstream, hkeep⟩ := onRecv_spec greeting
        (q := ⟨s, p.received ++ e.arrived, p.delivered⟩) hreads (by rw [hbalance]; exact harrived)
        hunread hcallers hafter hpre
        (fun hclose => by rw [hpushed]; exact h.echoed hbefore (hopen hclose))
      refine ⟨r, ?_, hechoes, hreceived, hstream, hkeep⟩
      dsimp only at hrecv
      rw [hbalance] at hrecv
      rw [u32_of_lt (Nat.lt_of_le_of_lt hlen (by decide)), List.foldlM_cons, invoke, hrecv]
      split <;> rfl
  | ignored _ hignored harrived hest =>
      have hends : Ends stack e.arrived := fun hne => absurd harrived hne
      simp only [if_pos hends]
      rw [harrived] at hbalance
      refine ⟨_, invoke_ignored _ hignored, ⟨hbalance, hcallers, fun hfresh => ?_, hpre,
        fun hset hclose => ?_⟩, rfl, rfl, id⟩
      · rw [hpushed]
        exact h.fresh (hest ▸ hfresh)
      · rw [hpushed]
        exact h.echoed (hest ▸ hset) (hopen hclose)

end Side

/-! ## Both sides -/

/-- The bytes on their way from a side: on the wire, in its write chain, or queued. -/
def flight (l : Link α) (side : Side) : List α :=
  l.wire side ++ (l.ends side).machine.buffered ++ (l.ends side).machine.queued

/-- The two programs and the network between them. -/
structure Paired (hello : List α) (l : Link α) : Prop where
  sound : l.Sound
  echoes : ∀ side, Echoes (greeting hello side) (l.ends side)

theorem paired_init (hello : List α) (capacity : Side → Capacity)
    (storage : Side → ℕ → ℕ → α) : Paired hello (Link.init capacity storage) where
  sound := Link.sound_init capacity storage
  echoes := fun side => echoes_init (greeting hello side) (capacity side) (storage side)

section Pair

variable {hello : List α} {l m : Link α}

/-- What a side has been handed, followed by what is on its way there, is what the other
has pushed. -/
theorem Paired.flight_eq (h : Paired hello l) (side : Side) :
    (l.ends side.peer).delivered ++ flight l side = (l.ends side).machine.pushed := by
  have hcarried := h.sound.carried side
  rw [(h.echoes side.peer).idle, List.append_nil] at hcarried
  rw [flight, ← hcarried]
  simp only [List.append_assoc]

/-- No more bytes are on their way than the greeting has. -/
theorem Paired.flight_le (h : Paired hello l) :
    (flight l .client).length + (flight l .server).length ≤ hello.length := by
  have hclient := congrArg List.length (h.flight_eq .client)
  have hserver := congrArg List.length (h.flight_eq .server)
  have hclient' := (h.echoes .client).pushed.length_le
  have hserver' := (h.echoes .server).pushed.length_le
  simp only [List.length_append, Side.peer, greeting, Option.getD_some, Option.getD_none,
    List.length_nil] at hclient hserver hclient' hserver'
  omega

theorem Paired.flight_side_le (h : Paired hello l) (side : Side) :
    (flight l side).length ≤ hello.length := by
  have := h.flight_le
  cases side with
  | client => omega
  | server => omega

end Pair

/-- Two words that a third one conjugates are the same turned round. -/
theorem isRotated_of_append_eq {d x h : List α} (heq : d ++ x = h ++ d) : x ~r h := by
  induction hn : d.length using Nat.strong_induction_on generalizing d with
  | _ n ih =>
      by_cases hlt : h.length ≤ d.length
      · -- `d` begins with `h`, and what is left of it conjugates them too
        by_cases h0 : h = []
        · rw [h0, List.nil_append] at heq
          rw [h0, List.self_eq_append_right.mp heq.symm]
        · obtain ⟨d', rfl⟩ : h <+: d :=
            List.prefix_of_prefix_length_le ⟨d, heq.symm⟩ (List.prefix_append d x) hlt
          rw [List.append_assoc, List.append_cancel_left_eq] at heq
          have hpos := List.length_pos_iff.mpr h0
          rw [List.length_append] at hn
          exact ih d'.length (by omega) heq rfl
      · -- `h` begins with `d`
        obtain ⟨h', rfl⟩ : d <+: h := List.prefix_of_prefix_length_le
          (List.prefix_append d x) ⟨d, heq.symm⟩ (by omega)
        rw [List.append_assoc, List.append_cancel_left_eq] at heq
        rw [heq]
        exact List.isRotated_append

/-- What is asked of the two kernels: by the answers of `::write` and `::writev` the
payloads are passed on in turn, and nothing is taken off a drained head ring. -/
def Steady (l : Link α) : (Side × Event α) × Stack α → Prop
  | ((side, .functor result), _) => (l.ends side).machine.InTurn (.functor result)
  | ((side, .writev result), _) => (l.ends side).machine.Undisturbed (.writev result)
  | _ => True

instance (l : Link α) : (e : (Side × Event α) × Stack α) → Decidable (Steady l e)
  | ((side, .functor result), _) =>
      inferInstanceAs (Decidable ((l.ends side).machine.InTurn (.functor result)))
  | ((side, .writev result), _) =>
      inferInstanceAs (Decidable ((l.ends side).machine.Undisturbed (.writev result)))
  | ((_, .call _), _) | ((_, .push _), _) | ((_, .peekData _ _), _) | ((_, .readData _ _), _)
  | ((_, .poll _), _) | ((_, .handle), _) | ((_, .readv _), _) => isTrue trivial

/-- What holds of the two programs in every state. The greeting bounds what is on its
way, and while neither connection has been closed it is the greeting, turned round; and
whatever happens next, the callbacks it invokes go through exactly if the text they
print ends in `msg`. -/
structure Circulates [Zero α] [DecidableEq α] (hello : List α) (l : Link α) : Prop where
  bounded : (flight l .client).length + (flight l .server).length ≤ hello.length
  rotated : (l.ends .client).machine.conn.establish_ = true →
    (∀ side, (l.ends side).machine.conn.close_ = false) →
    (flight l .server ++ flight l .client) ~r hello
  safe : ∀ e stack m, e.2.inCallback = false → l.step e = some m →
    ((step hello l (e, stack)).isSome ↔ Ends stack e.2.arrived)

section Run

variable {hello : List α} {l m : Link α} {e : Side × Event α}

/-- While neither side has closed, the bytes on their way are the greeting. -/
theorem Paired.rotated (h : Paired hello l)
    (hest : (l.ends .client).machine.conn.establish_ = true)
    (hopen : ∀ side, (l.ends side).machine.conn.close_ = false) :
    (flight l .server ++ flight l .client) ~r hello := by
  have hclient : (l.ends .client).machine.pushed = hello ++ (l.ends .client).delivered :=
    (h.echoes .client).echoed hest (hopen .client)
  have hserver : (l.ends .server).machine.pushed = (l.ends .server).delivered := by
    cases hest' : (l.ends .server).machine.conn.establish_ with
    | true => exact (h.echoes .server).echoed hest' (hopen .server)
    | false =>
        obtain ⟨hpushed, hdelivered⟩ := (h.echoes .server).fresh hest'
        rw [hpushed, hdelivered]
  have h1 : (l.ends .server).delivered ++ flight l .client = _ := h.flight_eq .client
  have h2 : (l.ends .client).delivered ++ flight l .server = _ := h.flight_eq .server
  rw [hserver] at h2
  refine isRotated_of_append_eq (d := (l.ends .client).delivered) ?_
  rw [← List.append_assoc, h2, h1, hclient]

/-- A step meets the conditions on both paths: what is not asked of the kernels follows
from how little is on its way. -/
theorem Paired.fair (h : Paired hello l) (hlen : hello.length ≤ 1024) {stack : Stack α}
    (hS : Steady l (e, stack)) (hcb : e.2.inCallback = false)
    (harrived : e.2.arrived.length ≤ 1024) : l.Fair e := by
  obtain ⟨side, e⟩ := e
  have hkept := h.sound.kept side
  refine ⟨?_, ?_, (h.echoes side).orderly hkept hcb harrived⟩
  · cases e with
    | functor result => exact hS
    | _ => simp [Conn.InTurn, Conn.syscall, SysCall.InTurn]
  · cases e with
    | writev result => exact hS
    | functor result =>
        intro data rest hf
        have hflight := h.flight_side_le side
        simp only [flight, Conn.queued, Conn.payloads, hf, List.flatMap_cons, Functor.payload,
          List.length_append] at hflight
        omega
    | _ => trivial

variable [Zero α] [DecidableEq α] {stack : Stack α}

omit [Zero α] in
/-- What `readv` brings in was on its way. -/
theorem Paired.arrived_le (h : Paired hello l) (hlen : hello.length ≤ 1024)
    (hstep : l.step e = some m) : e.2.arrived.length ≤ 1024 := by
  obtain ⟨p, -, -, -, -, hin⟩ := Link.step_cases hstep
  have hflight := h.flight_side_le e.1.peer
  rw [flight, ← hin] at hflight
  simp only [List.length_append] at hflight
  omega

variable (stack) in
/-- A step of the link and the callbacks it invokes. -/
theorem Paired.callbacks (h : Paired hello l) (hlen : hello.length ≤ 1024)
    (hcb : e.2.inCallback = false) (hstep : l.step e = some m) :
    ∃ r, step hello l (e, stack) = (if Ends stack e.2.arrived then
        some { m with ends := Function.update m.ends e.1 r } else none)
      ∧ Echoes (greeting hello e.1) r ∧ r.received = (m.ends e.1).received
      ∧ r.machine.stream = (m.ends e.1).machine.stream ∧ ((m.ends e.1).Kept → r.Kept) := by
  obtain ⟨p, hp, hself, -, -, -⟩ := Link.step_cases hstep
  obtain ⟨r, hfold, hr⟩ := echoes_step stack (h.sound.kept e.1) (h.echoes e.1) hcb
    (h.arrived_le hlen hstep) (hself ▸ hp)
  refine ⟨r, ?_, hr⟩
  rw [step, hcb, if_neg Bool.false_ne_true, hstep]
  simp only [Option.bind_eq_bind, Option.bind_some, hfold]
  split <;> rfl

theorem Paired.circulates (h : Paired hello l) (hlen : hello.length ≤ 1024) :
    Circulates hello l where
  bounded := h.flight_le
  rotated := h.rotated
  safe := fun e stack m hcb hstep => by
    obtain ⟨r, hstep', -⟩ := h.callbacks stack hlen hcb hstep
    rw [hstep']
    split <;> simp [*]

/-- A step of the programs keeps them paired. -/
theorem paired_step (hlen : hello.length ≤ 1024) (h : Paired hello l)
    (hS : Steady l (e, stack)) (hstep : step hello l (e, stack) = some m) : Paired hello m := by
  have hcb : e.2.inCallback = false := by
    by_contra hcb
    rw [step, if_pos (Bool.not_eq_false _ ▸ hcb)] at hstep
    cases hstep
  obtain ⟨m₀, hm₀⟩ : ∃ m₀, l.step e = some m₀ := by
    rw [step, hcb, if_neg Bool.false_ne_true] at hstep
    obtain ⟨m₀, hm₀, -⟩ := Option.bind_eq_some_iff.mp hstep
    exact ⟨m₀, hm₀⟩
  have hsound := Link.sound_step h.sound (h.fair hlen hS hcb (h.arrived_le hlen hm₀)) hm₀
  obtain ⟨r, hstep', hechoes, hreceived, hstream, hkept⟩ :=
    h.callbacks stack hlen hcb hm₀
  have hsome := hstep'.symm.trans hstep
  split at hsome
  case isFalse => cases hsome
  obtain rfl := Option.some.inj hsome
  obtain ⟨p, -, -, hpeer, -, -⟩ := Link.step_cases hm₀
  -- the callbacks touch one end, and neither what it read nor what it wrote
  have hends : ∀ side, (Function.update m₀.ends e.1 r side).received = (m₀.ends side).received
      ∧ (Function.update m₀.ends e.1 r side).machine.stream = (m₀.ends side).machine.stream := by
    intro side
    by_cases hside : side = e.1
    · subst hside
      rw [Function.update_self]
      exact ⟨hreceived, hstream⟩
    · rw [Function.update_of_ne hside]
      exact ⟨rfl, rfl⟩
  refine ⟨⟨fun side => ?_, fun side => ?_⟩, fun side => ?_⟩
  · by_cases hside : side = e.1
    · subst hside
      simp only [Function.update_self]
      exact hkept (hsound.kept e.1)
    · simp only [Function.update_of_ne hside]
      exact hsound.kept side
  · simp only [(hends _).1, (hends side).2]
    exact hsound.wired side
  · by_cases hside : side = e.1
    · subst hside
      simp only [Function.update_self]
      exact hechoes
    · simp only [Function.update_of_ne hside]
      rw [Side.eq_peer hside, hpeer]
      exact h.echoes e.1.peer

/-- **The greeting goes round.** In every run of the two test programs, with any
behaviour of the network and of the two kernels in which by the answers of `::write` and
`::writev` payloads are passed on in turn and nothing is taken off a drained head ring,
for every greeting of at most 1024 bytes and whatever the stacks hold: no more bytes are
on their way than the greeting has, and while neither connection has been closed they
are the greeting, turned round. So what `onRead` reports is what is in the read chain, and
`msg` holds it; and the callbacks go through exactly if a zero ends what they print. -/
theorem echo_circulates (hlen : hello.length ≤ 1024) (capacity : Side → Capacity)
    (storage : Side → ℕ → ℕ → α) {es : List ((Side × Event α) × Stack α)}
    (hS : Along (step hello) Steady (Link.init capacity storage) es) :
    Throughout (step hello) (Circulates hello) (Link.init capacity storage) es :=
  throughout_of_along (fun _ h => h.circulates hlen)
    (fun _ _ _ h hS hs => paired_step hlen h hS hs) hS (paired_init hello capacity storage)

end Run

/-- What the client sends. -/
def helloWorld : List ℕ := "hello world!".toList.map Char.toNat

/-- The client establishes its connection and sends; the server receives all of it in one
piece, and sends it back; five bytes of that reach the client. The stacks hold zeros. -/
def roundTrip : List ((Side × Event ℕ) × Stack ℕ) :=
  (Link.only .client (Conn.establishing ++
      [.poll Events.none, .handle, .functor (some 12), .functor none])
    ++ Link.only .server (Conn.establishing ++
      [.poll ⟨false, false, true, false⟩, .handle, .handle, .handle, .handle,
        .readv (.data helloWorld), .handle, .handle, .functor (some 12), .functor none])
    ++ Link.only .client
      [.poll ⟨false, false, true, false⟩, .handle, .handle, .handle, .handle,
        .readv (.data (helloWorld.take 5))]).map fun e => (e, fun _ => 0)

theorem echo_circulates_helloWorld :
    Throughout (step helloWorld) (Circulates helloWorld)
      (Link.init (fun _ => BufferPool.eventLoopCapacity) fun _ _ _ => 0) roundTrip :=
  echo_circulates (by decide) (fun _ => BufferPool.eventLoopCapacity) (fun _ _ _ => 0)
    (by decide +kernel)

/-- The five bytes are queued again at the client, and the other seven are still on the
wire. -/
example : (run (step helloWorld) (Link.init (fun _ => BufferPool.eventLoopCapacity)
    fun _ _ _ => 0) roundTrip).map (fun l => (flight l .client, flight l .server))
      = some (helloWorld.take 5, helloWorld.drop 5) := by
  decide +kernel

end Echo

end Libiak.Net
