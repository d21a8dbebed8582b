/-
`log/LogFile.h` and `log/AsyncLogger.cpp`: one asynchronous logger, with the
buffers its lines travel in and the files they end up in.

A line is copied into `currentBuffer_` under the lock. When it does not fit, the
buffer joins `buffers_` and `nextBuffer_` takes its place. The backend thread
moves both into `buffersToWrite_`, under the lock again, writes them without it,
and keeps two of the written buffers as the spares `buffer1_` and `buffer2_`
that the next move puts in the places it empties. All six hold the same kind of
`shared_ptr`, so a buffer is an address here and its bytes are in a memory.

## What is proved here

* `Rotation` is what keeps this safe: no buffer is in two places, a spare is
  empty, and enough buffers are on the way to fill the places that wait for one.
  Every function keeps it and, given it, none of them fails, but for a logger
  without a file.
* `Conveys` says what the places are: a `Conveyor` of lines, of which the memory
  and the files hold the bytes. Every function is a step of it.
-/
import Libiak.Conveyor
import Mathlib.Data.List.Nodup
import Mathlib.Logic.Function.Basic
import Mathlib.Data.Int.Notation

set_option autoImplicit false

namespace Libiak.Log

variable {α : Type*}

/-! ## `class LogFile` -/

/-- `class LogFile`, with what has gone through `append`, what `fwrite` has
accepted of it, and how much of that the last `flush` has passed on. -/
structure LogFile (α : Type*) where
  offered : List α
  accepted : List α
  flushed : ℕ
  writtenBytes_ : ℕ

namespace LogFile

/-- `LogFile::LogFile`. -/
def make : LogFile α := { offered := [], accepted := [], flushed := 0, writtenBytes_ := 0 }

/-- The `while` of `append`: what is accepted of the rest of a line, by the
results of the calls of `fwrite`. It ends when nothing remains, or at a call
that accepts nothing. There is no loop with other results. -/
def append.loop : List ℕ → List α → Option (List α)
  | [], rest => if rest.length = 0 then some [] else none
  | x :: results, rest =>
      if rest.length = 0 ∨ rest.length < x then none
      else if x = 0 then (if results.length = 0 then some [] else none)
      else (append.loop results (rest.drop x)).map fun more => rest.take x ++ more

/-- `LogFile::append`; `n` is the result of its first call of `fwrite` and
`results` are those of the calls in the loop. -/
def append (f : LogFile α) (logline : List α) (n : ℕ) (results : List ℕ) : Option (LogFile α) :=
  if n ≤ logline.length then
    (append.loop results (logline.drop n)).map fun more =>
      { f with
        offered := f.offered ++ logline
        accepted := f.accepted ++ (logline.take n ++ more)
        writtenBytes_ := f.writtenBytes_ + logline.length }
  else none

/-- `LogFile::flush`. -/
def flush (f : LogFile α) : LogFile α := { f with flushed := f.accepted.length }

/-- As long as no call accepts nothing, the loop ends with the whole rest
accepted. -/
theorem append.loop_all {results : List ℕ} {rest more : List α} (hzero : 0 ∉ results)
    (h : append.loop results rest = some more) : more = rest := by
  induction results generalizing rest more with
  | nil =>
      unfold append.loop at h
      split at h
      · rename_i hlen
        rw [← Option.some.inj h, List.eq_nil_of_length_eq_zero hlen]
      · cases h
  | cons x results ih =>
      have hx : x ≠ 0 := fun hx => hzero (hx ▸ List.mem_cons_self)
      unfold append.loop at h
      rw [if_neg hx] at h
      split at h
      · cases h
      · obtain ⟨tail, htail, rfl⟩ := Option.map_eq_some_iff.mp h
        rw [ih (fun hmem => hzero (List.mem_cons_of_mem x hmem)) htail, List.take_append_drop]

/-- What is passed to `append` is in `offered`, whatever `fwrite` does. -/
theorem append_offered {f f' : LogFile α} {logline : List α} {n : ℕ} {results : List ℕ}
    (h : f.append logline n results = some f') : f'.offered = f.offered ++ logline := by
  unfold append at h
  split at h
  · obtain ⟨more, -, rfl⟩ := Option.map_eq_some_iff.mp h
    rfl
  · cases h

/-- It is all accepted if no call in the loop accepts nothing. -/
theorem append_accepted {f f' : LogFile α} {logline : List α} {n : ℕ} {results : List ℕ}
    (hzero : 0 ∉ results) (h : f.append logline n results = some f') :
    f'.accepted = f.accepted ++ logline := by
  unfold append at h
  split at h
  · obtain ⟨more, hmore, rfl⟩ := Option.map_eq_some_iff.mp h
    show f.accepted ++ (logline.take n ++ more) = f.accepted ++ logline
    rw [append.loop_all hzero hmore, List.take_append_drop]
  · cases h

/-- One call can accept it all. -/
theorem append_whole (f : LogFile α) (logline : List α) :
    ∃ f', f.append logline logline.length [] = some f' := by
  unfold append append.loop
  rw [if_pos (Nat.le_refl _), if_pos (by simp)]
  exact ⟨_, rfl⟩

end LogFile

/-! ## `class AsyncLogger` -/

/-- The address of an `AsyncLogger::Buffer`. -/
abbrev BufferPtr := ℕ

/-- `class AsyncLogger`. A buffer's bytes, up to `cur_`, are in `memory`, where
the addresses below `allocated` have been given out; `closed` are the files
before `logFile_`, in order of opening. -/
structure AsyncLogger (α : Type*) where
  rollSize_ : ℕ
  count_ : ℕ
  startOfPeriod_ : ℤ
  lastRoll_ : ℤ
  lastFlush_ : ℤ
  logFile_ : Option (LogFile α)
  notEmpty_ : Bool
  currentBuffer_ : Option BufferPtr
  nextBuffer_ : Option BufferPtr
  buffers_ : List BufferPtr
  buffersToWrite_ : List BufferPtr
  buffer1_ : Option BufferPtr
  buffer2_ : Option BufferPtr
  closed : List (LogFile α)
  memory : BufferPtr → List α
  allocated : ℕ

namespace AsyncLogger

def kBufferSize : ℕ := 4096 * 1024

def kCheckTimeRoll_ : ℕ := 1024

def kRollPerSeconds_ : ℤ := 60 * 60 * 24

/-- `now / kRollPerSeconds_ * kRollPerSeconds_`, with the division of C++. -/
def period (now : ℤ) : ℤ := now.tdiv kRollPerSeconds_ * kRollPerSeconds_

/-- `Buffer::avail`. -/
def avail (l : AsyncLogger α) (buffer : BufferPtr) : ℕ :=
  kBufferSize - (l.memory buffer).length

/-- `Buffer::append`. -/
def bufferAppend (l : AsyncLogger α) (buffer : BufferPtr) (buf : List α) : AsyncLogger α :=
  if buf.length < l.avail buffer then
    { l with memory := Function.update l.memory buffer (l.memory buffer ++ buf) }
  else l

/-- `rollFile`, with what the clock reads. -/
def rollFile (l : AsyncLogger α) (now : ℤ) : AsyncLogger α :=
  if l.lastRoll_ < now then
    { l with
      lastRoll_ := now, lastFlush_ := now, startOfPeriod_ := period now
      closed := l.closed ++ l.logFile_.toList, logFile_ := some LogFile.make }
  else l

/-- `AsyncLogger::AsyncLogger`, with what the clock reads in its `rollFile()`. -/
def make (rollSize : ℕ) (now : ℤ) : AsyncLogger α :=
  rollFile
    { rollSize_ := rollSize, count_ := 0, startOfPeriod_ := 0, lastRoll_ := 0, lastFlush_ := 0
      logFile_ := none, notEmpty_ := false
      currentBuffer_ := some 0, nextBuffer_ := some 1, buffers_ := [], buffersToWrite_ := []
      buffer1_ := some 2, buffer2_ := some 3
      closed := [], memory := fun _ => [], allocated := 4 } now

/-- The `else` of `appendToBuffer_locked` up to its last line: the buffer that
is current afterwards. -/
def appendToBuffer_locked.fill (l : AsyncLogger α) (current : BufferPtr) :
    AsyncLogger α × BufferPtr :=
  let l := { l with buffers_ := l.buffers_ ++ [current] }
  match l.nextBuffer_ with
  | some next => ({ l with currentBuffer_ := some next, nextBuffer_ := none }, next)
  | none =>
      ({ l with
        currentBuffer_ := some l.allocated
        memory := Function.update l.memory l.allocated [], allocated := l.allocated + 1 },
        l.allocated)

/-- `appendToBuffer_locked`; a null `currentBuffer_` has no buffer to ask. -/
def appendToBuffer_locked (l : AsyncLogger α) (logline : List α) : Option (AsyncLogger α) :=
  match l.currentBuffer_ with
  | none => none
  | some current =>
      let l :=
        if logline.length < l.avail current then l.bufferAppend current logline
        else
          let r := appendToBuffer_locked.fill l current
          r.1.bufferAppend r.2 logline
      some { l with notEmpty_ := true }

/-- `swapBuffersToWrite_locked`. -/
def swapBuffersToWrite_locked (l : AsyncLogger α) : Option (AsyncLogger α) :=
  match l.currentBuffer_ with
  | none => none
  | some current =>
      let l :=
        if 0 < (l.memory current).length then
          { l with
            buffers_ := l.buffers_ ++ [current], currentBuffer_ := l.buffer1_, buffer1_ := none }
        else l
      let l :=
        if l.nextBuffer_ = none then { l with nextBuffer_ := l.buffer2_, buffer2_ := none } else l
      some { l with
        buffersToWrite_ := l.buffers_, buffers_ := l.buffersToWrite_, notEmpty_ := false }

/-- `append_unlocked`: `n` and `results` are what `fwrite` returns, `now` is the
first reading of the clock and `later` the second. Without a file there is
nothing to append to. -/
def append_unlocked (l : AsyncLogger α) (logline : List α) (n : ℕ) (results : List ℕ)
    (now later : ℤ) : Option (AsyncLogger α) :=
  match l.logFile_ with
  | none => none
  | some logFile =>
      (logFile.append logline n results).map fun logFile =>
        let l := { l with logFile_ := some logFile }
        if l.rollSize_ < logFile.writtenBytes_ then rollFile { l with count_ := 0 } now
        else if kCheckTimeRoll_ < l.count_ then
          let l := { l with count_ := 0 }
          if period now ≠ l.startOfPeriod_ then rollFile l later else l
        else { l with count_ := l.count_ + 1 }

/-- One of the two places for a spare in `appendBuffers_unlocked`: an empty one
takes the last buffer written, which is reset. `back()` needs one. -/
def takeBack (l : AsyncLogger α) : Option BufferPtr → Option (AsyncLogger α × BufferPtr)
  | some spare => some (l, spare)
  | none =>
      match l.buffersToWrite_.getLast? with
      | none => none
      | some back =>
          some ({ l with
            buffersToWrite_ := l.buffersToWrite_.dropLast
            memory := Function.update l.memory back [] }, back)

/-- `appendBuffers_unlocked` after its loop: the spares, `clear()` and the
flush. -/
def appendBuffers_unlocked.recycle (l : AsyncLogger α) : Option (AsyncLogger α) :=
  (takeBack l l.buffer1_).bind fun r =>
    let l := { r.1 with buffer1_ := some r.2 }
    (takeBack l l.buffer2_).bind fun r =>
      let l := { r.1 with buffer2_ := some r.2, buffersToWrite_ := [] }
      match l.logFile_ with
      | none => none
      | some logFile => some { l with logFile_ := some logFile.flush }

/-! ## The places of the buffers -/

/-- The buffers a logger holds, place by place. -/
def held (l : AsyncLogger α) : List BufferPtr :=
  l.currentBuffer_.toList ++ l.nextBuffer_.toList ++ l.buffers_ ++ l.buffersToWrite_
    ++ l.buffer1_.toList ++ l.buffer2_.toList

/-- The empty places for a spare. -/
def missing (l : AsyncLogger α) : ℕ :=
  (if l.buffer1_ = none then 1 else 0) + (if l.buffer2_ = none then 1 else 0)

/-- No buffer is in two places, a buffer that is to be filled is empty, and what
has been taken comes back: a full buffer is behind an empty `nextBuffer_`, and a
written one in front of every empty place for a spare. -/
structure Rotation (l : AsyncLogger α) : Prop where
  current : l.currentBuffer_ ≠ none
  nodup : l.held.Nodup
  bound : ∀ b ∈ l.held, b < l.allocated
  clean : ∀ b ∈ l.nextBuffer_.toList ++ l.buffer1_.toList ++ l.buffer2_.toList, l.memory b = []
  next : l.nextBuffer_ = none → l.buffers_ ≠ []
  spares : l.missing ≤ l.buffersToWrite_.length

/-- The files of a logger, in order of opening. -/
def files (l : AsyncLogger α) : List (LogFile α) := l.closed ++ l.logFile_.toList

/-- The files and the places of a logger hold the lines of the conveyor, where
`unwritten` are the buffers taken away and not written yet. -/
structure Conveys (l : AsyncLogger α) (unwritten : List BufferPtr) (c : Conveyor (List α)) :
    Prop where
  files : Conveyor.Spells (l.files.map LogFile.offered) c.out
  unwritten : Conveyor.Spells (unwritten.map l.memory) c.moving
  buffers : Conveyor.Spells (l.buffers_.map l.memory) c.filled
  current : Conveyor.Spells (l.currentBuffer_.toList.map l.memory) [c.current]

/-- The bytes of some buffers. -/
def bytes (l : AsyncLogger α) (buffers : List BufferPtr) : List α :=
  (buffers.map l.memory).flatten

/-- The bytes that no move has taken yet: those of `buffers_`, then those of
`currentBuffer_`. -/
def pending (l : AsyncLogger α) : List α := l.bytes l.buffers_ ++ l.bytes l.currentBuffer_.toList

/-- The bytes that have been passed to the files. -/
def passed (l : AsyncLogger α) : List α := (l.files.map LogFile.offered).flatten

/-- Everything that has been passed to the files has been accepted. -/
def Accepted (l : AsyncLogger α) : Prop := ∀ f ∈ l.files, f.accepted = f.offered

/-- What has been handed over of the lines of the conveyor, in bytes. -/
theorem Conveys.handed {l : AsyncLogger α} {unwritten : List BufferPtr} {c : Conveyor (List α)}
    (h : Conveys l unwritten c) : l.passed ++ l.bytes unwritten = c.handed.flatten := by
  unfold passed bytes Conveyor.handed
  rw [h.files.flatten, h.unwritten.flatten, List.flatten_append]

/-- **The places of a logger spell its lines.** -/
theorem Conveys.items {l : AsyncLogger α} {unwritten : List BufferPtr} {c : Conveyor (List α)}
    (h : Conveys l unwritten c) :
    l.passed ++ l.bytes unwritten ++ l.pending = c.items.flatten := by
  rw [h.handed]
  unfold pending bytes Conveyor.items
  rw [h.buffers.flatten, h.current.flatten, List.flatten_append, List.flatten_append,
    List.flatten_singleton, List.append_assoc]

/-- A roll opens a file after the one that is open, or does nothing. -/
theorem rollFile_cases (l : AsyncLogger α) (now : ℤ) :
    l.rollFile now = l ∨ l.rollFile now = { l with
      lastRoll_ := now, lastFlush_ := now, startOfPeriod_ := period now
      closed := l.closed ++ l.logFile_.toList, logFile_ := some LogFile.make } := by
  unfold rollFile
  split
  · exact Or.inr rfl
  · exact Or.inl rfl

theorem rotation_rollFile {l : AsyncLogger α} (h : Rotation l) (now : ℤ) :
    Rotation (l.rollFile now) := by
  obtain ⟨h1, h2, h3, h4, h5, h6⟩ := h
  rcases rollFile_cases l now with heq | heq
  · rw [heq]
    exact ⟨h1, h2, h3, h4, h5, h6⟩
  · rw [heq]
    exact ⟨h1, h2, h3, h4, h5, h6⟩

theorem rotation_make (rollSize : ℕ) (now : ℤ) : Rotation (make rollSize now : AsyncLogger α) := by
  apply rotation_rollFile
  exact ⟨by simp, by simp [held], by simp [held], fun _ _ => rfl, by simp, by simp [missing]⟩

/-- A new logger has nothing to write. -/
theorem make_frame (rollSize : ℕ) (now : ℤ) : (make rollSize now : AsyncLogger α).notEmpty_ = false
    ∧ (make rollSize now : AsyncLogger α).buffersToWrite_ = []
    ∧ (make rollSize now : AsyncLogger α).pending = [] := by
  unfold make
  rcases rollFile_cases _ now with heq | heq
  · rw [heq]
    exact ⟨rfl, rfl, rfl⟩
  · rw [heq]
    exact ⟨rfl, rfl, rfl⟩

/-- A new logger is an empty conveyor, and has a file if the clock is past its
epoch. -/
theorem conveys_make (rollSize : ℕ) (now : ℤ) : ∃ c : Conveyor (List α),
    Conveys (make rollSize now) [] c ∧ c.items = [] ∧ Accepted (make rollSize now : AsyncLogger α)
      ∧ (0 < now → (make rollSize now : AsyncLogger α).logFile_ ≠ none) := by
  unfold make rollFile
  split
  · refine ⟨⟨[[]], [], [], []⟩, ⟨rfl, rfl, rfl, rfl⟩, rfl, ?_, by simp⟩
    intro f hf
    rw [List.mem_singleton.mp hf]
    rfl
  · rename_i hnow
    refine ⟨⟨[], [], [], []⟩, ⟨rfl, rfl, rfl, rfl⟩, rfl, ?_, fun h => absurd h hnow⟩
    exact fun f hf => absurd hf List.not_mem_nil

/-- What is in two places is counted twice. -/
theorem nodup_iff_count (l : AsyncLogger α) : l.held.Nodup ↔ ∀ b,
    l.currentBuffer_.toList.count b + l.nextBuffer_.toList.count b + l.buffers_.count b
      + l.buffersToWrite_.count b + l.buffer1_.toList.count b + l.buffer2_.toList.count b ≤ 1 := by
  rw [List.nodup_iff_count_le_one]
  simp only [held, List.count_append]

/-! ## `appendToBuffer_locked` -/

section Append

variable {l l' : AsyncLogger α} {logline : List α}

theorem bufferAppend_eq (l : AsyncLogger α) (buffer : BufferPtr) (buf : List α) :
    l.bufferAppend buffer buf = { l with
      memory := if buf.length < l.avail buffer then
          Function.update l.memory buffer (l.memory buffer ++ buf) else l.memory } := by
  unfold bufferAppend
  split
  · rfl
  · rfl

/-- What an append does: the current buffer has room, or it is full and a fresh
one takes its place. A line that is too long for a fresh buffer is dropped. -/
inductive Appended (l : AsyncLogger α) (logline : List α) : AsyncLogger α → Prop where
  | room (current : BufferPtr) (hcurrent : l.currentBuffer_ = some current) :
      Appended l logline { l with
        memory := Function.update l.memory current (l.memory current ++ logline)
        notEmpty_ := true }
  | full (current fresh : BufferPtr) (memory : BufferPtr → List α) (allocated : ℕ)
      (hcurrent : l.currentBuffer_ = some current)
      (hfresh : memory fresh = if logline.length < kBufferSize then logline else [])
      (hframe : ∀ b ∈ l.held, b ≠ fresh → memory b = l.memory b)
      (hnext : l.nextBuffer_ = some fresh ∨ (l.nextBuffer_ = none ∧ fresh ∉ l.held))
      (hbound : fresh < allocated) (hallocated : l.allocated ≤ allocated) :
      Appended l logline { l with
        buffers_ := l.buffers_ ++ [current], currentBuffer_ := some fresh, nextBuffer_ := none
        memory := memory, allocated := allocated, notEmpty_ := true }

/-- The buffer that `fill` makes current is empty, and in no other place. -/
theorem fill_appended {current : BufferPtr} (h : Rotation l)
    (hcurrent : l.currentBuffer_ = some current) (logline : List α) :
    Appended l logline
      { (appendToBuffer_locked.fill l current).1.bufferAppend
          (appendToBuffer_locked.fill l current).2 logline with notEmpty_ := true } := by
  obtain ⟨fresh, memory, allocated, heq, hclean, hframe, hnext, hbound, hallocated⟩ :
      ∃ fresh memory allocated,
        appendToBuffer_locked.fill l current
          = ({ l with
              buffers_ := l.buffers_ ++ [current], currentBuffer_ := some fresh
              nextBuffer_ := none, memory := memory, allocated := allocated }, fresh)
        ∧ memory fresh = [] ∧ (∀ b ∈ l.held, b ≠ fresh → memory b = l.memory b)
        ∧ (l.nextBuffer_ = some fresh ∨ (l.nextBuffer_ = none ∧ fresh ∉ l.held))
        ∧ fresh < allocated ∧ l.allocated ≤ allocated := by
    unfold appendToBuffer_locked.fill
    cases hnext : l.nextBuffer_ with
    | some next =>
        have hheld : next ∈ l.held := by simp [held, hnext]
        exact ⟨next, l.memory, l.allocated, rfl, h.clean next (by simp [hnext]),
          fun _ _ _ => rfl, Or.inl rfl, h.bound next hheld, Nat.le_refl _⟩
    | none =>
        refine ⟨l.allocated, Function.update l.memory l.allocated [], l.allocated + 1, rfl,
          Function.update_self .., fun b _ hb => Function.update_of_ne hb .., Or.inr ⟨rfl, ?_⟩,
          Nat.lt_succ_self _, Nat.le_succ _⟩
        intro hmem
        exact Nat.lt_irrefl _ (h.bound _ hmem)
  obtain ⟨filled, hfilled⟩ : ∃ filled, filled = { l with
      buffers_ := l.buffers_ ++ [current], currentBuffer_ := some fresh, nextBuffer_ := none
      memory := memory, allocated := allocated } := ⟨_, rfl⟩
  have havail : filled.avail fresh = kBufferSize := by
    rw [hfilled]
    show kBufferSize - (memory fresh).length = kBufferSize
    rw [hclean, List.length_nil, Nat.sub_zero]
  have hstate : { (appendToBuffer_locked.fill l current).1.bufferAppend
      (appendToBuffer_locked.fill l current).2 logline with notEmpty_ := true } = { l with
        buffers_ := l.buffers_ ++ [current], currentBuffer_ := some fresh, nextBuffer_ := none
        memory := if logline.length < kBufferSize then
          Function.update memory fresh (memory fresh ++ logline) else memory
        allocated := allocated, notEmpty_ := true } := by
    rw [heq, ← hfilled, bufferAppend_eq, havail, hfilled]
  rw [hstate]
  apply Appended.full current fresh _ allocated hcurrent _ _ hnext hbound hallocated
  · split
    · rw [Function.update_self, hclean, List.nil_append]
    · exact hclean
  · intro b hb hne
    split
    · rw [Function.update_of_ne hne, hframe b hb hne]
    · exact hframe b hb hne

/-- **`appendToBuffer_locked` does not fail**, and does one of the two. -/
theorem append_appended (h : Rotation l) (logline : List α) :
    ∃ l', appendToBuffer_locked l logline = some l' ∧ Appended l logline l' := by
  unfold appendToBuffer_locked
  cases hcurrent : l.currentBuffer_ with
  | none => exact absurd hcurrent h.current
  | some current =>
      refine ⟨_, rfl, ?_⟩
      by_cases hroom : logline.length < l.avail current
      · rw [if_pos hroom, bufferAppend, if_pos hroom]
        exact .room current hcurrent
      · rw [if_neg hroom]
        exact fill_appended h hcurrent logline

theorem rotation_append (h : Rotation l) (ha : Appended l logline l') : Rotation l' := by
  cases ha with
  | room current hcurrent =>
      refine ⟨h.current, h.nodup, h.bound, fun b hb => ?_, h.next, h.spares⟩
      have hne : b ≠ current := by
        rintro rfl
        have hcount := (nodup_iff_count l).mp h.nodup b
        have hpos := List.count_pos_iff.mpr hb
        simp only [hcurrent, Option.toList_some, List.count_singleton_self,
          List.count_append] at hcount hpos
        omega
      simp only [Function.update_of_ne hne]
      exact h.clean b hb
  | full current fresh memory allocated hcurrent hfresh hframe hnext hbound hallocated =>
      -- a fresh buffer comes out of the place of the next one, or from nowhere
      have hplace : ∀ b, [fresh].count b + l.buffers_.count b + [current].count b
          + l.buffersToWrite_.count b + l.buffer1_.toList.count b + l.buffer2_.toList.count b
          ≤ 1 := by
        intro b
        have hcount := (nodup_iff_count l).mp h.nodup b
        rw [hcurrent, Option.toList_some] at hcount
        rcases hnext with hnext | ⟨hnext, hmem⟩
        · rw [hnext, Option.toList_some] at hcount
          omega
        · by_cases hb : b = fresh
          · have hzero := List.count_eq_zero.mpr hmem
            simp only [held, hcurrent, List.count_append, Option.toList_some] at hzero
            rw [hb, List.count_singleton_self]
            omega
          · rw [List.count_singleton, if_neg (by simpa using Ne.symm hb)]
            omega
      refine ⟨by simp, ?_, ?_, ?_, by simp, h.spares⟩
      · rw [nodup_iff_count]
        intro b
        have := hplace b
        simp only [Option.toList_some, Option.toList_none, List.count_nil, List.count_append]
        omega
      · intro b hb
        by_cases hfresh : b = fresh
        · rw [hfresh]
          exact hbound
        · apply Nat.lt_of_lt_of_le (h.bound b _) hallocated
          simp only [held, hcurrent, Option.toList_some, Option.toList_none, List.mem_append,
            List.mem_singleton, List.not_mem_nil, or_false] at hb ⊢
          tauto
      · intro b hb
        have hne : b ≠ fresh := by
          rintro rfl
          have hcount := hplace b
          have hpos := List.count_pos_iff.mpr hb
          simp only [Option.toList_none, List.nil_append, List.count_append,
            List.count_singleton_self] at hcount hpos
          omega
        show memory b = []
        rw [hframe b _ hne]
        · apply h.clean b
          simp only [List.mem_append] at hb ⊢
          tauto
        · simp only [held, List.mem_append, Option.toList_none, List.not_mem_nil] at hb ⊢
          tauto

/-- An append leaves the backend's buffers and the files alone. -/
theorem Appended.frame (ha : Appended l logline l') :
    l'.notEmpty_ = true ∧ l'.buffersToWrite_ = l.buffersToWrite_ ∧ l'.logFile_ = l.logFile_
      ∧ l'.files = l.files := by
  cases ha with
  | room current hcurrent => exact ⟨rfl, rfl, rfl, rfl⟩
  | full current fresh memory allocated hcurrent hfresh hframe hnext hbound hallocated =>
      exact ⟨rfl, rfl, rfl, rfl⟩

/-- The other buffers are not the current one. -/
theorem ne_current {current b : BufferPtr} (h : l.held.Nodup)
    (hcurrent : l.currentBuffer_ = some current)
    (hb : b ∈ l.buffers_ ++ l.buffersToWrite_) : b ≠ current := by
  rintro rfl
  have hcount := (nodup_iff_count l).mp h b
  have hpos := List.count_pos_iff.mpr hb
  simp only [hcurrent, Option.toList_some, List.count_singleton_self, List.count_append]
    at hcount hpos
  omega

/-- The buffers with lines are not the one that is to be filled. -/
theorem ne_fresh {fresh b : BufferPtr} (h : l.held.Nodup)
    (hnext : l.nextBuffer_ = some fresh ∨ (l.nextBuffer_ = none ∧ fresh ∉ l.held))
    (hb : b ∈ l.currentBuffer_.toList ++ l.buffers_ ++ l.buffersToWrite_) : b ≠ fresh := by
  rintro rfl
  rcases hnext with hnext | ⟨-, hmem⟩
  · have hcount := (nodup_iff_count l).mp h b
    have hpos := List.count_pos_iff.mpr hb
    simp only [hnext, Option.toList_some, List.count_singleton_self, List.count_append]
      at hcount hpos
    omega
  · apply hmem
    simp only [held, List.mem_append] at hb ⊢
    tauto

/-- An append of a line that fits a buffer puts it on the conveyor. -/
theorem conveys_append {unwritten : List BufferPtr} {c : Conveyor (List α)} (h : Rotation l)
    (ha : Appended l logline l') (hshort : logline.length < kBufferSize)
    (hun : ∀ b ∈ unwritten, b ∈ l.buffersToWrite_) (hc : Conveys l unwritten c) :
    ∃ d, Conveyor.Step [logline] c d ∧ Conveys l' unwritten d := by
  obtain ⟨hfiles, hunwritten, hbuffers, hcur⟩ := hc
  cases ha with
  | room current hcurrent =>
      have hframe : ∀ b ∈ l.buffers_ ++ l.buffersToWrite_,
          Function.update l.memory current (l.memory current ++ logline) b = l.memory b :=
        fun b hb => Function.update_of_ne (ne_current h.nodup hcurrent hb) ..
      refine ⟨_, .add logline, hfiles, ?_, ?_, ?_⟩
      · show Conveyor.Spells (unwritten.map _) c.moving
        rw [List.map_congr_left fun b hb => hframe b (List.mem_append_right _ (hun b hb))]
        exact hunwritten
      · show Conveyor.Spells (l.buffers_.map _) c.filled
        rw [List.map_congr_left fun b hb => hframe b (List.mem_append_left _ hb)]
        exact hbuffers
      · simp only [hcurrent, Option.toList_some, List.map_cons, List.map_nil] at hcur ⊢
        rw [Function.update_self]
        obtain ⟨group, rest, hgroup, hbytes, -⟩ := Conveyor.spells_cons hcur
        obtain ⟨rfl, rfl⟩ := List.cons.inj hgroup
        apply Conveyor.spells_singleton
        rw [hbytes, List.flatten_append, List.flatten_singleton]
  | full current fresh memory allocated hcurrent hfresh hframe hnext hbound hallocated =>
      have hkeep : ∀ b ∈ l.currentBuffer_.toList ++ l.buffers_ ++ l.buffersToWrite_,
          memory b = l.memory b := by
        intro b hb
        apply hframe b _ (ne_fresh h.nodup hnext hb)
        simp only [held, List.mem_append] at hb ⊢
        tauto
      refine ⟨_, .fill logline, hfiles, ?_, ?_, ?_⟩
      · show Conveyor.Spells (unwritten.map memory) c.moving
        rw [List.map_congr_left fun b hb => hkeep b (List.mem_append_right _ (hun b hb))]
        exact hunwritten
      · show Conveyor.Spells ((l.buffers_ ++ [current]).map memory) (c.filled ++ [c.current])
        rw [List.map_congr_left fun b hb => hkeep b ?_, List.map_append]
        · rw [hcurrent] at hcur
          exact hbuffers.append hcur
        · rw [hcurrent, Option.toList_some]
          simp only [List.mem_append] at hb ⊢
          tauto
      · apply Conveyor.spells_singleton
        show memory fresh = [logline].flatten
        rw [hfresh, if_pos hshort, List.flatten_singleton]

end Append

/-! ## `swapBuffersToWrite_locked` -/

section Swap

variable {l l' : AsyncLogger α}

/-- With nothing left to write the places of both spares are taken. -/
theorem Rotation.spare (h : Rotation l) (hidle : l.buffersToWrite_ = []) :
    l.buffer1_ ≠ none ∧ l.buffer2_ ≠ none := by
  have hspares := h.spares
  rw [hidle, missing, List.length_nil] at hspares
  constructor
  · intro h1
    rw [if_pos h1] at hspares
    omega
  · intro h2
    rw [if_pos h2] at hspares
    omega

/-- What the move does: `dirty` is whether the current buffer has bytes. -/
theorem swap_eq {current : BufferPtr} (hcurrent : l.currentBuffer_ = some current) :
    swapBuffersToWrite_locked l = some { l with
      buffersToWrite_ :=
        if 0 < (l.memory current).length then l.buffers_ ++ [current] else l.buffers_
      currentBuffer_ := if 0 < (l.memory current).length then l.buffer1_ else l.currentBuffer_
      buffer1_ := if 0 < (l.memory current).length then none else l.buffer1_
      nextBuffer_ := if l.nextBuffer_ = none then l.buffer2_ else l.nextBuffer_
      buffer2_ := if l.nextBuffer_ = none then none else l.buffer2_
      buffers_ := l.buffersToWrite_, notEmpty_ := false } := by
  unfold swapBuffersToWrite_locked
  rw [hcurrent]
  by_cases hdirty : 0 < (l.memory current).length
  · by_cases hnext : l.nextBuffer_ = none
    · simp [hdirty, hnext]
    · simp [hdirty, hnext]
  · by_cases hnext : l.nextBuffer_ = none
    · simp [hdirty, hnext, hcurrent]
    · simp [hdirty, hnext, hcurrent]

/-- The move only moves. -/
theorem held_swap {current : BufferPtr} (hcurrent : l.currentBuffer_ = some current)
    (hs : swapBuffersToWrite_locked l = some l') : l'.held.Perm l.held := by
  rw [swap_eq hcurrent] at hs
  obtain rfl := Option.some.inj hs
  rw [List.perm_iff_count]
  intro b
  simp only [held, List.count_append, hcurrent, Option.toList_some]
  by_cases hdirty : 0 < (l.memory current).length
  · simp only [if_pos hdirty, List.count_append, Option.toList_none, List.count_nil]
    by_cases hnext : l.nextBuffer_ = none
    · simp only [hnext, if_true, Option.toList_none, List.count_nil]
      omega
    · simp only [if_neg hnext]
      omega
  · simp only [if_neg hdirty, Option.toList_some]
    by_cases hnext : l.nextBuffer_ = none
    · simp only [hnext, if_true, Option.toList_none, List.count_nil]
      omega
    · simp only [if_neg hnext]
      omega

theorem rotation_swap (h : Rotation l) (hidle : l.buffersToWrite_ = [])
    (hs : swapBuffersToWrite_locked l = some l') : Rotation l' := by
  obtain ⟨current, hcurrent⟩ := Option.ne_none_iff_exists'.mp h.current
  obtain ⟨h1, h2⟩ := h.spare hidle
  have hperm := held_swap hcurrent hs
  rw [swap_eq hcurrent] at hs
  obtain rfl := Option.some.inj hs
  -- the place of the next buffer is full afterwards
  have hnext : (if l.nextBuffer_ = none then l.buffer2_ else l.nextBuffer_) ≠ none := by
    split
    · exact h2
    · assumption
  refine ⟨?_, hperm.nodup_iff.mpr h.nodup, fun b hb => h.bound b (hperm.mem_iff.mp hb), ?_,
    fun hn => absurd hn hnext, ?_⟩
  · dsimp only
    split
    · exact h1
    · exact h.current
  · intro b hb
    apply h.clean b
    simp only [List.mem_append] at hb ⊢
    rcases hb with (hb | hb) | hb
    · split at hb
      · exact Or.inr hb
      · exact Or.inl (Or.inl hb)
    · split at hb
      · cases hb
      · exact Or.inl (Or.inr hb)
    · split at hb
      · cases hb
      · exact Or.inr hb
  · -- a place that has been emptied has a buffer in front of it
    have hlength : (if l.nextBuffer_ = none then 1 else 0) ≤ l.buffers_.length := by
      split
      · rename_i hn
        exact List.length_pos_iff.mpr (h.next hn)
      · exact Nat.zero_le _
    simp only [missing]
    by_cases hdirty : 0 < (l.memory current).length
    · by_cases hn : l.nextBuffer_ = none
      · simp only [if_pos hdirty, if_pos hn, List.length_append, List.length_singleton] at *
        simpa using hlength
      · simp only [if_pos hdirty, if_neg hn, if_neg h2, List.length_append]
        simp
    · by_cases hn : l.nextBuffer_ = none
      · simp only [if_neg hdirty, if_pos hn, if_neg h1] at *
        simpa using hlength
      · simp only [if_neg hdirty, if_neg hn, if_neg h1, if_neg h2]
        exact Nat.zero_le _

/-- The move takes everything collected. The current buffer stays where it is if
it has no bytes. -/
theorem conveys_swap {c : Conveyor (List α)} (h : Rotation l) (hidle : l.buffersToWrite_ = [])
    (hs : swapBuffersToWrite_locked l = some l') (hc : Conveys l [] c) :
    ∃ d, Conveyor.Step [] c d ∧ Conveys l' l'.buffersToWrite_ d := by
  obtain ⟨current, hcurrent⟩ := Option.ne_none_iff_exists'.mp h.current
  obtain ⟨spare, hspare⟩ := Option.ne_none_iff_exists'.mp (h.spare hidle).1
  obtain ⟨hfiles, hunwritten, hbuffers, hcur⟩ := hc
  have hmoving : c.moving = [] := by
    rw [Conveyor.Spells, List.map_nil] at hunwritten
    exact List.map_eq_nil_iff.mp hunwritten.symm
  rw [swap_eq hcurrent] at hs
  obtain rfl := Option.some.inj hs
  by_cases hdirty : 0 < (l.memory current).length
  · refine ⟨_, .take hmoving, hfiles, ?_, ?_, ?_⟩
    · simp only [if_pos hdirty, List.map_append]
      rw [hcurrent] at hcur
      exact hbuffers.append hcur
    · simp only [hidle]
      exact Conveyor.spells_nil
    · simp only [if_pos hdirty, hspare]
      apply Conveyor.spells_singleton
      exact h.clean spare (by simp [hspare])
  · refine ⟨_, .takeFilled hmoving, hfiles, ?_, ?_, ?_⟩
    · simp only [if_neg hdirty]
      exact hbuffers
    · simp only [hidle]
      exact Conveyor.spells_nil
    · simp only [if_neg hdirty]
      exact hcur

/-- The move leaves the files alone. -/
theorem swap_frame (h : Rotation l) (hs : swapBuffersToWrite_locked l = some l') :
    l'.notEmpty_ = false ∧ l'.logFile_ = l.logFile_ ∧ l'.files = l.files := by
  obtain ⟨current, hcurrent⟩ := Option.ne_none_iff_exists'.mp h.current
  rw [swap_eq hcurrent] at hs
  obtain rfl := Option.some.inj hs
  exact ⟨rfl, rfl, rfl⟩

/-- The move leaves nothing behind. -/
theorem pending_swap (h : Rotation l) (hidle : l.buffersToWrite_ = [])
    (hs : swapBuffersToWrite_locked l = some l') : l'.pending = [] := by
  obtain ⟨current, hcurrent⟩ := Option.ne_none_iff_exists'.mp h.current
  obtain ⟨spare, hspare⟩ := Option.ne_none_iff_exists'.mp (h.spare hidle).1
  rw [swap_eq hcurrent] at hs
  obtain rfl := Option.some.inj hs
  unfold pending bytes
  by_cases hdirty : 0 < (l.memory current).length
  · have hclean := h.clean spare (by simp [hspare])
    simp [hidle, hdirty, hspare, hclean]
  · have hempty := List.eq_nil_of_length_eq_zero (Nat.eq_zero_of_not_pos hdirty)
    simp [hidle, hcurrent, hempty]

end Swap

/-! ## The backend's part -/

section Write

variable {l l' : AsyncLogger α} {logline : List α} {n : ℕ} {results : List ℕ} {now later : ℤ}

/-- A write passes the bytes to the open file, and may close that file after
it. The buffers are left alone. -/
theorem append_unlocked_cases (h : append_unlocked l logline n results now later = some l') :
    ∃ f f', l.logFile_ = some f ∧ f.append logline n results = some f'
      ∧ (l'.files = l.closed ++ [f'] ∨ l'.files = l.closed ++ [f'] ++ [LogFile.make])
      ∧ l'.logFile_ ≠ none
      ∧ ∃ count start roll flush closed logFile, l' = { l with
          count_ := count, startOfPeriod_ := start, lastRoll_ := roll, lastFlush_ := flush
          closed := closed, logFile_ := logFile } := by
  unfold append_unlocked at h
  cases hfile : l.logFile_ with
  | none => rw [hfile] at h; cases h
  | some f =>
      rw [hfile] at h
      obtain ⟨f', hf', rfl⟩ := Option.map_eq_some_iff.mp h
      refine ⟨f, f', rfl, hf', ?_⟩
      dsimp only
      -- all three outcomes are a roll or not of the same logger
      have hroll : ∀ count now, ∃ l1,
          l1 = rollFile { l with count_ := count, logFile_ := some f' } now
          ∧ (l1.files = l.closed ++ [f'] ∨ l1.files = l.closed ++ [f'] ++ [LogFile.make])
          ∧ l1.logFile_ ≠ none
          ∧ ∃ count start roll flush closed logFile, l1 = { l with
              count_ := count, startOfPeriod_ := start, lastRoll_ := roll, lastFlush_ := flush
              closed := closed, logFile_ := logFile } := by
        intro count now
        refine ⟨_, rfl, ?_⟩
        rcases rollFile_cases { l with count_ := count, logFile_ := some f' } now with heq | heq
        · rw [heq]
          exact ⟨Or.inl rfl, by simp, _, _, _, _, _, _, rfl⟩
        · rw [heq]
          exact ⟨Or.inr rfl, by simp, _, _, _, _, _, _, rfl⟩
      split
      · obtain ⟨l1, rfl, hl1⟩ := hroll 0 now
        exact hl1
      · split
        · split
          · obtain ⟨l1, rfl, hl1⟩ := hroll 0 later
            exact hl1
          · exact ⟨Or.inl rfl, by simp, _, _, _, _, _, _, rfl⟩
        · exact ⟨Or.inl rfl, by simp, _, _, _, _, _, _, rfl⟩

theorem rotation_write (h : Rotation l)
    (hw : append_unlocked l logline n results now later = some l') : Rotation l' := by
  obtain ⟨f, f', -, -, -, -, count, start, roll, flush, closed, logFile, rfl⟩ :=
    append_unlocked_cases hw
  obtain ⟨h1, h2, h3, h4, h5, h6⟩ := h
  exact ⟨h1, h2, h3, h4, h5, h6⟩

/-- A write delivers the next group. -/
theorem conveys_write {b : BufferPtr} {unwritten : List BufferPtr} {c : Conveyor (List α)}
    (hw : append_unlocked l (l.memory b) n results now later = some l')
    (hc : Conveys l (b :: unwritten) c) :
    ∃ d, Conveyor.Step [] c d ∧ Conveys l' unwritten d := by
  obtain ⟨f, f', hfile, hf', hfiles', -, count, start, roll, flush, closed, logFile, hl'⟩ :=
    append_unlocked_cases hw
  obtain ⟨hfiles, hunwritten, hbuffers, hcur⟩ := hc
  rw [files, hfile, Option.toList_some, List.map_append] at hfiles
  obtain ⟨out, batch, hout, hclosed, hbatch⟩ := Conveyor.spells_concat hfiles
  obtain ⟨group, moving, hmoving, hgroup, hrest⟩ := Conveyor.spells_cons hunwritten
  have hopen : Conveyor.Spells ((l.closed ++ [f']).map LogFile.offered)
      (out ++ [batch ++ group]) := by
    rw [List.map_append]
    apply hclosed.append
    apply Conveyor.spells_singleton
    rw [LogFile.append_offered hf', hbatch, hgroup, List.flatten_append]
  rcases hfiles' with hfiles' | hfiles'
  · refine ⟨_, .deliver out batch group moving hout hmoving, ?_, ?_, ?_, ?_⟩
    · rw [hfiles']
      exact hopen
    · rw [hl']
      exact hrest
    · rw [hl']
      exact hbuffers
    · rw [hl']
      exact hcur
  · refine ⟨_, .deliverLast out batch group moving hout hmoving, ?_, ?_, ?_, ?_⟩
    · rw [hfiles', List.map_append]
      exact hopen.append (Conveyor.spells_singleton rfl)
    · rw [hl']
      exact hrest
    · rw [hl']
      exact hbuffers
    · rw [hl']
      exact hcur

theorem pending_write (hw : append_unlocked l logline n results now later = some l') :
    l'.pending = l.pending := by
  obtain ⟨f, f', -, -, -, -, count, start, roll, flush, closed, logFile, rfl⟩ :=
    append_unlocked_cases hw
  rfl

theorem accepted_write (h : Accepted l) (hzero : 0 ∉ results)
    (hw : append_unlocked l logline n results now later = some l') : Accepted l' := by
  obtain ⟨f, f', hfile, hf', hfiles', -⟩ := append_unlocked_cases hw
  have hf : f.accepted = f.offered := h f (by simp [files, hfile])
  have hopen : ∀ g ∈ l.closed ++ [f'], g.accepted = g.offered := by
    intro g hg
    rcases List.mem_append.mp hg with hg | hg
    · exact h g (List.mem_append_left _ hg)
    · rw [List.mem_singleton.mp hg, LogFile.append_accepted hzero hf', LogFile.append_offered hf',
        hf]
  intro g hg
  rcases hfiles' with hfiles' | hfiles'
  · rw [hfiles'] at hg
    exact hopen g hg
  · rw [hfiles'] at hg
    rcases List.mem_append.mp hg with hg | hg
    · exact hopen g hg
    · rw [List.mem_singleton.mp hg]
      rfl

/-- With a file there is always a write that goes through. -/
theorem append_unlocked_whole (h : l.logFile_ ≠ none) (logline : List α) (now later : ℤ) :
    ∃ l', append_unlocked l logline logline.length [] now later = some l' := by
  obtain ⟨f, hfile⟩ := Option.ne_none_iff_exists'.mp h
  obtain ⟨f', hf'⟩ := LogFile.append_whole f logline
  unfold append_unlocked
  rw [hfile]
  exact ⟨_, Option.map_eq_some_iff.mpr ⟨f', hf', rfl⟩⟩

/-- A place for a spare keeps its buffer, or gets one that has been written. -/
theorem takeBack_eq {spare : Option BufferPtr} (hneed : spare = none → l.buffersToWrite_ ≠ []) :
    ∃ buffer toWrite memory,
      takeBack l spare = some ({ l with buffersToWrite_ := toWrite, memory := memory }, buffer)
      ∧ ((∀ b ∈ spare.toList, l.memory b = []) → memory buffer = [])
      ∧ (∀ b, l.memory b = [] → memory b = [])
      ∧ (∀ b, b ∉ l.buffersToWrite_ → memory b = l.memory b)
      ∧ toWrite.Sublist l.buffersToWrite_
      ∧ toWrite.length + (if spare = none then 1 else 0) = l.buffersToWrite_.length
      ∧ ∀ b, toWrite.count b + [buffer].count b
          = l.buffersToWrite_.count b + spare.toList.count b := by
  cases spare with
  | some buffer =>
      exact ⟨buffer, l.buffersToWrite_, l.memory, rfl, fun h => h buffer (by simp), fun _ h => h,
        fun _ _ => rfl, List.Sublist.refl _, rfl, fun _ => rfl⟩
  | none =>
      obtain ⟨toWrite, back, hback⟩ : ∃ toWrite back, l.buffersToWrite_ = toWrite ++ [back] :=
        ⟨_, _, (List.dropLast_append_getLast (hneed rfl)).symm⟩
      refine ⟨back, toWrite, Function.update l.memory back [], ?_,
        fun _ => Function.update_self .., ?_, ?_, ?_, ?_, ?_⟩
      · simp [takeBack, hback]
      · intro b hb
        by_cases hne : b = back
        · rw [hne, Function.update_self]
        · rw [Function.update_of_ne hne, hb]
      · intro b hb
        apply Function.update_of_ne
        rintro rfl
        exact hb (by rw [hback]; simp)
      · rw [hback]
        exact List.sublist_append_left _ _
      · rw [hback]
        simp
      · intro b
        rw [hback]
        simp [List.count_append]

/-- **The end of `appendBuffers_unlocked` does not fail** for a logger with a
file: there is a buffer behind every `back()`. Both spares are empty afterwards,
and come from where the spares and the written buffers were. -/
theorem recycle_eq (h : Rotation l) :
    ∃ spare1 spare2 memory,
      appendBuffers_unlocked.recycle l = l.logFile_.map (fun logFile => { l with
        buffer1_ := some spare1, buffer2_ := some spare2, buffersToWrite_ := []
        memory := memory, logFile_ := some logFile.flush })
      ∧ memory spare1 = [] ∧ memory spare2 = []
      ∧ (∀ b, l.memory b = [] → memory b = [])
      ∧ (∀ b, b ∉ l.buffersToWrite_ → memory b = l.memory b)
      ∧ ∀ b, [spare1].count b + [spare2].count b
          ≤ l.buffersToWrite_.count b + l.buffer1_.toList.count b + l.buffer2_.toList.count b := by
  have hspares := h.spares
  unfold missing at hspares
  -- the first place
  have hneed1 : l.buffer1_ = none → l.buffersToWrite_ ≠ [] := by
    intro h1 hnil
    rw [if_pos h1, hnil, List.length_nil] at hspares
    omega
  obtain ⟨spare1, rest1, memory1, heq1, hspare1, hclean1, hframe1, hsub1, hlen1, hcount1⟩ :=
    takeBack_eq hneed1
  -- the second, after the first
  obtain ⟨l1, hl1⟩ : ∃ l1, l1 = { l with
      buffersToWrite_ := rest1, memory := memory1, buffer1_ := some spare1 } := ⟨_, rfl⟩
  have hneed2 : l.buffer2_ = none → l1.buffersToWrite_ ≠ [] := by
    intro h2 hnil
    rw [hl1] at hnil
    rw [if_pos h2, ← hlen1, show rest1 = [] from hnil, List.length_nil] at hspares
    omega
  obtain ⟨spare2, rest2, memory2, heq2, hspare2, hclean2, hframe2, hsub2, -, hcount2⟩ :=
    takeBack_eq hneed2
  have hspare1' : memory1 spare1 = [] := hspare1 fun b hb => h.clean b (by simp at hb; simp [hb])
  refine ⟨spare1, spare2, memory2, ?_, ?_, ?_, ?_, ?_, ?_⟩
  · unfold appendBuffers_unlocked.recycle
    rw [heq1]
    simp only [Option.bind_some]
    rw [← hl1, heq2]
    simp only [Option.bind_some]
    rw [hl1]
    cases l.logFile_ with
    | none => rfl
    | some logFile => rfl
  · apply hclean2
    rw [hl1]
    exact hspare1'
  · apply hspare2
    intro b hb
    rw [hl1]
    exact hclean1 b (h.clean b (by simp at hb; simp [hb]))
  · intro b hb
    apply hclean2
    rw [hl1]
    exact hclean1 b hb
  · intro b hb
    rw [hframe2 b, hl1]
    · exact hframe1 b hb
    · rw [hl1]
      exact fun hmem => hb (hsub1.subset hmem)
  · intro b
    have h1 := hcount1 b
    have h2 := hcount2 b
    rw [hl1] at h2
    simp only at h2
    omega

/-- The places of the spares may be filled with what comes out of them and of
the written buffers, if what comes is empty. -/
theorem Rotation.refill (h : Rotation l) (spare1 spare2 : Option BufferPtr)
    (toWrite : List BufferPtr) {memory : BufferPtr → List α}
    (hclean : ∀ b, l.memory b = [] → memory b = [])
    (hcount : ∀ b, toWrite.count b + spare1.toList.count b + spare2.toList.count b
      ≤ l.buffersToWrite_.count b + l.buffer1_.toList.count b + l.buffer2_.toList.count b)
    (hempty : ∀ b ∈ spare1.toList ++ spare2.toList, memory b = [])
    (hspares : missing { l with
      buffersToWrite_ := toWrite, memory := memory, buffer1_ := spare1, buffer2_ := spare2 }
      ≤ toWrite.length) :
    Rotation { l with
      buffersToWrite_ := toWrite, memory := memory, buffer1_ := spare1, buffer2_ := spare2 } := by
  have hle : ∀ b, List.count b (held { l with
      buffersToWrite_ := toWrite, memory := memory, buffer1_ := spare1, buffer2_ := spare2 })
      ≤ l.held.count b := by
    intro b
    have := hcount b
    simp only [held, List.count_append]
    omega
  refine ⟨h.current, ?_, ?_, ?_, h.next, hspares⟩
  · rw [List.nodup_iff_count_le_one]
    intro b
    exact Nat.le_trans (hle b) (List.nodup_iff_count_le_one.mp h.nodup b)
  · intro b hb
    apply h.bound b
    exact List.count_pos_iff.mp (Nat.lt_of_lt_of_le (List.count_pos_iff.mpr hb) (hle b))
  · intro b hb
    simp only [List.append_assoc] at hb
    rcases List.mem_append.mp hb with hb | hb
    · apply hclean b
      apply h.clean b
      simp only [List.mem_append]
      exact Or.inl (Or.inl hb)
    · exact hempty b hb

theorem rotation_recycle (h : Rotation l) (hr : appendBuffers_unlocked.recycle l = some l') :
    Rotation l' := by
  obtain ⟨spare1, spare2, memory, heq, hspare1, hspare2, hclean, -, hcount⟩ := recycle_eq h
  rw [heq] at hr
  obtain ⟨logFile, -, rfl⟩ := Option.map_eq_some_iff.mp hr
  obtain ⟨h1, h2, h3, h4, h5, h6⟩ := h.refill (some spare1) (some spare2) [] hclean
    (fun b => by
      have := hcount b
      simp only [Option.toList_some, List.count_nil]
      omega) (fun b hb => by
      rcases List.mem_append.mp hb with hb | hb
      · rw [List.mem_singleton.mp hb, hspare1]
      · rw [List.mem_singleton.mp hb, hspare2]) (by simp [missing])
  exact ⟨h1, h2, h3, h4, h5, h6⟩

/-- What it resets is none of the buffers that hold lines for the next move. -/
theorem recycle_keeps (h : Rotation l) (hr : appendBuffers_unlocked.recycle l = some l') :
    l'.buffers_ = l.buffers_ ∧ l'.currentBuffer_ = l.currentBuffer_
      ∧ ∀ b ∈ l.buffers_ ++ l.currentBuffer_.toList, l'.memory b = l.memory b := by
  obtain ⟨spare1, spare2, memory, heq, -, -, -, hframe, -⟩ := recycle_eq h
  rw [heq] at hr
  obtain ⟨logFile, hfile, rfl⟩ := Option.map_eq_some_iff.mp hr
  refine ⟨rfl, rfl, fun b hb => hframe b fun hmem => ?_⟩
  have hcount := (nodup_iff_count l).mp h.nodup b
  have hpos1 := List.count_pos_iff.mpr hb
  have hpos2 := List.count_pos_iff.mpr hmem
  rw [List.count_append] at hpos1
  omega

theorem pending_recycle (h : Rotation l) (hr : appendBuffers_unlocked.recycle l = some l') :
    l'.pending = l.pending := by
  obtain ⟨hbuffers, hcurrent, hkeep⟩ := recycle_keeps h hr
  unfold pending bytes
  rw [hbuffers, hcurrent, List.map_congr_left fun b hb => hkeep b (List.mem_append_left _ hb),
    List.map_congr_left fun b hb => hkeep b (List.mem_append_right _ hb)]

/-- With everything written, the end of `appendBuffers_unlocked` is no step of
the lines. -/
theorem conveys_recycle {c : Conveyor (List α)} (h : Rotation l)
    (hr : appendBuffers_unlocked.recycle l = some l') (hc : Conveys l [] c) :
    Conveys l' [] c := by
  obtain ⟨hbuffers', hcurrent', hkeep⟩ := recycle_keeps h hr
  obtain ⟨hfiles, hunwritten, hbuffers, hcur⟩ := hc
  refine ⟨?_, hunwritten, ?_, ?_⟩
  · obtain ⟨spare1, spare2, memory, heq, -⟩ := recycle_eq h
    rw [heq] at hr
    obtain ⟨logFile, hfile, rfl⟩ := Option.map_eq_some_iff.mp hr
    rw [files, hfile, List.map_append] at hfiles
    show Conveyor.Spells ((l.closed ++ [logFile.flush]).map LogFile.offered) c.out
    rw [List.map_append]
    exact hfiles
  · rw [hbuffers', List.map_congr_left fun b hb => hkeep b (List.mem_append_left _ hb)]
    exact hbuffers
  · rw [hcurrent', List.map_congr_left fun b hb => hkeep b (List.mem_append_right _ hb)]
    exact hcur

theorem accepted_recycle (h : Rotation l) (ha : Accepted l)
    (hr : appendBuffers_unlocked.recycle l = some l') : Accepted l' := by
  obtain ⟨spare1, spare2, memory, heq, -⟩ := recycle_eq h
  rw [heq] at hr
  obtain ⟨logFile, hfile, rfl⟩ := Option.map_eq_some_iff.mp hr
  intro f hf
  rcases List.mem_append.mp hf with hf | hf
  · exact ha f (List.mem_append_left _ hf)
  · rw [Option.toList_some, List.mem_singleton] at hf
    rw [hf]
    exact ha logFile (by simp [files, hfile])

end Write

end AsyncLogger

end Libiak.Log
