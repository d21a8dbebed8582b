/-
`log/LogMessage.cpp`: one message, from its constructor through what the user
inserts to the destructor that passes its text on.

The destructor ends the text with a newline like with any other item: if the
stream has no room for it, it is left out, and the next message continues the
line. `ends_line_iff` says exactly when that does not happen, in terms of the
stream as the destructor finds it and, for a `DLogMessage`, of the file name,
which comes before the newline and may be dropped itself.
-/
import Libiak.LogStream

set_option autoImplicit false

namespace Libiak.Log

inductive LogLevel
  | TRACE | DEBUG | INFO | WARN | ERROR | FATAL
  deriving DecidableEq

def LogLevelName : LogLevel → List Char
  | .TRACE => ['T', 'R', 'A', 'C', 'E', ' ']
  | .DEBUG => ['D', 'E', 'B', 'U', 'G', ' ']
  | .INFO => ['I', 'N', 'F', 'O', ' ', ' ']
  | .WARN => ['W', 'A', 'R', 'N', ' ', ' ']
  | .ERROR => ['E', 'R', 'R', 'O', 'R', ' ']
  | .FATAL => ['F', 'A', 'T', 'A', 'L', ' ']

/-- What a constructor reads of the clock: `t_time`, a C string in 32 bytes, and
the microseconds as `LogFormat` prints them. -/
structure Clock where
  t_time : List Char
  us : LogFormat
  length_lt : t_time.length < 32

/-- `strrchr`: the text from the last `c` on. -/
def strrchr (c : Char) : List Char → Option (List Char)
  | [] => none
  | x :: xs =>
      match strrchr c xs with
      | some rest => some rest
      | none => if x = c then some (x :: xs) else none

/-- What a destructor does with the text: `logger_->append` or `fwrite` to
`stdout`, and whether it then flushes and aborts. -/
structure Passed where
  toLogger : Bool
  text : List Char
  aborts : Bool

/-! ## `class DLogMessage` -/

/-- `class DLogMessage`; of the pointer `logger_`, whether there is one. -/
structure DLogMessage where
  stream_ : LogStream
  logger_ : Bool
  filename_ : List Char
  line_ : Int32
  level_ : LogLevel

namespace DLogMessage

def insert (m : DLogMessage) (vs : List Insertion) : Option DLogMessage :=
  (m.stream_.insertAll vs).map fun stream_ => { m with stream_ }

/-- The constructor that the other two delegate to. -/
def make (logger : Bool) (clock : Clock) (filename : List Char) (line : Int32)
    (level : LogLevel) : Option DLogMessage :=
  insert ⟨LogStream.make, logger, filename, line, level⟩
    [.cString clock.t_time, .cString clock.us.text, .cString (LogLevelName level)]

/-- The constructor with a function name. -/
def makeFunc (logger : Bool) (clock : Clock) (filename : List Char) (line : Int32)
    (level : LogLevel) (func : List Char) : Option DLogMessage :=
  (make logger clock filename line level).bind fun m => m.insert [.cString func, .char ' ']

/-- The constructor that reports `errno`; `strerror_tl` is its text. -/
def makeErrno (logger : Bool) (clock : Clock) (filename : List Char) (line : Int32)
    (toAbort : Bool) (savedErrno : Int32) (strerror_tl : List Char) : Option DLogMessage :=
  (make logger clock filename line (if toAbort then .FATAL else .ERROR)).bind fun m =>
    if savedErrno = 0 then some m
    else m.insert [.cString strerror_tl, .cString [' ', '(', 'e', 'r', 'r', 'n', 'o', '='],
      .int savedErrno, .cString [')', ' ']]

/-- The file name behind the last slash. -/
def basename (m : DLogMessage) : List Char :=
  match strrchr '/' m.filename_ with
  | some slash => slash.tail
  | none => m.filename_

/-- The destructor. -/
def destroy (m : DLogMessage) : Option Passed :=
  (m.stream_.insertAll [.cString [' ', '-', ' '], .cString m.basename, .char ':', .int m.line_,
    .char '\n']).map fun stream_ => ⟨m.logger_, stream_.text, m.level_ = .FATAL⟩

end DLogMessage

/-! ## `class LogMessage` -/

/-- `class LogMessage`. -/
structure LogMessage where
  stream_ : LogStream
  logger_ : Bool

namespace LogMessage

def insert (m : LogMessage) (vs : List Insertion) : Option LogMessage :=
  (m.stream_.insertAll vs).map fun stream_ => { m with stream_ }

def make (logger : Bool) (clock : Clock) (level : LogLevel) : Option LogMessage :=
  insert ⟨LogStream.make, logger⟩
    [.cString clock.t_time, .cString clock.us.text, .cString (LogLevelName level)]

/-- The destructor. -/
def destroy (m : LogMessage) : Option Passed :=
  (m.stream_.insertAll [.char '\n']).map fun stream_ => ⟨m.logger_, stream_.text, false⟩

end LogMessage

/-! ## When the text ends with a newline -/

def EndsLine (text : List Char) : Prop := text.getLast? = some '\n'

/-- There is room for the newline of a `LogMessage`, or it would be a second
one. -/
def LogMessage.Room (m : LogMessage) : Prop :=
  m.stream_.length ≤ 4094 ∨ EndsLine m.stream_.text

/-- There is room for the newline of a `DLogMessage`. Before it come three
bytes, the file name, a colon and the line, each of which may be dropped. In the
last two cases it is the file name, or the stream, that ends with a newline and
just fills the buffer. -/
def DLogMessage.Room (m : DLogMessage) : Prop :=
  m.stream_.length + m.basename.length ≤ 4090
    ∨ (m.stream_.length ≤ 4090 ∧ 4093 ≤ m.stream_.length + m.basename.length)
    ∨ (m.stream_.length = 4093 ∧ m.basename.length ≠ 1 ∧ m.basename.length ≠ 2)
    ∨ (EndsLine m.basename
      ∧ ((m.stream_.length ≤ 4092 ∧ m.stream_.length + m.basename.length = 4092)
        ∨ (4093 ≤ m.stream_.length ∧ m.stream_.length + m.basename.length = 4095)))
    ∨ (EndsLine m.stream_.text ∧ 4095 ≤ m.stream_.length)

theorem endsLine_append {s t : List Char} (h : t ≠ []) : EndsLine (s ++ t) ↔ EndsLine t := by
  unfold EndsLine
  rw [List.getLast?_append_of_ne_nil s h]

theorem not_endsLine_nil : ¬ EndsLine [] := by
  unfold EndsLine
  simp

namespace LogStream

variable {s t : LogStream}

/-- What an item leaves of a stream, by the room there was. -/
theorem Takes.cases {reserve : ℕ} {text : List Char} (h : s.Takes t reserve text) :
    (s.length + reserve ≤ 4096 ∧ t.text = s.text ++ text ∧ t.length = s.length + text.length)
      ∨ (4096 < s.length + reserve ∧ t.text = s.text ∧ t.length = s.length) := by
  obtain ⟨-, htext⟩ := h
  unfold length
  by_cases hroom : s.length + reserve ≤ kBufferSize
  · rw [if_pos hroom] at htext
    exact Or.inl ⟨hroom, htext, by rw [htext, List.length_append]⟩
  · rw [if_neg hroom] at htext
    exact Or.inr ⟨Nat.lt_of_not_le hroom, htext, by rw [htext]⟩

theorem Takes.added {reserve : ℕ} {text : List Char} (h : s.Takes t reserve text)
    (hroom : s.length + reserve ≤ 4096) :
    t.text = s.text ++ text ∧ t.length = s.length + text.length := by
  rcases h.cases with ⟨-, htext⟩ | ⟨hfull, -⟩
  · exact htext
  · exact absurd hroom (Nat.not_le_of_lt hfull)

/-- The text grows by no more than what is inserted. -/
theorem insertAll_length_le {vs : List Insertion} (h : s.insertAll vs = some t) :
    t.length ≤ s.length + (vs.map fun v => v.rendering.length).sum := by
  induction vs generalizing s with
  | nil =>
      rw [insertAll, List.foldlM_nil, Option.pure_def, Option.some_inj] at h
      rw [h]
      exact Nat.le_add_right _ _
  | cons v vs ih =>
      obtain ⟨u, hu, htakes⟩ := s.insert_spec v
      rw [insertAll, List.foldlM_cons, hu] at h
      have hrest := ih h
      rw [List.map_cons, List.sum_cons]
      rcases htakes.cases with ⟨-, -, hlength⟩ | ⟨-, -, hlength⟩
      · omega
      · omega

/-- After the newline. -/
theorem takes_newline (h : s.Takes t 2 ['\n']) :
    EndsLine t.text ↔ s.length ≤ 4094 ∨ EndsLine s.text := by
  rcases h.cases with ⟨hroom, htext, -⟩ | ⟨hroom, htext, -⟩
  · rw [htext, endsLine_append (by simp)]
    exact ⟨fun _ => Or.inl (by omega), fun _ => rfl⟩
  · rw [htext]
    constructor
    · exact Or.inr
    · rintro (h | h)
      · omega
      · exact h

/-- Before the line number. Where it is inserted, more than a byte is left of
the 32 it wants. -/
theorem takes_line {v : Int32} (h : s.Takes t kMaxNumericSize (Insertion.int v).rendering) :
    (t.length ≤ 4094 ∨ EndsLine t.text) ↔ s.length ≤ 4094 ∨ EndsLine s.text := by
  have hlen : (Insertion.int v).rendering.length ≤ 21 := by
    have h1 := v.le_toInt
    have h2 := v.toInt_lt
    obtain ⟨text, hconv, hlen⟩ := convert_spec v.toInt (by omega)
    rw [Insertion.rendering, hconv]
    exact hlen
  rcases h.cases with ⟨hroom, htext, hlength⟩ | ⟨hroom, htext, hlength⟩
  · -- a number is at most 21 of the 32 bytes, so both sides are true
    change s.length + 32 ≤ 4096 at hroom
    exact ⟨fun _ => Or.inl (by omega), fun _ => Or.inl (by omega)⟩
  · rw [htext, hlength]

/-- Before the colon. -/
theorem takes_colon (h : s.Takes t 2 [':']) :
    (t.length ≤ 4094 ∨ EndsLine t.text)
      ↔ s.length ≤ 4093 ∨ (4095 ≤ s.length ∧ EndsLine s.text) := by
  rcases h.cases with ⟨hroom, htext, hlength⟩ | ⟨hroom, htext, hlength⟩
  · -- after a colon no line ends
    have hcolon : ¬ EndsLine t.text := by
      rw [htext, endsLine_append (by simp)]
      unfold EndsLine
      decide
    simp only [hcolon, hlength, List.length_singleton, or_false]
    omega
  · rw [htext, hlength]
    constructor
    · rintro (h | h)
      · omega
      · exact Or.inr ⟨by omega, h⟩
    · rintro (h | h)
      · omega
      · exact Or.inr h.2

/-- Before the file name. -/
theorem takes_filename {base : List Char} (h : s.Takes t (base.length + 1) base) :
    (t.length ≤ 4093 ∨ (4095 ≤ t.length ∧ EndsLine t.text))
      ↔ s.length + base.length ≤ 4093 ∨ (s.length ≤ 4093 ∧ 4096 ≤ s.length + base.length)
        ∨ (s.length + base.length = 4095 ∧ EndsLine base)
        ∨ (4095 ≤ s.length ∧ EndsLine s.text) := by
  rcases h.cases with ⟨hroom, htext, hlength⟩ | ⟨hroom, htext, hlength⟩
  · by_cases hbase : base = []
    · -- an empty name fits where a byte is left, and changes nothing
      subst hbase
      rw [List.append_nil] at htext
      simp only [List.length_nil, Nat.add_zero] at hroom hlength
      rw [htext, hlength]
      simp only [List.length_nil, not_endsLine_nil, and_false, false_or, Nat.add_zero]
      by_cases hend : EndsLine s.text
      · simp only [hend, and_true]
        omega
      · simp only [hend, and_false, or_false]
        omega
    · have hpos : 0 < base.length := List.length_pos_iff.mpr hbase
      have hfull : ¬ 4095 ≤ s.length := by omega
      rw [htext, endsLine_append hbase, hlength]
      simp only [hfull, false_and, or_false]
      by_cases hend : EndsLine base
      · simp only [hend, and_true]
        omega
      · simp only [hend, and_false, or_false]
        omega
  · rw [htext, hlength]
    have hfit : ¬ s.length + base.length = 4095 := by omega
    simp only [hfit, false_and, false_or]
    by_cases hend : EndsLine s.text
    · simp only [hend, and_true]
      omega
    · simp only [hend, and_false, or_false]
      omega

/-- Before the dash. -/
theorem takes_dash {base : List Char} (h : s.Takes t 4 [' ', '-', ' ']) :
    (t.length + base.length ≤ 4093 ∨ (t.length ≤ 4093 ∧ 4096 ≤ t.length + base.length)
        ∨ (t.length + base.length = 4095 ∧ EndsLine base)
        ∨ (4095 ≤ t.length ∧ EndsLine t.text))
      ↔ s.length + base.length ≤ 4090 ∨ (s.length ≤ 4090 ∧ 4093 ≤ s.length + base.length)
        ∨ (s.length = 4093 ∧ base.length ≠ 1 ∧ base.length ≠ 2)
        ∨ (EndsLine base ∧ ((s.length ≤ 4092 ∧ s.length + base.length = 4092)
          ∨ (4093 ≤ s.length ∧ s.length + base.length = 4095)))
        ∨ (EndsLine s.text ∧ 4095 ≤ s.length) := by
  rcases h.cases with ⟨hroom, htext, hlength⟩ | ⟨hroom, htext, hlength⟩
  · have hdash : ¬ EndsLine t.text := by
      rw [htext, endsLine_append (by simp)]
      unfold EndsLine
      decide
    have hlength' : t.length = s.length + 3 := hlength
    simp only [hdash, hlength', and_false, or_false]
    by_cases hend : EndsLine base
    · simp only [hend, and_true, true_and]
      omega
    · simp only [hend, and_false, false_and, or_false, false_or]
      omega
  · -- no room for the dash: what is left is 4093 bytes and more
    rw [htext, hlength]
    by_cases hbase : EndsLine base
    · by_cases hend : EndsLine s.text
      · simp only [hbase, hend, and_true, true_and]
        omega
      · simp only [hbase, hend, and_true, and_false, true_and, false_and, or_false]
        omega
    · by_cases hend : EndsLine s.text
      · simp only [hbase, hend, and_true, and_false, true_and, false_and, false_or]
        omega
      · simp only [hbase, hend, and_false, false_and, or_false]
        omega

end LogStream

/-- The destructor of a `LogMessage`. -/
theorem LogMessage.destroy_spec (m : LogMessage) :
    ∃ p, m.destroy = some p ∧ (EndsLine p.text ↔ m.Room) := by
  obtain ⟨t, ht, htakes⟩ := m.stream_.insert_spec (.char '\n')
  refine ⟨⟨m.logger_, t.text, false⟩, ?_, LogStream.takes_newline htakes⟩
  have hall : m.stream_.insertAll [.char '\n'] = some t := by
    simp only [LogStream.insertAll, List.foldlM_cons, List.foldlM_nil, ht]
    rfl
  rw [destroy, hall, Option.map_some]

/-- The destructor of a `DLogMessage`: the five items in turn, the condition
carried back through each. -/
theorem DLogMessage.destroy_spec (m : DLogMessage) :
    ∃ p, m.destroy = some p ∧ (EndsLine p.text ↔ m.Room) := by
  obtain ⟨t1, h1, htakes1⟩ := m.stream_.insert_spec (.cString [' ', '-', ' '])
  obtain ⟨t2, h2, htakes2⟩ := t1.insert_spec (.cString m.basename)
  obtain ⟨t3, h3, htakes3⟩ := t2.insert_spec (.char ':')
  obtain ⟨t4, h4, htakes4⟩ := t3.insert_spec (.int m.line_)
  obtain ⟨t5, h5, htakes5⟩ := t4.insert_spec (.char '\n')
  refine ⟨⟨m.logger_, t5.text, m.level_ = .FATAL⟩, ?_, ?_⟩
  · have hall : m.stream_.insertAll [.cString [' ', '-', ' '], .cString m.basename, .char ':',
        .int m.line_, .char '\n'] = some t5 := by
      simp only [LogStream.insertAll, List.foldlM_cons, List.foldlM_nil, h1, h2, h3, h4, h5,
        Option.bind_eq_bind, Option.bind_some, Option.pure_def]
    rw [destroy, hall, Option.map_some]
  · calc EndsLine t5.text
      _ ↔ t4.length ≤ 4094 ∨ EndsLine t4.text := LogStream.takes_newline htakes5
      _ ↔ t3.length ≤ 4094 ∨ EndsLine t3.text := LogStream.takes_line htakes4
      _ ↔ t2.length ≤ 4093 ∨ (4095 ≤ t2.length ∧ EndsLine t2.text) :=
          LogStream.takes_colon htakes3
      _ ↔ _ := LogStream.takes_filename htakes2
      _ ↔ m.Room := LogStream.takes_dash htakes1

/-! ## Messages -/

/-- A message of either class. -/
inductive Message
  | dlog (m : DLogMessage)
  | log (m : LogMessage)

/-- The constructors, and what they are given. -/
inductive Constructor
  | dlog (logger : Bool) (clock : Clock) (filename : List Char) (line : Int32) (level : LogLevel)
  | dlogFunc (logger : Bool) (clock : Clock) (filename : List Char) (line : Int32)
      (level : LogLevel) (func : List Char)
  | dlogErrno (logger : Bool) (clock : Clock) (filename : List Char) (line : Int32)
      (toAbort : Bool) (savedErrno : Int32) (strerror_tl : List Char)
  | log (logger : Bool) (clock : Clock) (level : LogLevel)

def Constructor.make : Constructor → Option Message
  | .dlog logger clock filename line level =>
      (DLogMessage.make logger clock filename line level).map .dlog
  | .dlogFunc logger clock filename line level func =>
      (DLogMessage.makeFunc logger clock filename line level func).map .dlog
  | .dlogErrno logger clock filename line toAbort savedErrno strerror_tl =>
      (DLogMessage.makeErrno logger clock filename line toAbort savedErrno strerror_tl).map .dlog
  | .log logger clock level => (LogMessage.make logger clock level).map .log

namespace Message

/-- What the user inserts into `stream()`. -/
def insert (vs : List Insertion) : Message → Option Message
  | .dlog m => (m.insert vs).map .dlog
  | .log m => (m.insert vs).map .log

def destroy : Message → Option Passed
  | .dlog m => m.destroy
  | .log m => m.destroy

def Room : Message → Prop
  | .dlog m => m.Room
  | .log m => m.Room

theorem destroy_spec (m : Message) : ∃ p, m.destroy = some p ∧ (EndsLine p.text ↔ m.Room) := by
  cases m with
  | dlog m => exact m.destroy_spec
  | log m => exact m.destroy_spec

/-- The bytes a message has, and a file name it has yet to add. -/
def size : Message → ℕ
  | .dlog m => m.stream_.length + m.basename.length
  | .log m => m.stream_.length

/-- Whatever the items are: if they add up to no more than this, the line ends. -/
theorem room_of_short {m m' : Message} {vs : List Insertion} (h : m.insert vs = some m')
    (hshort : m.size + (vs.map fun v => v.rendering.length).sum ≤ 4090) : m'.Room := by
  cases m with
  | dlog m =>
      rw [insert, DLogMessage.insert, Option.map_map, Option.map_eq_some_iff] at h
      obtain ⟨t, ht, rfl⟩ := h
      have hlength := LogStream.insertAll_length_le ht
      simp only [size] at hshort
      exact Or.inl (show t.length + m.basename.length ≤ 4090 by omega)
  | log m =>
      rw [insert, LogMessage.insert, Option.map_map, Option.map_eq_some_iff] at h
      obtain ⟨t, ht, rfl⟩ := h
      have hlength := LogStream.insertAll_length_le ht
      simp only [size] at hshort
      exact Or.inl (show t.length ≤ 4094 by omega)

theorem insert_some (m : Message) (vs : List Insertion) : ∃ m', m.insert vs = some m' := by
  cases m with
  | dlog m =>
      obtain ⟨t, ht⟩ := m.stream_.insertAll_some vs
      exact ⟨.dlog { m with stream_ := t }, by rw [insert, DLogMessage.insert, ht]; rfl⟩
  | log m =>
      obtain ⟨t, ht⟩ := m.stream_.insertAll_some vs
      exact ⟨.log { m with stream_ := t }, by rw [insert, LogMessage.insert, ht]; rfl⟩

end Message

theorem DLogMessage.insert_some (m : DLogMessage) (vs : List Insertion) :
    ∃ m', m.insert vs = some m' := by
  obtain ⟨t, ht⟩ := m.stream_.insertAll_some vs
  exact ⟨{ m with stream_ := t }, by rw [insert, ht]; rfl⟩

theorem DLogMessage.make_some (logger : Bool) (clock : Clock) (filename : List Char)
    (line : Int32) (level : LogLevel) : ∃ m, make logger clock filename line level = some m :=
  insert_some _ _

theorem Constructor.make_some (c : Constructor) : ∃ m, c.make = some m := by
  cases c with
  | dlog logger clock filename line level =>
      obtain ⟨m, hm⟩ := DLogMessage.make_some logger clock filename line level
      exact ⟨.dlog m, by rw [make, hm, Option.map_some]⟩
  | dlogFunc logger clock filename line level func =>
      obtain ⟨m, hm⟩ := DLogMessage.make_some logger clock filename line level
      obtain ⟨m', hm'⟩ := m.insert_some [.cString func, .char ' ']
      refine ⟨.dlog m', ?_⟩
      rw [make, DLogMessage.makeFunc, hm, Option.bind_some, hm', Option.map_some]
  | dlogErrno logger clock filename line toAbort savedErrno strerror_tl =>
      obtain ⟨m, hm⟩ := DLogMessage.make_some logger clock filename line
        (if toAbort then .FATAL else .ERROR)
      rw [make, DLogMessage.makeErrno, hm, Option.bind_some]
      by_cases herrno : savedErrno = 0
      · exact ⟨.dlog m, by rw [if_pos herrno, Option.map_some]⟩
      · obtain ⟨m', hm'⟩ := m.insert_some [.cString strerror_tl,
          .cString [' ', '(', 'e', 'r', 'r', 'n', 'o', '='], .int savedErrno, .cString [')', ' ']]
        exact ⟨.dlog m', by rw [if_neg herrno, hm', Option.map_some]⟩
  | log logger clock level =>
      obtain ⟨t, ht⟩ := LogStream.make.insertAll_some
        [.cString clock.t_time, .cString clock.us.text, .cString (LogLevelName level)]
      exact ⟨.log ⟨t, logger⟩, by rw [make, LogMessage.make, LogMessage.insert, ht]; rfl⟩

/-- **When a line ends.** Whatever is inserted, the text that the destructor
passes on ends with a newline exactly when there is room for it. -/
theorem ends_line_iff (c : Constructor) (vs : List Insertion) :
    ∃ m p, (c.make.bind fun m => m.insert vs) = some m ∧ m.destroy = some p
      ∧ (EndsLine p.text ↔ m.Room) := by
  obtain ⟨m, hm⟩ := c.make_some
  obtain ⟨m', hm'⟩ := m.insert_some vs
  obtain ⟨p, hp, hiff⟩ := m'.destroy_spec
  exact ⟨m', p, by rw [hm, Option.bind_some, hm'], hp, hiff⟩

/-- 31 bytes of time and level, and a string of 4064. -/
theorem line_runs_on :
    ∃ m p, ((Constructor.log true
        ⟨List.replicate 17 '0', ⟨List.replicate 8 '0', by decide⟩, by decide⟩ .INFO).make.bind
          fun m => m.insert [.string (List.replicate 4064 'x')]) = some m
      ∧ m.destroy = some p ∧ ¬ EndsLine p.text := by
  obtain ⟨t1, h1, htakes1⟩ := LogStream.make.insert_spec (.cString (List.replicate 17 '0'))
  obtain ⟨t2, h2, htakes2⟩ := t1.insert_spec (.cString (List.replicate 8 '0'))
  obtain ⟨t3, h3, htakes3⟩ := t2.insert_spec (.cString (LogLevelName .INFO))
  obtain ⟨t4, h4, htakes4⟩ := t3.insert_spec (.string (List.replicate 4064 'x'))
  have hlen1 : t1.length = 17 := (htakes1.added (by decide)).2
  have hlen2 : t2.length = 25 := by
    rw [(htakes2.added (by rw [hlen1]; decide)).2, hlen1]
    rfl
  have hlen3 : t3.length = 31 := by
    rw [(htakes3.added (by rw [hlen2]; decide)).2, hlen2]
    rfl
  have hx : (List.replicate 4064 'x').length = 4064 := List.length_replicate
  have hreserve : (Insertion.string (List.replicate 4064 'x')).reserve = 4064 + 1 :=
    congrArg (· + 1) hx
  obtain ⟨htext, hlen4⟩ := htakes4.added (by omega)
  rw [hlen3, Insertion.rendering, hx] at hlen4
  have hend4 : ¬ EndsLine t4.text := by
    have hne : List.replicate 4064 'x' ≠ [] := fun h => by
      rw [h] at hx
      cases hx
    rw [htext, Insertion.rendering, endsLine_append hne, EndsLine, List.getLast?_replicate]
    decide
  obtain ⟨p, hp, hiff⟩ := (Message.log ⟨t4, true⟩).destroy_spec
  refine ⟨.log ⟨t4, true⟩, p, ?_, hp, fun hend => ?_⟩
  · simp only [Constructor.make, LogMessage.make, LogMessage.insert, Message.insert,
      LogStream.insertAll, List.foldlM_cons, List.foldlM_nil, h1, h2, h3, h4,
      Option.bind_eq_bind, Option.bind_some, Option.pure_def, Option.map_some]
  · rcases hiff.mp hend with h | h
    · have hlen : t4.length ≤ 4094 := h
      omega
    · exact hend4 h

end Libiak.Log
