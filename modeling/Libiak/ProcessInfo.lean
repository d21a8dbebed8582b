/-
`base/FileUtil.cpp` and `base/ProcessInfo.cpp`: the name of the process, out of
`/proc/self/stat`.

The line is the process id, the name between parentheses, and more fields. It is
read in pieces of whatever length `read` returns, up to 65536 bytes, and all of
them together are the beginning of the file (`readToString_eq`). `procName` takes
what is between the first parenthesis that opens and the first one that closes,
so a name with a closing parenthesis in it is cut off there.
-/
import Libiak.Numeral

set_option autoImplicit false

namespace Libiak.Base

/-! ## `class FileReader` -/

/-- `class FileReader`: an open file, by what is left to be read of it, or the
error of `open`. -/
structure FileReader where
  fd_ : Option (List Char)
  err_ : ℤ

namespace FileReader

/-- `FileReader::FileReader`, with what `open` finds. -/
def make : Except ℤ (List Char) → FileReader
  | .ok file => { fd_ := some file, err_ := 0 }
  | .error errno => { fd_ := none, err_ := errno }

/-- The size of the buffer of `readToString`. -/
def bufSize : ℕ := 65536

/-- The `while` of `readToString`, by the results of its calls of `read`, where
`left` is what is left of the file: at most what is asked for and left, and 0 only
at the end. There is no loop with other results. -/
def readToString.loop (err_ : ℤ) (size : ℕ) (content left : List Char) :
    List (Except ℤ ℕ) → Option (List Char × ℤ)
  | [] => if content.length < size then none else some (content, err_)
  | .error errno :: reads =>
      if content.length < size ∧ reads.length = 0 then some (content, errno) else none
  | .ok nRead :: reads =>
      let toRead := min (size - content.length) bufSize
      if content.length < size ∧ nRead ≤ min toRead left.length then
        if 0 < nRead then
          readToString.loop err_ size (content ++ left.take nRead) (left.drop nRead) reads
        else if left.length = 0 ∧ reads.length = 0 then some (content, err_) else none
      else none

/-- `readToString`: the content, and what it returns. -/
def readToString (file : FileReader) (content : List Char) (size : ℕ)
    (reads : List (Except ℤ ℕ)) : Option (List Char × ℤ) :=
  match file.fd_ with
  | none => if reads.length = 0 then some (content, file.err_) else none
  | some left => readToString.loop file.err_ size content left reads

/-- `readFile`. -/
def readFile (found : Except ℤ (List Char)) (content : List Char) (size : ℕ)
    (reads : List (Except ℤ ℕ)) : Option (List Char × ℤ) :=
  (make found).readToString content size reads

theorem readToString.loop_eq {err_ : ℤ} {size : ℕ} {content left : List Char} {reads : List ℕ}
    {result : List Char × ℤ}
    (h : readToString.loop err_ size content left (reads.map Except.ok) = some result) :
    result = (content ++ left.take (size - content.length), err_) := by
  induction reads generalizing content left with
  | nil =>
      rw [List.map_nil, loop] at h
      split at h
      · cases h
      · rename_i hfull
        obtain rfl := Option.some.inj h
        have hzero : size - content.length = 0 := by omega
        rw [hzero, List.take_zero, List.append_nil]
  | cons nRead reads ih =>
      rw [List.map_cons, loop] at h
      split at h
      · rename_i hread
        split at h
        · -- what was read and what is still to be read are one piece of the file
          rename_i hpos
          have hle : nRead ≤ size - content.length := by omega
          have hlen : (left.take nRead).length = nRead := List.length_take_of_le (by omega)
          rw [ih h, List.append_assoc, List.length_append, hlen, Nat.sub_add_eq, ← List.take_add,
            Nat.add_sub_of_le hle]
        · split at h
          · rename_i hend
            obtain rfl := Option.some.inj h
            rw [List.eq_nil_of_length_eq_zero hend.1, List.take_nil, List.append_nil]
          · cases h
      · cases h

/-- **Any pieces make the beginning of the file.** -/
theorem readFile_eq {file : List Char} {size : ℕ} {reads : List ℕ} {result : List Char × ℤ}
    (h : readFile (.ok file) [] size (reads.map Except.ok) = some result) :
    result = (file.take size, 0) :=
  readToString.loop_eq h

end FileReader

/-! ## `class ProcessInfo` -/

/-- `std::string::find` of a character. -/
def find (s : List Char) (c : Char) : Option ℕ := s.findIdx? fun d => d == c

/-- `std::string::substr`, which throws if `pos` is past the end. -/
def substr (s : List Char) (pos count : ℕ) : Option (List Char) :=
  if pos ≤ s.length then some ((s.drop pos).take count) else none

namespace ProcessInfo

/-- `procStat`, with what `open` finds and what the calls of `read` return. -/
def procStat (found : Except ℤ (List Char)) (reads : List (Except ℤ ℕ)) :
    Option (List Char) :=
  (FileReader.readFile found [] 65536 reads).map Prod.fst

/-- `procName` on the line. The difference is one of `size_t`. -/
def procName.parse (stat : List Char) : Option (List Char) :=
  match find stat '(', find stat ')' with
  | some lp, some rp => substr stat (lp + 1) (((rp : ℤ) - lp - 1) % 2 ^ 64).toNat
  | _, _ => some []

/-- `procName`. -/
def procName (found : Except ℤ (List Char)) (reads : List (Except ℤ ℕ)) : Option (List Char) :=
  (procStat found reads).bind procName.parse

/-- `/proc/self/stat`. -/
def statLine (pid : ℕ) (name fields : List Char) : List Char :=
  decimal.write pid ++ [' ', '('] ++ name ++ [')', ' '] ++ fields

/-- The results of the calls of `read` for a file that can be read, up to so many
bytes. -/
structure Reading (file : List Char) (size : ℕ) where
  reads : List ℕ
  ends : (FileReader.readFile (.ok file) [] size (reads.map Except.ok)).isSome = true

end ProcessInfo

/-! ## What it finds -/

section Find

variable {c : Char} {s pre post : List Char}

theorem find_none (h : c ∉ s) : find s c = none := by
  unfold find
  rw [List.findIdx?_eq_none_iff]
  intro d hd
  rw [beq_eq_false_iff_ne]
  rintro rfl
  exact h hd

/-- The first occurrence. -/
theorem find_some (h : c ∉ pre) : find (pre ++ c :: post) c = some pre.length := by
  have hnone := find_none h
  unfold find at hnone ⊢
  rw [List.findIdx?_append, hnone, List.findIdx?_cons, beq_self_eq_true]
  simp

end Find

namespace ProcessInfo

/-- Between the first parentheses of a text that has been cut off at `size`. -/
theorem parse_take {head mid tail : List Char} {size : ℕ} (hsize : size < 2 ^ 64)
    (hopen : '(' ∉ head) (hclose : ')' ∉ head) (hmid : ')' ∉ mid) :
    procName.parse ((head ++ '(' :: (mid ++ ')' :: tail)).take size)
      = some (if head.length + 1 + mid.length < size then mid else []) := by
  by_cases hroom : head.length + 1 + mid.length < size
  · obtain ⟨k, hk⟩ : ∃ k, size = (head ++ '(' :: mid).length + (k + 1) := by
      refine ⟨size - (head.length + 1 + mid.length) - 1, ?_⟩
      rw [List.length_append, List.length_cons]
      omega
    have hline : head ++ '(' :: (mid ++ ')' :: tail) = (head ++ '(' :: mid) ++ ')' :: tail := by
      rw [List.append_assoc, List.cons_append]
    have hfront : ')' ∉ head ++ '(' :: mid := by
      simp [hclose, hmid]
    have hlp : find (head ++ '(' :: (mid ++ ')' :: tail.take k)) '(' = some head.length :=
      find_some hopen
    have hrp : find ((head ++ '(' :: mid) ++ ')' :: tail.take k) ')'
        = some (head ++ '(' :: mid).length := find_some hfront
    rw [List.append_assoc, List.cons_append] at hrp
    have hcount : ((((head ++ '(' :: mid).length : ℕ) : ℤ) - head.length - 1) % 2 ^ 64
        = mid.length := by
      rw [List.length_append, List.length_cons]
      omega
    rw [if_pos hroom, hline, hk, List.take_length_add_append, List.take_succ_cons,
      List.append_assoc, List.cons_append, procName.parse, hlp, hrp]
    dsimp only
    rw [hcount, Int.toNat_natCast, substr, if_pos (by rw [List.length_append, List.length_cons]; omega)]
    have hdrop : (head ++ '(' :: (mid ++ ')' :: tail.take k)).drop (head.length + 1)
        = mid ++ ')' :: tail.take k := by
      rw [List.drop_append]
      simp
    rw [hdrop, List.take_left]
  · -- the closing parenthesis is not there any more
    have hnone : ')' ∉ (head ++ '(' :: (mid ++ ')' :: tail)).take size := by
      have hline : head ++ '(' :: (mid ++ ')' :: tail) = (head ++ '(' :: mid) ++ ')' :: tail := by
        rw [List.append_assoc, List.cons_append]
      rw [hline, List.take_append_of_le_length (by rw [List.length_append, List.length_cons]; omega)]
      intro hmem
      have := List.mem_of_mem_take hmem
      simp [hclose, hmid] at this
    rw [if_neg hroom, procName.parse, find_none hnone]
    cases find _ '(' with
    | none => rfl
    | some lp => rfl

/-- The number in front of the name has no parentheses. -/
theorem not_mem_decimal {c : Char} (hc : decimal.value c = none) (n : ℕ) :
    c ∉ decimal.write n := by
  intro hmem
  obtain ⟨d, hd, rfl⟩ := (Alphabet.canonical_write n).digits c hmem
  rw [decimal.value_digit d hd] at hc
  cases hc

/-- What `procName` returns is what stands before the first closing parenthesis of
the name and what follows it, as far as it was read. -/
theorem procName_statLine {pid : ℕ} {name fields mid tail : List Char}
    (hname : name ++ ')' :: ' ' :: fields = mid ++ ')' :: tail) (hmid : ')' ∉ mid)
    (r : Reading (statLine pid name fields) 65536) :
    procName (.ok (statLine pid name fields)) (r.reads.map Except.ok)
      = some (if (decimal.write pid).length + 2 + mid.length < 65536 then mid else []) := by
  obtain ⟨result, hresult⟩ := Option.isSome_iff_exists.mp r.ends
  have hline : statLine pid name fields
      = (decimal.write pid ++ [' ']) ++ '(' :: (mid ++ ')' :: tail) := by
    unfold statLine
    rw [← hname]
    simp
  have hopen : '(' ∉ decimal.write pid ++ [' '] := by
    simp [not_mem_decimal (show decimal.value '(' = none by decide) pid]
  have hclose : ')' ∉ decimal.write pid ++ [' '] := by
    simp [not_mem_decimal (show decimal.value ')' = none by decide) pid]
  rw [procName, procStat, hresult, FileReader.readFile_eq hresult, Option.map_some,
    Option.bind_some]
  dsimp only
  rw [hline, parse_take (by decide) hopen hclose hmid, List.length_append]
  rfl

/-- The digits of a process id. -/
theorem length_pid {pid : ℕ} (h : pid < 2 ^ 31) : (decimal.write pid).length ≤ 10 :=
  Alphabet.length_write_le 9 (Nat.lt_of_lt_of_le h (by decide))

/-- **When `procName` recovers the name.** For every process id, name and further
fields, and however the file is read: `procName` returns the name exactly if there
is no closing parenthesis in it and what is read reaches the one behind it. -/
theorem procName_iff (pid : Fin (2 ^ 31)) (name fields : List Char)
    (r : Reading (statLine pid name fields) 65536) :
    procName (.ok (statLine pid name fields)) (r.reads.map Except.ok) = some name
      ↔ ')' ∉ name ∧ (decimal.write pid).length + name.length + 3 ≤ 65536 := by
  have hpid := length_pid pid.isLt
  by_cases hname : ')' ∈ name
  · obtain ⟨mid, post, hsplit, hmid⟩ := List.eq_append_cons_of_mem hname
    have hline : name ++ ')' :: ' ' :: fields = mid ++ ')' :: (post ++ ')' :: ' ' :: fields) := by
      rw [hsplit, List.append_assoc, List.cons_append]
    rw [procName_statLine hline hmid, Option.some.injEq]
    constructor
    · intro heq
      have hlen := congrArg List.length heq
      rw [hsplit, List.length_append, List.length_cons] at hlen
      split at hlen
      · omega
      · rw [List.length_nil] at hlen
        omega
    · rintro ⟨hno, -⟩
      exact absurd hname hno
  · rw [procName_statLine rfl hname, Option.some.injEq]
    constructor
    · intro heq
      refine ⟨hname, ?_⟩
      by_contra hlong
      rw [if_neg (by omega)] at heq
      rw [← heq, List.length_nil] at hlong
      omega
    · rintro ⟨-, hroom⟩
      rw [if_pos (by omega)]

/-- A name with a parenthesis, read at once. -/
def closing : Reading (statLine 1 ['a', ')', 'b'] ['S']) 65536 where
  reads := [9, 0]
  ends := by decide

/-- It is cut off. -/
theorem procName_closing : ¬ ∀ (pid : Fin (2 ^ 31)) (name fields : List Char),
    '(' ∉ fields → ')' ∉ fields → ∀ r : Reading (statLine pid name fields) 65536,
      procName (.ok (statLine pid name fields)) (r.reads.map Except.ok) = some name := by
  intro h
  have hname := h 1 ['a', ')', 'b'] ['S'] (by decide) (by decide) closing
  revert hname
  decide

end ProcessInfo

end Libiak.Base
