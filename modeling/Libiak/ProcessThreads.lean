/-
`base/ProcessInfo.cpp`: the threads of the process and its open files, out of
`/proc/self/status`, `/proc/self/task` and `/proc/self/fd`.

`threads` reads the names in a directory, in the order in which `scandir` comes to
them, and sorts the numbers; `numThreads` looks for the first "Threads:" in a text
and reads the number behind it. The two agree if no line before that one has the
word in it, as the name of the program may, and exactly if the number is among the
bytes that are read (`threads_agree`): the groups of the process stand before it.
`openedFiles` counts the descriptor through which it looks as well.
-/
import Libiak.CInt
import Libiak.ProcessInfo
import Mathlib.Data.List.Sort
import Mathlib.Order.Interval.Finset.Nat

set_option autoImplicit false

namespace Libiak.Base

/-! ## Texts -/

/-- `std::string::find` of a string. -/
def findString (pattern : List Char) : List Char → Option ℕ
  | [] => if pattern.isPrefixOf [] then some 0 else none
  | c :: s => if pattern.isPrefixOf (c :: s) then some 0 else (findString pattern s).map (· + 1)

def isdigit (c : Char) : Bool := (decimal.value c).isSome

def isspace (c : Char) : Bool :=
  c ∈ [' ', '\t', '\n', Char.ofNat 11, Char.ofNat 12, '\r']

/-- The digits a text begins with, as a number. -/
def atoi.number (s : List Char) : ℕ := (decimal.readFrom 0 (s.takeWhile isdigit)).getD 0

/-- `atoi`, of which nothing is said where the number is no `int`. -/
def atoi (s : List Char) : Option ℤ :=
  match s.dropWhile isspace with
  | '-' :: t => CInt.int (-(atoi.number t : ℤ))
  | '+' :: t => CInt.int (atoi.number t)
  | t => CInt.int (atoi.number t)

/-! ## `/proc/self` -/

/-- The name of an entry begins with a digit. -/
def numeric (d_name : List Char) : Bool := d_name.head?.any isdigit

/-- `fdDirFilter`, with `t_numOpenedFiles` before and after. -/
def fdDirFilter (t_numOpenedFiles : ℤ) (d_name : List Char) : Option ℤ :=
  if numeric d_name then CInt.add t_numOpenedFiles 1 else some t_numOpenedFiles

/-- `taskDirFilter`, with `*t_pids` before and after. -/
def taskDirFilter (t_pids : List ℤ) (d_name : List Char) : Option (List ℤ) :=
  if numeric d_name then (atoi d_name).map fun pid => t_pids ++ [pid] else some t_pids

/-- `scanDir`, with the names in the directory in the order in which they are read,
or none where it cannot be opened. The filters keep no entry, so nothing is sorted
and `namelist` is still `NULL`. -/
def scanDir {σ : Type} (filter : σ → List Char → Option σ) (dir : Option (List (List Char)))
    (s : σ) : Option σ :=
  (dir.getD []).foldlM filter s

namespace ProcessInfo

/-- `openedFiles`, with the names in `/proc/self/fd`. -/
def openedFiles (fd : Option (List (List Char))) : Option ℤ := scanDir fdDirFilter fd 0

/-- `maxOpenFiles`, with what `getrlimit` gives. -/
def maxOpenFiles (rlim_cur : Option ℕ) (fd : Option (List (List Char))) : Option ℤ :=
  match rlim_cur with
  | none => openedFiles fd
  | some limit => some (CInt.cast limit)

/-- `procStatus`. -/
def procStatus (found : Except ℤ (List Char)) (reads : List (Except ℤ ℕ)) :
    Option (List Char) :=
  (FileReader.readFile found [] 65536 reads).map Prod.fst

/-- The key of the line of `/proc/self/status`. -/
def threadsKey : List Char := ['T', 'h', 'r', 'e', 'a', 'd', 's', ':']

/-- `numThreads` on the text. -/
def numThreads.parse (status : List Char) : Option ℤ :=
  match findString threadsKey status with
  | some pos => atoi (status.drop (pos + 8))
  | none => some 0

/-- `numThreads`. -/
def numThreads (found : Except ℤ (List Char)) (reads : List (Except ℤ ℕ)) : Option ℤ :=
  (procStatus found reads).bind numThreads.parse

/-- `threads`, with the names in `/proc/self/task`. -/
def threads (task : Option (List (List Char))) : Option (List ℤ) :=
  (scanDir taskDirFilter task []).map fun result => result.insertionSort (· ≤ ·)

end ProcessInfo

/-! ## Looking for a text -/

section FindString

variable {pattern s t : List Char}

theorem findString_prefix (h : pattern <+: s) : findString pattern s = some 0 := by
  cases s with
  | nil => exact if_pos (List.isPrefixOf_iff_prefix.mpr h)
  | cons c s => exact if_pos (List.isPrefixOf_iff_prefix.mpr h)

/-- It finds the text wherever it is. -/
theorem findString_none : findString pattern s = none ↔ ¬ pattern <:+: s := by
  induction s with
  | nil =>
      rw [findString, List.infix_nil]
      split
      · rename_i hbegin
        simp [List.prefix_nil.mp (List.isPrefixOf_iff_prefix.mp hbegin)]
      · rename_i hbegin
        have hne : pattern ≠ [] := by
          rintro rfl
          exact hbegin rfl
        simp [hne]
  | cons c s ih =>
      rw [findString, List.infix_cons_iff, not_or]
      split
      · rename_i hbegin
        simp [List.isPrefixOf_iff_prefix.mp hbegin]
      · rename_i hbegin
        rw [List.isPrefixOf_iff_prefix] at hbegin
        rw [Option.map_eq_none_iff, ih]
        exact (and_iff_right hbegin).symm

/-- A text without line ends does not begin in one line and end in another. -/
theorem findString_line {line : List Char} (hnewline : '\n' ∉ pattern) (h : ¬ pattern <:+: line) :
    findString pattern (line ++ '\n' :: t)
      = (findString pattern t).map (· + (line.length + 1)) := by
  induction line with
  | nil =>
      have hhead : ¬ pattern.isPrefixOf ('\n' :: t) = true := by
        rw [List.isPrefixOf_iff_prefix, List.prefix_cons_iff]
        rintro (rfl | ⟨u, rfl, -⟩)
        · exact h List.nil_infix
        · exact hnewline List.mem_cons_self
      rw [List.nil_append, findString, if_neg hhead]
      rfl
  | cons c line ih =>
      have htail : ¬ pattern <:+: line := fun hin =>
        h (hin.trans (List.suffix_cons c line).isInfix)
      have hhead : ¬ pattern.isPrefixOf (c :: (line ++ '\n' :: t)) = true := by
        rw [List.isPrefixOf_iff_prefix]
        intro hbegin
        have hfirst : (c :: line) ++ ['\n'] <+: c :: (line ++ '\n' :: t) := ⟨t, by simp⟩
        rcases List.prefix_or_prefix_of_prefix hbegin hfirst with hp | hp
        · rcases List.prefix_concat_iff.mp hp with rfl | hp
          · simp at hnewline
          · exact h hp.isInfix
        · exact hnewline (hp.mem (by simp))
      rw [List.cons_append, findString, if_neg hhead, ih htail, Option.map_map, List.length_cons]
      rfl

/-- Lines, each with its end. -/
def unlines (lines : List (List Char)) : List Char := lines.flatMap fun line => line ++ ['\n']

/-- What is in none of the lines before is looked for behind them. -/
theorem findString_unlines {lines : List (List Char)} (hnewline : '\n' ∉ pattern)
    (h : ∀ line ∈ lines, ¬ pattern <:+: line) :
    findString pattern (unlines lines ++ t)
      = (findString pattern t).map (· + (unlines lines).length) := by
  induction lines with
  | nil => exact Option.map_id'.symm
  | cons line lines ih =>
      have hrest := ih fun l hl => h l (List.mem_cons_of_mem _ hl)
      have hsplit : unlines (line :: lines) = line ++ '\n' :: unlines lines := by
        rw [unlines, List.flatMap_cons, List.append_assoc]
        rfl
      rw [hsplit, List.append_assoc, List.cons_append,
        findString_line hnewline (h line List.mem_cons_self), hrest, Option.map_map]
      congr 1
      funext n
      rw [Function.comp, List.length_append, List.length_cons]
      omega

end FindString

/-! ## Numbers -/

section Atoi

variable {s rest : List Char} {n : ℕ}

theorem isdigit_write {c : Char} (h : c ∈ decimal.write n) : isdigit c = true := by
  obtain ⟨d, hd, rfl⟩ := (Alphabet.canonical_write n).digits c h
  rw [isdigit, decimal.value_digit d hd]
  rfl

/-- Digits that nothing else of the kind follows. -/
theorem number_digits (h : ∀ c ∈ s, isdigit c = true)
    (hrest : ∀ c ∈ rest.head?, isdigit c = false) :
    atoi.number (s ++ rest) = (decimal.readFrom 0 s).getD 0 := by
  have htake : rest.takeWhile isdigit = [] := by
    cases rest with
    | nil => rfl
    | cons c rest => exact List.takeWhile_cons_of_neg (by rw [hrest c rfl]; decide)
  rw [atoi.number, List.takeWhile_append_of_pos h, htake, List.append_nil]

/-- A digit is no space and no sign. -/
theorem atoi_digit {c : Char} (h : isdigit c = true) :
    atoi (c :: s) = CInt.int (atoi.number (c :: s)) := by
  have hspace : isspace c = false := by
    rw [Bool.eq_false_iff]
    intro hspace
    have hmem : c ∈ [' ', '\t', '\n', Char.ofNat 11, Char.ofNat 12, '\r'] := by
      simpa [isspace] using hspace
    simp only [List.mem_cons, List.not_mem_nil, or_false] at hmem
    rcases hmem with rfl | rfl | rfl | rfl | rfl | rfl <;> exact absurd h (by decide)
  have hdrop : (c :: s).dropWhile isspace = c :: s :=
    List.dropWhile_cons_of_neg (by rw [hspace]; decide)
  unfold atoi
  rw [hdrop]
  split
  · rename_i heq
    obtain ⟨rfl, -⟩ := List.cons.inj heq
    exact absurd h (by decide)
  · rename_i heq
    obtain ⟨rfl, -⟩ := List.cons.inj heq
    exact absurd h (by decide)
  · rfl

theorem atoi_space {c : Char} (h : isspace c = true) : atoi (c :: s) = atoi s := by
  unfold atoi
  rw [List.dropWhile_cons_of_pos h]

/-- **`atoi` reads a numeral back**, whatever comes behind it that is no digit. -/
theorem atoi_write (hn : n < 2 ^ 31) (hrest : ∀ c ∈ rest.head?, isdigit c = false) :
    atoi (decimal.write n ++ rest) = some (n : ℤ) := by
  have hread : decimal.readFrom 0 (decimal.write n) = some n := by
    rw [← Alphabet.read_eq_readFrom (Alphabet.write_ne_nil n), Alphabet.read_write]
  have hnumber : atoi.number (decimal.write n ++ rest) = n := by
    rw [number_digits (fun c => isdigit_write) hrest, hread, Option.getD_some]
  obtain ⟨c, cs, hwrite⟩ := List.exists_cons_of_ne_nil (Alphabet.write_ne_nil (A := decimal) n)
  have hdigit : isdigit c = true := isdigit_write (hwrite ▸ List.mem_cons_self)
  rw [hwrite] at hnumber ⊢
  rw [List.cons_append] at hnumber ⊢
  rw [atoi_digit hdigit, hnumber]
  exact if_pos (by unfold CInt.Fits; omega)

theorem readFrom_isSome (acc : ℕ) (h : ∀ c ∈ s, isdigit c = true) :
    ∃ m, decimal.readFrom acc s = some m := by
  induction s generalizing acc with
  | nil => exact ⟨acc, rfl⟩
  | cons c s ih =>
      obtain ⟨d, hd⟩ := Option.isSome_iff_exists.mp (h c List.mem_cons_self)
      rw [Alphabet.readFrom, hd, Option.bind_some]
      exact ih _ fun e he => h e (List.mem_cons_of_mem c he)

/-- A part of a numeral is the numeral of another number. -/
theorem atoi_cut {j : ℕ} (hn : n ≠ 0) (hj : j < (decimal.write n).length) :
    atoi ((decimal.write n).take j) ≠ some (n : ℤ) := by
  intro h
  cases hcut : (decimal.write n).take j with
  | nil =>
      rw [hcut] at h
      have hzero : some (0 : ℤ) = some (n : ℤ) := h
      exact hn (Int.natCast_eq_zero.mp (Option.some.inj hzero).symm)
  | cons c cs =>
      have hmem : ∀ d ∈ c :: cs, d ∈ decimal.write n := fun d hd =>
        List.mem_of_mem_take (hcut ▸ hd)
      have hdigits : ∀ d ∈ c :: cs, isdigit d = true := fun d hd => isdigit_write (hmem d hd)
      have hhead : (decimal.write n).head? = some c := by
        rw [← List.take_append_drop j (decimal.write n), hcut]
        rfl
      have hcanonical : decimal.Canonical (c :: cs) := by
        refine ⟨List.cons_ne_nil c cs, fun d hd => ?_, fun hzero => ?_⟩
        · exact (Alphabet.canonical_write n).digits d (hmem d hd)
        · exact absurd (hhead.trans hzero) (Alphabet.head_write hn)
      obtain ⟨m, hm⟩ := readFrom_isSome 0 hdigits
      have hnumber : atoi.number (c :: cs ++ []) = _ := number_digits hdigits (by simp)
      rw [List.append_nil, hm, Option.getD_some] at hnumber
      rw [hcut, atoi_digit (hdigits c List.mem_cons_self), hnumber] at h
      have hmn : n = m := Int.natCast_inj.mp (CInt.int_eq_some h).1
      have hwrite := hcanonical.eq_write hm
      have hlength := congrArg List.length hcut
      rw [hwrite, ← hmn, List.length_take] at hlength
      omega

end Atoi

/-! ## Directories -/

section ScanDir

variable {names : List (List Char)} {numbers : List ℕ}

/-- Only the names that begin with a digit count. -/
theorem scanDir_numeric {σ : Type} {step : σ → List Char → Option σ} (s : σ) :
    scanDir (fun s d_name => if numeric d_name then step s d_name else some s) (some names) s
      = (names.filter numeric).foldlM step s := List.foldlM_filter.symm

theorem foldlM_count (n : ℤ) (hnames : CInt.Fits (n + names.length)) (hn : 0 ≤ n) :
    names.foldlM (fun (n : ℤ) (_ : List Char) => CInt.add n 1) n = some (n + names.length) := by
  induction names generalizing n with
  | nil => exact congrArg some (Int.add_zero n).symm
  | cons d names ih =>
      rw [List.length_cons, Int.natCast_succ] at hnames ⊢
      have hfits : CInt.Fits (n + 1) := by
        unfold CInt.Fits at hnames ⊢
        omega
      have hsum : n + 1 + (names.length : ℤ) = n + (names.length + 1) := by omega
      have hrest := ih (n + 1) (by rw [hsum]; exact hnames) (by omega)
      rw [List.foldlM_cons, CInt.add_eq hfits]
      exact hrest.trans (congrArg some hsum)

theorem foldlM_pids (hnumbers : ∀ n ∈ numbers, n < 2 ^ 31) (pids : List ℤ) :
    (numbers.map decimal.write).foldlM
        (fun pids d_name => (atoi d_name).map fun pid => pids ++ [pid]) pids
      = some (pids ++ numbers.map Nat.cast) := by
  induction numbers generalizing pids with
  | nil => exact congrArg some (List.append_nil pids).symm
  | cons n numbers ih =>
      have hn : atoi (decimal.write n ++ []) = some (n : ℤ) :=
        atoi_write (hnumbers n List.mem_cons_self) (by simp)
      have hrest := ih (fun k hk => hnumbers k (List.mem_cons_of_mem n hk)) (pids ++ [(n : ℤ)])
      rw [List.append_nil] at hn
      rw [List.map_cons, List.foldlM_cons, hn, List.map_cons, List.append_cons]
      exact hrest

end ScanDir

namespace ProcessInfo

/-! ## The threads -/

/-- What `/proc/self` shows of a process: its threads, in the order in which they
are listed in `task`, where the other names are no numbers, and the lines of
`status` before the one with their number, the first of them with the name. -/
structure Task where
  tids : List ℕ
  names : List (List Char)
  lines : List (List Char)
  rest : List Char
  running : tids ≠ []
  distinct : tids.Nodup
  range : ∀ t ∈ tids, 0 < t ∧ t < 2 ^ 31
  listed : names.filter numeric = tids.map decimal.write

namespace Task

/-- The line with the number, and what follows. -/
def counted (p : Task) : List Char :=
  threadsKey ++ '\t' :: (decimal.write p.tids.length ++ '\n' :: p.rest)

/-- `/proc/self/status`. -/
def status (p : Task) : List Char := unlines p.lines ++ p.counted

/-- Where the number ends. -/
def numberEnd (p : Task) : ℕ := (unlines p.lines).length + 9 + (decimal.write p.tids.length).length

theorem length_tids (p : Task) : p.tids.length < 2 ^ 31 := by
  have hsub : p.tids.toFinset ⊆ Finset.Ico 1 (2 ^ 31) := by
    intro t ht
    have := p.range t (List.mem_toFinset.mp ht)
    rw [Finset.mem_Ico]
    omega
  have hcard := Finset.card_le_card hsub
  rw [List.toFinset_card_of_nodup p.distinct, Nat.card_Ico] at hcard
  omega

end Task

/-- `threads` gives each thread once, in order. -/
theorem threads_eq (p : Task) :
    ∃ pids, threads (some p.names) = some pids ∧ pids.Pairwise (· < ·)
      ∧ pids.Perm (p.tids.map Nat.cast) := by
  have hscan : scanDir taskDirFilter (some p.names) [] = some (p.tids.map Nat.cast) := by
    have hpids := foldlM_pids (fun t ht => (p.range t ht).2) []
    rw [← p.listed, ← scanDir_numeric] at hpids
    exact hpids
  have hperm := List.perm_insertionSort (· ≤ ·) (p.tids.map (Nat.cast : ℕ → ℤ))
  have hdistinct : (p.tids.map (Nat.cast : ℕ → ℤ)).Nodup := p.distinct.map Nat.cast_injective
  refine ⟨_, by rw [threads, hscan, Option.map_some], ?_, hperm⟩
  have hsorted := List.pairwise_insertionSort (· ≤ ·) (p.tids.map (Nat.cast : ℕ → ℤ))
  exact (hsorted.and (hperm.nodup_iff.mpr hdistinct)).imp fun h => lt_of_le_of_ne h.1 h.2

/-- What lines without the key say does not count. -/
theorem parse_unlines {lines : List (List Char)} (h : ∀ line ∈ lines, ¬ threadsKey <:+: line)
    (t : List Char) : numThreads.parse (unlines lines ++ t) = numThreads.parse t := by
  rw [numThreads.parse, findString_unlines (by decide) h, numThreads.parse]
  cases findString threadsKey t with
  | none => rfl
  | some pos =>
      have hdrop :
          (unlines lines ++ t).drop (pos + (unlines lines).length + 8) = t.drop (pos + 8) := by
        rw [Nat.add_right_comm, Nat.add_comm, List.drop_length_add_append]
      exact congrArg atoi hdrop

theorem parse_none {s : List Char} (h : ¬ threadsKey <:+: s) : numThreads.parse s = some 0 := by
  rw [numThreads.parse, findString_none.mpr h]

theorem parse_key (t : List Char) : numThreads.parse (threadsKey ++ t) = atoi t := by
  rw [numThreads.parse, findString_prefix (List.prefix_append threadsKey t)]
  rfl

/-- The number is read if it is there to its end, and another one if it is not. -/
theorem atoi_take {n : ℕ} (hn : n ≠ 0) (hlt : n < 2 ^ 31) (rest : List Char) (i : ℕ) :
    atoi (('\t' :: (decimal.write n ++ '\n' :: rest)).take i) = some (n : ℤ)
      ↔ (decimal.write n).length < i := by
  cases i with
  | zero =>
      have hzero : atoi [] = some 0 := by decide
      rw [List.take_zero, hzero]
      refine iff_of_false (fun h => ?_) (Nat.not_lt_zero _)
      exact hn (Int.natCast_eq_zero.mp (Option.some.inj h).symm)
  | succ i =>
      rw [List.take_succ_cons, atoi_space (by decide), Nat.lt_succ_iff]
      by_cases hi : (decimal.write n).length ≤ i
      · obtain ⟨k, rfl⟩ := Nat.exists_eq_add_of_le hi
        rw [List.take_length_add_append]
        refine iff_of_true (atoi_write hlt fun c hc => ?_) hi
        rw [List.head?_take] at hc
        split at hc
        · cases hc
        · obtain rfl := Option.some.inj hc
          decide
      · rw [List.take_append_of_le_length (by omega)]
        exact iff_of_false (atoi_cut hn (by omega)) hi

/-- What comes out of the first bytes of `status`. -/
theorem parse_status (p : Task) (hlines : ∀ line ∈ p.lines, ¬ threadsKey <:+: line) (size : ℕ) :
    numThreads.parse (p.status.take size) = some (p.tids.length : ℤ) ↔ p.numberEnd ≤ size := by
  have hn : p.tids.length ≠ 0 := fun h => p.running (List.length_eq_zero_iff.mp h)
  have hzero : ¬ some (0 : ℤ) = some (p.tids.length : ℤ) := fun h =>
    hn (Int.natCast_eq_zero.mp (Option.some.inj h).symm)
  unfold Task.numberEnd
  by_cases hfront : (unlines p.lines).length ≤ size
  · obtain ⟨i, rfl⟩ := Nat.exists_eq_add_of_le hfront
    rw [Task.status, List.take_length_add_append, parse_unlines hlines]
    by_cases hkey : threadsKey.length ≤ i
    · obtain ⟨j, rfl⟩ := Nat.exists_eq_add_of_le hkey
      have hlength : threadsKey.length = 8 := rfl
      rw [Task.counted, List.take_length_add_append, parse_key,
        atoi_take hn p.length_tids p.rest j, hlength]
      omega
    · -- the key itself is cut off
      have hcut : ¬ threadsKey <:+: p.counted.take i := fun h => by
        have := h.length_le
        rw [List.length_take] at this
        omega
      have hlength : threadsKey.length = 8 := rfl
      rw [parse_none hcut]
      exact iff_of_false hzero (by omega)
  · have hnone : ¬ threadsKey <:+: unlines p.lines := by
      rw [← findString_none, ← List.append_nil (unlines p.lines),
        findString_unlines (by decide) hlines]
      rfl
    rw [Task.status, List.take_append_of_le_length (by omega),
      parse_none fun h => hnone (h.trans (List.take_prefix size _).isInfix)]
    exact iff_of_false hzero (by omega)

/-- **The two ways to count the threads agree** if no line of `status` before the
one with their number has "Threads:" in it, and exactly if the number is within the
65536 bytes that are read. -/
theorem threads_agree (p : Task) (hlines : ∀ line ∈ p.lines, ¬ threadsKey <:+: line)
    (r : Reading p.status 65536) :
    ∃ pids, threads (some p.names) = some pids ∧ pids.Pairwise (· < ·)
      ∧ pids.Perm (p.tids.map Nat.cast)
      ∧ (numThreads (.ok p.status) (r.reads.map Except.ok) = some (pids.length : ℤ)
          ↔ p.numberEnd ≤ 65536) := by
  obtain ⟨pids, hpids, hsorted, hperm⟩ := threads_eq p
  refine ⟨pids, hpids, hsorted, hperm, ?_⟩
  obtain ⟨result, hresult⟩ := Option.isSome_iff_exists.mp r.ends
  have hread : numThreads (.ok p.status) (r.reads.map Except.ok)
      = numThreads.parse (p.status.take 65536) := by
    rw [numThreads, procStatus, hresult, FileReader.readFile_eq hresult]
    rfl
  rw [hread, hperm.length_eq, List.length_map]
  exact parse_status p hlines 65536

/-- Three threads, listed in another order, and two pieces of the file. -/
def worker : Task where
  tids := [71, 9, 70]
  names := [['.'], ['.', '.'], ['7', '1'], ['9'], ['7', '0']]
  lines := [['N', 'a', 'm', 'e', ':', '\t', 'w']]
  rest := []
  running := by decide
  distinct := by decide
  range := by decide
  listed := by decide

def worker.reading : Reading worker.status 65536 where
  reads := [12, 7, 0]
  ends := by decide

theorem threads_agree_worker :
    ∃ pids, threads (some worker.names) = some pids ∧ pids.Pairwise (· < ·)
      ∧ pids.Perm (worker.tids.map Nat.cast)
      ∧ (numThreads (.ok worker.status) (worker.reading.reads.map Except.ok)
            = some (pids.length : ℤ) ↔ worker.numberEnd ≤ 65536) :=
  threads_agree worker (by decide) worker.reading

/-- A program may be called so that `numThreads` is wrong. -/
example : numThreads.parse (unlines [['N', 'a', 'm', 'e', ':', '\t'] ++ threadsKey ++ ['7']]
    ++ worker.counted) = some 7 := by decide

/-! ## The open files -/

/-- `openedFiles` counts the descriptors, and the one by which it reads the directory
is one of them: `fds` are those of the process and `dirfd` is that one. -/
theorem openedFiles_eq {names : List (List Char)} {fds : List ℕ} {dirfd : ℕ}
    (hlisted : (names.filter numeric).Perm ((dirfd :: fds).map decimal.write))
    (hfds : fds.length < 2 ^ 31 - 1) :
    openedFiles (some names) = some ((fds.length : ℤ) + 1) := by
  have hlength : (names.filter numeric).length = fds.length + 1 := by
    rw [hlisted.length_eq, List.length_map, List.length_cons]
  have hfits : CInt.Fits (0 + (names.filter numeric).length) := by
    unfold CInt.Fits
    omega
  have hcount := foldlM_count 0 hfits (Int.le_of_eq rfl)
  rw [← scanDir_numeric, hlength, Int.zero_add, Int.natCast_succ] at hcount
  exact hcount

/-- Without a limit, `maxOpenFiles` is negative. -/
example (fd : Option (List (List Char))) : maxOpenFiles (some (2 ^ 64 - 1)) fd = some (-1) := rfl

end ProcessInfo

end Libiak.Base
