/-
`base/TimeZone.cpp`: reading a zone file, and what a `TimeZone` made from one is
worth.

The reader succeeds exactly on the layouts of blocks (`readBlock_ok`): that is
the round trip (`readTimeZoneFile_layout`), and also which files leave a
consistent table behind. It reports success for every file, so a time zone that
reports itself valid is usable only if its file happens to be one of those
(`valid_usable_iff`).
-/
import Libiak.Decoder
import Libiak.TimeZone

set_option autoImplicit false

namespace Libiak.Base

open CInt Decoder

/-- How reading stops: by a `logic_error`, or where the language leaves the
behaviour undefined. -/
inductive Stop where
  | thrown (what : String)
  | undefined
  deriving DecidableEq

/-- A function that reads the file and fills the caller's data. -/
abbrev Read (α : Type) := Decoder Stop Data α

/-- `File::readBytes`. The length of its array may not be negative. -/
def readBytes (n : ℤ) : Read (List UInt8) := do
  let file ← get
  if n < 0 then throw .undefined
  else
    let buf := file.rest.take n.toNat
    set { file with rest := file.rest.drop n.toNat }
    if buf.length ≠ n.toNat then throw (.thrown "no enough data")
    else pure buf

/-- `be32toh`, as an `int32_t`. -/
def be32toh (b0 b1 b2 b3 : UInt8) : ℤ :=
  cast (b0.toNat * 16777216 + b1.toNat * 65536 + b2.toNat * 256 + b3.toNat)

/-- `File::readInt32`. -/
def readInt32 : Read ℤ := do
  let file ← get
  match file.rest with
  | b0 :: b1 :: b2 :: b3 :: rest =>
      set { file with rest := rest }
      pure (be32toh b0 b1 b2 b3)
  | _ =>
      set { file with rest := [] }
      throw (.thrown "bad int32_t data")

/-- `File::readUInt8`. -/
def readUInt8 : Read UInt8 := do
  let file ← get
  match file.rest with
  | x :: rest =>
      set { file with rest := rest }
      pure x
  | [] => throw (.thrown "bad uint8_t data")

/-- `data->localtimes.push_back`. -/
def pushLocaltime (x : Localtime) : Read PUnit :=
  modify fun file =>
    { file with state := { file.state with localtimes := file.state.localtimes ++ [x] } }

/-- `data->transitions.push_back`. -/
def pushTransition (x : Transition) : Read PUnit :=
  modify fun file =>
    { file with state := { file.state with transitions := file.state.transitions ++ [x] } }

/-- The loop that reads the local time types. -/
def readLocaltimes : ℕ → Read PUnit
  | 0 => pure ⟨⟩
  | n + 1 => do
      let gmtoff ← readInt32
      let isdst ← readUInt8
      let abbrind ← readUInt8
      pushLocaltime ⟨gmtoff, isdst ≠ 0, abbrind.toNat⟩
      readLocaltimes n

/-- The loop that joins the times and the indices that were read; an index that
no type has is not checked. -/
def joinTransitions : List ℤ → List UInt8 → Read PUnit
  | time :: times, localIdx :: localtimes => do
      let file ← get
      match file.state.localtimes[localIdx.toNat]? with
      | none => throw .undefined
      | some x =>
          pushTransition ⟨time, time + x.gmtOffset, localIdx.toNat⟩
          joinTransitions times localtimes
  | _, _ => pure ⟨⟩

/-- The `try` block of `readTimeZoneFile`. A `reserve` of a negative number asks
for more than a vector can hold, and that is a `logic_error` too. -/
def readBlock : Read PUnit := do
  let head ← readBytes 4
  if head ≠ [84, 90, 105, 102] then throw (.thrown "bad head")
  else
    let _version ← readBytes 1
    let _ ← readBytes 15
    let _isgmtcnt ← readInt32
    let _isstdcnt ← readInt32
    let _leapcnt ← readInt32
    let timecnt ← readInt32
    let typecnt ← readInt32
    let charcnt ← readInt32
    if timecnt < 0 then throw (.thrown "vector::reserve")
    else
      let trans ← times readInt32 timecnt.toNat
      let localtimes ← times readUInt8 timecnt.toNat
      readLocaltimes typecnt.toNat
      joinTransitions trans localtimes
      let abbreviation ← readBytes charcnt
      modify fun file => { file with state := { file.state with abbreviation := abbreviation } }

/-- `readTimeZoneFile`, with the data it leaves; an absent file has no bytes. -/
def readTimeZoneFile (zonefile : Option (List UInt8)) (data : Data) : Option (Bool × Data) :=
  match zonefile with
  | none => some (true, data)
  | some bytes =>
      match readBlock ⟨bytes, data⟩ with
      | .ok _ file => some (true, file.state)
      | .error (.thrown _) file => some (true, file.state)
      | .error .undefined _ => none

/-- `new TimeZone::Data`. -/
def Data.new : Data := ⟨[], [], []⟩

/-- The constructor of `TimeZone`: its `data_`. -/
def TimeZone.new (zonefile : Option (List UInt8)) : Option (Option Data) := do
  let (ok, data) ← readTimeZoneFile zonefile Data.new
  some (if ok then some data else none)

/-- `TimeZone::operator bool`. -/
def TimeZone.valid (data_ : Option Data) : Bool := data_.isSome

/-! ## The layout of a block -/

/-- What a block of version 1 says, up to the abbreviations. The records behind
them are counted here and not read. -/
structure Block where
  version : UInt8
  reserved : List UInt8
  isgmtcnt : ℤ
  isstdcnt : ℤ
  leapcnt : ℤ
  transitions : List (ℤ × UInt8)
  types : List (ℤ × UInt8 × UInt8)
  abbreviation : List UInt8

/-- A number, most significant byte first. -/
def bytesOfInt32 (x : ℤ) : List UInt8 :=
  [UInt8.ofNat (x / 16777216 % 256).toNat, UInt8.ofNat (x / 65536 % 256).toNat,
    UInt8.ofNat (x / 256 % 256).toNat, UInt8.ofNat (x % 256).toNat]

/-- A type: its offset, its flag and the index of its abbreviation. -/
def bytesOfType (x : ℤ × UInt8 × UInt8) : List UInt8 :=
  bytesOfInt32 x.1 ++ [x.2.1, x.2.2]

namespace Block

/-- The bytes of a block, with a count of types. -/
def bytes (b : Block) (typecnt : ℤ) : List UInt8 :=
  [84, 90, 105, 102] ++ ([b.version] ++ (b.reserved ++ (bytesOfInt32 b.isgmtcnt
    ++ (bytesOfInt32 b.isstdcnt ++ (bytesOfInt32 b.leapcnt
    ++ (bytesOfInt32 b.transitions.length ++ (bytesOfInt32 typecnt
    ++ (bytesOfInt32 b.abbreviation.length
    ++ ((b.transitions.map Prod.fst).flatMap bytesOfInt32 ++ (b.transitions.map Prod.snd
    ++ (b.types.flatMap bytesOfType ++ b.abbreviation)))))))))))

/-- The bytes of a block. -/
def layout (b : Block) : List UInt8 := b.bytes b.types.length

/-- The numbers fit their places, and every transition's index is one of a
type. -/
structure WellFormed (b : Block) : Prop where
  reserved : b.reserved.length = 15
  counts : Fits b.isgmtcnt ∧ Fits b.isstdcnt ∧ Fits b.leapcnt
  transitions : Fits b.transitions.length
  types : Fits b.types.length
  abbreviation : Fits b.abbreviation.length
  times : ∀ x ∈ b.transitions, Fits x.1
  offsets : ∀ x ∈ b.types, Fits x.1
  index : ∀ x ∈ b.transitions, x.2.toNat < b.types.length

/-- The type an entry describes. -/
def localtime (x : ℤ × UInt8 × UInt8) : Localtime := ⟨x.1, x.2.1 ≠ 0, x.2.2.toNat⟩

/-- The transition an entry describes: its local time is its time by the offset
of its type. -/
def transition (types : List Localtime) (x : ℤ × UInt8) : Transition :=
  ⟨x.1, x.1 + (types[x.2.toNat]?.map Localtime.gmtOffset).getD 0, x.2.toNat⟩

/-- The table a block describes. -/
def data (b : Block) : Data where
  transitions := b.transitions.map (transition (b.types.map localtime))
  localtimes := b.types.map localtime
  abbreviation := b.abbreviation

end Block

/-! ## What each function accepts -/

theorem readBytes_decodes (n : ℤ) : Decodes (readBytes n) id (fun a => (a.length : ℤ) = n) := by
  intro s s' a
  unfold readBytes
  rw [bind_ok]
  constructor
  · rintro ⟨_, _, hget, h⟩
    cases hget
    obtain ⟨hn, h⟩ := check_ok.mp h
    obtain ⟨_, _, hset, h⟩ := bind_ok.mp h
    cases hset
    obtain ⟨hlength, h⟩ := check_ok.mp h
    obtain ⟨rfl, rfl⟩ := pure_ok.mp h
    refine ⟨by omega, ?_, rfl⟩
    exact (List.take_append_drop n.toNat s.rest).symm
  · rintro ⟨hlength, hrest, hstate⟩
    have htake : s.rest.take n.toNat = a := by
      rw [hrest, ← hlength]
      exact List.take_left
    have hdrop : s.rest.drop n.toNat = s'.rest := by
      rw [hrest, ← hlength]
      exact List.drop_left
    refine ⟨s, s, rfl, check_ok.mpr ⟨by omega, bind_ok.mpr ⟨⟨⟩, s', ?_, ?_⟩⟩⟩
    · rw [hdrop, ← hstate]
      rfl
    · exact check_ok.mpr ⟨by rw [htake]; omega, pure_ok.mpr ⟨htake, rfl⟩⟩

/-- The bytes of a number are read back as it. -/
theorem be32toh_bytes {x : ℤ} (h : Fits x) :
    be32toh (UInt8.ofNat (x / 16777216 % 256).toNat) (UInt8.ofNat (x / 65536 % 256).toNat)
      (UInt8.ofNat (x / 256 % 256).toNat) (UInt8.ofNat (x % 256).toNat) = x := by
  have hbyte : ∀ y : ℤ, ((UInt8.ofNat (y % 256).toNat).toNat : ℤ) = y % 256 := by
    intro y
    rw [UInt8.toNat_ofNat']
    omega
  unfold Fits at h
  unfold be32toh CInt.cast
  rw [hbyte, hbyte, hbyte, hbyte]
  omega

/-- Four bytes are those of the number they are read as. -/
theorem bytes_be32toh (b0 b1 b2 b3 : UInt8) :
    Fits (be32toh b0 b1 b2 b3) ∧ bytesOfInt32 (be32toh b0 b1 b2 b3) = [b0, b1, b2, b3] := by
  have h0 := b0.toNat_lt
  have h1 := b1.toNat_lt
  have h2 := b2.toNat_lt
  have h3 := b3.toNat_lt
  constructor
  · unfold Fits be32toh CInt.cast
    omega
  · have hbyte : ∀ (b : UInt8) (n : ℕ), n = b.toNat → UInt8.ofNat n = b := by
      intro b n hn
      rw [hn, UInt8.ofNat_toNat]
    unfold bytesOfInt32 be32toh CInt.cast
    rw [hbyte b0 _ (by omega), hbyte b1 _ (by omega), hbyte b2 _ (by omega), hbyte b3 _ (by omega)]

theorem readInt32_decodes : Decodes readInt32 bytesOfInt32 Fits := by
  intro s s' x
  unfold readInt32
  rw [bind_ok]
  constructor
  · rintro ⟨_, _, hget, h⟩
    cases hget
    obtain ⟨rest, data⟩ := s
    -- fewer than four bytes are an error
    match rest, h with
    | b0 :: b1 :: b2 :: b3 :: rest, h =>
        obtain ⟨_, _, hset, h⟩ := bind_ok.mp h
        cases hset
        obtain ⟨rfl, rfl⟩ := pure_ok.mp h
        obtain ⟨hfits, hbytes⟩ := bytes_be32toh b0 b1 b2 b3
        refine ⟨hfits, ?_, rfl⟩
        rw [hbytes]
        rfl
    | [], h | [_], h | [_, _], h | [_, _, _], h =>
        obtain ⟨_, _, -, h⟩ := bind_ok.mp h
        exact absurd h throw_ne_ok
  · rintro ⟨hfits, hrest, hstate⟩
    refine ⟨s, s, rfl, ?_⟩
    rw [hrest]
    refine bind_ok.mpr ⟨⟨⟩, s', ?_, ?_⟩
    · rw [← hstate]
      rfl
    · rw [be32toh_bytes hfits]
      rfl

theorem readUInt8_decodes : Decodes readUInt8 (fun x => [x]) (fun _ => True) := by
  intro s s' x
  unfold readUInt8
  rw [bind_ok]
  constructor
  · rintro ⟨_, _, hget, h⟩
    cases hget
    obtain ⟨rest, data⟩ := s
    match rest, h with
    | y :: rest, h =>
        obtain ⟨_, _, hset, h⟩ := bind_ok.mp h
        cases hset
        obtain ⟨rfl, rfl⟩ := pure_ok.mp h
        exact ⟨trivial, rfl, rfl⟩
    | [], h => exact absurd h throw_ne_ok
  · rintro ⟨-, hrest, hstate⟩
    refine ⟨s, s, rfl, ?_⟩
    rw [hrest]
    refine bind_ok.mpr ⟨⟨⟩, s', ?_, rfl⟩
    rw [← hstate]
    rfl

/-- The loop over the types accepts the encodings of as many, and adds them. -/
theorem readLocaltimes_ok (n : ℕ) {s s' : Source Data} :
    readLocaltimes n s = .ok ⟨⟩ s' ↔ ∃ types : List (ℤ × UInt8 × UInt8),
      types.length = n ∧ (∀ x ∈ types, Fits x.1) ∧ s.rest = types.flatMap bytesOfType ++ s'.rest
        ∧ s'.state = { s.state with
            localtimes := s.state.localtimes ++ types.map Block.localtime } := by
  induction n generalizing s with
  | zero =>
      unfold readLocaltimes
      rw [pure_ok]
      constructor
      · rintro ⟨-, rfl⟩
        refine ⟨[], rfl, fun _ hx => absurd hx List.not_mem_nil, rfl, ?_⟩
        rw [List.map_nil, List.append_nil]
      · rintro ⟨types, hlength, -, hrest, hstate⟩
        obtain rfl := List.length_eq_zero_iff.mp hlength
        rw [List.map_nil, List.append_nil] at hstate
        cases s
        cases s'
        cases hrest
        cases hstate
        exact ⟨rfl, rfl⟩
  | succ n ih =>
      unfold readLocaltimes
      constructor
      · -- the first entry by its three reads, the others by the induction
        intro h
        obtain ⟨gmtoff, s₁, h₁, h⟩ := bind_ok.mp h
        obtain ⟨isdst, s₂, h₂, h⟩ := bind_ok.mp h
        obtain ⟨abbrind, s₃, h₃, h⟩ := bind_ok.mp h
        obtain ⟨_, s₄, h₄, h⟩ := bind_ok.mp h
        obtain ⟨hfits, hrest₁, hstate₁⟩ := (readInt32_decodes _ _ _).mp h₁
        obtain ⟨-, hrest₂, hstate₂⟩ := (readUInt8_decodes _ _ _).mp h₂
        obtain ⟨-, hrest₃, hstate₃⟩ := (readUInt8_decodes _ _ _).mp h₃
        obtain rfl := modify_ok.mp h₄
        obtain ⟨types, hlength, hall, hrest, hstate⟩ := ih.mp h
        refine ⟨(gmtoff, isdst, abbrind) :: types, by rw [List.length_cons, hlength], ?_, ?_, ?_⟩
        · intro x hx
          obtain rfl | hx := List.mem_cons.mp hx
          · exact hfits
          · exact hall x hx
        · dsimp only at hrest
          rw [hrest₁, hrest₂, hrest₃, hrest, List.flatMap_cons, bytesOfType]
          simp only [List.append_assoc, List.cons_append, List.nil_append]
        · dsimp only at hstate
          rw [hstate, hstate₃, hstate₂, hstate₁, List.map_cons, List.append_assoc]
          rfl
      · rintro ⟨types, hlength, hall, hrest, hstate⟩
        cases types with
        | nil => cases hlength
        | cons x types =>
            obtain ⟨gmtoff, isdst, abbrind⟩ := x
            rw [List.flatMap_cons, bytesOfType] at hrest
            simp only [List.append_assoc, List.cons_append, List.nil_append] at hrest
            refine bind_ok.mpr ⟨gmtoff, ⟨_, s.state⟩, (readInt32_decodes _ _ _).mpr
              ⟨hall _ List.mem_cons_self, hrest, rfl⟩, ?_⟩
            refine bind_ok.mpr ⟨isdst, ⟨_, s.state⟩, (readUInt8_decodes _ _ _).mpr
              ⟨trivial, rfl, rfl⟩, ?_⟩
            refine bind_ok.mpr ⟨abbrind, ⟨_, s.state⟩, (readUInt8_decodes _ _ _).mpr
              ⟨trivial, rfl, rfl⟩, ?_⟩
            refine bind_ok.mpr ⟨⟨⟩, _, modify_ok.mpr rfl, ?_⟩
            refine ih.mpr ⟨types, Nat.succ.inj hlength,
              fun y hy => hall y (List.mem_cons_of_mem _ hy), rfl, ?_⟩
            rw [hstate, List.map_cons, List.append_assoc]
            rfl

/-- The loop over the transitions asks each index to be one of a type, and adds
the transitions. -/
theorem joinTransitions_ok (xs : List (ℤ × UInt8)) {s s' : Source Data} :
    joinTransitions (xs.map Prod.fst) (xs.map Prod.snd) s = .ok ⟨⟩ s' ↔
      (∀ x ∈ xs, x.2.toNat < s.state.localtimes.length) ∧ s'.rest = s.rest
        ∧ s'.state = { s.state with
            transitions := s.state.transitions
              ++ xs.map (Block.transition s.state.localtimes) } := by
  induction xs generalizing s with
  | nil =>
      rw [List.map_nil, List.map_nil, joinTransitions, pure_ok, List.map_nil, List.append_nil]
      · constructor
        · rintro ⟨-, rfl⟩
          exact ⟨fun _ hx => absurd hx List.not_mem_nil, rfl, rfl⟩
        · rintro ⟨-, hrest, hstate⟩
          cases s
          cases s'
          cases hrest
          cases hstate
          exact ⟨rfl, rfl⟩
      · intro _ _ _ _ h
        cases h
  | cons x xs ih =>
      rw [List.map_cons, List.map_cons, joinTransitions, bind_ok]
      constructor
      · rintro ⟨_, _, hget, h⟩
        cases hget
        cases htype : s.state.localtimes[x.2.toNat]? with
        | none =>
            -- an index past the vector has no successor
            rw [htype] at h
            exact absurd h throw_ne_ok
        | some y =>
            rw [htype] at h
            obtain ⟨_, s₁, hpush, h⟩ := bind_ok.mp h
            obtain rfl := modify_ok.mp hpush
            obtain ⟨hall, hrest, hstate⟩ := ih.mp h
            refine ⟨fun z hz => ?_, hrest, ?_⟩
            · obtain rfl | hz := List.mem_cons.mp hz
              · exact (List.getElem?_eq_some_iff.mp htype).1
              · exact hall z hz
            · dsimp only at hstate
              rw [hstate, List.append_assoc, List.map_cons, Block.transition, htype]
              rfl
      · rintro ⟨hall, hrest, hstate⟩
        have htype := List.getElem?_eq_getElem (hall x List.mem_cons_self)
        refine ⟨s, s, rfl, ?_⟩
        rw [htype]
        refine bind_ok.mpr ⟨⟨⟩, _, modify_ok.mpr rfl, ih.mpr ⟨?_, hrest, ?_⟩⟩
        · exact fun z hz => hall z (List.mem_cons_of_mem x hz)
        · rw [hstate, List.append_assoc, List.map_cons, Block.transition, htype]
          rfl

/-- The entries of a list of bytes are its bytes. -/
theorem flatMap_bytes (xs : List UInt8) : xs.flatMap (fun x => [x]) = xs :=
  List.flatMap_singleton' xs

/-- What the reader accepts is the layout of a block. -/
theorem readBlock_accepts {bytes : List UInt8} {s' : Source Data}
    (h : readBlock ⟨bytes, Data.new⟩ = .ok ⟨⟩ s') : ∃ (b : Block) (typecnt : ℤ),
      b.WellFormed ∧ Fits typecnt ∧ typecnt.toNat = b.types.length
        ∧ bytes = b.bytes typecnt ++ s'.rest ∧ s'.state = b.data := by
  unfold readBlock at h
  -- the states between the reads, in the order of the reads
  obtain ⟨head, s₁, h₁, h⟩ := bind_ok.mp h
  obtain ⟨hhead, h⟩ := check_ok.mp h
  obtain ⟨version, s₂, h₂, h⟩ := bind_ok.mp h
  obtain ⟨reserved, s₃, h₃, h⟩ := bind_ok.mp h
  obtain ⟨isgmtcnt, s₄, h₄, h⟩ := bind_ok.mp h
  obtain ⟨isstdcnt, s₅, h₅, h⟩ := bind_ok.mp h
  obtain ⟨leapcnt, s₆, h₆, h⟩ := bind_ok.mp h
  obtain ⟨timecnt, s₇, h₇, h⟩ := bind_ok.mp h
  obtain ⟨typecnt, s₈, h₈, h⟩ := bind_ok.mp h
  obtain ⟨charcnt, s₉, h₉, h⟩ := bind_ok.mp h
  obtain ⟨htimecnt, h⟩ := check_ok.mp h
  obtain ⟨trans, s₁₀, h₁₀, h⟩ := bind_ok.mp h
  obtain ⟨indices, s₁₁, h₁₁, h⟩ := bind_ok.mp h
  obtain ⟨_, s₁₂, h₁₂, h⟩ := bind_ok.mp h
  obtain ⟨_, s₁₃, h₁₃, h⟩ := bind_ok.mp h
  obtain ⟨abbreviation, s₁₄, h₁₄, h⟩ := bind_ok.mp h
  obtain rfl := modify_ok.mp h
  -- what each read has taken, and that it has left the data alone
  obtain ⟨-, r₁, d₁⟩ := (readBytes_decodes _ _ _ _).mp h₁
  obtain ⟨l₂, r₂, d₂⟩ := (readBytes_decodes _ _ _ _).mp h₂
  obtain ⟨l₃, r₃, d₃⟩ := (readBytes_decodes _ _ _ _).mp h₃
  obtain ⟨f₄, r₄, d₄⟩ := (readInt32_decodes _ _ _).mp h₄
  obtain ⟨f₅, r₅, d₅⟩ := (readInt32_decodes _ _ _).mp h₅
  obtain ⟨f₆, r₆, d₆⟩ := (readInt32_decodes _ _ _).mp h₆
  obtain ⟨f₇, r₇, d₇⟩ := (readInt32_decodes _ _ _).mp h₇
  obtain ⟨f₈, r₈, d₈⟩ := (readInt32_decodes _ _ _).mp h₈
  obtain ⟨f₉, r₉, d₉⟩ := (readInt32_decodes _ _ _).mp h₉
  obtain ⟨⟨l₁₀, f₁₀⟩, r₁₀, d₁₀⟩ := (readInt32_decodes.times _ _ _ _).mp h₁₀
  obtain ⟨⟨l₁₁, -⟩, r₁₁, d₁₁⟩ := (readUInt8_decodes.times _ _ _ _).mp h₁₁
  obtain ⟨types, l₁₂, f₁₂, r₁₂, d₁₂⟩ := (readLocaltimes_ok _).mp h₁₂
  obtain ⟨l₁₄, r₁₄, d₁₄⟩ := (readBytes_decodes _ _ _ _).mp h₁₄
  -- the two arrays of transitions have one length
  have hlength : trans.length = indices.length := by rw [l₁₀, l₁₁]
  have hfst : (trans.zip indices).map Prod.fst = trans := List.map_fst_zip (by omega)
  have hsnd : (trans.zip indices).map Prod.snd = indices := List.map_snd_zip (by omega)
  have hzip : (trans.zip indices).length = timecnt.toNat := by
    rw [List.length_zip, ← hlength, l₁₀, Nat.min_self]
  have h₁₃' : joinTransitions ((trans.zip indices).map Prod.fst)
      ((trans.zip indices).map Prod.snd) s₁₂ = .ok ⟨⟩ s₁₃ := by
    rw [hfst, hsnd]
    exact h₁₃
  obtain ⟨f₁₃, r₁₃, d₁₃⟩ := (joinTransitions_ok _).mp h₁₃'
  obtain ⟨v, rfl⟩ : ∃ v, version = [v] := List.length_eq_one_iff.mp (by omega)
  have hlocaltimes : s₁₂.state.localtimes = types.map Block.localtime := by
    rw [d₁₂, d₁₁, d₁₀, d₉, d₈, d₇, d₆, d₅, d₄, d₃, d₂, d₁]
    rfl
  refine ⟨⟨v, reserved, isgmtcnt, isstdcnt, leapcnt, trans.zip indices, types, abbreviation⟩,
    typecnt, ?_, f₈, l₁₂.symm, ?_, ?_⟩
  · have hcount : ((trans.zip indices).length : ℤ) = timecnt := by
      rw [hzip]
      omega
    refine ⟨Int.ofNat_inj.mp l₃, ⟨f₄, f₅, f₆⟩, hcount ▸ f₇, ?_, l₁₄ ▸ f₉, ?_, f₁₂, ?_⟩
    · unfold Fits at f₈ ⊢
      dsimp only
      omega
    · intro x hx
      exact f₁₀ x.1 (List.of_mem_zip hx).1
    · intro x hx
      have := f₁₃ x hx
      rwa [hlocaltimes, List.length_map] at this
  · have hcount : ((trans.zip indices).length : ℤ) = timecnt := by
      rw [hzip]
      omega
    have hhead' : head = [84, 90, 105, 102] := Decidable.not_not.mp hhead
    dsimp only [id] at r₁ r₂ r₃ r₁₄
    unfold Block.bytes
    dsimp only
    rw [hfst, hsnd, hcount, l₁₄, r₁, r₂, r₃, r₄, r₅, r₆, r₇, r₈, r₉, r₁₀, r₁₁, r₁₂, ← r₁₃, r₁₄,
      flatMap_bytes, hhead']
    simp only [List.append_assoc]
  · dsimp only
    rw [d₁₄, d₁₃, hlocaltimes, d₁₂, d₁₁, d₁₀, d₉, d₈, d₇, d₆, d₅, d₄, d₃, d₂, d₁]
    rfl

/-- The layout of a block is accepted. -/
theorem readBlock_bytes {b : Block} {typecnt : ℤ} (hwell : b.WellFormed) (hfits : Fits typecnt)
    (htypes : typecnt.toNat = b.types.length) (rest : List UInt8) :
    readBlock ⟨b.bytes typecnt ++ rest, Data.new⟩ = .ok ⟨⟩ ⟨rest, b.data⟩ := by
  unfold readBlock Block.bytes
  simp only [List.append_assoc]
  obtain ⟨hgmt, hstd, hleap⟩ := hwell.counts
  -- each read takes its part of the layout and leaves the rest to the next
  refine bind_ok.mpr ⟨[84, 90, 105, 102], ⟨_, Data.new⟩,
    (readBytes_decodes _ _ _ _).mpr ⟨rfl, rfl, rfl⟩, check_ok.mpr ⟨by decide, ?_⟩⟩
  refine bind_ok.mpr ⟨[b.version], ⟨_, Data.new⟩,
    (readBytes_decodes _ _ _ _).mpr ⟨rfl, rfl, rfl⟩, ?_⟩
  refine bind_ok.mpr ⟨b.reserved, ⟨_, Data.new⟩,
    (readBytes_decodes _ _ _ _).mpr ⟨congrArg Nat.cast hwell.reserved, rfl, rfl⟩, ?_⟩
  refine bind_ok.mpr ⟨_, ⟨_, Data.new⟩, (readInt32_decodes _ _ _).mpr ⟨hgmt, rfl, rfl⟩, ?_⟩
  refine bind_ok.mpr ⟨_, ⟨_, Data.new⟩, (readInt32_decodes _ _ _).mpr ⟨hstd, rfl, rfl⟩, ?_⟩
  refine bind_ok.mpr ⟨_, ⟨_, Data.new⟩, (readInt32_decodes _ _ _).mpr ⟨hleap, rfl, rfl⟩, ?_⟩
  refine bind_ok.mpr ⟨_, ⟨_, Data.new⟩,
    (readInt32_decodes _ _ _).mpr ⟨hwell.transitions, rfl, rfl⟩, ?_⟩
  refine bind_ok.mpr ⟨_, ⟨_, Data.new⟩, (readInt32_decodes _ _ _).mpr ⟨hfits, rfl, rfl⟩, ?_⟩
  refine bind_ok.mpr ⟨_, ⟨_, Data.new⟩,
    (readInt32_decodes _ _ _).mpr ⟨hwell.abbreviation, rfl, rfl⟩, check_ok.mpr ⟨by omega, ?_⟩⟩
  refine bind_ok.mpr ⟨b.transitions.map Prod.fst, ⟨_, Data.new⟩,
    (readInt32_decodes.times _ _ _ _).mpr ⟨⟨by rw [List.length_map]; rfl, ?_⟩, rfl, rfl⟩, ?_⟩
  · intro t ht
    obtain ⟨x, hx, rfl⟩ := List.mem_map.mp ht
    exact hwell.times x hx
  refine bind_ok.mpr ⟨b.transitions.map Prod.snd,
    ⟨b.types.flatMap bytesOfType ++ (b.abbreviation ++ rest), Data.new⟩,
    (readUInt8_decodes.times _ _ _ _).mpr
      ⟨⟨by rw [List.length_map]; rfl, fun _ _ => trivial⟩, by rw [flatMap_bytes], rfl⟩, ?_⟩
  refine bind_ok.mpr ⟨⟨⟩, ⟨b.abbreviation ++ rest,
    { Data.new with localtimes := b.types.map Block.localtime }⟩,
    (readLocaltimes_ok _).mpr ⟨b.types, htypes.symm, hwell.offsets, rfl, rfl⟩, ?_⟩
  refine bind_ok.mpr ⟨⟨⟩, ⟨b.abbreviation ++ rest, { b.data with abbreviation := [] }⟩,
    (joinTransitions_ok _).mpr ⟨?_, rfl, rfl⟩, ?_⟩
  · intro x hx
    dsimp only
    rw [List.length_map]
    exact hwell.index x hx
  refine bind_ok.mpr ⟨b.abbreviation, ⟨rest, { b.data with abbreviation := [] }⟩,
    (readBytes_decodes _ _ _ _).mpr ⟨rfl, rfl, rfl⟩, modify_ok.mpr rfl⟩

/-- **What the reader accepts**: the layouts of blocks, with any bytes behind
them, and nothing else. Only a count of types below zero is taken for none. -/
theorem readBlock_ok {bytes : List UInt8} {s' : Source Data} :
    readBlock ⟨bytes, Data.new⟩ = .ok ⟨⟩ s' ↔ ∃ (b : Block) (typecnt : ℤ),
      b.WellFormed ∧ Fits typecnt ∧ typecnt.toNat = b.types.length
        ∧ bytes = b.bytes typecnt ++ s'.rest ∧ s'.state = b.data := by
  constructor
  · exact readBlock_accepts
  · rintro ⟨b, typecnt, hwell, hfits, htypes, rfl, hstate⟩
    rw [readBlock_bytes hwell hfits htypes, ← hstate]

/-- **Decoding undoes encoding.** On the layout of a block, with any bytes behind
it, the reader throws nothing and fills in the table the block describes: the
types in order, the transitions in order, each with the local time of its type,
and the abbreviations. -/
theorem readTimeZoneFile_layout (b : Block) (h : b.WellFormed) (rest : List UInt8) :
    readBlock ⟨b.layout ++ rest, Data.new⟩ = .ok ⟨⟩ ⟨rest, b.data⟩
      ∧ readTimeZoneFile (some (b.layout ++ rest)) Data.new = some (true, b.data)
      ∧ ∀ (k : ℕ) (x : ℤ × UInt8), b.transitions[k]? = some x → ∃ y, b.types[x.2.toNat]? = some y
        ∧ b.data.transitions[k]? = some ⟨x.1, x.1 + y.1, x.2.toNat⟩ := by
  have hread : readBlock ⟨b.layout ++ rest, Data.new⟩ = .ok ⟨⟩ ⟨rest, b.data⟩ :=
    readBlock_bytes h h.types (Int.toNat_natCast _) rest
  refine ⟨hread, ?_, fun k x hx => ?_⟩
  · unfold readTimeZoneFile
    dsimp only
    rw [hread]
  · have htype := List.getElem?_eq_getElem (h.index x (List.mem_of_getElem? hx))
    refine ⟨_, htype, ?_⟩
    unfold Block.data
    rw [List.getElem?_map, hx, Option.map_some, Block.transition, List.getElem?_map, htype]
    rfl

/-- A zone one hour ahead of UTC, and two from the first of April 1980 on. -/
def spring : Block where
  version := 50
  reserved := List.replicate 15 0
  isgmtcnt := 0
  isstdcnt := 0
  leapcnt := 0
  transitions := [(323830800, 1)]
  types := [(3600, 0, 0), (7200, 1, 4)]
  abbreviation := [67, 69, 84, 0, 67, 69, 83, 84, 0]

theorem spring_wellFormed : spring.WellFormed where
  reserved := by decide
  counts := by decide
  transitions := by decide
  types := by decide
  abbreviation := by decide
  times := by decide
  offsets := by decide
  index := by decide

theorem readTimeZoneFile_layout_spring :
    readBlock ⟨spring.layout ++ [0, 0, 0], Data.new⟩ = .ok ⟨⟩ ⟨[0, 0, 0], spring.data⟩
      ∧ readTimeZoneFile (some (spring.layout ++ [0, 0, 0])) Data.new = some (true, spring.data)
      ∧ ∀ (k : ℕ) (x : ℤ × UInt8), spring.transitions[k]? = some x →
        ∃ y, spring.types[x.2.toNat]? = some y
        ∧ spring.data.transitions[k]? = some ⟨x.1, x.1 + y.1, x.2.toNat⟩ :=
  readTimeZoneFile_layout spring spring_wellFormed [0, 0, 0]

/-! ## Time zones that report themselves valid -/

/-- The indices of a table are in range. -/
structure Data.Consistent (data : Data) : Prop where
  nonempty : 0 < data.localtimes.length
  index : ∀ transition ∈ data.transitions,
    0 ≤ transition.localtimeIdx ∧ transition.localtimeIdx < data.localtimes.length
  abbreviation : ∀ x ∈ data.localtimes, 0 ≤ x.arrbIdx ∧ x.arrbIdx < data.abbreviation.length

/-- The conversions read nothing out of range, whatever they are given, and the
name of the zone is one of the abbreviations. -/
def Data.InRange (data : Data) : Prop :=
  ∀ libc : Libc,
    (∀ seconds, ∃ x index, toLocalTime libc data seconds = some x
        ∧ x.tm_zone = .abbreviation index ∧ 0 ≤ index ∧ index < data.abbreviation.length)
      ∧ ∀ localTm, ∃ seconds, fromLocalTime libc data localTm = some seconds

/-- On a consistent table the lookup finds a type, in whatever order the
transitions stand. -/
theorem Data.Consistent.findLocaltime_mem {data : Data} (h : data.Consistent)
    (sentry : Transition) (comp : Comp) :
    ∃ x, findLocaltime data sentry comp = some x ∧ x ∈ data.localtimes := by
  have hfirst : ∃ x, data.localtimes.head? = some x ∧ x ∈ data.localtimes := by
    rw [List.head?_eq_getElem?, List.getElem?_eq_getElem h.nonempty]
    exact ⟨_, rfl, List.getElem_mem _⟩
  have hfound : ∀ {k : ℕ} {transition : Transition}, data.transitions[k]? = some transition →
      ∃ x, data.localtime? transition.localtimeIdx = some x ∧ x ∈ data.localtimes := by
    intro k transition hk
    obtain ⟨hlow, hhigh⟩ := h.index transition (List.mem_of_getElem? hk)
    obtain ⟨x, hx⟩ := Data.localtime?_some hlow hhigh
    exact ⟨x, hx, Data.localtime?_mem hx⟩
  unfold findLocaltime
  cases hfront : data.transitions.head? with
  | none => exact hfirst
  | some front =>
      rw [List.head?_eq_getElem?] at hfront
      dsimp only
      by_cases hlt : comp.lt sentry front = true
      · rw [if_pos hlt]
        exact hfirst
      · rw [if_neg hlt]
        have hle : lowerBound (fun transition => comp.lt transition sentry) data.transitions
            ≤ data.transitions.length := lowerBound_le
        cases hat : data.transitions[lowerBound (fun transition => comp.lt transition sentry)
            data.transitions]? with
        | some transition =>
            dsimp only
            by_cases hequal : comp.equal sentry transition = true
            · rw [if_pos hequal]
              exact hfound hat
            · rw [if_neg hequal]
              -- the search has passed the first transition, or stopped at it as equal
              have hpos : 0 < lowerBound (fun transition => comp.lt transition sentry)
                  data.transitions := by
                by_contra hzero
                have hstart : lowerBound (fun transition => comp.lt transition sentry)
                    data.transitions = 0 := by omega
                rw [hstart, hfront, Option.some.injEq] at hat
                subst hat
                have h₁ := mt Comp.lt_iff.mpr hlt
                have h₂ := mt Comp.equal_iff.mpr hequal
                exact hzero (lowerBound_pos hfront (Comp.lt_iff.mpr (by omega)))
              rw [if_neg (by omega), List.getElem?_eq_getElem (by omega)]
              exact hfound (List.getElem?_eq_getElem _)
        | none =>
            have hlength : 0 < data.transitions.length :=
              (List.getElem?_eq_some_iff.mp hfront).1
            dsimp only
            rw [List.getLast?_eq_getElem?, List.getElem?_eq_getElem (by omega)]
            exact hfound (List.getElem?_eq_getElem _)

theorem Data.Consistent.inRange {data : Data} (h : data.Consistent) : data.InRange := by
  intro libc
  have hlocal : ∀ seconds, ∃ x index, toLocalTime libc data seconds = some x
      ∧ x.tm_zone = .abbreviation index ∧ 0 ≤ index ∧ index < data.abbreviation.length := by
    intro seconds
    obtain ⟨x, hx, hmem⟩ := h.findLocaltime_mem ⟨seconds, 0, 0⟩ ⟨true⟩
    unfold toLocalTime
    dsimp only
    rw [hx]
    exact ⟨_, _, rfl, rfl, h.abbreviation x hmem⟩
  refine ⟨hlocal, fun localTm => ?_⟩
  obtain ⟨x, hx, -⟩ := h.findLocaltime_mem ⟨0, libc.timegm localTm, 0⟩ ⟨false⟩
  obtain ⟨tryTm, -, htry, -⟩ := hlocal (libc.timegm localTm - x.gmtOffset)
  unfold fromLocalTime
  dsimp only
  rw [hx]
  dsimp only [Option.bind_eq_bind, Option.bind_some]
  rw [htry]
  dsimp only [Option.bind_some]
  split
  · split
    · exact ⟨_, rfl⟩
    · exact ⟨_, rfl⟩
  · exact ⟨_, rfl⟩

/-- A time zone that converts to true was read to the end without an error and
has a consistent table, so that the conversions read nothing out of range; one
that does not has no table. -/
def ValidIsUsable (zonefile : Option (List UInt8)) : Prop :=
  ∃ data_, TimeZone.new zonefile = some data_
    ∧ (TimeZone.valid data_ = true → ∃ bytes rest data, zonefile = some bytes
        ∧ readBlock ⟨bytes, Data.new⟩ = .ok ⟨⟩ ⟨rest, data⟩ ∧ data_ = some data
        ∧ data.Consistent ∧ data.InRange)
    ∧ (TimeZone.valid data_ = false → data_ = none)

/-- The file is there and begins with a block that has a type, and whose types
have abbreviations. -/
def HoldsUsableBlock (zonefile : Option (List UInt8)) : Prop :=
  ∃ (b : Block) (rest : List UInt8), zonefile = some (b.layout ++ rest) ∧ b.WellFormed
    ∧ 0 < b.types.length ∧ ∀ x ∈ b.types, x.2.2.toNat < b.abbreviation.length

/-- The table of a well formed block is consistent if the block has a type and
its types have abbreviations, and only then. -/
theorem Block.data_consistent {b : Block} (h : b.WellFormed) : b.data.Consistent ↔
    0 < b.types.length ∧ ∀ x ∈ b.types, x.2.2.toNat < b.abbreviation.length := by
  have hlength : b.data.localtimes.length = b.types.length := List.length_map _
  constructor
  · intro hc
    refine ⟨hlength ▸ hc.nonempty, fun x hx => ?_⟩
    have := (hc.abbreviation (Block.localtime x) (List.mem_map_of_mem hx)).2
    exact Int.ofNat_lt.mp this
  · rintro ⟨hpos, habbreviation⟩
    refine ⟨hlength ▸ hpos, ?_, ?_⟩
    · intro transition hmem
      obtain ⟨x, hx, rfl⟩ := List.mem_map.mp hmem
      rw [hlength]
      exact ⟨Int.natCast_nonneg _, Int.ofNat_lt.mpr (h.index x hx)⟩
    · intro y hy
      obtain ⟨x, hx, rfl⟩ := List.mem_map.mp hy
      exact ⟨Int.natCast_nonneg _, Int.ofNat_lt.mpr (habbreviation x hx)⟩

/-- **Validity.** A time zone that reports itself valid is usable exactly if its
file begins with a usable block: every file is reported as read. -/
theorem valid_usable_iff (zonefile : Option (List UInt8)) :
    ValidIsUsable zonefile ↔ HoldsUsableBlock zonefile := by
  constructor
  · rintro ⟨data_, hnew, hvalid, -⟩
    -- whatever was read, the flag is true
    have hsome : ∃ data, data_ = some data := by
      unfold TimeZone.new at hnew
      cases hread : readTimeZoneFile zonefile Data.new with
      | none =>
          rw [hread] at hnew
          cases hnew
      | some result =>
          obtain ⟨ok, data⟩ := result
          have hok : ok = true := by
            unfold readTimeZoneFile at hread
            split at hread
            · cases hread
              rfl
            · split at hread
              · cases hread
                rfl
              · cases hread
                rfl
              · cases hread
          rw [hread, hok] at hnew
          cases hnew
          exact ⟨data, rfl⟩
    obtain ⟨data, rfl⟩ := hsome
    obtain ⟨bytes, rest, data', rfl, hread, hdata, hconsistent, -⟩ := hvalid rfl
    obtain ⟨b, typecnt, hwell, -, htypes, rfl, hstate⟩ := readBlock_ok.mp hread
    dsimp only at hstate
    rw [hstate, Block.data_consistent hwell] at hconsistent
    -- there are types, so their count is not below zero
    have hcount : typecnt = b.types.length := by
      have := hconsistent.1
      omega
    rw [hcount]
    exact ⟨b, rest, rfl, hwell, hconsistent⟩
  · rintro ⟨b, rest, rfl, hwell, hconsistent⟩
    have hread := readBlock_bytes hwell hwell.types (Int.toNat_natCast _) rest
    have hdata := (Block.data_consistent hwell).mpr hconsistent
    refine ⟨some b.data, ?_, fun _ => ?_, fun h => by cases h⟩
    · unfold TimeZone.new readTimeZoneFile Block.layout
      dsimp only
      rw [hread]
      rfl
    · exact ⟨_, rest, b.data, rfl, hread, rfl, hdata, hdata.inRange⟩

/-- An absent file leaves a time zone that reports itself valid, without a type. -/
theorem absent_file_unusable : ¬ ValidIsUsable none := by
  rintro ⟨data_, hnew, hvalid, -⟩
  cases hnew
  obtain ⟨_, _, _, hfile, -⟩ := hvalid rfl
  cases hfile

end Libiak.Base
