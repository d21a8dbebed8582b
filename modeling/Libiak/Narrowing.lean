/-
The sizes of `PeekData`, `ReadData` and `writeData`, which are `size_t` in the
interface and `uint32_t` inside.

Each function compares the size with one ring in full width, takes that ring's
share off the size converted to 32 bits, and walks on with the difference. The
subtraction goes round too, so that a conversion that lost `2 ^ 32` is undone
where the share is larger than what is left of the size. That is why the
condition is not that the size fits 32 bits: what is stored or copied is right
exactly when the size is below `2 ^ 32` plus the share of the first ring
(`writeData_exact_iff`, `readData_exact_iff`). From there on the loops do less
than they were asked for, and the totals say they did it all.
-/
import Libiak.IoBounds

set_option autoImplicit false

namespace Libiak.Net

variable {α : Type*}

namespace IoBuffers

/-- The room in the tail ring of the write chain. -/
def writeRoom (io : IoBuffers α) : ℕ :=
  (io.writeHead_.getLast?.map fun writeTail => writeTail.capacity - writeTail.count).getD 0

/-- The count of the head ring of the read chain. -/
def readCount (io : IoBuffers α) : ℕ := (io.readHead_.head?.map Buffer.count).getD 0

/-- `writeData` raises the sum of the counts by the size of the data, which is
what it adds to `writeSize_`. -/
def StoresAll (io : IoBuffers α) (xs : List α) : Prop :=
  ∃ ok io', writeData io true xs = some (ok, io')
    ∧ total io'.writeHead_ = total io.writeHead_ + xs.length
    ∧ io'.writeSize_ = io.writeSize_ + xs.length

/-- `PeekData` and `ReadData` copy `size` bytes, which is what `ReadData` takes
from `readSize_`. -/
def CopiesAll (io : IoBuffers α) (size : ℕ) : Prop :=
  ∃ ok ok' x y io', PeekData io true size = some (ok, x)
    ∧ ReadData io true size = some (ok', y, io')
    ∧ x.length = size ∧ y.length = size ∧ io'.readSize_ + size = io.readSize_

variable {io : IoBuffers α}

/-- **What `writeData` stores** is all of the data exactly when its size is
within `2 ^ 32` of the room in the tail ring. -/
theorem writeData_exact_iff (h : WriteShape io) (xs : List α) :
    StoresAll io xs ↔ xs.length < 2 ^ 32 + io.writeRoom := by
  by_cases h0 : 0 < xs.length
  · obtain ⟨front, tail, io', hchain, hdata, -, hcontent, hsize⟩ := writeData_stored h h0
    have ht := h.wf tail (by simp [hchain])
    have hroom : io.writeRoom = io.bufferPool_.capacity_.bytes - tail.count := by
      rw [writeRoom, hchain, List.getLast?_concat, ← ht.capacity_eq]
      rfl
    obtain ⟨hle, hexact⟩ := writeData.stored_le ht io.bufferPool_.capacity_.lt xs.length
    -- the sum of the counts is the length of the content
    have htotal : total io'.writeHead_
        = total io.writeHead_ + writeData.stored tail xs.length := by
      rw [← length_content, hcontent, List.length_append, length_content, List.length_take,
        Nat.min_eq_left hle]
    rw [hroom, ← hexact]
    constructor
    · rintro ⟨ok, io'', hdata', hgrows, -⟩
      obtain ⟨-, rfl⟩ := Prod.mk.inj (Option.some.inj (hdata.symm.trans hdata'))
      omega
    · exact fun hall => ⟨true, io', hdata, by rw [htotal, hall], hsize⟩
  · -- an empty string is turned away, and there is nothing to store
    have hzero : xs.length = 0 := by omega
    refine iff_of_true ⟨false, io, writeData_refused (by simp [hzero]), ?_, ?_⟩ (by omega)
    · rw [hzero, Nat.add_zero]
    · rw [hzero, Nat.add_zero]

/-- **What `PeekData` and `ReadData` copy** is all that was asked for exactly
when the size is within `2 ^ 32` of the count of the head ring. -/
theorem readData_exact_iff (h : ReadSafe io) {size : ℕ} (hsize : size ≤ io.readSize_) :
    CopiesAll io size ↔ size < 2 ^ 32 + io.readCount := by
  obtain ⟨front, tail, spare, hread⟩ := h
  by_cases h0 : 0 < size
  · obtain ⟨head, rings, hrings, hhead, -⟩ := hread.exists_head
    have hcount := hhead.count_le
    have hcap := io.bufferPool_.capacity_.lt
    have hfirst : io.readHead_.head? = some head := by rw [hread.chain_cons hrings]; rfl
    have hcopied : ReadData.copied head size = size ↔ size < 2 ^ 32 + io.readCount := by
      rw [readCount, hfirst, Option.map_some, Option.getD_some, ReadData.copied]
      by_cases hle : size ≤ head.count
      · rw [if_pos hle]
        exact iff_of_true rfl (by omega)
      · obtain ⟨-, hall⟩ := u32Sub_u32 (le_of_lt (not_le.mp hle)) (by omega)
        rw [if_neg hle, ← hall]
        omega
    obtain ⟨x, io', hpeek, hdata, hlen, -, hsize'⟩ := ReadData_bounds hread h0 hsize
    rw [← hcopied, ← hlen head hfirst]
    constructor
    · rintro ⟨ok, ok', y, z, io'', hpeek', -, hx, -⟩
      obtain ⟨-, rfl⟩ := Prod.mk.inj (Option.some.inj (hpeek.symm.trans hpeek'))
      exact hx
    · intro hall
      refine ⟨true, true, x, x, io', hpeek, hdata, hall, hall, ?_⟩
      rw [hsize', Nat.sub_add_cancel hsize]
  · -- a size of zero is turned away
    obtain rfl : size = 0 := by omega
    exact iff_of_true ⟨false, false, [], [], io, PeekData_refused (by omega),
      ReadData_refused (by omega), rfl, rfl, rfl⟩ (by omega)

/-- **Where narrowing to 32 bits goes unnoticed.** In every state with sound
chains, `writeData` stores all of the data it counts if and only if the size is
below `2 ^ 32` plus the room in the tail ring, and `PeekData` and `ReadData`
copy all of what is taken from `readSize_` if and only if the size is below
`2 ^ 32` plus the count of the head ring. -/
theorem narrowing_iff (h : Safe io) :
    (∀ xs : List α, StoresAll io xs ↔ xs.length < 2 ^ 32 + io.writeRoom)
      ∧ ∀ size, size ≤ io.readSize_ → (CopiesAll io size ↔ size < 2 ^ 32 + io.readCount) :=
  ⟨writeData_exact_iff h.write, fun _ hsize => readData_exact_iff h.read hsize⟩

/-- On a connection just established the bounds are `2 ^ 32 + 4096` and
`2 ^ 32`. -/
theorem narrowing_established : ∃ io : IoBuffers ℕ, io.writeRoom = 4096 ∧ io.readCount = 0
    ∧ (∀ xs : List ℕ, StoresAll io xs ↔ xs.length < 2 ^ 32 + io.writeRoom)
    ∧ ∀ size, size ≤ io.readSize_ → (CopiesAll io size ↔ size < 2 ^ 32 + io.readCount) :=
  ⟨establish (BufferPool.make BufferPool.eventLoopCapacity fun _ _ => 0), rfl, rfl,
    narrowing_iff (safe_establish BufferPool.eventLoopCapacity fun _ _ => 0)⟩

/-- `2 ^ 32 + 4096` bytes on an established connection: the tail ring takes 4096
of them, and the 32-bit count says none are left. -/
theorem narrowing_loses :
    Safe (establish (BufferPool.make BufferPool.eventLoopCapacity fun _ _ => 0))
      ∧ ¬ StoresAll (establish (BufferPool.make BufferPool.eventLoopCapacity fun _ _ => 0))
        (List.replicate (2 ^ 32 + 4096) 0) := by
  have hsafe := safe_establish BufferPool.eventLoopCapacity fun _ _ => 0
  refine ⟨hsafe, ?_⟩
  rw [writeData_exact_iff hsafe.write, List.length_replicate]
  decide

end IoBuffers

end Libiak.Net
