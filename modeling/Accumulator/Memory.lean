import Accumulator.Text.Numeral
import Accumulator.Word

/-!
# Memory

A memory is one buffer of bytes, addressed from zero. An access outside the buffer fails and names
a cell; a write that fails changes nothing. The view of a memory is its partial function from
addresses to bytes, `Memory.at?`.
-/

namespace Accumulator

/-- A buffer of bytes. -/
structure Memory where
  cells : Array UInt8
  deriving DecidableEq

/-- An access named a cell outside the buffer. -/
structure OutOfBounds where
  address : Nat
  deriving DecidableEq, Repr

/-- The error in words. -/
def OutOfBounds.message (e : OutOfBounds) : String :=
  "memory address " ++ String.ofList (Numeral.markedHex 4 e.address) ++ " out of range"

/-- Why bytes cannot be placed in memory. -/
inductive LoadError
  /-- There are more bytes than room after the offset. -/
  | tooLarge (size available : Nat)
  /-- There are no bytes, and the offset lies past the end of the buffer. -/
  | pastEnd (offset : Nat)
  deriving DecidableEq, Repr

/-- The error in words. -/
def LoadError.message : LoadError → String
  | tooLarge size available =>
      "program size " ++ toString size ++ " exceeds available space " ++ toString available
  | pastEnd offset => "load offset " ++ toString offset ++ " is past the end of memory"

namespace Memory

/-- A memory of zeros. -/
def zeroed (capacity : Nat) : Memory := ⟨Array.replicate capacity 0⟩

/-- The number of cells. -/
def size (memory : Memory) : Nat := memory.cells.size

/-- The byte at an address, if it is inside the buffer. -/
def at? (memory : Memory) (address : Nat) : Option UInt8 := memory.cells[address]?

/-- Change one cell; outside the buffer there is none to change. -/
def put (memory : Memory) (address : Nat) (value : UInt8) : Memory :=
  ⟨memory.cells.setIfInBounds address value⟩

/-- Read one byte. -/
def read (memory : Memory) (address : UInt16) : Except OutOfBounds UInt8 :=
  match memory.at? address.toNat with
  | some value => .ok value
  | none => .error ⟨address.toNat⟩

/-- Write one byte. -/
def write (memory : Memory) (address : UInt16) (value : UInt8) : Except OutOfBounds Memory :=
  if address.toNat < memory.size then .ok (memory.put address.toNat value)
  else .error ⟨address.toNat⟩

/-- Read two bytes, the low one first. The cells are tried in order, and an address has sixteen
bits even where the buffer is longer. -/
def readWord (memory : Memory) (address : UInt16) : Except OutOfBounds UInt16 :=
  match memory.at? address.toNat with
  | none => .error ⟨address.toNat⟩
  | some low =>
      let next := address.toNat + 1
      if next < 0x10000 then
        match memory.at? next with
        | none => .error ⟨next⟩
        | some high => .ok (joinBytes low high)
      else .error ⟨next⟩

/-- Write two bytes, the low one first. Room for both is checked at the second cell. -/
def writeWord (memory : Memory) (address : UInt16) (value : UInt16) : Except OutOfBounds Memory :=
  let next := address.toNat + 1
  if next < memory.size then
    .ok ((memory.put address.toNat (lowByte value)).put next (highByte value))
  else .error ⟨next⟩

/-- Change consecutive cells. -/
def putAll (memory : Memory) (start : Nat) : List UInt8 → Memory
  | [] => memory
  | value :: rest => (memory.put start value).putAll (start + 1) rest

/-- Place bytes at an offset. -/
def load (memory : Memory) (offset : UInt16) (bytes : List UInt8) : Except LoadError Memory :=
  let available := memory.size - offset.toNat
  if available < bytes.length then .error (.tooLarge bytes.length available)
  else if memory.size < offset.toNat then .error (.pastEnd offset.toNat)
  else .ok (memory.putAll offset.toNat bytes)

/-- The bytes of a window, as far as it lies inside the buffer. -/
def slice (memory : Memory) (start count : Nat) : List UInt8 :=
  (memory.cells.extract start (start + count)).toList

/-- The bytes of a window with their addresses. -/
def dump (memory : Memory) (start count : Nat) : List (Nat × UInt8) :=
  (memory.slice start count).zipIdx start |>.map fun cell => (cell.2, cell.1)

/-- Set every cell to zero. -/
def clear (memory : Memory) : Memory := zeroed memory.size

/-- The number of cells that are not zero. -/
def nonZeroCount (memory : Memory) : Nat := memory.cells.countP (· != 0)

/-- A summary of a memory in one line. -/
def summary (memory : Memory) : String :=
  "Memory \x7b non_zero_bytes: " ++ toString memory.nonZeroCount ++ ", capacity: " ++
    toString memory.size ++ " \x7d"

@[simp] theorem size_zeroed (capacity : Nat) : (zeroed capacity).size = capacity := by
  simp [zeroed, size]

@[simp] theorem size_put (memory : Memory) (address : Nat) (value : UInt8) :
    (memory.put address value).size = memory.size := by
  simp [put, size]

@[simp] theorem size_putAll (memory : Memory) (start : Nat) (bytes : List UInt8) :
    (memory.putAll start bytes).size = memory.size := by
  induction bytes generalizing memory start with
  | nil => rfl
  | cons value rest ih => simp [putAll, ih]

@[simp] theorem size_clear (memory : Memory) : memory.clear.size = memory.size := by
  simp [clear]

theorem at?_eq_none_iff (memory : Memory) (address : Nat) :
    memory.at? address = none ↔ memory.size ≤ address := by
  simp [at?, size]

theorem exists_at? {memory : Memory} {address : Nat} (h : address < memory.size) :
    ∃ value, memory.at? address = some value := by
  cases hat : memory.at? address with
  | some value => exact ⟨value, rfl⟩
  | none => exact absurd h (Nat.not_lt.mpr ((at?_eq_none_iff memory address).mp hat))

theorem at?_put (memory : Memory) (address other : Nat) (value : UInt8) :
    (memory.put address value).at? other =
      if address = other ∧ address < memory.size then some value else memory.at? other := by
  simp only [at?, put, size, Array.getElem?_setIfInBounds]
  split
  · split <;> simp_all
  · simp_all

/-- Memories are equal if all their cells are. -/
@[ext]
theorem ext_at? {memory other : Memory} (h : ∀ address, memory.at? address = other.at? address) :
    memory = other := by
  obtain ⟨cells⟩ := memory
  obtain ⟨others⟩ := other
  exact congrArg Memory.mk (Array.ext_getElem? h)

theorem at?_zeroed (capacity address : Nat) :
    (zeroed capacity).at? address = if address < capacity then some 0 else none := by
  simp [at?, zeroed, Array.getElem?_replicate]

/-- Consecutive cells hold the bytes placed there, as far as they lie inside the buffer. -/
theorem at?_putAll (memory : Memory) (start address : Nat) (bytes : List UInt8) :
    (memory.putAll start bytes).at? address =
      if start ≤ address ∧ address < start + bytes.length ∧ address < memory.size then
        bytes[address - start]?
      else memory.at? address := by
  induction bytes generalizing memory start with
  | nil =>
      rw [putAll, if_neg]
      simp only [List.length_nil]
      omega
  | cons value rest ih =>
      rw [putAll, ih, at?_put, size_put, List.length_cons]
      by_cases h : start = address
      · subst h
        rw [if_neg (by omega)]
        by_cases hs : start < memory.size
        · rw [if_pos ⟨rfl, hs⟩, if_pos (by omega), Nat.sub_self, List.getElem?_cons_zero]
        · rw [if_neg (by omega), if_neg (by omega)]
      · by_cases hin : start + 1 ≤ address ∧ address < start + 1 + rest.length ∧
            address < memory.size
        · obtain ⟨k, rfl⟩ : ∃ k, address = start + 1 + k := ⟨address - (start + 1), by omega⟩
          rw [if_pos hin, if_pos (by omega), Nat.add_sub_cancel_left,
            show start + 1 + k - start = k + 1 by omega, List.getElem?_cons_succ]
        · rw [if_neg hin, if_neg (fun hc => h hc.1), if_neg (by omega)]

end Memory
end Accumulator
