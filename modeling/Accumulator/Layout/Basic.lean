import Accumulator.Text.Numeral

/-!
# Memory layouts

A layout says how long the buffer is and where its two regions begin: programs and data at one
offset, the call stack at another. The regions may overlap, but each must begin inside the buffer.
-/

namespace Accumulator

/-- The two regions of a buffer. -/
inductive Region
  | heap
  | stack
  deriving DecidableEq, Repr

/-- The name of a region in messages. -/
def Region.name : Region → String
  | heap => "heap"
  | stack => "stack"

/-- The length of a buffer and the offsets of its regions. -/
structure Layout where
  /-- The number of bytes. -/
  capacity : Nat := 4096
  /-- Where programs are loaded and execution starts. -/
  heapStart : UInt16 := 0
  /-- Where the call stack begins; it grows towards the end of the buffer. -/
  stackStart : UInt16 := 3072
  deriving DecidableEq, Repr

/-- Why a layout cannot be used. -/
inductive LayoutError
  /-- The buffer is empty or longer than the addresses reach. -/
  | invalidCapacity (capacity : Nat)
  /-- A region begins too close to the end of the buffer or past it. -/
  | regionOutOfRange (region : Region) (start : UInt16) (capacity : Nat)
  deriving DecidableEq, Repr

/-- The error in words. -/
def LayoutError.message : LayoutError → String
  | invalidCapacity capacity =>
      "capacity " ++ toString capacity ++ " must be between 1 and 65536 bytes"
  | regionOutOfRange region start capacity =>
      region.name ++ " region start " ++ String.ofList (Numeral.markedHex 4 start.toNat) ++
        " does not fit in " ++ toString capacity ++ " bytes"

namespace Layout

/-- The length of the longest buffer. -/
def maxCapacity : Nat := 0x10000

/-- The number of bytes of one return address on the call stack. -/
def frameSize : Nat := 2

/-- The layout in use where nothing else is said. -/
def standard : Layout := {}

/-- The first reason, if any, for which a layout cannot be used. -/
def problem? (layout : Layout) : Option LayoutError :=
  if layout.capacity = 0 ∨ maxCapacity < layout.capacity then
    some (.invalidCapacity layout.capacity)
  else if layout.capacity ≤ layout.heapStart.toNat then
    some (.regionOutOfRange .heap layout.heapStart layout.capacity)
  else if layout.capacity < layout.stackStart.toNat + frameSize then
    some (.regionOutOfRange .stack layout.stackStart layout.capacity)
  else none

/-- A valid layout has a buffer within the address space, a heap that begins inside it, and room
for a frame of the call stack. -/
structure Valid (layout : Layout) : Prop where
  capacity_pos : 0 < layout.capacity
  capacity_le : layout.capacity ≤ maxCapacity
  heap_lt : layout.heapStart.toNat < layout.capacity
  stack_le : layout.stackStart.toNat + frameSize ≤ layout.capacity

/-- Accept a valid layout. -/
def validate (layout : Layout) : Except LayoutError Layout :=
  match layout.problem? with
  | some problem => .error problem
  | none => .ok layout

/-- The number of return addresses that the stack region holds. The stack pointer stays below
65536, so the last two bytes of the longest buffer are not used. -/
def stackDepth (layout : Layout) : Nat :=
  (min layout.capacity 0xFFFF - layout.stackStart.toNat) / frameSize

theorem problem?_eq_none_iff (layout : Layout) : layout.problem? = none ↔ layout.Valid := by
  unfold problem?
  split
  · rename_i h
    refine ⟨fun hn => by simp at hn, fun hv => ?_⟩
    have := hv.capacity_pos
    have := hv.capacity_le
    omega
  · split
    · refine ⟨fun hn => by simp at hn, fun hv => ?_⟩
      have := hv.heap_lt
      omega
    · split
      · refine ⟨fun hn => by simp at hn, fun hv => ?_⟩
        have := hv.stack_le
        omega
      · refine ⟨fun _ => ⟨?_, ?_, ?_, ?_⟩, fun _ => rfl⟩ <;> omega

/-- A layout is accepted exactly if it is valid, and as it is. -/
theorem validate_ok_iff {layout accepted : Layout} :
    layout.validate = .ok accepted ↔ layout.Valid ∧ accepted = layout := by
  rw [← problem?_eq_none_iff, validate]
  cases layout.problem? with
  | none => simp [eq_comm]
  | some problem => simp

end Layout
end Accumulator
