import Accumulator.Text.Basic

/-!
# Registers

The machine has a program counter, an accumulator, a call-stack pointer and three flags. Flags are
recomputed together, from a result byte and its carry.
-/

namespace Accumulator

/-- The status flags. -/
@[ext]
structure Flags where
  /-- The last sum exceeded a byte, or the last difference needed a borrow. -/
  carry : Bool
  /-- The last result was zero. -/
  zero : Bool
  /-- The highest bit of the last result was set. -/
  negative : Bool
  deriving DecidableEq, Repr

namespace Flags

/-- All flags clear. -/
def clear : Flags := ⟨false, false, false⟩

/-- The flags of a result. -/
def ofResult (value : UInt8) (carry : Bool) : Flags := ⟨carry, value == 0, 0x80 ≤ value⟩

/-- The flags as a byte: carry is bit 0, zero bit 1, negative bit 2. -/
def bits (flags : Flags) : UInt8 :=
  (if flags.carry then 1 else 0) + (if flags.zero then 2 else 0) + (if flags.negative then 4 else 0)

/-- The flags in a byte; its other bits are ignored. -/
def ofBits (bits : UInt8) : Flags := ⟨bits &&& 1 != 0, bits &&& 2 != 0, bits &&& 4 != 0⟩

/-- The flags as three letters, a dash for each that is clear. -/
def text (flags : Flags) : Text :=
  [if flags.negative then 'N' else '-', if flags.zero then 'Z' else '-',
    if flags.carry then 'C' else '-']

@[simp] theorem ofBits_bits (flags : Flags) : ofBits flags.bits = flags := by
  obtain ⟨carry, zero, negative⟩ := flags
  cases carry <;> cases zero <;> cases negative <;> decide

end Flags

/-- The register file. -/
@[ext]
structure Registers where
  /-- The address of the next instruction. -/
  pc : UInt16
  /-- The accumulator. -/
  acc : UInt8
  /-- The address of the next free frame of the call stack. -/
  sp : UInt16
  flags : Flags
  deriving DecidableEq, Repr

namespace Registers

/-- The registers before the first instruction. -/
def start (pc sp : UInt16) : Registers := ⟨pc, 0, sp, .clear⟩

/-- Store an arithmetic result and its flags. -/
def setResult (registers : Registers) (value : UInt8) (carry : Bool) : Registers :=
  { registers with acc := value, flags := .ofResult value carry }

/-- Continue at an address. -/
def jump (registers : Registers) (address : UInt16) : Registers := { registers with pc := address }

end Registers
end Accumulator
