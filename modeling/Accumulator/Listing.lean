import Accumulator.Instruction.Decoding
import Accumulator.Instruction.Printing

/-!
# Listings

A byte sequence is cut into lines, one for each instruction, each with its address, its bytes and
its assembly text. An instruction cut off by the end of the bytes is listed as data. The rendered
listing is itself assembly source: addresses and bytes stand in comments.

## Implementation notes

The decoder says how many bytes an instruction takes, and these are at least one and at most the
bytes that are left, so the recursion is on the number of bytes.
-/

namespace Accumulator

/-- One line of a listing. -/
structure ListingLine where
  address : UInt16
  bytes : List UInt8
  text : Text
  deriving DecidableEq, Repr

namespace Listing

/-- Bytes as one data directive. -/
def dataText (bytes : List UInt8) : Text :=
  ['D', 'B', ' '] ++ Text.join [',', ' '] (bytes.map HexBytes.marked)

theorem le_of_decode {bytes : List UInt8} {i : Instruction} {used : Nat}
    (h : Instruction.decode bytes = .ok (i, used)) : 1 ≤ used ∧ used ≤ bytes.length := by
  cases bytes with
  | nil => simp [Instruction.decode] at h
  | cons lead rest =>
      simp only [Instruction.decode, Instruction.ofParts] at h
      by_cases hlen : (rest.take (operandSize lead)).length < operandSize lead
      · rw [if_pos hlen] at h
        simp at h
      · rw [if_neg hlen] at h
        simp only [Except.ok.injEq, Prod.mk.injEq] at h
        simp only [List.length_cons, List.length_take] at hlen ⊢
        omega

/-- The lines of bytes that start at an address, which wraps after the last one. -/
def lines (bytes : List UInt8) (address : UInt16) : List ListingLine :=
  match _h : Instruction.decode bytes with
  | .ok (i, used) =>
      ⟨address, bytes.take used, i.text⟩ :: lines (bytes.drop used) (address + UInt16.ofNat used)
  | .error _ => if bytes.isEmpty then [] else [⟨address, bytes, dataText bytes⟩]
termination_by bytes.length
decreasing_by
  have := le_of_decode _h
  simp only [List.length_drop]
  omega

/-- The lines in front of the listing proper. -/
def header (base : UInt16) : Text :=
  "; ACC8 Disassembly\n; -----------------\n\n    ORG 0x".toList ++ HexBytes.word base ++ ['\n']

/-- A line with its text in the first columns and address and bytes as a comment. -/
def renderLine (line : ListingLine) : Text :=
  "    ".toList ++ line.text.padRight 20 ++ " ; ".toList ++ HexBytes.word line.address ++
    ": ".toList ++ HexBytes.spaced line.bytes ++ ['\n']

/-- The listing of bytes loaded at an address. -/
def render (bytes : List UInt8) (base : UInt16) : Text :=
  header base ++ (lines bytes base).flatMap renderLine

end Listing
end Accumulator
