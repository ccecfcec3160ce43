import Accumulator.Machine.Document
import Accumulator.Proofs.Instruction.Coding
import Accumulator.Proofs.Layout.Document

/-!
# Documents of machines

A reader that is derived from the fields of a record finds them by name. So a document may give
them in any order and with others among them, and still stand for the same machine. The relations
here say which objects do, part by part, without regard to how they are read. The document that is
written for a machine is one of them, whatever the machine has executed last, if the capacity of
its layout is a 64-bit number.

## Implementation notes

Derived readers also take arrays for records, and all fields of a layout may be left out. Nothing is
written like that, so the relations are about objects, and of the missing fields only about the last
instruction and those of the layout.
-/

namespace Accumulator

namespace Json

/-! ## Fields by name -/

/-- The values of all fields with a name. -/
def valuesNamed (name : Text) (fields : List (Text × Json)) : List Json :=
  (fields.filter fun field => field.1 == name).map Prod.snd

/-- Exactly one field has a name, with the given value. -/
def Gives (fields : List (Text × Json)) (name : Text) (value : Json) : Prop :=
  valuesNamed name fields = [value]

/-- No field has a name. -/
def Lacks (fields : List (Text × Json)) (name : Text) : Prop := valuesNamed name fields = []

variable {fields : List (Text × Json)} {name : Text} {value : Json}

theorem field?_record (fields : List (Text × Json)) (name : Text) :
    (record fields).field? name =
      match valuesNamed name fields with
      | [value] => some value
      | _ => none := by
  rw [valuesNamed, ← valuesOf_named]
  rfl

theorem member?_record (fields : List (Text × Json)) (names : List Text) (name : Text) :
    (record fields).member? names name = (record fields).field? name :=
  if_pos (hasTextNames_named fields)

theorem Gives.member? (h : Gives fields name value) (names : List Text) :
    (record fields).member? names name = some value := by
  rw [member?_record, field?_record, h]

theorem Gives.optionalMember? (h : Gives fields name value) (names : List Text) :
    (record fields).optionalMember? names name = some value := by
  have hvalues : valuesOf name (named fields) = [value] := (valuesOf_named name fields).trans h
  have hrecord : record fields = .object (named fields) := rfl
  rw [hrecord, Json.optionalMember?, hvalues, List.isEmpty_cons, Bool.and_false, ← hrecord,
    h.member? names]
  rfl

theorem Lacks.optionalMember? (h : Lacks fields name) (names : List Text) :
    (record fields).optionalMember? names name = some .null := by
  have hvalues : valuesOf name (named fields) = [] := (valuesOf_named name fields).trans h
  have hrecord : record fields = .object (named fields) := rfl
  rw [hrecord, Json.optionalMember?, hvalues, hasTextNames_named]
  rfl

end Json

open Json

/-! ## Parts of a machine -/

/-- The fields of flags. -/
structure Flags.WrittenAs (flags : Flags) (fields : List (Text × Json)) : Prop where
  carry : Gives fields "carry".toList (.bool flags.carry)
  zero : Gives fields "zero".toList (.bool flags.zero)
  negative : Gives fields "negative".toList (.bool flags.negative)

/-- The fields of registers. -/
structure Registers.WrittenAs (registers : Registers) (fields : List (Text × Json)) : Prop where
  pc : Gives fields "pc".toList (.nat registers.pc.toNat)
  acc : Gives fields "acc".toList (.nat registers.acc.toNat)
  sp : Gives fields "sp".toList (.nat registers.sp.toNat)
  flags : ∃ inner, Gives fields "flags".toList (.record inner) ∧ registers.flags.WrittenAs inner

/-- The only field of a memory. -/
def Memory.WrittenAs (memory : Memory) (fields : List (Text × Json)) : Prop :=
  Gives fields "cells".toList (.array (memory.cells.toList.map fun cell => .nat cell.toNat))

/-- Fields of a layout, those left out being standard. -/
def Layout.WrittenAs (layout : Layout) (fields : List (Text × Json)) : Prop :=
  ∃ numbers : Numbers, numbers.GivenBy fields ∧ numbers.layout = layout

/-- The name of the operand of an instruction with an opcode. -/
def Opcode.operandKey (opcode : Opcode) : Text :=
  match opcode.form with
  | .immediate => Instruction.valueKey
  | _ => Instruction.addressKey

/-- A value that stands for an instruction: the name of its opcode, with its operand if any. -/
inductive Instruction.WrittenAs (i : Instruction) : Json → Prop
  | plain {opcode : Opcode} (opcode_eq : i.opcode? = some opcode) (operand_eq : i.operand? = none) :
      WrittenAs i (.text opcode.key)
  | operand {opcode : Opcode} {operand : Nat} {fields : List (Text × Json)}
      (opcode_eq : i.opcode? = some opcode) (operand_eq : i.operand? = some operand)
      (given : Gives fields opcode.operandKey (.nat operand)) :
      WrittenAs i (.record [(opcode.key, .record fields)])
  | unknown {byte : UInt8} (eq : i = .unknown byte) :
      WrittenAs i (.record [(unknownKey, .nat byte.toNat)])

/-- The field of the last instruction, which is null or left out if there is none. -/
inductive LastWrittenAs (fields : List (Text × Json)) : Option Instruction → Prop
  | missing (lacks : Lacks fields "last_instr".toList) : LastWrittenAs fields none
  | null (given : Gives fields "last_instr".toList .null) : LastWrittenAs fields none
  | instruction {i : Instruction} {value : Json} (given : Gives fields "last_instr".toList value)
      (written : i.WrittenAs value) : LastWrittenAs fields (some i)

/-- The fields of a machine. -/
structure Machine.WrittenAs (m : Machine) (fields : List (Text × Json)) : Prop where
  registers : ∃ inner, Gives fields "regs".toList (.record inner) ∧ m.registers.WrittenAs inner
  memory : ∃ inner, Gives fields "mem".toList (.record inner) ∧ m.memory.WrittenAs inner
  layout : ∃ inner, Gives fields "config".toList (.record inner) ∧ m.layout.WrittenAs inner
  counter : Gives fields "cycles".toList (.nat m.counter.toNat)
  last : LastWrittenAs fields m.lastInstruction

/-! ## Documents read -/

variable {fields : List (Text × Json)}

theorem Flags.WrittenAs.ofJson? {flags : Flags} (h : flags.WrittenAs fields) :
    Flags.ofJson? (.record fields) = some flags := by
  simp only [Flags.ofJson?, h.carry.member?, h.zero.member?, h.negative.member?, Option.bind_some,
    bind, pure, bool?]

theorem Registers.WrittenAs.ofJson? {registers : Registers} (h : registers.WrittenAs fields) :
    Registers.ofJson? (.record fields) = some registers := by
  obtain ⟨inner, hgiven, hflags⟩ := h.flags
  simp only [Registers.ofJson?, h.pc.member?, h.acc.member?, h.sp.member?, hgiven.member?,
    hflags.ofJson?, word?_nat, byte?_nat, Option.bind_some, bind, pure]

theorem mapM_byte? (cells : List UInt8) :
    (cells.map fun cell => nat cell.toNat).mapM byte? = some cells := by
  induction cells with
  | nil => rfl
  | cons cell rest ih =>
      rw [List.map_cons, List.mapM_cons, byte?_nat, ih]
      rfl

theorem Memory.WrittenAs.ofJson? {memory : Memory} (h : memory.WrittenAs fields) :
    Memory.ofJson? (.record fields) = some memory := by
  simp only [Memory.ofJson?, Gives.member? h, Option.bind_some, mapM_byte?, bind, pure]

theorem Layout.WrittenAs.ofJson? {layout : Layout} (h : layout.WrittenAs fields) :
    Layout.ofJson? (.record fields) = some layout := by
  obtain ⟨numbers, hgiven, rfl⟩ := h
  exact ofJson?_record hgiven

/-- The operand of an opcode is read from its field. -/
theorem Instruction.ofOperandJson?_record {i : Instruction} {opcode : Opcode} {operand : Nat}
    (hopcode : i.opcode? = some opcode) (hoperand : i.operand? = some operand)
    (given : Gives fields opcode.operandKey (.nat operand)) :
    ofOperandJson? opcode (.record fields) = some i := by
  cases i with
  | nop | halt | ret | unknown => cases hoperand
  | _ =>
      cases hopcode
      cases hoperand
      have hmember := given.member?
      simp only [Opcode.operandKey, Opcode.form] at hmember
      simp [ofOperandJson?, Opcode.form, hmember, ofBytes]

theorem Instruction.ofJson?_keyed (opcode : Opcode) (operand : Json) :
    Instruction.ofJson? (.record [(opcode.key, operand)]) = ofOperandJson? opcode operand := by
  simp [Instruction.ofJson?, Json.record, key_ne_unknownKey]

theorem Instruction.WrittenAs.ofJson? {i : Instruction} {value : Json} (h : i.WrittenAs value) :
    Instruction.ofJson? value = some i := by
  cases h with
  | plain hopcode hoperand =>
      cases i with
      | nop | halt | ret =>
          cases hopcode
          simp [Instruction.ofJson?, Json.text, Opcode.form, ofBytes]
      | unknown => cases hopcode
      | _ => cases hoperand
  | operand hopcode hoperand given =>
      rw [ofJson?_keyed, ofOperandJson?_record hopcode hoperand given]
  | unknown heq =>
      subst heq
      simp [Instruction.ofJson?, Json.record]

theorem lastInstructionOfJson?_of_instruction {i : Instruction} {value : Json}
    (h : i.WrittenAs value) : lastInstructionOfJson? value = some (some i) := by
  have hread := h.ofJson?
  rw [lastInstructionOfJson?, hread]
  · rfl
  · rintro rfl
    cases hread

theorem LastWrittenAs.ofJson? {last : Option Instruction} (h : LastWrittenAs fields last) :
    ((record fields).optionalMember? Machine.keys "last_instr".toList).bind
      lastInstructionOfJson? = some last := by
  cases h with
  | missing lacks => rw [lacks.optionalMember?, Option.bind_some, lastInstructionOfJson?]
  | null given => rw [given.optionalMember?, Option.bind_some, lastInstructionOfJson?]
  | instruction given written =>
      rw [given.optionalMember?, Option.bind_some, lastInstructionOfJson?_of_instruction written]

/-- Every document that stands for a machine is read as it. -/
theorem Machine.WrittenAs.ofJson? {m : Machine} (h : m.WrittenAs fields) :
    Machine.ofJson? (.record fields) = some m := by
  obtain ⟨registers, hregisters, hreadRegisters⟩ := h.registers
  obtain ⟨memory, hmemory, hreadMemory⟩ := h.memory
  obtain ⟨layout, hlayout, hreadLayout⟩ := h.layout
  have hlast := h.last.ofJson?
  simp only [Machine.ofJson?, hregisters.member?, hmemory.member?, hlayout.member?,
    h.counter.member?, hreadRegisters.ofJson?, hreadMemory.ofJson?, hreadLayout.ofJson?,
    doubleWord?_nat, Option.bind_some, bind, pure, ← Option.bind_assoc, hlast]

/-! ## Documents written -/

theorem Layout.writtenAs_toJson {layout : Layout} (h : layout.capacity < capacityBound) :
    ∃ fields, layout.toJson = .record fields ∧ layout.WrittenAs fields :=
  ⟨_, toJson_eq_record h, _, givenBy_fields _, layout_ofLayout h⟩

theorem Instruction.writtenAs_toJson (i : Instruction) : i.WrittenAs i.toJson := by
  cases i with
  | nop | halt | ret => exact .plain rfl rfl
  | unknown byte => exact .unknown rfl
  | _ => exact .operand rfl rfl rfl

theorem lastWrittenAs (before : List (Text × Json)) (last : Option Instruction)
    (h : Lacks before "last_instr".toList) :
    LastWrittenAs (before ++ [("last_instr".toList, lastInstructionToJson last)]) last := by
  have hgiven : Gives (before ++ [("last_instr".toList, lastInstructionToJson last)])
      "last_instr".toList (lastInstructionToJson last) := by
    rw [Gives, valuesNamed, List.filter_append, List.map_append]
    exact congrArg (· ++ [lastInstructionToJson last]) h
  cases last with
  | none => exact .null hgiven
  | some i => exact .instruction hgiven i.writtenAs_toJson

/-- The document that is written for a machine stands for it. -/
theorem Machine.writtenAs_toJson {m : Machine} (h : m.layout.capacity < Layout.capacityBound) :
    ∃ fields, m.toJson = .record fields ∧ m.WrittenAs fields := by
  obtain ⟨layout, hlayout, hwritten⟩ := Layout.writtenAs_toJson h
  refine ⟨_, rfl, ?_⟩
  constructor
  · exact ⟨_, rfl, rfl, rfl, rfl, _, rfl, rfl, rfl, rfl⟩
  · exact ⟨_, rfl, rfl⟩
  · exact ⟨layout, congrArg (fun value => [value]) hlayout, hwritten⟩
  · rfl
  · exact lastWrittenAs [_, _, _, _] m.lastInstruction rfl

end Accumulator
