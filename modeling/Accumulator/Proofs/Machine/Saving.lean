import Accumulator.Proofs.Machine.Documents
import Accumulator.Proofs.Machine.Loading

/-!
# Saved machines

A machine survives being saved: its registers, every cell, the layout, the cycle count and the last
instruction are read back as they were. This does not depend on how texts are printed, parsed and
read, as long as printer and parser keep to the grammar of JSON texts and the reader takes fields
by name. A layout is read only if its capacity is a 64-bit number. No operation of a host changes
the layout, so this holds of every machine that a valid layout leads to.
-/

namespace Accumulator

open Json

/-! ## Well-formed values -/

theorem Json.wellFormed_nat (n : Nat) : WellFormed (nat n) := .number rfl

theorem Flags.wellFormed_toJson (flags : Flags) : WellFormed flags.toJson := by
  apply WellFormed.record
  simp only [List.forall_mem_cons]
  exact ⟨.bool _, .bool _, .bool _, List.forall_mem_nil _⟩

theorem Registers.wellFormed_toJson (registers : Registers) : WellFormed registers.toJson := by
  apply WellFormed.record
  simp only [Registers.fields, List.forall_mem_cons]
  exact ⟨wellFormed_nat _, wellFormed_nat _, wellFormed_nat _, registers.flags.wellFormed_toJson,
    List.forall_mem_nil _⟩

theorem Memory.wellFormed_toJson (memory : Memory) : WellFormed memory.toJson := by
  apply WellFormed.record
  rw [List.forall_mem_singleton]
  apply WellFormed.array
  intro item hitem
  obtain ⟨cell, _, rfl⟩ := List.mem_map.mp hitem
  exact wellFormed_nat cell.toNat

theorem Instruction.wellFormed_operandJson (opcode : Opcode) (name : Text) (operand : Nat) :
    WellFormed (operandJson opcode name operand) := by
  apply WellFormed.record
  rw [List.forall_mem_singleton]
  apply WellFormed.record
  rw [List.forall_mem_singleton]
  exact wellFormed_nat operand

theorem Instruction.wellFormed_toJson (i : Instruction) : WellFormed i.toJson := by
  cases i
  case nop | halt | ret => exact .string _
  case unknown byte =>
    apply WellFormed.record
    rw [List.forall_mem_singleton]
    exact wellFormed_nat byte.toNat
  all_goals exact wellFormed_operandJson _ _ _

theorem wellFormed_lastInstructionToJson (last : Option Instruction) :
    WellFormed (lastInstructionToJson last) := by
  cases last with
  | none => exact .null
  | some i => exact i.wellFormed_toJson

theorem Machine.wellFormed_toJson (m : Machine) : WellFormed m.toJson := by
  apply WellFormed.record
  simp only [List.forall_mem_cons]
  exact ⟨m.registers.wellFormed_toJson, m.memory.wellFormed_toJson, m.layout.wellFormed_toJson,
    wellFormed_nat _, wellFormed_lastInstructionToJson _, List.forall_mem_nil _⟩

/-! ## Archives -/

/-- What machines are saved and loaded with: a printer and a parser of JSON texts, and a reader of
the documents of machines. -/
structure Archive where
  print : Json → Text
  parse : Text → Option Json
  read : Json → Option Machine

/-- The saved form of a machine. -/
def Archive.save (archive : Archive) (m : Machine) : Text := archive.print m.toJson

/-- The machine that a text is the saved form of. -/
def Archive.restore? (archive : Archive) (text : Text) : Option Machine :=
  (archive.parse text).bind archive.read

/-- The printer and the parser keep to the grammar of JSON texts, and the reader takes the fields
of a machine by name. The capacity of a layout is a 64-bit number. -/
structure Archive.Standard (archive : Archive) : Prop where
  prints : ∀ {m : Machine}, m.layout.capacity < Layout.capacityBound →
    Writes (archive.print m.toJson) m.toJson
  parses : ∀ {m : Machine} {text : Text}, m.layout.capacity < Layout.capacityBound →
    Writes text m.toJson → archive.parse text = some m.toJson
  reads : ∀ {m : Machine} {fields : List (Text × Json)},
    m.WrittenAs fields → archive.read (.record fields) = some m

/-- The compact printer, with the parser and the reader of this library. -/
def Archive.plain : Archive := ⟨Json.compact, Json.read?, Machine.ofJson?⟩

theorem Archive.plain_standard : plain.Standard where
  prints {m} _ := writes_compact m.wellFormed_toJson
  parses _ htext := read?_of_writes htext
  reads := Machine.WrittenAs.ofJson?

/-- Every text of the document of a machine is read back as the machine, however it is printed. -/
theorem Archive.Standard.restore?_of_writes {archive : Archive} (standard : archive.Standard)
    {m : Machine} (h : m.layout.capacity < Layout.capacityBound) {text : Text}
    (htext : Writes text m.toJson) : archive.restore? text = some m := by
  obtain ⟨fields, hfields, hwritten⟩ := Machine.writtenAs_toJson h
  rw [Archive.restore?, standard.parses h htext, Option.bind_some, hfields]
  exact standard.reads hwritten

/-- A machine is read back from its saved form. -/
theorem Archive.Standard.restore?_save {archive : Archive} (standard : archive.Standard)
    {m : Machine} (h : m.layout.capacity < Layout.capacityBound) :
    archive.restore? (archive.save m) = some m :=
  standard.restore?_of_writes h (standard.prints h)

/-! ## Histories -/

/-- What a host does to a machine. The registers, the memory and the cycle count are open to it, the
layout and the last instruction are not. -/
inductive HostOperation
  | restart
  | reset
  | step
  | run (budget : Nat)
  | loadProgram (program : List UInt8)
  | load (offset : UInt16) (bytes : List UInt8)
  | read (address : UInt16)
  | readWord (address : UInt16)
  | write (address : UInt16) (value : UInt8)
  | writeWord (address value : UInt16)
  | setRegisters (registers : Registers)
  | setMemory (memory : Memory)
  | setCounter (counter : UInt64)
  /-- Save the machine and go on with the one that is read back. -/
  | reload

/-- What an operation answers. -/
inductive HostAnswer
  | done
  | stepped (result : Except Fault Instruction)
  | ran (result : Except Fault Report)
  | byte (result : Except OutOfBounds UInt8)
  | word (result : Except OutOfBounds UInt16)
  | refusedAccess (error : OutOfBounds)
  | refusedLoad (error : LoadError)
  /-- What was saved could not be read back. -/
  | unreadable

namespace Machine

/-- The machine after an operation that may be refused, with the answer. -/
def orRefused {ε : Type} (m : Machine) (refused : ε → HostAnswer) :
    Except ε Machine → Machine × HostAnswer
  | .ok next => (next, .done)
  | .error e => (m, refused e)

/-- The machine after an operation, with the answer. -/
def operate (archive : Archive) (m : Machine) : HostOperation → Machine × HostAnswer
  | .restart => (m.restart, .done)
  | .reset => (m.reset, .done)
  | .step => (m.step.1, .stepped m.step.2)
  | .run budget => ((m.run budget).1, .ran (m.run budget).2)
  | .loadProgram program => m.orRefused .refusedLoad (m.loadProgram program)
  | .load offset bytes => m.orRefused .refusedLoad (m.loadAt offset bytes)
  | .read address => (m, .byte (m.memory.read address))
  | .readWord address => (m, .word (m.memory.readWord address))
  | .write address value => m.orRefused .refusedAccess (m.write address value)
  | .writeWord address value => m.orRefused .refusedAccess (m.writeWord address value)
  | .setRegisters registers => (m.setRegisters registers, .done)
  | .setMemory memory => ({ m with memory := memory }, .done)
  | .setCounter counter => ({ m with counter := counter }, .done)
  | .reload =>
      match archive.restore? (archive.save m) with
      | some restored => (restored, .done)
      | none => (m, .unreadable)

/-- The machine after several operations, with the answers in order. -/
def operateAll (archive : Archive) (m : Machine) :
    List HostOperation → Machine × List HostAnswer
  | [] => (m, [])
  | operation :: rest =>
      let after := (m.operate archive operation).1.operateAll archive rest
      (after.1, (m.operate archive operation).2 :: after.2)

theorem operateAll_append (archive : Archive) (m : Machine) (earlier later : List HostOperation) :
    m.operateAll archive (earlier ++ later) =
      (((m.operateAll archive earlier).1.operateAll archive later).1,
        (m.operateAll archive earlier).2 ++
          ((m.operateAll archive earlier).1.operateAll archive later).2) := by
  induction earlier generalizing m with
  | nil => rfl
  | cons operation rest ih =>
      rw [List.cons_append, operateAll, ih]
      rfl

/-! ## The layout stays -/

variable {m m' : Machine}

theorem Path.layout {instructions : List Instruction} (h : m.Path instructions m') :
    m'.layout = m.layout := by
  induction h with
  | nil m => rfl
  | @cons m next last i rest step path ih =>
      have hnext := m.layout_step
      rw [step] at hnext
      exact ih.trans hnext

theorem layout_run (m : Machine) (budget : Nat) : (m.run budget).1.layout = m.layout := by
  obtain ⟨instructions, hpath, _⟩ := m.exists_path_run budget
  exact hpath.layout

theorem layout_orRefused {ε α : Type} (refused : ε → HostAnswer) (result : Except ε α)
    {change : α → Machine} (h : ∀ a, (change a).layout = m.layout) :
    (m.orRefused refused (result.map change)).1.layout = m.layout := by
  cases result with
  | error e => rfl
  | ok a => exact h a

variable {archive : Archive}

theorem layout_operate (standard : archive.Standard)
    (h : m.layout.capacity < Layout.capacityBound) (operation : HostOperation) :
    (m.operate archive operation).1.layout = m.layout := by
  cases operation with
  | step => exact m.layout_step
  | run budget => exact m.layout_run budget
  | loadProgram program => exact layout_orRefused _ _ fun _ => rfl
  | load offset bytes => exact layout_orRefused _ _ fun _ => rfl
  | write address value => exact layout_orRefused _ _ fun _ => rfl
  | writeWord address value => exact layout_orRefused _ _ fun _ => rfl
  | reload => rw [operate, standard.restore?_save h]
  | restart => rfl
  | reset => rfl
  | read address => rfl
  | readWord address => rfl
  | setRegisters registers => rfl
  | setMemory memory => rfl
  | setCounter counter => rfl

theorem layout_operateAll (standard : archive.Standard)
    (h : m.layout.capacity < Layout.capacityBound) (operations : List HostOperation) :
    (m.operateAll archive operations).1.layout = m.layout := by
  induction operations generalizing m with
  | nil => rfl
  | cons operation rest ih =>
      have hnext := layout_operate standard h operation
      exact (ih (hnext.symm ▸ h)).trans hnext

/-- A machine survives being saved, whatever its host has done to it and with any standard archive.
What is read back is the same machine, from its saved form and from every other text of its
document; so it answers every later operation in the same way, and a host may save and reload at
any point of a history. -/
theorem saved_survives (standard : archive.Standard) {layout : Layout} {start : Machine}
    (accepted : ofLayout layout = .ok start) (earlier : List HostOperation) :
    archive.restore? (archive.save (start.operateAll archive earlier).1) =
      some (start.operateAll archive earlier).1 ∧
    (∀ text, Writes text (start.operateAll archive earlier).1.toJson →
      archive.restore? text = some (start.operateAll archive earlier).1) ∧
    (∀ restored,
      archive.restore? (archive.save (start.operateAll archive earlier).1) = some restored →
        ∀ later, restored.operateAll archive later =
          (start.operateAll archive earlier).1.operateAll archive later) ∧
    ∀ later, start.operateAll archive (earlier ++ .reload :: later) =
      ((start.operateAll archive (earlier ++ later)).1,
        (start.operateAll archive earlier).2 ++
          .done :: ((start.operateAll archive earlier).1.operateAll archive later).2) := by
  obtain ⟨hvalid, rfl⟩ := ofLayout_ok_iff.mp accepted
  have hstart : (blank layout).layout.capacity < Layout.capacityBound :=
    Nat.lt_of_le_of_lt hvalid.capacity_le (by decide)
  have hreached : ((blank layout).operateAll archive earlier).1.layout.capacity <
      Layout.capacityBound :=
    (layout_operateAll standard hstart earlier).symm ▸ hstart
  have hrestore := standard.restore?_save hreached
  refine ⟨hrestore, fun _ => standard.restore?_of_writes hreached, ?_, ?_⟩
  · intro restored hrestored later
    cases hrestore.symm.trans hrestored
    rfl
  · intro later
    rw [operateAll_append, operateAll_append, operateAll, operate, hrestore]

/-- A call, a byte without an opcode and a register assignment, between them a reload. -/
def eventfulHistory : List HostOperation :=
  [.loadProgram [0x42, 0x04, 0x00, 0x01, 0xFF, 0x33, 0x01], .run 2, .reload,
    .setRegisters ⟨5, 0, 0xFFFF, ⟨true, false, true⟩⟩, .step]

theorem saved_survives_eventful :
    Archive.plain.Standard ∧ ofLayout ⟨16, 0, 12⟩ = .ok smallMachine ∧
    Archive.plain.restore? (Archive.plain.save (smallMachine.operateAll .plain eventfulHistory).1) =
      some (smallMachine.operateAll .plain eventfulHistory).1 ∧
    (smallMachine.operateAll .plain (eventfulHistory ++ [.reload, .run 9])).1 =
      (smallMachine.operateAll .plain (eventfulHistory ++ [.run 9])).1 := by
  have haccepted : ofLayout ⟨16, 0, 12⟩ = .ok smallMachine := rfl
  obtain ⟨hrestore, _, _, hreload⟩ :=
    saved_survives Archive.plain_standard haccepted eventfulHistory
  have hlast := congrArg Prod.fst (hreload [.run 9])
  exact ⟨Archive.plain_standard, haccepted, hrestore, hlast⟩

end Machine
end Accumulator
