import Accumulator.Proofs.Machine.Stepping

/-!
# Steps that change the machine as they go

A step can also be taken one change at a time. The program counter is moved past the instruction,
the instruction works on the machine itself, and the program counter is put back if it fails. Each
part of an instruction makes its changes only after its last check, so the outcome is that of the
planned step, and a fault leaves the machine as it was.
-/

namespace Accumulator.Machine

/-! ## The parts of a step -/

/-- Read a byte and set the registers from it. -/
def loadWith (m : Machine) (address : UInt16) (set : UInt8 → Registers) :
    Machine × Except FaultKind Unit :=
  match m.memory.read address with
  | .error e => (m, .error (.outOfBounds e.address))
  | .ok value => (m.setRegisters (set value), .ok ())

/-- Write the accumulator. -/
def storeAcc (m : Machine) (address : UInt16) : Machine × Except FaultKind Unit :=
  match m.write address m.registers.acc with
  | .error e => (m, .error (.outOfBounds e.address))
  | .ok next => (next, .ok ())

/-- Push an address: write it, then move the stack pointer. -/
def push (m : Machine) (value : UInt16) : Machine × Except FaultKind Unit :=
  let next := m.registers.sp.toNat + Layout.frameSize
  if m.memory.size < next then (m, .error .stackOverflow)
  else if 0xFFFF < next then (m, .error .stackOverflow)
  else
    match m.writeWord m.registers.sp value with
    | .error e => (m, .error (.outOfBounds e.address))
    | .ok written =>
        (written.setRegisters { written.registers with sp := UInt16.ofNat next }, .ok ())

/-- Pop an address: read it, then move the stack pointer. -/
def pop (m : Machine) : Machine × Except FaultKind UInt16 :=
  if m.registers.sp.toNat < m.layout.stackStart.toNat + Layout.frameSize then
    (m, .error .stackUnderflow)
  else
    let top := m.registers.sp - 2
    match m.memory.readWord top with
    | .error e => (m, .error (.outOfBounds e.address))
    | .ok value => (m.setRegisters { m.registers with sp := top }, .ok value)

/-- Execute an instruction on a machine whose program counter is past it. -/
def executeInPlace (m : Machine) : Instruction → Machine × Except FaultKind Unit
  | .nop | .halt | .unknown _ => (m, .ok ())
  | .loadZeroPage address => m.loadWith address.toUInt16 fun v => { m.registers with acc := v }
  | .loadImmediate value => (m.setRegisters { m.registers with acc := value }, .ok ())
  | .load address => m.loadWith address fun v => { m.registers with acc := v }
  | .storeZeroPage address => m.storeAcc address.toUInt16
  | .store address => m.storeAcc address
  | .add address => m.loadWith address (addResult m.registers)
  | .sub address => m.loadWith address (subResult m.registers)
  | .addImmediate value => (m.setRegisters (addResult m.registers value), .ok ())
  | .subImmediate value => (m.setRegisters (subResult m.registers value), .ok ())
  | .jumpIfZero address =>
      if m.registers.flags.zero then (m.setRegisters (m.registers.jump address), .ok ())
      else (m, .ok ())
  | .jump address => (m.setRegisters (m.registers.jump address), .ok ())
  | .call address =>
      match m.push m.registers.pc with
      | (pushed, .error kind) => (pushed, .error kind)
      | (pushed, .ok ()) => (pushed.setRegisters (pushed.registers.jump address), .ok ())
  | .ret =>
      match m.pop with
      | (popped, .error kind) => (popped, .error kind)
      | (popped, .ok target) => (popped.setRegisters (popped.registers.jump target), .ok ())
  | .jumpIfNegative address =>
      if m.registers.flags.negative then (m.setRegisters (m.registers.jump address), .ok ())
      else (m, .ok ())

/-- Move the program counter past an instruction and execute it. -/
def advanceInPlace (m : Machine) (i : Instruction) (next : Nat) :
    Machine × Except FaultKind Unit :=
  if next < 0x10000 then
    (m.setRegisters (m.registers.jump (UInt16.ofNat next))).executeInPlace i
  else if fallsThrough m.registers.flags i then (m, .error (.outOfBounds next))
  else m.executeInPlace i

/-- Execute one instruction in place, and put the program counter back if that fails. -/
def stepInPlace (m : Machine) : Machine × Except Fault Instruction :=
  let start := m.registers.pc
  match m.fetch with
  | .error kind => (m.setRegisters (m.registers.jump start), .error ⟨kind, start⟩)
  | .ok (i, next) =>
      match m.advanceInPlace i next with
      | (moved, .error kind) =>
          (moved.setRegisters (moved.registers.jump start), .error ⟨kind, start⟩)
      | (moved, .ok ()) =>
          ({ moved with counter := moved.counter + 1, lastInstruction := some i }, .ok i)

/-! ## Agreement with the plan -/

/-- What is left of a machine with new registers after an effect, or after the failure to have one:
then nothing else has been changed. -/
def settle (m : Machine) (registers : Registers) :
    Except FaultKind Effect → Machine × Except FaultKind Unit
  | .ok effect =>
      ({ m with registers := effect.registers, memory := storeAll m.memory effect.stores }, .ok ())
  | .error kind => (m.setRegisters registers, .error kind)

variable (m : Machine) (registers : Registers)

@[simp] theorem setRegisters_registers : (m.setRegisters registers).registers = registers := rfl

@[simp] theorem setRegisters_memory : (m.setRegisters registers).memory = m.memory := rfl

@[simp] theorem setRegisters_layout : (m.setRegisters registers).layout = m.layout := rfl

@[simp] theorem setRegisters_self : m.setRegisters m.registers = m := rfl

@[simp] theorem setRegisters_setRegisters (other : Registers) :
    (m.setRegisters other).setRegisters registers = m.setRegisters registers := rfl

theorem loadWith_eq (address : UInt16) (set : UInt8 → Registers) :
    (m.setRegisters registers).loadWith address set =
      m.settle registers ((m.readData address).map fun v => { registers := set v }) := by
  rw [loadWith, setRegisters_memory, readData]
  cases m.memory.read address with
  | error e => rfl
  | ok value => rfl

theorem storeAcc_eq (address : UInt16) :
    (m.setRegisters registers).storeAcc address =
      m.settle registers (m.storeEffect registers address) := by
  rw [storeAcc, write, Memory.write, setRegisters_memory, storeEffect]
  by_cases hin : address.toNat < m.memory.size
  · rw [if_pos hin, if_pos hin]
    rfl
  · rw [if_neg hin, if_neg hin]
    rfl

theorem executeInPlace_call (target : UInt16) :
    (m.setRegisters registers).executeInPlace (.call target) =
      m.settle registers (m.callEffect registers target) := by
  rw [executeInPlace, push, callEffect, setRegisters_registers, setRegisters_memory]
  by_cases hroom : m.memory.size < registers.sp.toNat + Layout.frameSize
  · rw [if_pos hroom, if_pos (Or.inl hroom)]
    rfl
  · by_cases hlimit : 0xFFFF < registers.sp.toNat + Layout.frameSize
    · rw [if_neg hroom, if_pos hlimit, if_pos (Or.inr hlimit)]
      rfl
    · have hfits : registers.sp.toNat + 1 < m.memory.size := by
        simp only [Layout.frameSize] at hroom
        omega
      have hsecond : (registers.sp + 1).toNat = registers.sp.toNat + 1 := by
        simp only [Layout.frameSize] at hlimit
        exact toNat_add_of_lt (b := 1) (by simp; omega)
      rw [if_neg hroom, if_neg hlimit, if_neg (not_or.mpr ⟨hroom, hlimit⟩), writeWord,
        Memory.writeWord, setRegisters_memory, if_pos hfits]
      simp only [settle, storeAll, List.foldl_cons, List.foldl_nil, hsecond]
      rfl

theorem executeInPlace_ret :
    (m.setRegisters registers).executeInPlace .ret =
      m.settle registers (m.returnEffect registers) := by
  rw [executeInPlace, pop, returnEffect, setRegisters_registers, setRegisters_memory,
    setRegisters_layout]
  by_cases hframe : registers.sp.toNat < m.layout.stackStart.toNat + Layout.frameSize
  · rw [if_pos hframe, if_pos hframe]
    rfl
  · rw [if_neg hframe, if_neg hframe]
    cases hread : m.memory.readWord (registers.sp - 2) with
    | error e => simp only [hread, settle]
    | ok target => simp only [hread, settle, storeAll, List.foldl_nil]; rfl

/-- An instruction changes the machine by its effect, or fails and changes nothing. -/
theorem executeInPlace_eq (i : Instruction) :
    (m.setRegisters registers).executeInPlace i =
      m.settle registers (m.effectOf registers i) := by
  cases i with
  | nop | halt | unknown _ | loadImmediate _ | addImmediate _ | subImmediate _ | jump _ => rfl
  | loadZeroPage address => exact loadWith_eq m registers address.toUInt16 _
  | load address | add address | sub address => exact loadWith_eq m registers address _
  | storeZeroPage address => exact storeAcc_eq m registers address.toUInt16
  | store address => exact storeAcc_eq m registers address
  | call address => exact executeInPlace_call m registers address
  | ret => exact executeInPlace_ret m registers
  | jumpIfZero address =>
      rw [executeInPlace, effectOf, jumpEffect, setRegisters_registers]
      split <;> rfl
  | jumpIfNegative address =>
      rw [executeInPlace, effectOf, jumpEffect, setRegisters_registers]
      split <;> rfl

theorem advanceInPlace_eq (i : Instruction) (next : Nat) :
    m.advanceInPlace i next =
      match m.advance i next with
      | .error kind => (m, .error kind)
      | .ok moved => m.settle moved (m.effectOf moved i) := by
  rw [advanceInPlace, advance]
  by_cases hnext : next < 0x10000
  · rw [if_pos hnext, if_pos hnext, executeInPlace_eq]
  · rw [if_neg hnext, if_neg hnext]
    by_cases hfalls : fallsThrough m.registers.flags i = true
    · rw [if_pos hfalls, if_pos hfalls]
    · rw [if_neg hfalls, if_neg hfalls]
      exact executeInPlace_eq m m.registers i

theorem jump_of_advance {m : Machine} {i : Instruction} {next : Nat} {moved : Registers}
    (h : m.advance i next = .ok moved) : moved.jump m.registers.pc = m.registers := by
  obtain ⟨_, rfl⟩ | ⟨_, _, rfl⟩ := advance_ok_iff.mp h
  · rfl
  · rfl

/-- Putting the program counter back after a failure undoes all that a step had done. -/
theorem stepInPlace_eq_step : m.stepInPlace = m.step := by
  rw [stepInPlace, step, plan]
  cases hfetch : m.fetch with
  | error kind => rfl
  | ok fetched =>
      obtain ⟨i, next⟩ := fetched
      simp only [advanceInPlace_eq]
      cases hadvance : m.advance i next with
      | error kind => rfl
      | ok moved =>
          simp only []
          cases m.effectOf moved i with
          | ok effect => rfl
          | error kind =>
              simp only [settle, setRegisters_registers, setRegisters_setRegisters,
                jump_of_advance hadvance, setRegisters_self]

/-- A step that faults, planned or taken in place, leaves the whole machine as it was and names the
instruction at the program counter. A run that faults leaves the machine that the instructions
before the faulting one have made. -/
theorem fault_keeps_machine (m m' : Machine) (fault : Fault) :
    (m.step = (m', .error fault) → m' = m ∧ fault.pc = m.registers.pc) ∧
    (m.stepInPlace = (m', .error fault) → m' = m ∧ fault.pc = m.registers.pc) ∧
    ∀ budget, m.run budget = (m', .error fault) →
      ∃ k, k < budget ∧ m.RunsFor k ∧ m' = m.after k ∧ m.Counts k m' ∧
        m'.step = (m', .error fault) ∧ fault.pc = m'.registers.pc := by
  have hstep : ∀ m : Machine, m.step = (m', .error fault) → m' = m ∧ fault.pc = m.registers.pc := by
    intro m h
    obtain ⟨hkept, kind, _, rfl⟩ := step_error_iff.mp h
    exact ⟨hkept, rfl⟩
  refine ⟨hstep m, fun h => hstep m (m.stepInPlace_eq_step ▸ h), fun budget h => ?_⟩
  obtain ⟨k, hk, hruns, hafter, hfault⟩ := runFrom_error h
  exact ⟨k, hk, hruns, hafter.symm, hafter ▸ hruns.counts, hfault, (hstep m' hfault).2⟩

/-- A machine whose second instruction is a return without a call. -/
def unmatchedReturn : Machine := { blank ⟨4, 0, 2⟩ with memory := ⟨#[0x00, 0x43, 0x00, 0x00]⟩ }

theorem fault_keeps_machine_at_return :
    unmatchedReturn.run 5 = (unmatchedReturn.after 1, .error ⟨.stackUnderflow, 1⟩) ∧
    (∃ k, k < 5 ∧ unmatchedReturn.RunsFor k ∧
      unmatchedReturn.after 1 = unmatchedReturn.after k ∧
      unmatchedReturn.Counts k (unmatchedReturn.after 1) ∧
      (unmatchedReturn.after 1).step = (unmatchedReturn.after 1, .error ⟨.stackUnderflow, 1⟩) ∧
      (1 : UInt16) = (unmatchedReturn.after 1).registers.pc) ∧
    (unmatchedReturn.after 1).stepInPlace =
      (unmatchedReturn.after 2, .error ⟨.stackUnderflow, 1⟩) ∧
    unmatchedReturn.after 2 = unmatchedReturn.after 1 := by
  have hrun : unmatchedReturn.run 5 =
      (unmatchedReturn.after 1, .error ⟨.stackUnderflow, 1⟩) := rfl
  have hstep : (unmatchedReturn.after 1).stepInPlace =
      (unmatchedReturn.after 2, .error ⟨.stackUnderflow, 1⟩) := rfl
  exact ⟨hrun, (fault_keeps_machine _ _ _).2.2 5 hrun, hstep,
    ((fault_keeps_machine _ _ _).2.1 hstep).1⟩

end Accumulator.Machine
