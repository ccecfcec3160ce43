import Accumulator.Proofs.Machine.Overflow

/-!
# When a step faults

A step checks its instruction, then the address after it, then its data or its frame. The cases in
which it faults are listed in this order, each with its condition on the machine before the step.
The first case that applies gives the fault, and where none applies the instruction at the program
counter is executed.
-/

namespace Accumulator

namespace Instruction

/-- The cell that an instruction loads, stores, adds or subtracts. -/
def dataAddress? : Instruction → Option Nat
  | loadZeroPage address | storeZeroPage address => some address.toNat
  | load address | store address | add address | sub address => some address.toNat
  | _ => none

/-- Whether an instruction goes on elsewhere without using the address after it. -/
def leaves (flags : Flags) : Instruction → Bool
  | jump _ | ret => true
  | jumpIfZero _ => flags.zero
  | jumpIfNegative _ => flags.negative
  | _ => false

theorem fallsThrough_eq (flags : Flags) (i : Instruction) :
    Machine.fallsThrough flags i = !i.leaves flags := by
  cases i <;> rfl

end Instruction

/-- A case in which a step faults. -/
structure FaultCase where
  applies : Bool
  kind : FaultKind

/-- The fault of the first case that applies. -/
def FaultCase.first? (cases : List FaultCase) : Option FaultKind :=
  (cases.find? applies).map kind

theorem FaultCase.first?_cons (c : FaultCase) (rest : List FaultCase) :
    first? (c :: rest) = if c.applies then some c.kind else first? rest := by
  rw [first?, List.find?_cons]
  cases c.applies <;> rfl

namespace Machine

/-- The byte at an address; zero stands for a byte outside the buffer. -/
def byteAt (m : Machine) (address : Nat) : UInt8 := (m.memory.at? address).getD 0

/-- The instruction that the bytes from the program counter on encode. -/
def currentInstruction (m : Machine) : Instruction :=
  .ofBytes (m.byteAt m.registers.pc.toNat) (m.byteAt (m.registers.pc.toNat + 1))
    (m.byteAt (m.registers.pc.toNat + 2))

/-- The cases in which the current instruction is not executed at all: it begins outside memory,
ends outside memory, or would have to go on past the last address. -/
def fetchCases (m : Machine) : List FaultCase :=
  let capacity := m.memory.size
  let pc := m.registers.pc.toNat
  let i := m.currentInstruction
  [⟨capacity ≤ pc, .outOfBounds pc⟩,
    ⟨capacity < pc + i.size, .outOfBounds capacity⟩,
    ⟨pc + i.size = 0x10000 ∧ i.leaves m.registers.flags = false, .outOfBounds 0x10000⟩]

/-- The cases in which executing an instruction fails: its data lies outside memory, a frame that it
pushes has no room, or a frame that it pops is not there or lies outside memory. -/
def executeCases (m : Machine) (i : Instruction) : List FaultCase :=
  let capacity := m.memory.size
  let sp := m.registers.sp.toNat
  [⟨i.dataAddress?.any (capacity ≤ ·), .outOfBounds (i.dataAddress?.getD 0)⟩,
    ⟨i.stackMove = .push ∧ min capacity 0xFFFF < sp + 2, .stackOverflow⟩,
    ⟨i.stackMove = .pop ∧ sp < m.layout.stackStart.toNat + 2, .stackUnderflow⟩,
    ⟨i.stackMove = .pop ∧ capacity ≤ sp - 2, .outOfBounds (sp - 2)⟩,
    ⟨i.stackMove = .pop ∧ sp - 1 = capacity, .outOfBounds capacity⟩]

/-- All cases in which a step faults, in the order of the checks. -/
def faultCases (m : Machine) : List FaultCase :=
  m.fetchCases ++ m.executeCases m.currentInstruction

variable {m : Machine}

/-! ## Fetching -/

theorem at?_eq_byteAt {address : Nat} (h : address < m.memory.size) :
    m.memory.at? address = some (m.byteAt address) := by
  cases hat : m.memory.at? address with
  | some value => rw [byteAt, hat, Option.getD_some]
  | none => exact absurd h (Nat.not_lt.mpr ((Memory.at?_eq_none_iff m.memory address).mp hat))

theorem byteAt_of_at? {address : Nat} {byte : UInt8} (h : m.memory.at? address = some byte) :
    m.byteAt address = byte := by
  rw [byteAt, h, Option.getD_some]

theorem fetchByte_eq (hsize : m.memory.size ≤ 0x10000) (address : Nat) :
    m.fetchByte address =
      if address < m.memory.size then .ok (m.byteAt address)
      else .error (.outOfBounds address) := by
  rw [fetchByte]
  by_cases hin : address < m.memory.size
  · simp only [at?_eq_byteAt hin, hin, Nat.lt_of_lt_of_le hin hsize, if_true]
  · have hnone := (Memory.at?_eq_none_iff m.memory address).mpr (Nat.le_of_not_lt hin)
    simp only [hnone, hin, if_false, ite_self]

/-- The first operand byte that is missing is the one behind the buffer. -/
theorem fetchOperands_eq (hsize : m.memory.size ≤ 0x10000) {start n : Nat}
    (hstart : start ≤ m.memory.size) (hn : n ≤ 2) :
    m.fetchOperands start n =
      if m.memory.size < start + n then .error (.outOfBounds m.memory.size)
      else .ok
        (if 0 < n then m.byteAt start else 0, if 1 < n then m.byteAt (start + 1) else 0) := by
  match n, hn with
  | 0, _ =>
      rw [fetchOperands, Nat.add_zero, if_neg (Nat.not_lt.mpr hstart)]
      rfl
  | 1, _ =>
      simp only [fetchOperands, fetchByte_eq hsize]
      by_cases hin : start < m.memory.size
      · rw [if_pos hin, if_neg (Nat.not_lt.mpr hin)]
        rfl
      · obtain rfl : start = m.memory.size := Nat.le_antisymm hstart (Nat.le_of_not_lt hin)
        rw [if_neg hin, if_pos (Nat.lt_succ_self _)]
  | 2, _ =>
      simp only [fetchOperands, fetchByte_eq hsize]
      by_cases hin : start < m.memory.size
      · by_cases hnext : start + 1 < m.memory.size
        · rw [if_pos hin, if_pos hnext, if_neg (Nat.not_lt.mpr hnext)]
          rfl
        · obtain hend : start + 1 = m.memory.size := Nat.le_antisymm hin (Nat.le_of_not_lt hnext)
          rw [if_pos hin, if_neg hnext, if_pos (by omega), hend]
      · obtain rfl : start = m.memory.size := Nat.le_antisymm hstart (Nat.le_of_not_lt hin)
        rw [if_neg hin, if_pos (Nat.lt_add_of_pos_right Nat.two_pos)]

/-- Fetching succeeds exactly if the whole instruction lies in memory. -/
theorem fetch_eq (hsize : m.memory.size ≤ 0x10000) :
    m.fetch =
      if m.memory.size ≤ m.registers.pc.toNat then .error (.outOfBounds m.registers.pc.toNat)
      else if m.memory.size < m.registers.pc.toNat + m.currentInstruction.size then
        .error (.outOfBounds m.memory.size)
      else .ok (m.currentInstruction, m.registers.pc.toNat + m.currentInstruction.size) := by
  have hlead : m.currentInstruction.size =
      1 + operandSize (m.byteAt m.registers.pc.toNat) := Instruction.size_ofBytes _ _ _
  rw [fetch, fetchByte_eq hsize, hlead, ← Nat.add_assoc]
  by_cases hin : m.registers.pc.toNat < m.memory.size
  · rw [if_pos hin, if_neg (Nat.not_le.mpr hin)]
    simp only [fetchOperands_eq hsize hin (Instruction.operandSize_le_two _)]
    by_cases hend : m.memory.size <
        m.registers.pc.toNat + 1 + operandSize (m.byteAt m.registers.pc.toNat)
    · rw [if_pos hend, if_pos hend]
    · rw [if_neg hend, if_neg hend]
      simp only [Instruction.ofBytes_of_size rfl]
      rfl
  · rw [if_neg hin, if_pos (Nat.le_of_not_lt hin)]

/-! ## Executing -/

theorem readData_eq (address : UInt16) :
    m.readData address =
      if m.memory.size ≤ address.toNat then .error (.outOfBounds address.toNat)
      else .ok (m.byteAt address.toNat) := by
  rw [readData, Memory.read]
  by_cases hin : address.toNat < m.memory.size
  · simp only [at?_eq_byteAt hin, Nat.not_le.mpr hin, if_false]
    rfl
  · have hnone := (Memory.at?_eq_none_iff m.memory address.toNat).mpr (Nat.le_of_not_lt hin)
    simp only [hnone, Nat.le_of_not_lt hin, if_true]
    rfl

theorem readWord_eq {address : UInt16} (h : address.toNat + 1 < 0x10000) :
    m.memory.readWord address =
      if m.memory.size ≤ address.toNat then .error ⟨address.toNat⟩
      else if address.toNat + 1 = m.memory.size then .error ⟨m.memory.size⟩
      else .ok (joinBytes (m.byteAt address.toNat) (m.byteAt (address.toNat + 1))) := by
  rw [Memory.readWord]
  by_cases hin : address.toNat < m.memory.size
  · simp only [at?_eq_byteAt hin, Nat.not_le.mpr hin, h, if_true, if_false]
    by_cases hend : address.toNat + 1 = m.memory.size
    · have hnone : m.memory.at? m.memory.size = none :=
        (Memory.at?_eq_none_iff m.memory m.memory.size).mpr (Nat.le_refl _)
      simp only [hend, hnone, if_true]
    · simp only [at?_eq_byteAt (Nat.lt_of_le_of_ne hin hend), hend, if_false]
  · have hnone := (Memory.at?_eq_none_iff m.memory address.toNat).mpr (Nat.le_of_not_lt hin)
    simp only [hnone, Nat.le_of_not_lt hin, if_true]

/-- The outcome that a list of cases gives, where the outcome without a fault is left open. -/
def Follows {α : Type} (result : Except FaultKind α) (cases : List FaultCase) : Prop :=
  match FaultCase.first? cases with
  | some kind => result = .error kind
  | none => ∃ a, result = .ok a

theorem follows_cons {α : Type} {result : Except FaultKind α} {c : FaultCase}
    {rest : List FaultCase} :
    Follows result (c :: rest) ↔
      if c.applies then result = .error c.kind else Follows result rest := by
  rw [Follows, FaultCase.first?_cons]
  cases c.applies <;> rfl

theorem follows_nil {α : Type} {result : Except FaultKind α} :
    Follows result [] ↔ ∃ a, result = .ok a := Iff.rfl

theorem Follows.map {α β : Type} {result : Except FaultKind α} {cases : List FaultCase}
    (h : Follows result cases) (f : α → β) : Follows (result.map f) cases := by
  rw [Follows] at h ⊢
  split at h
  · rw [h]
    rfl
  · obtain ⟨a, rfl⟩ := h
    exact ⟨f a, rfl⟩

variable {moved : Registers}

/-- An instruction that leaves the call stack alone fails only where its data lies outside. -/
theorem follows_executeCases_of_keep {α : Type} {result : Except FaultKind α} {i : Instruction}
    (hmove : i.stackMove = .keep)
    (h : match i.dataAddress? with
      | none => ∃ a, result = .ok a
      | some address =>
          Follows result [⟨m.memory.size ≤ address, .outOfBounds address⟩]) :
    Follows result (m.executeCases i) := by
  cases hdata : i.dataAddress? <;>
    simpa [executeCases, follows_cons, follows_nil, hmove, hdata] using h

theorem readData_follows (address : UInt16) :
    Follows (m.readData address)
      [⟨m.memory.size ≤ address.toNat, .outOfBounds address.toNat⟩] := by
  rw [readData_eq, follows_cons, follows_nil]
  by_cases hout : m.memory.size ≤ address.toNat <;> simp [hout]

theorem storeEffect_follows (address : UInt16) :
    Follows (m.storeEffect moved address)
      [⟨m.memory.size ≤ address.toNat, .outOfBounds address.toNat⟩] := by
  rw [storeEffect, follows_cons, follows_nil]
  by_cases hout : m.memory.size ≤ address.toNat
  · simp [hout]
  · simp [hout, Nat.lt_of_not_le hout]

theorem callEffect_follows (hsp : moved.sp = m.registers.sp) (target : UInt16) :
    Follows (m.callEffect moved target) (m.executeCases (.call target)) := by
  have hfull : (m.memory.size < m.registers.sp.toNat + Layout.frameSize ∨
      0xFFFF < m.registers.sp.toNat + Layout.frameSize) ↔
        min m.memory.size 0xFFFF < m.registers.sp.toNat + 2 := by
    rw [Layout.frameSize]
    omega
  have hdata : (Instruction.call target).dataAddress? = none := rfl
  have hmove : (Instruction.call target).stackMove = .push := rfl
  simp only [callEffect, hsp, hfull, executeCases, follows_cons, follows_nil, hdata, hmove]
  by_cases h : min m.memory.size 0xFFFF < m.registers.sp.toNat + 2 <;> simp [h]

theorem returnEffect_follows (hsp : moved.sp = m.registers.sp) :
    Follows (m.returnEffect moved) (m.executeCases .ret) := by
  have hdata : Instruction.ret.dataAddress? = none := rfl
  have hmove : Instruction.ret.stackMove = .pop := rfl
  simp only [returnEffect, hsp, executeCases, follows_cons, follows_nil, hdata, hmove,
    Layout.frameSize]
  by_cases hframe : m.registers.sp.toNat < m.layout.stackStart.toNat + 2
  · simp [hframe]
  · have hword := m.registers.sp.toNat_lt
    have htop : (m.registers.sp - 2).toNat = m.registers.sp.toNat - 2 :=
      toNat_sub_of_le (b := 2) (by simp; omega)
    rw [readWord_eq (by omega), htop]
    have hsecond : m.registers.sp.toNat - 2 + 1 = m.registers.sp.toNat - 1 := by omega
    rw [hsecond]
    by_cases hout : m.memory.size ≤ m.registers.sp.toNat - 2
    · simp [hframe, hout]
    · by_cases hend : m.registers.sp.toNat - 1 = m.memory.size <;> simp [hframe, hout, hend]

/-- The effect of an instruction fails by the cases in which executing it fails. -/
theorem effectOf_follows (hsp : moved.sp = m.registers.sp) (i : Instruction) :
    Follows (m.effectOf moved i) (m.executeCases i) := by
  cases i with
  | nop | halt | unknown _ | loadImmediate _ | addImmediate _ | subImmediate _ =>
      exact follows_executeCases_of_keep rfl ⟨_, rfl⟩
  | jumpIfZero _ | jump _ | jumpIfNegative _ => exact follows_executeCases_of_keep rfl ⟨_, rfl⟩
  | loadZeroPage address =>
      exact follows_executeCases_of_keep rfl ((readData_follows address.toUInt16).map _)
  | load address | add address | sub address =>
      exact follows_executeCases_of_keep rfl ((readData_follows address).map _)
  | storeZeroPage address =>
      exact follows_executeCases_of_keep rfl (storeEffect_follows address.toUInt16)
  | store address => exact follows_executeCases_of_keep rfl (storeEffect_follows address)
  | call target => exact callEffect_follows hsp target
  | ret => exact returnEffect_follows hsp

/-! ## The step -/

theorem step_of_plan_error {kind : FaultKind} (h : m.plan = .error kind) :
    m.step.2 = .error ⟨kind, m.registers.pc⟩ := by
  rw [step, h]

/-- A step faults by the first case that applies, and else executes the current instruction. -/
theorem step_result (hsize : m.memory.size ≤ Layout.maxCapacity) :
    m.step.2 =
      match FaultCase.first? m.faultCases with
      | some kind => .error ⟨kind, m.registers.pc⟩
      | none => .ok m.currentInstruction := by
  have hfetch := fetch_eq hsize
  rw [faultCases, fetchCases, List.cons_append, List.cons_append, List.cons_append,
    List.nil_append, FaultCase.first?_cons, FaultCase.first?_cons, FaultCase.first?_cons]
  simp only [decide_eq_true_eq]
  by_cases hbegin : m.memory.size ≤ m.registers.pc.toNat
  · rw [if_pos hbegin] at hfetch ⊢
    exact step_of_plan_error (by rw [plan, hfetch])
  · rw [if_neg hbegin] at hfetch ⊢
    by_cases hend : m.memory.size < m.registers.pc.toNat + m.currentInstruction.size
    · rw [if_pos hend] at hfetch ⊢
      exact step_of_plan_error (by rw [plan, hfetch])
    · rw [if_neg hend] at hfetch ⊢
      have hnext : m.registers.pc.toNat + m.currentInstruction.size ≤ 0x10000 :=
        Nat.le_trans (Nat.le_of_not_lt hend) hsize
      by_cases hpast : m.registers.pc.toNat + m.currentInstruction.size = 0x10000 ∧
          m.currentInstruction.leaves m.registers.flags = false
      · rw [if_pos hpast]
        have hadvance : m.advance m.currentInstruction 0x10000 = .error (.outOfBounds 0x10000) := by
          rw [advance, if_neg (Nat.lt_irrefl _), Instruction.fallsThrough_eq, hpast.2]
          rfl
        rw [hpast.1] at hfetch
        exact step_of_plan_error (by simp only [plan, hfetch, hadvance])
      · rw [if_neg hpast]
        obtain ⟨moved, hadvance⟩ : ∃ moved, m.advance m.currentInstruction
            (m.registers.pc.toNat + m.currentInstruction.size) = .ok moved := by
          by_cases hlast : m.registers.pc.toNat + m.currentInstruction.size = 0x10000
          · refine ⟨_, advance_ok_iff.mpr (.inr ⟨Nat.le_of_eq hlast.symm, ?_, rfl⟩)⟩
            rw [Instruction.fallsThrough_eq]
            simpa [hlast] using hpast
          · exact ⟨_, advance_ok_iff.mpr (.inl ⟨Nat.lt_of_le_of_ne hnext hlast, rfl⟩)⟩
        have hfollows := effectOf_follows (advance_sp hadvance) m.currentInstruction
        rw [Follows] at hfollows
        cases hfirst : FaultCase.first? (m.executeCases m.currentInstruction) with
        | some kind =>
            rw [hfirst] at hfollows
            exact step_of_plan_error (by simp only [plan, hfetch, hadvance, hfollows])
        | none =>
            rw [hfirst] at hfollows
            obtain ⟨effect, heffect⟩ := hfollows
            simp only [step, plan, hfetch, hadvance, heffect]

/-- A step on a machine with any layout, registers and contents of a memory that is not longer than
addresses reach. It faults by the first of the listed cases that applies, with the fault of that
case, and where none applies it executes the current instruction. No sum and no difference of words
in it wraps around. -/
theorem step_classified (hsize : m.memory.size ≤ Layout.maxCapacity) :
    (m.step.2 =
      match FaultCase.first? m.faultCases with
      | some kind => .error ⟨kind, m.registers.pc⟩
      | none => .ok m.currentInstruction) ∧
    m.checkedStep = some m.step :=
  ⟨step_result hsize, m.checkedStep_eq⟩

/-- A machine at a return in its last cell, with a stack pointer from which the frame to pop begins
in that cell and ends outside. -/
def halfFrame : Machine :=
  { blank ⟨4, 0, 2⟩ with memory := ⟨#[0x00, 0x00, 0x00, 0x43]⟩, registers := ⟨3, 0, 5, .clear⟩ }

theorem step_classified_half_frame :
    halfFrame.memory.size ≤ Layout.maxCapacity ∧
    FaultCase.first? halfFrame.faultCases = some (.outOfBounds 4) ∧
    halfFrame.step.2 = .error ⟨.outOfBounds 4, 3⟩ ∧
    halfFrame.checkedStep = some halfFrame.step := by
  have hsize : halfFrame.memory.size ≤ Layout.maxCapacity := by decide
  have hfirst : FaultCase.first? halfFrame.faultCases = some (.outOfBounds 4) := by decide
  obtain ⟨hstep, hchecked⟩ := step_classified hsize
  rw [hfirst] at hstep
  exact ⟨hsize, hfirst, hstep, hchecked⟩

end Machine
end Accumulator
