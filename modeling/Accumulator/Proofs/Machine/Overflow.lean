import Accumulator.Proofs.Machine.Effects

/-!
# Word arithmetic does not overflow

A step adds and subtracts words where it computes a sum or a difference, pushes, and pops. The same
step can be taken with an arithmetic that gives up where a result does not fit its type. It never
gives up, so it is the step: no sum and no difference of words wraps around.
-/

namespace Accumulator

/-! ## Arithmetic that gives up -/

/-- The sum of two words, if it fits. -/
def addWords? (a b : UInt16) : Option UInt16 :=
  if a.toNat + b.toNat < 0x10000 then some (a + b) else none

/-- The difference of two words, if it fits. -/
def subWords? (a b : UInt16) : Option UInt16 :=
  if b.toNat ≤ a.toNat then some (a - b) else none

/-- The difference of two signed words, if it fits. -/
def subSigned? (a b : Int16) : Option Int16 :=
  if -0x8000 ≤ a.toInt - b.toInt ∧ a.toInt - b.toInt < 0x8000 then some (a - b) else none

/-- A byte as a signed word. -/
def signedWord (b : UInt8) : Int16 := Int16.ofNat b.toNat

theorem addWords?_eq_some {a b : UInt16} (h : a.toNat + b.toNat < 0x10000) :
    addWords? a b = some (a + b) := if_pos h

theorem subWords?_eq_some {a b : UInt16} (h : b.toNat ≤ a.toNat) :
    subWords? a b = some (a - b) := if_pos h

theorem toInt_signedWord (b : UInt8) : (signedWord b).toInt = b.toNat :=
  Int16.toInt_ofNat_of_lt (Nat.lt_trans b.toNat_lt (by decide))

theorem toInt_sub_of_fits {a b : Int16} (low : -0x8000 ≤ a.toInt - b.toInt)
    (high : a.toInt - b.toInt < 0x8000) : (a - b).toInt = a.toInt - b.toInt := by
  rw [Int16.toInt_sub]
  exact Int.bmod_eq_of_le low high

namespace Arithmetic

/-- The sum of two bytes and a carry, taken over words. -/
def wideAdd? (a b : UInt8) (carry : Bool) : Option (UInt8 × Bool) :=
  ((addWords? a.toUInt16 b.toUInt16).bind (addWords? · (carryIn carry).toUInt16)).map fun sum =>
    (sum.toUInt8, 0xFF < sum.toNat)

/-- The difference of two bytes and a borrow, taken over signed words. -/
def wideSub? (a b : UInt8) (borrow : Bool) : Option (UInt8 × Bool) :=
  ((subSigned? (signedWord a) (signedWord b)).bind (subSigned? · (signedWord (carryIn borrow)))).map
    fun difference => (UInt8.ofInt difference.toInt, difference.toInt < 0)

theorem wideAdd?_eq (a b : UInt8) (carry : Bool) : wideAdd? a b carry = some (add a b carry) := by
  have ha := a.toNat_lt
  have hb := b.toNat_lt
  have hc := (carryIn carry).toNat_lt
  have hfirst : (a.toUInt16 + b.toUInt16).toNat = a.toNat + b.toNat :=
    toNat_add_of_lt (by simp; omega)
  have hboth : (a.toUInt16 + b.toUInt16 + (carryIn carry).toUInt16).toNat =
      a.toNat + b.toNat + (carryIn carry).toNat := by
    rw [toNat_add_of_lt, hfirst, UInt8.toNat_toUInt16]
    rw [hfirst, UInt8.toNat_toUInt16]
    omega
  have hsum : (a.toUInt16 + b.toUInt16 + (carryIn carry).toUInt16).toUInt8 =
      a + b + carryIn carry := by
    apply UInt8.toNat_inj.mp
    rw [UInt16.toNat_toUInt8, hboth, UInt8.toNat_add, UInt8.toNat_add]
    omega
  rw [wideAdd?, addWords?_eq_some (by simp; omega), Option.bind_some,
    addWords?_eq_some (by rw [hfirst, UInt8.toNat_toUInt16]; omega), Option.map_some, hsum, hboth]
  rfl

theorem wideSub?_eq (a b : UInt8) (borrow : Bool) :
    wideSub? a b borrow = some (sub a b borrow) := by
  have ha := a.toNat_lt
  have hb := b.toNat_lt
  have hc := (carryIn borrow).toNat_lt
  have hwa := toInt_signedWord a
  have hwb := toInt_signedWord b
  have hwc := toInt_signedWord (carryIn borrow)
  have hfirst : (signedWord a - signedWord b).toInt = a.toNat - b.toNat := by
    rw [toInt_sub_of_fits (by omega) (by omega), hwa, hwb]
  have hboth : (signedWord a - signedWord b - signedWord (carryIn borrow)).toInt =
      a.toNat - b.toNat - (carryIn borrow).toNat := by
    rw [toInt_sub_of_fits (by omega) (by omega), hfirst, hwc]
  have hdifference :
      UInt8.ofInt (signedWord a - signedWord b - signedWord (carryIn borrow)).toInt =
        a - b - carryIn borrow := by
    apply UInt8.toNat_inj.mp
    rw [toNat_ofInt_byte, hboth, UInt8.toNat_sub, UInt8.toNat_sub]
    omega
  have hborrow : ((a.toNat : Int) - b.toNat - (carryIn borrow).toNat < 0) ↔
      a.toNat < b.toNat + (carryIn borrow).toNat := by
    omega
  rw [wideSub?, subSigned?, if_pos (by omega), Option.bind_some, subSigned?, if_pos (by omega),
    Option.map_some, hdifference, hboth, sub]
  simp only [hborrow]

end Arithmetic

/-- Read two bytes, with the address of the second one taken as a sum of words. -/
def Memory.checkedReadWord (memory : Memory) (address : UInt16) :
    Option (Except OutOfBounds UInt16) :=
  match memory.at? address.toNat with
  | none => some (.error ⟨address.toNat⟩)
  | some low =>
      (addWords? address 1).map fun second =>
        match memory.at? second.toNat with
        | none => .error ⟨second.toNat⟩
        | some high => .ok (joinBytes low high)

theorem Memory.checkedReadWord_eq (memory : Memory) {address : UInt16}
    (h : address.toNat + 1 < 0x10000) :
    memory.checkedReadWord address = some (memory.readWord address) := by
  have hsecond : (address + 1).toNat = address.toNat + 1 := toNat_add_of_lt (b := 1) h
  rw [checkedReadWord, readWord]
  cases memory.at? address.toNat with
  | none => rfl
  | some low =>
      cases hhigh : memory.at? (address.toNat + 1) <;>
        simp [addWords?_eq_some (b := 1) h, hsecond, h, hhigh]

namespace Machine

/-! ## The step -/

/-- Push the program counter and jump, with arithmetic that gives up. -/
def checkedCall (m : Machine) (registers : Registers) (target : UInt16) :
    Option (Except FaultKind Effect) :=
  let next := registers.sp.toNat + Layout.frameSize
  if m.memory.size < next ∨ 0xFFFF < next then some (.error .stackOverflow)
  else
    (addWords? registers.sp 2).bind fun sp =>
      (addWords? registers.sp 1).map fun second =>
        .ok
          { registers := { registers with pc := target, sp := sp }
            stores := [(registers.sp, lowByte registers.pc), (second, highByte registers.pc)] }

/-- Pop an address and jump to it, with arithmetic that gives up. -/
def checkedReturn (m : Machine) (registers : Registers) : Option (Except FaultKind Effect) :=
  if registers.sp.toNat < m.layout.stackStart.toNat + Layout.frameSize then
    some (.error .stackUnderflow)
  else
    (subWords? registers.sp 2).bind fun top =>
      (m.memory.checkedReadWord top).map fun read =>
        match read with
        | .error e => .error (.outOfBounds e.address)
        | .ok target => .ok { registers := { registers with pc := target, sp := top } }

/-- Put a result into the accumulator, with arithmetic that gives up. -/
def checkedResult (registers : Registers) (result? : Option (UInt8 × Bool)) :
    Option (Except FaultKind Effect) :=
  result?.map fun result => .ok { registers := registers.setResult result.1 result.2 }

/-- The effect of an instruction, with arithmetic that gives up. Only sums, differences, calls and
returns need any. -/
def checkedEffectOf (m : Machine) (registers : Registers) :
    Instruction → Option (Except FaultKind Effect)
  | .add address =>
      match m.readData address with
      | .error kind => some (.error kind)
      | .ok v => checkedResult registers (Arithmetic.wideAdd? registers.acc v registers.flags.carry)
  | .sub address =>
      match m.readData address with
      | .error kind => some (.error kind)
      | .ok v => checkedResult registers (Arithmetic.wideSub? registers.acc v registers.flags.carry)
  | .addImmediate v =>
      checkedResult registers (Arithmetic.wideAdd? registers.acc v registers.flags.carry)
  | .subImmediate v =>
      checkedResult registers (Arithmetic.wideSub? registers.acc v registers.flags.carry)
  | .call target => m.checkedCall registers target
  | .ret => m.checkedReturn registers
  | i => some (m.effectOf registers i)

/-- The next instruction and its effect, with arithmetic that gives up. -/
def checkedPlan (m : Machine) : Option (Except FaultKind (Instruction × Effect)) :=
  match m.fetch with
  | .error kind => some (.error kind)
  | .ok (i, next) =>
      match m.advance i next with
      | .error kind => some (.error kind)
      | .ok registers => (m.checkedEffectOf registers i).map (·.map (i, ·))

/-- Execute one instruction with arithmetic that gives up. -/
def checkedStep (m : Machine) : Option (Machine × Except Fault Instruction) :=
  m.checkedPlan.map fun planned =>
    match planned with
    | .ok (i, effect) => (m.commit i effect, .ok i)
    | .error kind => (m, .error ⟨kind, m.registers.pc⟩)

variable (m : Machine) (registers : Registers)

theorem checkedCall_eq (target : UInt16) :
    m.checkedCall registers target = some (m.callEffect registers target) := by
  rw [checkedCall, callEffect]
  by_cases hfull : m.memory.size < registers.sp.toNat + Layout.frameSize ∨
      0xFFFF < registers.sp.toNat + Layout.frameSize
  · rw [if_pos hfull, if_pos hfull]
  · have hlimit : registers.sp.toNat + 2 < 0x10000 :=
      Nat.lt_succ_of_le (Nat.le_of_not_lt (not_or.mp hfull).2)
    have hnext : registers.sp + 2 = UInt16.ofNat (registers.sp.toNat + Layout.frameSize) := by
      rw [UInt16.ofNat_add, UInt16.ofNat_toNat]
      rfl
    rw [if_neg hfull, if_neg hfull, addWords?_eq_some (b := 2) hlimit, Option.bind_some,
      addWords?_eq_some (b := 1) (Nat.lt_of_succ_lt hlimit), Option.map_some, hnext]

theorem checkedReturn_eq : m.checkedReturn registers = some (m.returnEffect registers) := by
  rw [checkedReturn, returnEffect]
  by_cases hframe : registers.sp.toNat < m.layout.stackStart.toNat + Layout.frameSize
  · rw [if_pos hframe, if_pos hframe]
  · have htwo : 2 ≤ registers.sp.toNat :=
      Nat.le_trans (Nat.le_add_left _ _) (Nat.le_of_not_lt hframe)
    have htop : (registers.sp - 2).toNat = registers.sp.toNat - 2 := toNat_sub_of_le (b := 2) htwo
    -- the frame ends below the stack pointer, so its second cell has an address
    have hsecond : (registers.sp - 2).toNat + 1 < 0x10000 := by
      have hsp := registers.sp.toNat_lt
      omega
    rewrite [if_neg hframe, if_neg hframe, subWords?_eq_some (b := 2) htwo, Option.bind_some,
      m.memory.checkedReadWord_eq hsecond, Option.map_some]
    rfl

theorem checkedResult_add (registers : Registers) (v : UInt8) :
    checkedResult registers (Arithmetic.wideAdd? registers.acc v registers.flags.carry) =
      some (.ok { registers := addResult registers v }) := by
  rewrite [Arithmetic.wideAdd?_eq]
  rfl

theorem checkedResult_sub (registers : Registers) (v : UInt8) :
    checkedResult registers (Arithmetic.wideSub? registers.acc v registers.flags.carry) =
      some (.ok { registers := subResult registers v }) := by
  rewrite [Arithmetic.wideSub?_eq]
  rfl

theorem checkedEffectOf_eq (i : Instruction) :
    m.checkedEffectOf registers i = some (m.effectOf registers i) := by
  cases i with
  | nop | halt | unknown _ | loadZeroPage _ | loadImmediate _ | load _ | storeZeroPage _
  | store _ =>
      rfl
  | jumpIfZero _ | jump _ | jumpIfNegative _ => rfl
  | add address =>
      change (match m.readData address with
        | .error kind => some (.error kind)
        | .ok v =>
            checkedResult registers (Arithmetic.wideAdd? registers.acc v registers.flags.carry)) =
        some ((m.readData address).map fun v => { registers := addResult registers v })
      cases m.readData address with
      | error kind => rfl
      | ok v => exact checkedResult_add registers v
  | sub address =>
      change (match m.readData address with
        | .error kind => some (.error kind)
        | .ok v =>
            checkedResult registers (Arithmetic.wideSub? registers.acc v registers.flags.carry)) =
        some ((m.readData address).map fun v => { registers := subResult registers v })
      cases m.readData address with
      | error kind => rfl
      | ok v => exact checkedResult_sub registers v
  | addImmediate v => exact checkedResult_add registers v
  | subImmediate v => exact checkedResult_sub registers v
  | call target => exact m.checkedCall_eq registers target
  | ret => exact m.checkedReturn_eq registers

theorem checkedPlan_eq : m.checkedPlan = some m.plan := by
  rw [checkedPlan, plan]
  cases m.fetch with
  | error kind => rfl
  | ok fetched =>
      obtain ⟨i, next⟩ := fetched
      simp only []
      cases m.advance i next with
      | error kind => rfl
      | ok moved =>
          simp only [checkedEffectOf_eq, Option.map_some]
          cases m.effectOf moved i with
          | error kind => rfl
          | ok effect => rfl

/-- The arithmetic never gives up, and the step is the same. -/
theorem checkedStep_eq : m.checkedStep = some m.step := by
  rewrite [checkedStep, checkedPlan_eq, Option.map_some, step]
  cases m.plan with
  | error kind => rfl
  | ok planned => rfl

end Machine
end Accumulator
