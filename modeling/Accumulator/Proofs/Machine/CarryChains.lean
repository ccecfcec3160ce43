import Accumulator.Proofs.Machine.Footprint
import Accumulator.Proofs.Machine.StoredPrograms
import Mathlib.Algebra.BigOperators.Group.Finset.Basic
import Mathlib.Tactic.LinearCombination

/-!
# Carry chains

A number of any length is added or subtracted byte by byte, the lowest byte first: each byte of the
first number is loaded, the byte of the second number is taken in, and the result is stored. Loads
and stores keep the carry, so that it links each byte to the next. The results may replace the
operands, as long as no byte is overwritten that is still to be read.
-/

namespace Accumulator

/-- What a carry chain computes. -/
inductive ChainOperation
  | sum
  | difference
  deriving DecidableEq, Repr

namespace ChainOperation

variable {operation : ChainOperation} {x y z : Nat → UInt16} {k : Nat}

/-- The instruction that takes in a byte of the second number. -/
def instruction : ChainOperation → UInt16 → Instruction
  | sum => .add
  | difference => .sub

/-- With which sign the second number and the carry count. -/
def sign : ChainOperation → Int
  | sum => 1
  | difference => -1

/-- The instructions for one byte. -/
def digit (operation : ChainOperation) (x y z : UInt16) : List Instruction :=
  [.load x, operation.instruction y, .store z]

/-- The instructions for the lowest bytes of two numbers. -/
def chain (operation : ChainOperation) (x y z : Nat → UInt16) (k : Nat) : List Instruction :=
  (List.range k).flatMap fun i => operation.digit (x i) (y i) (z i)

theorem chain_succ : operation.chain x y z (k + 1) =
    operation.chain x y z k ++ operation.digit (x k) (y k) (z k) := by
  rw [chain, chain, List.range_succ, List.flatMap_append, List.flatMap_singleton]

theorem length_chain : (operation.chain x y z k).length = 3 * k := by
  induction k with
  | zero => rfl
  | succ k ih =>
      rw [chain_succ, List.length_append, ih]
      rfl

theorem halt_notMem_chain : .halt ∉ operation.chain x y z k := by
  intro hhalt
  obtain ⟨i, _, hmem⟩ := List.mem_flatMap.mp hhalt
  cases operation <;> simp [digit, instruction] at hmem

theorem encodeAll_digit (x y z : UInt16) :
    Instruction.encodeAll (operation.digit x y z) =
      (Instruction.load x).encode ++ (operation.instruction y).encode ++
        (Instruction.store z).encode := by
  rw [Instruction.encodeAll, digit]
  simp only [List.flatMap_cons, List.flatMap_nil, List.append_nil, List.append_assoc]

theorem size_instruction (address : UInt16) : (operation.instruction address).size = 3 := by
  cases operation <;> rfl

theorem dataAddress?_instruction (address : UInt16) :
    (operation.instruction address).dataAddress? = some address.toNat := by
  cases operation <;> rfl

theorem length_encodeAll_digit (x y z : UInt16) :
    (Instruction.encodeAll (operation.digit x y z)).length = 9 := by
  cases operation <;> rfl

theorem encodeAll_chain_succ : Instruction.encodeAll (operation.chain x y z (k + 1)) =
    Instruction.encodeAll (operation.chain x y z k) ++
      Instruction.encodeAll (operation.digit (x k) (y k) (z k)) := by
  rw [chain_succ, Instruction.encodeAll, List.flatMap_append]
  rfl

theorem length_encodeAll_chain :
    (Instruction.encodeAll (operation.chain x y z k)).length = 9 * k := by
  induction k with
  | zero => rfl
  | succ k ih =>
      rw [encodeAll_chain_succ, List.length_append, ih, length_encodeAll_digit, Nat.mul_succ]

end ChainOperation

namespace Machine

open Finset

variable {m m' n n' : Machine} {operation : ChainOperation}

/-! ## One byte -/

theorem holds_digit {x y z : Nat → UInt16} {start j k : Nat} (hj : j < k)
    (h : m.Holds start (Instruction.encodeAll (operation.chain x y z k))) :
    m.Holds (start + 9 * j) (Instruction.encodeAll (operation.digit (x j) (y j) (z j))) := by
  induction k with
  | zero => exact absurd hj (Nat.not_lt_zero j)
  | succ k ih =>
      rw [ChainOperation.encodeAll_chain_succ, holds_append,
        ChainOperation.length_encodeAll_chain] at h
      obtain ⟨hchain, hdigit⟩ := h
      obtain hlt | rfl := Nat.lt_succ_iff_lt_or_eq.mp hj
      · exact ih hlt hchain
      · exact hdigit

/-- An operation adds a byte and the carry to the accumulator, with its sign. -/
theorem Executed.combined {y : UInt16} (h : m.Executed m' (operation.instruction y)) :
    (m'.registers.acc.toNat : Int) + operation.sign * 256 * m'.registers.flags.carry.toNat =
      m.registers.acc.toNat +
        operation.sign * ((m.byteAt y.toNat).toNat + m.registers.flags.carry.toNat) := by
  cases operation with
  | sum =>
      obtain ⟨byte, hbyte, hsum⟩ := h.sum rfl
      rw [byteAt_of_at? hbyte, ChainOperation.sign]
      omega
  | difference =>
      obtain ⟨byte, hbyte, hdifference⟩ := h.difference rfl
      rw [byteAt_of_at? hbyte, ChainOperation.sign]
      omega

/-- What the instructions for one byte make of a machine. -/
structure DigitDone (operation : ChainOperation) (x y z : UInt16) (m m' : Machine) : Prop where
  path : m.Path (operation.digit x y z) m'
  pc : m'.registers.pc.toNat = m.registers.pc.toNat + 9
  memory : ∀ cell, m'.memory.at? cell =
    if cell = z.toNat then some m'.registers.acc else m.memory.at? cell
  /-- The result and the carry after it are exact. -/
  balance : (m'.registers.acc.toNat : Int) +
      operation.sign * 256 * m'.registers.flags.carry.toNat =
    (m.byteAt x.toNat).toNat +
      operation.sign * ((m.byteAt y.toNat).toNat + m.registers.flags.carry.toNat)

/-- The accumulator takes in both bytes, and the memory is left alone. -/
theorem exists_combined {x y : UInt16}
    (h : m.Holds m.registers.pc.toNat
      ((Instruction.load x).encode ++ (operation.instruction y).encode))
    (hroom : m.registers.pc.toNat + 6 < 0x10000) (hx : x.toNat < m.memory.size)
    (hy : y.toNat < m.memory.size) :
    ∃ n, m.Path [.load x, operation.instruction y] n ∧ n.memory = m.memory ∧
      n.registers.pc.toNat = m.registers.pc.toNat + 6 ∧
      (n.registers.acc.toNat : Int) + operation.sign * 256 * n.registers.flags.carry.toNat =
        (m.byteAt x.toNat).toNat +
          operation.sign * ((m.byteAt y.toNat).toNat + m.registers.flags.carry.toNat) := by
  have hloadSize : (Instruction.load x).size = 3 := rfl
  have hcombineSize := operation.size_instruction y
  rw [holds_append, Instruction.length_encode] at h
  obtain ⟨hload, hcombine⟩ := h
  obtain ⟨loaded, hloadStep, hloaded, hloadPc⟩ := exists_step_of_data hload rfl hx (by omega)
  have hmemory : loaded.memory = m.memory := hloaded.memory_eq rfl
  have hacc := byteAt_of_at? (hloaded.loaded rfl)
  have hflags : loaded.registers.flags = m.registers.flags := hloaded.flags_kept rfl
  have hbyte : loaded.byteAt y.toNat = m.byteAt y.toNat := by
    rw [byteAt, hmemory, byteAt]
  rw [← hloadPc] at hcombine
  obtain ⟨n, hcombineStep, hcombined, hcombinePc⟩ :=
    exists_step_of_data (hcombine.of_memory_eq hmemory) (operation.dataAddress?_instruction y)
      (by rwa [hmemory]) (by omega)
  refine ⟨n, .cons hloadStep (.cons hcombineStep (.nil n)), ?memory, by omega, ?balance⟩
  case memory => rw [hcombined.memory_eq (by cases operation <;> rfl), hmemory]
  case balance => rw [hcombined.combined, ← hacc, hflags, hbyte]

theorem exists_digitDone {x y z : UInt16}
    (h : m.Holds m.registers.pc.toNat (Instruction.encodeAll (operation.digit x y z)))
    (hroom : m.registers.pc.toNat + 9 < 0x10000) (hx : x.toNat < m.memory.size)
    (hy : y.toNat < m.memory.size) (hz : z.toNat < m.memory.size) :
    ∃ m', DigitDone operation x y z m m' := by
  have hstoreSize : (Instruction.store z).size = 3 := rfl
  rw [ChainOperation.encodeAll_digit, holds_append, List.length_append, Instruction.length_encode,
    Instruction.length_encode, operation.size_instruction y] at h
  obtain ⟨hcombine, hstore⟩ := h
  obtain ⟨n, hpath, hmemory, hpc, hbalance⟩ := exists_combined hcombine (by omega) hx hy
  rw [← hmemory] at hz
  replace hstore : n.Holds n.registers.pc.toNat (Instruction.store z).encode := by
    rw [hpc]
    exact hstore.of_memory_eq hmemory
  obtain ⟨m', hstep, hstored, hstorePc⟩ := exists_step_of_data hstore rfl hz (by omega)
  have hacc : m'.registers.acc = n.registers.acc := hstored.acc_kept rfl
  have hflags : m'.registers.flags = n.registers.flags := hstored.flags_kept rfl
  refine ⟨m', hpath.trans (.cons hstep (.nil m')), by omega, ?memory, ?balance⟩
  case memory =>
    intro cell
    rw [at?_of_store hstep rfl, hacc, hmemory]
  case balance => rw [hacc, hflags, hbalance]

/-! ## All bytes -/

variable {x y z : Nat → UInt16} {k : Nat}

/-- The number whose bytes stand at some addresses, the lowest byte first. -/
def number (m : Machine) (addresses : Nat → UInt16) (k : Nat) : Nat :=
  ∑ i ∈ range k, (m.byteAt (addresses i).toNat).toNat * 256 ^ i

/-- A machine is about to execute a carry chain on two numbers. -/
structure ChainReady (m : Machine) (operation : ChainOperation) (x y z : Nat → UInt16) (k : Nat) :
    Prop where
  carry : m.registers.flags.carry = false
  code : m.Holds m.registers.pc.toNat (Instruction.encodeAll (operation.chain x y z k))
  room : m.registers.pc.toNat + 9 * k ≤ 0xFFFF
  inside : ∀ i < k, (x i).toNat < m.memory.size ∧ (y i).toNat < m.memory.size ∧
    (z i).toNat < m.memory.size
  distinct : ∀ j < k, ∀ i < j, z i ≠ z j
  spares_code : ∀ i < k, (z i).toNat < m.registers.pc.toNat ∨
    m.registers.pc.toNat + 9 * k ≤ (z i).toNat
  /-- A byte is read before it is overwritten. -/
  spares_operands : ∀ j < k, ∀ i < j, z i ≠ x j ∧ z i ≠ y j

/-- What the first part of a carry chain makes of a machine. -/
structure ChainDone (operation : ChainOperation) (x y z : Nat → UInt16) (j : Nat) (m n : Machine) :
    Prop where
  path : m.Path (operation.chain x y z j) n
  pc : n.registers.pc.toNat = m.registers.pc.toNat + 9 * j
  kept : ∀ cell, (∀ i < j, cell ≠ (z i).toNat) → n.memory.at? cell = m.memory.at? cell
  balance : (n.number z j : Int) + operation.sign * 256 ^ j * n.registers.flags.carry.toNat =
    m.number x j + operation.sign * m.number y j

theorem number_succ (m : Machine) (addresses : Nat → UInt16) (k : Nat) :
    m.number addresses (k + 1) =
      m.number addresses k + (m.byteAt (addresses k).toNat).toNat * 256 ^ k :=
  sum_range_succ _ k

theorem number_congr {addresses : Nat → UInt16}
    (h : ∀ i < k, n.memory.at? (addresses i).toNat = m.memory.at? (addresses i).toNat) :
    n.number addresses k = m.number addresses k := by
  apply sum_congr rfl
  intro i hi
  rw [byteAt, h i (mem_range.mp hi), byteAt]

theorem ChainReady.chainDone_zero (h : m.ChainReady operation x y z k) :
    ChainDone operation x y z 0 m m where
  path := .nil m
  pc := rfl
  kept := fun _ _ => rfl
  balance := by simp [number, h.carry]

theorem ChainDone.byteAt_eq {j : Nat} {address : UInt16} (h : ChainDone operation x y z j m n)
    (hspared : ∀ i < j, z i ≠ address) : n.byteAt address.toNat = m.byteAt address.toNat := by
  rw [byteAt, byteAt, h.kept]
  intro i hi heq
  exact hspared i hi (UInt16.toNat_inj.mp heq.symm)

/-- The code for the next byte has not been overwritten. -/
theorem ChainReady.holds_next {j : Nat} (h : m.ChainReady operation x y z k) (hj : j < k)
    (hdone : ChainDone operation x y z j m n) :
    n.Holds n.registers.pc.toNat
      (Instruction.encodeAll (operation.digit (x j) (y j) (z j))) := by
  rw [hdone.pc]
  apply (holds_digit hj h.code).kept
  intro cell hlow hhigh
  rw [ChainOperation.length_encodeAll_digit] at hhigh
  apply hdone.kept
  intro i hi
  have hspared := h.spares_code i (hi.trans hj)
  omega

/-- The results of the lower bytes are not overwritten by that of the next one. -/
theorem ChainReady.number_lower {j : Nat} (h : m.ChainReady operation x y z k) (hj : j < k)
    (hdigit : DigitDone operation (x j) (y j) (z j) n n') : n'.number z j = n.number z j := by
  apply number_congr
  intro i hi
  rw [hdigit.memory, if_neg]
  intro heq
  exact h.distinct j hj i hi (UInt16.toNat_inj.mp heq)

/-- Each byte takes a carry chain one step further. -/
theorem ChainReady.chainDone_succ {j : Nat} (h : m.ChainReady operation x y z k) (hj : j < k)
    (hdone : ChainDone operation x y z j m n) :
    ∃ n', ChainDone operation x y z (j + 1) m n' := by
  have hsize : n.memory.size = m.memory.size := hdone.path.size
  have hpc := hdone.pc
  have hroom := h.room
  obtain ⟨hx, hy, hz⟩ := h.inside j hj
  rw [← hsize] at hx hy hz
  obtain ⟨n', hdigit⟩ := exists_digitDone (h.holds_next hj hdone) (by omega) hx hy hz
  refine ⟨n', ?path, ?pc, ?kept, ?balance⟩
  case path =>
    rw [ChainOperation.chain_succ]
    exact hdone.path.trans hdigit.path
  case pc =>
    rw [hdigit.pc, hpc, Nat.mul_succ, Nat.add_assoc]
  case kept =>
    intro cell hcell
    rw [hdigit.memory, if_neg (hcell j (Nat.lt_succ_self j))]
    apply hdone.kept
    intro i hi
    exact hcell i (Nat.lt_succ_of_lt hi)
  case balance =>
    have hlower := hdone.balance
    have hbyte := hdigit.balance
    have hresult : n'.byteAt (z j).toNat = n'.registers.acc := by
      apply byteAt_of_at?
      rw [hdigit.memory, if_pos rfl]
    rw [hdone.byteAt_eq fun i hi => (h.spares_operands j hj i hi).1,
      hdone.byteAt_eq fun i hi => (h.spares_operands j hj i hi).2] at hbyte
    rw [number_succ, number_succ, number_succ, h.number_lower hj hdigit, hresult]
    push_cast
    linear_combination hlower + 256 ^ j * hbyte

theorem ChainReady.exists_chainDone {j : Nat} (h : m.ChainReady operation x y z k) (hj : j ≤ k) :
    ∃ n, ChainDone operation x y z j m n := by
  induction j with
  | zero => exact ⟨m, h.chainDone_zero⟩
  | succ j ih =>
      obtain ⟨n, hdone⟩ := ih (Nat.le_of_succ_le hj)
      exact h.chainDone_succ hj hdone

/-- A carry chain adds or subtracts two numbers, whatever their length. The carry that it leaves is
what the exact sum exceeds the result by, or what the exact difference falls short of it. -/
theorem run_chain (h : m.ChainReady operation x y z k) :
    ∃ m', m.run (3 * k) = (m', .ok ⟨3 * k, false⟩) ∧
      match operation with
      | .sum => m'.number z k + 256 ^ k * m'.registers.flags.carry.toNat =
          m.number x k + m.number y k
      | .difference => (m'.number z k : Int) - 256 ^ k * m'.registers.flags.carry.toNat =
          m.number x k - m.number y k := by
  obtain ⟨m', hdone⟩ := h.exists_chainDone (Nat.le_refl k)
  have hrun := hdone.path.run ChainOperation.halt_notMem_chain
  rw [ChainOperation.length_chain] at hrun
  have hbalance := hdone.balance
  refine ⟨m', hrun, ?_⟩
  cases operation with
  | sum =>
      rw [ChainOperation.sign, one_mul, one_mul] at hbalance
      exact_mod_cast hbalance
  | difference =>
      rw [ChainOperation.sign] at hbalance
      linear_combination hbalance

/-- Consecutive addresses. -/
def addressesFrom (start : UInt16) (i : Nat) : UInt16 := start + .ofNat i

/-- The chain of two bytes whose result replaces the first operand. -/
def shortChain (operation : ChainOperation) : List Instruction :=
  operation.chain (addressesFrom 18) (addressesFrom 20) (addressesFrom 18) 2

/-- A machine at a chain of two bytes, with the operands 0x8001 and 0x80FF. Both bytes carry. -/
def atShortChain (operation : ChainOperation) : Machine :=
  let operands := [0x01, 0x80, 0xFF, 0x80, 0x00, 0x00]
  { blank ⟨24, 0, 22⟩ with
    memory := ⟨(Instruction.encodeAll (shortChain operation) ++ operands).toArray⟩ }

theorem run_chain_twice :
    (atShortChain .sum).ChainReady .sum (addressesFrom 18) (addressesFrom 20)
      (addressesFrom 18) 2 ∧
    (∃ m', (atShortChain .sum).run 6 = (m', .ok ⟨6, false⟩) ∧
      m'.number (addressesFrom 18) 2 + 256 ^ 2 * m'.registers.flags.carry.toNat =
        0x8001 + 0x80FF) ∧
    (atShortChain .difference).ChainReady .difference (addressesFrom 18) (addressesFrom 20)
      (addressesFrom 18) 2 ∧
    ∃ m', (atShortChain .difference).run 6 = (m', .ok ⟨6, false⟩) ∧
      (m'.number (addressesFrom 18) 2 : Int) - 256 ^ 2 * m'.registers.flags.carry.toNat =
        0x8001 - 0x80FF := by
  have hready : ∀ operation, (atShortChain operation).ChainReady operation (addressesFrom 18)
      (addressesFrom 20) (addressesFrom 18) 2 := by
    intro operation
    cases operation <;> constructor <;> decide
  exact ⟨hready .sum, run_chain (hready .sum), hready .difference,
    run_chain (hready .difference)⟩

end Machine
end Accumulator
