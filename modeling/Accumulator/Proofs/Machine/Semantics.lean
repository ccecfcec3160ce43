import Accumulator.Proofs.Machine.Faults

/-!
# What a step does

The changes that a successful step makes to every part of a machine are stated in numbers: the
accumulator and the carry of a sum or difference together are the exact result, a return address is
the exact address after its call, and the program counter and the stack pointer move without
wrapping around. All parts that an instruction does not name are kept.
-/

namespace Accumulator

/-- What an instruction does with the accumulator. -/
inductive AccumulatorUse
  | load
  | add
  | sub
  | keep
  deriving DecidableEq, Repr

namespace Instruction

/-- Three instructions load the accumulator, two add to it, and two subtract from it. -/
def accumulatorUse : Instruction → AccumulatorUse
  | loadZeroPage _ | loadImmediate _ | load _ => .load
  | add _ | addImmediate _ => .add
  | sub _ | subImmediate _ => .sub
  | _ => .keep

/-- Whether the opcode of an instruction recomputes the flags. -/
def affectsFlags (i : Instruction) : Bool := i.opcode?.any Opcode.affectsFlags

/-- Where an instruction jumps to, if it does. A return takes its target from memory. -/
def jumpTarget? (flags : Flags) : Instruction → Option UInt16
  | jump target | call target => some target
  | jumpIfZero target => if flags.zero then some target else none
  | jumpIfNegative target => if flags.negative then some target else none
  | _ => none

theorem affectsFlags_iff (i : Instruction) :
    i.affectsFlags = true ↔ i.accumulatorUse = .add ∨ i.accumulatorUse = .sub := by
  cases i <;> simp [affectsFlags, opcode?, Opcode.affectsFlags, accumulatorUse]

theorem affectsFlags_eq_false {i : Instruction}
    (h : i.accumulatorUse = .load ∨ i.accumulatorUse = .keep) : i.affectsFlags = false := by
  rw [← Bool.not_eq_true, affectsFlags_iff]
  obtain h | h := h <;> simp [h]

theorem fallsThrough_of_jumpTarget? {flags : Flags} {i : Instruction}
    (hjump : i.jumpTarget? flags = none) (hmove : i.stackMove ≠ .pop) :
    Machine.fallsThrough flags i = true := by
  cases i with
  | jump _ | call _ => exact absurd hjump (Option.some_ne_none _)
  | ret => exact absurd rfl hmove
  | jumpIfZero target =>
      have htaken : (if flags.zero then some target else none) = none := hjump
      have hzero : flags.zero = false := by simpa using htaken
      exact congrArg Bool.not hzero
  | jumpIfNegative target =>
      have htaken : (if flags.negative then some target else none) = none := hjump
      have hnegative : flags.negative = false := by simpa using htaken
      exact congrArg Bool.not hnegative
  | _ => rfl

end Instruction

namespace Machine

/-- The byte that an instruction loads, adds or subtracts. -/
def dataByte? (m : Machine) : Instruction → Option UInt8
  | .loadImmediate value | .addImmediate value | .subImmediate value => some value
  | i => i.dataAddress?.bind m.memory.at?

/-- The cells that an instruction writes, with their bytes. A call writes the address after it, the
low byte first. -/
def writes (m : Machine) : Instruction → List (Nat × UInt8)
  | .storeZeroPage address => [(address.toNat, m.registers.acc)]
  | .store address => [(address.toNat, m.registers.acc)]
  | .call _ =>
      let following := m.registers.pc.toNat + 3
      [(m.registers.sp.toNat, .ofNat (following % 256)),
        (m.registers.sp.toNat + 1, .ofNat (following / 256))]
  | _ => []

/-- The address where execution goes on after an instruction. A return needs the frame below the
stack pointer. -/
def continuation? (m : Machine) : Instruction → Option Nat
  | .ret =>
      (m.memory.at? (m.registers.sp.toNat - 2)).bind fun low =>
        (m.memory.at? (m.registers.sp.toNat - 1)).map fun high => low.toNat + 256 * high.toNat
  | i =>
      match i.jumpTarget? m.registers.flags with
      | some target => some target.toNat
      | none => some (m.registers.pc.toNat + i.size)

/-- What executing an instruction makes of a machine. The parts of the machine afterwards are all
given by the machine before. -/
structure Executed (m m' : Machine) (i : Instruction) : Prop where
  /-- The instruction is the one at the program counter. -/
  decoded : i = m.currentInstruction
  flags_kept : i.affectsFlags = false → m'.registers.flags = m.registers.flags
  flags_result : i.affectsFlags = true →
    (m'.registers.flags.zero = true ↔ m'.registers.acc.toNat = 0) ∧
      (m'.registers.flags.negative = true ↔ 128 ≤ m'.registers.acc.toNat)
  /-- The accumulator and the carry make up the exact sum. -/
  sum : i.accumulatorUse = .add → ∃ x, m.dataByte? i = some x ∧
    m'.registers.acc.toNat + 256 * m'.registers.flags.carry.toNat =
      m.registers.acc.toNat + x.toNat + m.registers.flags.carry.toNat
  /-- The accumulator less the borrow is the exact difference. -/
  difference : i.accumulatorUse = .sub → ∃ x, m.dataByte? i = some x ∧
    (m'.registers.acc.toNat : Int) - 256 * m'.registers.flags.carry.toNat =
      m.registers.acc.toNat - x.toNat - m.registers.flags.carry.toNat
  loaded : i.accumulatorUse = .load → m.dataByte? i = some m'.registers.acc
  acc_kept : i.accumulatorUse = .keep → m'.registers.acc = m.registers.acc
  /-- The written cells hold their bytes, and all others what they held before. -/
  memory : ∀ cell, m'.memory.at? cell = ((m.writes i).lookup cell).or (m.memory.at? cell)
  /-- There is an address after a call, so that the written one is exact. -/
  return_address : i.stackMove = .push → m.registers.pc.toNat + 3 < 0x10000
  pushed : i.stackMove = .push → m'.registers.sp.toNat = m.registers.sp.toNat + 2
  popped : i.stackMove = .pop → m'.registers.sp.toNat + 2 = m.registers.sp.toNat
  sp_kept : i.stackMove = .keep → m'.registers.sp = m.registers.sp
  pc : m.continuation? i = some m'.registers.pc.toNat
  counts : m.Counts 1 m'
  layout : m'.layout = m.layout
  last : m'.lastInstruction = some i

variable {m m' m'' : Machine} {registers moved : Registers} {i : Instruction} {effect : Effect}

/-! ## Accumulator and flags -/

theorem at?_of_readData {address : UInt16} {value : UInt8} (h : m.readData address = .ok value) :
    m.memory.at? address.toNat = some value := by
  rw [readData, Memory.read] at h
  cases hat : m.memory.at? address.toNat with
  | none => simp [hat, Except.mapError] at h
  | some other => simpa [hat, Except.mapError] using h

/-- The accumulator and the flags after an instruction come from the byte it works with, and the
program counter from its jump. -/
theorem registers_of_effectOf (h : m.effectOf registers i = .ok effect) :
    (match i.accumulatorUse with
      | .load =>
          m.dataByte? i = some effect.registers.acc ∧ effect.registers.flags = registers.flags
      | .add => ∃ x, m.dataByte? i = some x ∧ effect.registers = addResult registers x
      | .sub => ∃ x, m.dataByte? i = some x ∧ effect.registers = subResult registers x
      | .keep => effect.registers.acc = registers.acc ∧ effect.registers.flags = registers.flags) ∧
    (i.stackMove ≠ .pop →
      effect.registers.pc = (i.jumpTarget? registers.flags).getD registers.pc) := by
  cases i with
  | nop | halt | unknown _ | loadImmediate _ | jump _ =>
      obtain rfl := Except.ok.inj h
      exact ⟨⟨rfl, rfl⟩, fun _ => rfl⟩
  | jumpIfZero _ | jumpIfNegative _ =>
      obtain rfl := Except.ok.inj h
      simp only [Instruction.accumulatorUse, Instruction.jumpTarget?, jumpEffect]
      split <;> exact ⟨⟨rfl, rfl⟩, fun _ => rfl⟩
  | addImmediate value | subImmediate value =>
      obtain rfl := Except.ok.inj h
      exact ⟨⟨value, rfl, rfl⟩, fun _ => rfl⟩
  | loadZeroPage _ | load _ =>
      obtain ⟨value, hread, rfl⟩ := exists_of_map_ok h
      exact ⟨⟨at?_of_readData hread, rfl⟩, fun _ => rfl⟩
  | add _ | sub _ =>
      obtain ⟨value, hread, rfl⟩ := exists_of_map_ok h
      exact ⟨⟨value, at?_of_readData hread, rfl⟩, fun _ => rfl⟩
  | storeZeroPage _ | store _ =>
      obtain ⟨_, rfl⟩ := storeEffect_ok h
      exact ⟨⟨rfl, rfl⟩, fun _ => rfl⟩
  | call _ =>
      obtain ⟨_, _, rfl⟩ := callEffect_ok h
      exact ⟨⟨rfl, rfl⟩, fun _ => rfl⟩
  | ret =>
      obtain ⟨_, _, _, rfl⟩ := returnEffect_ok h
      exact ⟨⟨rfl, rfl⟩, fun hmove => absurd rfl hmove⟩

theorem zero_setResult (value : UInt8) (carry : Bool) :
    (registers.setResult value carry).flags.zero = true ↔ value.toNat = 0 := by
  rw [Registers.setResult, Flags.ofResult, beq_iff_eq, ← UInt8.toNat_inj]
  rfl

theorem negative_setResult (value : UInt8) (carry : Bool) :
    (registers.setResult value carry).flags.negative = true ↔ 128 ≤ value.toNat := by
  rw [Registers.setResult, Flags.ofResult, decide_eq_true_eq, UInt8.le_iff_toNat_le]
  rfl

theorem addResult_exact (registers : Registers) (x : UInt8) :
    (addResult registers x).acc.toNat + 256 * (addResult registers x).flags.carry.toNat =
      registers.acc.toNat + x.toNat + registers.flags.carry.toNat :=
  Arithmetic.add_exact registers.acc x registers.flags.carry

theorem subResult_exact (registers : Registers) (x : UInt8) :
    ((subResult registers x).acc.toNat : Int) - 256 * (subResult registers x).flags.carry.toNat =
      registers.acc.toNat - x.toNat - registers.flags.carry.toNat := by
  have hexact : (subResult registers x).acc.toNat + x.toNat + registers.flags.carry.toNat =
      registers.acc.toNat + 256 * (subResult registers x).flags.carry.toNat :=
    Arithmetic.sub_exact registers.acc x registers.flags.carry
  omega

/-- Moving past an instruction changes the program counter only. -/
theorem advance_kept {next : Nat} (h : m.advance i next = .ok moved) :
    moved.acc = m.registers.acc ∧ moved.flags = m.registers.flags := by
  obtain ⟨_, rfl⟩ | ⟨_, _, rfl⟩ := advance_ok_iff.mp h
  · exact ⟨rfl, rfl⟩
  · exact ⟨rfl, rfl⟩

theorem toNat_pc_of_advance {next : Nat} (h : m.advance i next = .ok moved)
    (hfalls : fallsThrough m.registers.flags i = true) : moved.pc.toNat = next := by
  obtain ⟨hnext, rfl⟩ | ⟨_, hleaves, _⟩ := advance_ok_iff.mp h
  · exact UInt16.toNat_ofNat_of_lt' hnext
  · exact absurd (hfalls.symm.trans hleaves) (by decide)

/-! ## The instruction -/

theorem byteAt_of_fetchByte {address : Nat} {byte : UInt8} (h : m.fetchByte address = .ok byte) :
    m.byteAt address = byte := by
  by_cases hlimit : address < 0x10000
  · cases hat : m.memory.at? address with
    | none => simp [fetchByte, hlimit, hat] at h
    | some other => simpa [fetchByte, byteAt, hlimit, hat] using h
  · simp [fetchByte, hlimit] at h

theorem operands_of_fetchOperands {start n : Nat} {low high : UInt8} (hn : n ≤ 2)
    (h : m.fetchOperands start n = .ok (low, high)) :
    low = (if 0 < n then m.byteAt start else 0) ∧
      high = (if 1 < n then m.byteAt (start + 1) else 0) := by
  match n, hn with
  | 0, _ =>
      obtain ⟨rfl, rfl⟩ := Prod.mk.inj (Except.ok.inj h)
      exact ⟨rfl, rfl⟩
  | 1, _ =>
      rw [fetchOperands] at h
      cases hlow : m.fetchByte start with
      | error kind => simp [hlow] at h
      | ok byte =>
          simp only [hlow, Except.ok.injEq, Prod.mk.injEq] at h
          obtain ⟨rfl, rfl⟩ := h
          exact ⟨(byteAt_of_fetchByte hlow).symm, rfl⟩
  | 2, _ =>
      simp only [fetchOperands] at h
      cases hlow : m.fetchByte start with
      | error kind => simp [hlow] at h
      | ok first =>
          cases hhigh : m.fetchByte (start + 1) with
          | error kind => simp [hlow, hhigh] at h
          | ok second =>
              simp only [hlow, hhigh, Except.ok.injEq, Prod.mk.injEq] at h
              obtain ⟨rfl, rfl⟩ := h
              exact ⟨(byteAt_of_fetchByte hlow).symm, (byteAt_of_fetchByte hhigh).symm⟩

/-- What is executed is the instruction that stands at the program counter. -/
theorem eq_currentInstruction_of_fetch {next : Nat} (h : m.fetch = .ok (i, next)) :
    i = m.currentInstruction := by
  obtain ⟨lead, low, high, hlead, hoperands, rfl, _⟩ := exists_of_fetch_ok h
  obtain ⟨rfl, rfl⟩ := operands_of_fetchOperands (Instruction.operandSize_le_two _) hoperands
  rw [currentInstruction, byteAt_of_fetchByte hlead]
  exact Instruction.ofBytes_of_size rfl _ _

/-! ## Memory -/

theorem lookup_cons_or {α : Type} (address : Nat) (value : α) (rest : List (Nat × α)) (cell : Nat)
    (kept : Option α) :
    (((address, value) :: rest).lookup cell).or kept =
      if cell = address then some value else (rest.lookup cell).or kept := by
  rw [List.lookup_cons]
  by_cases hcell : cell = address
  · rw [if_pos hcell, beq_iff_eq.mpr hcell, Option.some_or]
  · rw [if_neg hcell, beq_eq_false_iff_ne.mpr hcell]

/-- Apart from calls, an instruction writes only the cell that it stores the accumulator in. -/
theorem writes_of_keep (h : i.stackMove = .keep) :
    m.writes i = i.storeAddress?.toList.map fun address => (address.toNat, m.registers.acc) := by
  cases i with
  | call _ | ret => exact StackMove.noConfusion h
  | _ => rfl

/-- A step that stores the accumulator changes that one cell. -/
theorem at?_of_store {address : UInt16} (h : m.step = (m', .ok i))
    (hstore : i.storeAddress? = some address) (cell : Nat) :
    m'.memory.at? cell =
      if cell = address.toNat then some m.registers.acc else m.memory.at? cell := by
  obtain ⟨effect, hplan, rfl⟩ := step_ok_iff.mp h
  obtain ⟨next, moved, _, hadvance, heffect⟩ := plan_ok_iff.mp hplan
  rw [effectOf_store hstore] at heffect
  obtain ⟨hin, rfl⟩ := storeEffect_ok heffect
  have hacc := (advance_kept hadvance).1
  have hput : (storeAll m.memory [(address, moved.acc)]).at? cell =
      (m.memory.put address.toNat moved.acc).at? cell := rfl
  rw [commit, hput, Memory.at?_put, hacc]
  simp only [hin, and_true, eq_comm]

theorem halves_of_following {pc : UInt16} (h : pc.toNat + 3 < 0x10000) :
    lowByte (pc + 3) = .ofNat ((pc.toNat + 3) % 256) ∧
      highByte (pc + 3) = .ofNat ((pc.toNat + 3) / 256) := by
  have hsum : (pc + 3).toNat = pc.toNat + 3 := toNat_add_of_lt (b := 3) h
  constructor
  · apply UInt8.toNat_inj.mp
    rw [lowByte, UInt16.toNat_toUInt8, hsum, UInt8.toNat_ofNat_of_lt' (Nat.mod_lt _ (by decide))]
  · apply UInt8.toNat_inj.mp
    rw [highByte, UInt16.toNat_toUInt8, UInt16.toNat_div, hsum]
    simp

/-- A step writes the cells of its instruction and no others. -/
theorem memory_of_step (h : m.step = (m', .ok i)) (cell : Nat) :
    m'.memory.at? cell = ((m.writes i).lookup cell).or (m.memory.at? cell) := by
  have hchanges := changes_of_step h
  cases hmove : i.stackMove with
  | push =>
      obtain ⟨target, rfl⟩ := exists_call_of_push hmove
      cases hchanges with
      | push next room layout sp memory =>
          obtain ⟨hlow, hhigh⟩ := halves_of_following next
          have hfirst : m.registers.sp.toNat < m.memory.size := Nat.lt_of_succ_lt room
          have hsecond : m.registers.sp.toNat + 1 < m.memory.size := room
          have hwrites : m.writes (.call target) =
              [(m.registers.sp.toNat, lowByte (m.registers.pc + 3)),
                (m.registers.sp.toNat + 1, highByte (m.registers.pc + 3))] := by
            rw [hlow, hhigh]
            rfl
          rw [hwrites, lookup_cons_or, lookup_cons_or, List.lookup_nil, Option.none_or, memory]
          by_cases hcell : cell = m.registers.sp.toNat
          · subst hcell
            rw [if_pos rfl, at?_put_of_ne (Nat.ne_of_lt (Nat.lt_succ_self _)), Memory.at?_put,
              if_pos ⟨rfl, hfirst⟩]
          · rw [if_neg hcell]
            by_cases hnext : cell = m.registers.sp.toNat + 1
            · subst hnext
              rw [if_pos rfl, Memory.at?_put, if_pos ⟨rfl, (Memory.size_put ..).symm ▸ hsecond⟩]
            · rw [if_neg hnext, at?_put_of_ne hnext, at?_put_of_ne hcell]
  | pop =>
      obtain rfl := eq_ret_of_pop hmove
      cases hchanges with
      | pop frame pc layout sp memory =>
          have hwrites : m.writes .ret = [] := rfl
          rw [memory, hwrites, List.lookup_nil, Option.none_or]
  | keep =>
      rw [writes_of_keep hmove]
      cases hstore : i.storeAddress? with
      | some address =>
          rw [at?_of_store h hstore, Option.toList_some, List.map_singleton, lookup_cons_or,
            List.lookup_nil, Option.none_or]
      | none =>
          rw [hmove, hstore] at hchanges
          cases hchanges with
          | keep layout sp memory =>
              exact memory cell (List.not_mem_nil)

/-! ## Program counter -/

theorem at?_of_readWord {memory : Memory} {address word : UInt16}
    (h : memory.readWord address = .ok word) :
    memory.at? address.toNat = some (lowByte word) ∧
      memory.at? (address.toNat + 1) = some (highByte word) := by
  rw [Memory.readWord] at h
  cases hlow : memory.at? address.toNat with
  | none => simp [hlow] at h
  | some low =>
      by_cases hlimit : address.toNat + 1 < 0x10000
      · cases hhigh : memory.at? (address.toNat + 1) with
        | none => simp [hlow, hhigh, hlimit] at h
        | some high =>
            simp only [hlow, hhigh, hlimit, if_true, Except.ok.injEq] at h
            rw [← h, lowByte_joinBytes, highByte_joinBytes]
            exact ⟨rfl, rfl⟩
      · simp [hlow, hlimit] at h

theorem continuation?_of_ne_pop (h : i.stackMove ≠ .pop) :
    m.continuation? i =
      some (((i.jumpTarget? m.registers.flags).map UInt16.toNat).getD
        (m.registers.pc.toNat + i.size)) := by
  have hcases : m.continuation? i =
      match i.jumpTarget? m.registers.flags with
      | some target => some target.toNat
      | none => some (m.registers.pc.toNat + i.size) := by
    cases i with
    | ret => exact absurd rfl h
    | _ => rfl
  rw [hcases]
  cases i.jumpTarget? m.registers.flags <;> rfl

/-- Execution goes on at the address that the instruction says. -/
theorem continuation_of_step (h : m.step = (m', .ok i)) :
    m.continuation? i = some m'.registers.pc.toNat := by
  by_cases hmove : i.stackMove = .pop
  · obtain rfl := eq_ret_of_pop hmove
    cases changes_of_step h with
    | pop frame pc layout sp memory =>
        obtain ⟨hlow, hhigh⟩ := at?_of_readWord pc
        have hsecond : m.registers.sp.toNat - 2 + 1 = m.registers.sp.toNat - 1 := by omega
        rw [toNat_sub_two frame] at hlow hhigh
        rw [hsecond] at hhigh
        rw [continuation?, hlow, Option.bind_some, hhigh, Option.map_some, ← joinBytes_toNat,
          joinBytes_lowByte_highByte]
  · obtain ⟨effect, hplan, rfl⟩ := step_ok_iff.mp h
    obtain ⟨next, moved, hfetch, hadvance, heffect⟩ := plan_ok_iff.mp hplan
    have hpc := (registers_of_effectOf heffect).2 hmove
    rw [(advance_kept hadvance).2] at hpc
    rw [continuation?_of_ne_pop hmove, commit, hpc]
    cases hjump : i.jumpTarget? m.registers.flags with
    | some target => rfl
    | none =>
        have hfalls := Instruction.fallsThrough_of_jumpTarget? hjump hmove
        rw [Option.map_none, Option.getD_none, Option.getD_none,
          toNat_pc_of_advance hadvance hfalls, fetch_next hfetch]

/-! ## The step -/

/-- The accumulator and the flags after a step are computed from those before it. -/
theorem registers_of_step (h : m.step = (m', .ok i)) :
    match i.accumulatorUse with
    | .load =>
        m.dataByte? i = some m'.registers.acc ∧ m'.registers.flags = m.registers.flags
    | .add => ∃ x, m.dataByte? i = some x ∧
        m'.registers.acc = (addResult m.registers x).acc ∧
        m'.registers.flags = (addResult m.registers x).flags
    | .sub => ∃ x, m.dataByte? i = some x ∧
        m'.registers.acc = (subResult m.registers x).acc ∧
        m'.registers.flags = (subResult m.registers x).flags
    | .keep => m'.registers.acc = m.registers.acc ∧ m'.registers.flags = m.registers.flags := by
  obtain ⟨effect, hplan, rfl⟩ := step_ok_iff.mp h
  obtain ⟨next, moved, _, hadvance, heffect⟩ := plan_ok_iff.mp hplan
  obtain ⟨hacc, hflags⟩ := advance_kept hadvance
  have hresult := (registers_of_effectOf heffect).1
  cases huse : i.accumulatorUse with
  | load =>
      rw [huse] at hresult
      exact ⟨hresult.1, hresult.2.trans hflags⟩
  | keep =>
      rw [huse] at hresult
      exact ⟨hresult.1.trans hacc, hresult.2.trans hflags⟩
  | add =>
      rw [huse] at hresult
      obtain ⟨x, hdata, hregisters⟩ := hresult
      refine ⟨x, hdata, ?_⟩
      simp only [commit, hregisters, addResult, Registers.setResult, hacc, hflags, and_self]
  | sub =>
      rw [huse] at hresult
      obtain ⟨x, hdata, hregisters⟩ := hresult
      refine ⟨x, hdata, ?_⟩
      simp only [commit, hregisters, subResult, Registers.setResult, hacc, hflags, and_self]

theorem flags_kept_of_step (h : m.step = (m', .ok i)) (hkept : i.affectsFlags = false) :
    m'.registers.flags = m.registers.flags := by
  have hregisters := registers_of_step h
  cases huse : i.accumulatorUse with
  | load | keep =>
      rw [huse] at hregisters
      exact hregisters.2
  | add => exact absurd (i.affectsFlags_iff.mpr (.inl huse)) (Bool.eq_false_iff.mp hkept)
  | sub => exact absurd (i.affectsFlags_iff.mpr (.inr huse)) (Bool.eq_false_iff.mp hkept)

theorem flags_result_of_step (h : m.step = (m', .ok i)) (haffects : i.affectsFlags = true) :
    (m'.registers.flags.zero = true ↔ m'.registers.acc.toNat = 0) ∧
      (m'.registers.flags.negative = true ↔ 128 ≤ m'.registers.acc.toNat) := by
  have hregisters := registers_of_step h
  obtain huse | huse := i.affectsFlags_iff.mp haffects
  all_goals
    rw [huse] at hregisters
    obtain ⟨x, _, hacc, hflags⟩ := hregisters
    rw [hacc, hflags]
    exact ⟨zero_setResult _ _, negative_setResult _ _⟩

theorem executed_of_step (h : m.step = (m', .ok i)) : m.Executed m' i where
  decoded := by
    obtain ⟨_, hplan, _⟩ := step_ok_iff.mp h
    obtain ⟨_, _, hfetch, _⟩ := plan_ok_iff.mp hplan
    exact eq_currentInstruction_of_fetch hfetch
  flags_kept := flags_kept_of_step h
  flags_result := flags_result_of_step h
  sum huse := by
    have hregisters := registers_of_step h
    rw [huse] at hregisters
    obtain ⟨x, hdata, hacc, hflags⟩ := hregisters
    rw [hacc, hflags]
    exact ⟨x, hdata, addResult_exact m.registers x⟩
  difference huse := by
    have hregisters := registers_of_step h
    rw [huse] at hregisters
    obtain ⟨x, hdata, hacc, hflags⟩ := hregisters
    rw [hacc, hflags]
    exact ⟨x, hdata, subResult_exact m.registers x⟩
  loaded huse := by
    have hregisters := registers_of_step h
    rw [huse] at hregisters
    exact hregisters.1
  acc_kept huse := by
    have hregisters := registers_of_step h
    rw [huse] at hregisters
    exact hregisters.1
  memory := memory_of_step h
  return_address hmove := by
    have hchanges := changes_of_step h
    rw [hmove] at hchanges
    cases hchanges with
    | push next room layout sp memory => exact next
  pushed hmove := by
    have hchanges := changes_of_step h
    rw [hmove] at hchanges
    cases hchanges with
    | push next room layout sp memory => exact sp
  popped hmove := by
    have hchanges := changes_of_step h
    rw [hmove] at hchanges
    cases hchanges with
    | pop frame pc layout sp memory =>
        rw [sp, toNat_sub_two frame]
        exact Nat.sub_add_cancel (Nat.le_trans (Nat.le_add_left _ _) frame)
  sp_kept hmove := by
    have hchanges := changes_of_step h
    rw [hmove] at hchanges
    cases hchanges with
    | keep layout sp memory => exact sp
  pc := continuation_of_step h
  counts := counts_step h
  layout := by
    obtain ⟨_, _, rfl⟩ := step_ok_iff.mp h
    rfl
  last := step_lastInstruction h

/-! ## Uniqueness -/

theorem eq_of_carried {a b : UInt8} {c d : Bool}
    (h : a.toNat + 256 * c.toNat = b.toNat + 256 * d.toNat) : a = b ∧ c = d := by
  have ha := a.toNat_lt
  have hb := b.toNat_lt
  cases c <;> cases d <;> simp only [Bool.toNat_true, Bool.toNat_false] at h
  · exact ⟨UInt8.toNat_inj.mp h, rfl⟩
  · omega
  · omega
  · exact ⟨UInt8.toNat_inj.mp (Nat.add_right_cancel h), rfl⟩

/-- Exact results leave no choice of the accumulator and the carry. -/
theorem Executed.acc_carry (h : m.Executed m' i) (h' : m.Executed m'' i) :
    m'.registers.acc = m''.registers.acc ∧
    m'.registers.flags.carry = m''.registers.flags.carry := by
  cases huse : i.accumulatorUse with
  | load =>
      have hplain : i.affectsFlags = false := i.affectsFlags_eq_false (.inl huse)
      rw [h.flags_kept hplain, h'.flags_kept hplain]
      exact ⟨Option.some.inj ((h.loaded huse).symm.trans (h'.loaded huse)), rfl⟩
  | keep =>
      have hplain : i.affectsFlags = false := i.affectsFlags_eq_false (.inr huse)
      rw [h.flags_kept hplain, h'.flags_kept hplain, h.acc_kept huse, h'.acc_kept huse]
      exact ⟨rfl, rfl⟩
  | add =>
      obtain ⟨x, hx, hsum⟩ := h.sum huse
      obtain ⟨y, hy, hsum'⟩ := h'.sum huse
      obtain rfl := Option.some.inj (hx.symm.trans hy)
      exact eq_of_carried (hsum.trans hsum'.symm)
  | sub =>
      obtain ⟨x, hx, hdifference⟩ := h.difference huse
      obtain ⟨y, hy, hdifference'⟩ := h'.difference huse
      obtain rfl := Option.some.inj (hx.symm.trans hy)
      obtain ⟨hacc, hborrow⟩ := eq_of_carried (a := m'.registers.acc) (b := m''.registers.acc)
        (c := m''.registers.flags.carry) (d := m'.registers.flags.carry) (by omega)
      exact ⟨hacc, hborrow.symm⟩

theorem Executed.flags_eq (h : m.Executed m' i) (h' : m.Executed m'' i) :
    m'.registers.flags = m''.registers.flags := by
  obtain ⟨hacc, hcarry⟩ := h.acc_carry h'
  cases haffects : i.affectsFlags with
  | false => rw [h.flags_kept haffects, h'.flags_kept haffects]
  | true =>
      obtain ⟨hzero, hnegative⟩ := h.flags_result haffects
      obtain ⟨hzero', hnegative'⟩ := h'.flags_result haffects
      rw [← hacc] at hzero' hnegative'
      exact Flags.ext hcarry (Bool.eq_iff_iff.mpr (hzero.trans hzero'.symm))
        (Bool.eq_iff_iff.mpr (hnegative.trans hnegative'.symm))

theorem Executed.sp_eq (h : m.Executed m' i) (h' : m.Executed m'' i) :
    m'.registers.sp = m''.registers.sp := by
  cases hmove : i.stackMove with
  | push => exact UInt16.toNat_inj.mp ((h.pushed hmove).trans (h'.pushed hmove).symm)
  | pop =>
      have hsum := (h.popped hmove).trans (h'.popped hmove).symm
      exact UInt16.toNat_inj.mp (Nat.add_right_cancel hsum)
  | keep => rw [h.sp_kept hmove, h'.sp_kept hmove]

/-- There is only one machine that executing an instruction can make of a machine. -/
theorem Executed.unique (h : m.Executed m' i) (h' : m.Executed m'' i) : m' = m'' := by
  have hpc : m'.registers.pc = m''.registers.pc :=
    UInt16.toNat_inj.mp (Option.some.inj (h.pc.symm.trans h'.pc))
  have hregisters : m'.registers = m''.registers :=
    Registers.ext hpc (h.acc_carry h').1 (h.sp_eq h') (h.flags_eq h')
  have hmemory : m'.memory = m''.memory :=
    Memory.ext_at? fun cell => (h.memory cell).trans (h'.memory cell).symm
  exact Machine.ext hregisters hmemory (h.layout.trans h'.layout.symm)
    (h.counts.counter.trans h'.counts.counter.symm) (h.last.trans h'.last.symm)

end Machine
end Accumulator
