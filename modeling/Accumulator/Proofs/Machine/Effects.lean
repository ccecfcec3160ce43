import Accumulator.Proofs.Instruction.Coding
import Accumulator.Proofs.Machine.Stepping
import Accumulator.Proofs.Results

/-!
# What a step changes

A step that succeeds calls, returns, stores one byte, or leaves memory and the stack pointer alone.
For each of these the checks that it has passed and the changes that it has made are listed once.
-/

namespace Accumulator

/-- What an instruction does to the call stack. -/
inductive StackMove
  | push
  | pop
  | keep
  deriving DecidableEq, Repr

namespace Instruction

/-- A call pushes a frame and a return pops one. -/
def stackMove : Instruction → StackMove
  | call _ => .push
  | ret => .pop
  | _ => .keep

/-- The cell that an instruction stores the accumulator in. -/
def storeAddress? : Instruction → Option UInt16
  | storeZeroPage address => some address.toUInt16
  | store address => some address
  | _ => none

end Instruction

namespace Machine

/-- An instruction that is fetched has all its bytes in memory and ends behind them. -/
theorem exists_of_fetch_ok {m : Machine} {i : Instruction} {next : Nat}
    (h : m.fetch = .ok (i, next)) :
    ∃ lead low high, m.fetchByte m.registers.pc.toNat = .ok lead ∧
      m.fetchOperands (m.registers.pc.toNat + 1) (operandSize lead) = .ok (low, high) ∧
      i = .ofBytes lead low high ∧ next = m.registers.pc.toNat + 1 + operandSize lead := by
  rw [fetch] at h
  cases hlead : m.fetchByte m.registers.pc.toNat with
  | error kind => simp [hlead] at h
  | ok lead =>
      simp only [hlead] at h
      cases hoperands : m.fetchOperands (m.registers.pc.toNat + 1) (operandSize lead) with
      | error kind => simp [hoperands] at h
      | ok operands =>
          simp only [hoperands, Except.ok.injEq, Prod.mk.injEq] at h
          exact ⟨lead, operands.1, operands.2, rfl, hoperands, h.1.symm, h.2.symm⟩

theorem fetch_next {m : Machine} {i : Instruction} {next : Nat} (h : m.fetch = .ok (i, next)) :
    next = m.registers.pc.toNat + i.size := by
  obtain ⟨lead, low, high, _, _, rfl, rfl⟩ := exists_of_fetch_ok h
  rw [Instruction.size_ofBytes, Nat.add_assoc]

/-- How a machine differs from the one before it after a move of the call stack. Apart from the
frame that is pushed, only the given cells may have been written. Each move lists the checks that it
has passed. -/
inductive Changes (m m' : Machine) (cells : List Nat) : StackMove → Prop
  | push (next : m.registers.pc.toNat + 3 < 0x10000)
      (room : m.registers.sp.toNat + 2 ≤ m.memory.size)
      (layout : m'.layout = m.layout)
      (sp : m'.registers.sp.toNat = m.registers.sp.toNat + 2)
      (memory : m'.memory =
        (m.memory.put m.registers.sp.toNat (lowByte (m.registers.pc + 3))).put
          (m.registers.sp.toNat + 1) (highByte (m.registers.pc + 3))) :
      Changes m m' cells .push
  | pop (frame : m.layout.stackStart.toNat + 2 ≤ m.registers.sp.toNat)
      (pc : m.memory.readWord (m.registers.sp - 2) = .ok m'.registers.pc)
      (layout : m'.layout = m.layout)
      (sp : m'.registers.sp = m.registers.sp - 2) (memory : m'.memory = m.memory) :
      Changes m m' cells .pop
  | keep (layout : m'.layout = m.layout) (sp : m'.registers.sp = m.registers.sp)
      (memory : ∀ cell, cell ∉ cells → m'.memory.at? cell = m.memory.at? cell) :
      Changes m m' cells .keep

theorem Changes.refl (m : Machine) (cells : List Nat) : m.Changes m cells .keep :=
  .keep rfl rfl fun _ _ => rfl

theorem at?_put_of_ne {memory : Memory} {address cell : Nat} {value : UInt8}
    (h : cell ≠ address) : (memory.put address value).at? cell = memory.at? cell := by
  rw [Memory.at?_put, if_neg (fun hc => h hc.1.symm)]

theorem storeAll_nil (memory : Memory) : storeAll memory [] = memory := rfl

theorem storeEffect_ok {m : Machine} {registers : Registers} {address : UInt16}
    {effect : Effect} (h : m.storeEffect registers address = .ok effect) :
    address.toNat < m.memory.size ∧
      effect = { registers := registers, stores := [(address, registers.acc)] } := by
  rw [storeEffect] at h
  by_cases hin : address.toNat < m.memory.size
  · rw [if_pos hin, Except.ok.injEq] at h
    exact ⟨hin, h.symm⟩
  · simp [hin] at h

theorem callEffect_ok {m : Machine} {registers : Registers} {target : UInt16} {effect : Effect}
    (h : m.callEffect registers target = .ok effect) :
    registers.sp.toNat + 2 ≤ m.memory.size ∧ registers.sp.toNat + 2 < 0x10000 ∧
      effect =
        { registers := { registers with pc := target, sp := UInt16.ofNat (registers.sp.toNat + 2) }
          stores := [(registers.sp, lowByte registers.pc),
            (registers.sp + 1, highByte registers.pc)] } := by
  rw [callEffect] at h
  by_cases hfull : m.memory.size < registers.sp.toNat + Layout.frameSize ∨
      0xFFFF < registers.sp.toNat + Layout.frameSize
  · simp [hfull] at h
  · rw [if_neg hfull, Except.ok.injEq] at h
    obtain ⟨hroom, hlimit⟩ := not_or.mp hfull
    exact ⟨Nat.le_of_not_lt hroom, Nat.lt_succ_of_le (Nat.le_of_not_lt hlimit), h.symm⟩

theorem returnEffect_ok {m : Machine} {registers : Registers} {effect : Effect}
    (h : m.returnEffect registers = .ok effect) :
    m.layout.stackStart.toNat + 2 ≤ registers.sp.toNat ∧
      ∃ target, m.memory.readWord (registers.sp - 2) = .ok target ∧
        effect = { registers := { registers with pc := target, sp := registers.sp - 2 } } := by
  rw [returnEffect] at h
  by_cases hframe : registers.sp.toNat < m.layout.stackStart.toNat + Layout.frameSize
  · simp [hframe] at h
  · rw [if_neg hframe] at h
    refine ⟨Nat.le_of_not_lt hframe, ?_⟩
    cases hread : m.memory.readWord (registers.sp - 2) with
    | error e => simp [hread] at h
    | ok target =>
        simp only [hread, Except.ok.injEq] at h
        exact ⟨target, rfl, h.symm⟩

theorem exists_call_of_push {i : Instruction} (h : i.stackMove = .push) :
    ∃ target, i = .call target := by
  cases i with
  | call target => exact ⟨target, rfl⟩
  | _ => exact StackMove.noConfusion h

theorem eq_ret_of_pop {i : Instruction} (h : i.stackMove = .pop) : i = .ret := by
  cases i with
  | ret => rfl
  | _ => exact StackMove.noConfusion h

theorem effectOf_store {m : Machine} {registers : Registers} {i : Instruction} {address : UInt16}
    (h : i.storeAddress? = some address) :
    m.effectOf registers i = m.storeEffect registers address := by
  cases i with
  | storeZeroPage _ | store _ =>
      obtain rfl := Option.some.inj h
      rfl
  | _ => exact absurd h.symm (Option.some_ne_none address)

/-- The remaining instructions store nothing and leave the stack pointer alone. -/
theorem effectOf_other {m : Machine} {registers : Registers} {i : Instruction} {effect : Effect}
    (hmove : i.stackMove = .keep) (hstore : i.storeAddress? = none)
    (h : m.effectOf registers i = .ok effect) :
    effect.registers.sp = registers.sp ∧ effect.stores = [] := by
  cases i with
  | nop | halt | unknown _ | loadImmediate _ | addImmediate _ | subImmediate _ | jump _ =>
      obtain rfl := Except.ok.inj h
      exact ⟨rfl, rfl⟩
  | loadZeroPage address | load address | add address | sub address =>
      obtain ⟨v, _, rfl⟩ := exists_of_map_ok h
      exact ⟨rfl, rfl⟩
  | jumpIfZero address | jumpIfNegative address =>
      obtain rfl := Except.ok.inj h
      rw [jumpEffect]
      constructor
      · simp only []
        split <;> rfl
      · rfl
  | call _ | ret => exact StackMove.noConfusion hmove
  | storeZeroPage _ | store _ => exact absurd hstore (Option.some_ne_none _)

/-- A call goes on at the following address, so it is refused at the very end of the address
space. -/
theorem advance_call {m : Machine} {target : UInt16} {next : Nat} {moved : Registers}
    (h : m.advance (.call target) next = .ok moved) :
    next < 0x10000 ∧ moved = m.registers.jump (UInt16.ofNat next) := by
  obtain ⟨hnext, hmoved⟩ | ⟨_, hfalls, _⟩ := advance_ok_iff.mp h
  · exact ⟨hnext, hmoved⟩
  · have htrue : fallsThrough m.registers.flags (.call target) = true := rfl
    rw [htrue] at hfalls
    exact absurd hfalls (by decide)

theorem advance_sp {m : Machine} {i : Instruction} {next : Nat} {moved : Registers}
    (h : m.advance i next = .ok moved) : moved.sp = m.registers.sp := by
  obtain ⟨_, rfl⟩ | ⟨_, _, rfl⟩ := advance_ok_iff.mp h
  · rfl
  · rfl

/-- Every successful step makes the changes of its instruction. -/
theorem changes_of_step {m m' : Machine} {i : Instruction} (h : m.step = (m', .ok i)) :
    m.Changes m' (i.storeAddress?.toList.map UInt16.toNat) i.stackMove := by
  obtain ⟨effect, hplan, rfl⟩ := step_ok_iff.mp h
  obtain ⟨next, moved, hfetch, hadvance, heffect⟩ := plan_ok_iff.mp hplan
  have hsp := advance_sp hadvance
  cases hmove : i.stackMove with
  | push =>
      obtain ⟨target, rfl⟩ := exists_call_of_push hmove
      obtain ⟨hnext, rfl⟩ := advance_call hadvance
      obtain ⟨hroom, hlimit, rfl⟩ := callEffect_ok heffect
      have hfollowing : next = m.registers.pc.toNat + 3 := fetch_next hfetch
      rw [hfollowing] at hnext
      have hpc : UInt16.ofNat next = m.registers.pc + 3 := by
        rw [hfollowing, UInt16.ofNat_add, UInt16.ofNat_toNat]
        rfl
      have hsecond : (m.registers.sp + 1).toNat = m.registers.sp.toNat + 1 :=
        toNat_add_of_lt (b := 1) (Nat.lt_of_succ_lt hlimit)
      refine .push hnext hroom rfl (UInt16.toNat_ofNat_of_lt' hlimit) ?_
      simp only [commit, storeAll, List.foldl_cons, List.foldl_nil, Registers.jump, hsecond, hpc]
  | pop =>
      obtain rfl := eq_ret_of_pop hmove
      obtain ⟨hframe, target, hread, rfl⟩ := returnEffect_ok heffect
      rw [hsp] at hframe hread
      refine .pop hframe hread rfl ?_ rfl
      rw [← hsp]
      rfl
  | keep =>
      cases hstore : i.storeAddress? with
      | some address =>
          rw [effectOf_store hstore] at heffect
          obtain ⟨_, rfl⟩ := storeEffect_ok heffect
          constructor
          · rfl
          · exact hsp
          · intro cell hcell
            apply at?_put_of_ne
            rintro rfl
            exact hcell (List.mem_singleton_self _)
      | none =>
          obtain ⟨heffectSp, hstores⟩ := effectOf_other hmove hstore heffect
          constructor
          · rfl
          · exact heffectSp.trans hsp
          · intro cell _
            rw [commit, hstores, storeAll_nil]

end Machine
end Accumulator
