import Accumulator.Proofs.Instruction.Sequences
import Accumulator.Proofs.Machine.Fetching
import Accumulator.Proofs.Machine.Semantics

/-!
# Programs in memory

Where memory holds the bytes of an instruction at the program counter, a step executes this
instruction, provided that there is an address after it and that the data it names lies in memory.
What has been executed disturbs the rest of a program only by writing to its cells.
-/

namespace Accumulator.Machine

variable {m m' : Machine} {i : Instruction} {start : Nat} {bytes : List UInt8}

/-- The cells from an address on hold bytes. -/
def Holds (m : Machine) (start : Nat) (bytes : List UInt8) : Prop :=
  ∀ n < bytes.length, m.memory.at? (start + n) = bytes[n]?

instance : Decidable (m.Holds start bytes) :=
  inferInstanceAs (Decidable (∀ n < bytes.length, m.memory.at? (start + n) = bytes[n]?))

theorem holds_append {first second : List UInt8} :
    m.Holds start (first ++ second) ↔
      m.Holds start first ∧ m.Holds (start + first.length) second := by
  constructor
  · intro h
    constructor
    · intro n hn
      rw [h n (by rw [List.length_append]; omega), List.getElem?_append_left hn]
    · intro n hn
      rw [Nat.add_assoc, h (first.length + n) (by rw [List.length_append]; omega),
        List.getElem?_append_right (Nat.le_add_right _ _), Nat.add_sub_cancel_left]
  · rintro ⟨hfirst, hsecond⟩ n hn
    rw [List.length_append] at hn
    by_cases hlt : n < first.length
    · rw [hfirst n hlt, List.getElem?_append_left hlt]
    · obtain ⟨k, rfl⟩ := Nat.exists_eq_add_of_le (Nat.le_of_not_lt hlt)
      rw [← Nat.add_assoc, hsecond k (by omega),
        List.getElem?_append_right (Nat.le_add_right _ _), Nat.add_sub_cancel_left]

theorem Holds.kept (h : m.Holds start bytes)
    (hkept : ∀ cell, start ≤ cell → cell < start + bytes.length →
      m'.memory.at? cell = m.memory.at? cell) : m'.Holds start bytes := by
  intro n hn
  rw [hkept _ (Nat.le_add_right _ _) (Nat.add_lt_add_left hn start), h n hn]

theorem Holds.of_memory_eq (h : m.Holds start bytes) (hmemory : m'.memory = m.memory) :
    m'.Holds start bytes := by
  apply h.kept
  intro cell _ _
  rw [hmemory]

theorem Holds.take_upcoming (h : m.Holds m.registers.pc.toNat bytes) :
    m.upcoming.take bytes.length = bytes := by
  apply List.ext_getElem?
  intro n
  by_cases hn : n < bytes.length
  · rw [List.getElem?_take_of_lt hn, getElem?_upcoming, h n hn]
  · rw [List.getElem?_eq_none (Nat.le_of_not_lt hn), List.getElem?_take, if_neg hn]

theorem Holds.decode (h : m.Holds m.registers.pc.toNat i.encode)
    (hi : ∀ byte, i = .unknown byte → Opcode.ofCode? byte = none) :
    Instruction.decode m.upcoming = .ok (i, i.size) := by
  have hprefix := List.take_append_drop i.encode.length m.upcoming
  rw [h.take_upcoming] at hprefix
  rw [← hprefix]
  exact Instruction.decode_encode_append hi _

/-- An instruction that leaves the call stack alone has an effect if its data lies in memory. -/
theorem exists_effect_of_keep {moved : Registers} (hsp : moved.sp = m.registers.sp)
    (hmove : i.stackMove = .keep)
    (hdata : ∀ address, i.dataAddress? = some address → address < m.memory.size) :
    ∃ effect, m.effectOf moved i = .ok effect := by
  have hfollows := effectOf_follows hsp i
  cases haddress : i.dataAddress? with
  | none => simpa [executeCases, follows_cons, follows_nil, hmove, haddress] using hfollows
  | some address =>
      have hin := hdata address haddress
      simpa [executeCases, follows_cons, follows_nil, hmove, haddress, Nat.not_le.mpr hin]
        using hfollows

/-- An instruction that names no cell to write leaves the memory as it is. -/
theorem Executed.memory_eq (h : m.Executed m' i) (hwrites : m.writes i = []) :
    m'.memory = m.memory := by
  apply Memory.ext_at?
  intro cell
  rw [h.memory cell, hwrites, List.lookup_nil, Option.none_or]

/-- Execution goes on after an instruction that does not jump. -/
theorem Executed.pc_eq (h : m.Executed m' i) (hjump : i.jumpTarget? m.registers.flags = none)
    (hmove : i.stackMove ≠ .pop) : m'.registers.pc.toNat = m.registers.pc.toNat + i.size := by
  have hcontinuation : m.continuation? i = some (m.registers.pc.toNat + i.size) := by
    cases i with
    | ret => exact absurd rfl hmove
    | _ => simp only [continuation?, hjump]
  exact Option.some.inj (h.pc.symm.trans hcontinuation)

/-- An instruction that stands at the program counter is executed if it does not jump and its data
lies in memory, and execution goes on after it. -/
theorem exists_step_of_holds (h : m.Holds m.registers.pc.toNat i.encode)
    (hi : ∀ byte, i = .unknown byte → Opcode.ofCode? byte = none)
    (hroom : m.registers.pc.toNat + i.size < 0x10000) (hmove : i.stackMove = .keep)
    (hjump : i.jumpTarget? m.registers.flags = none)
    (hdata : ∀ address, i.dataAddress? = some address → address < m.memory.size) :
    ∃ m', m.step = (m', .ok i) ∧ m.Executed m' i ∧
      m'.registers.pc.toNat = m.registers.pc.toNat + i.size := by
  have hfetch := fetch_of_decode (h.decode hi) (Nat.le_of_lt hroom)
  have hadvance : m.advance i (m.registers.pc.toNat + i.size) =
      .ok (m.registers.jump (UInt16.ofNat (m.registers.pc.toNat + i.size))) :=
    advance_ok_iff.mpr (.inl ⟨hroom, rfl⟩)
  obtain ⟨effect, heffect⟩ := exists_effect_of_keep (advance_sp hadvance) hmove hdata
  have hstep : m.step = (m.commit i effect, .ok i) :=
    step_ok_iff.mpr ⟨effect, plan_ok_iff.mpr ⟨_, _, hfetch, hadvance, heffect⟩, rfl⟩
  have hexecuted := executed_of_step hstep
  have hkeep : i.stackMove ≠ .pop := by
    rw [hmove]
    exact StackMove.noConfusion
  exact ⟨_, hstep, hexecuted, hexecuted.pc_eq hjump hkeep⟩

theorem exists_step_of_data {address : Nat} (h : m.Holds m.registers.pc.toNat i.encode)
    (hdata : i.dataAddress? = some address) (hin : address < m.memory.size)
    (hroom : m.registers.pc.toNat + i.size < 0x10000) :
    ∃ m', m.step = (m', .ok i) ∧ m.Executed m' i ∧
      m'.registers.pc.toNat = m.registers.pc.toNat + i.size := by
  apply exists_step_of_holds h _ hroom
  · cases i <;> cases hdata <;> rfl
  · cases i <;> cases hdata <;> rfl
  · intro other hother
    rwa [← Option.some.inj (hdata.symm.trans hother)]
  · rintro byte rfl
    cases hdata

end Accumulator.Machine
