import Accumulator.Proofs.Machine.Faults

/-!
# Fetching is decoding

A machine fetches its next instruction byte by byte from memory, where the decoder reads a byte
sequence that it is given. Both look at no more than three bytes. On the bytes from the program
counter to the end of memory they come to the same instruction, and they fail on the same machines.
-/

namespace Accumulator.Machine

variable {m : Machine} {i : Instruction}

/-- The bytes from the program counter to the end of memory. -/
def upcoming (m : Machine) : List UInt8 := m.memory.cells.toList.drop m.registers.pc.toNat

theorem length_upcoming (m : Machine) :
    m.upcoming.length = m.memory.size - m.registers.pc.toNat := by
  rw [upcoming, List.length_drop, Array.length_toList, Memory.size]

theorem getElem?_upcoming (m : Machine) (k : Nat) :
    m.upcoming[k]? = m.memory.at? (m.registers.pc.toNat + k) := by
  rw [upcoming, List.getElem?_drop, Array.getElem?_toList, Memory.at?]

/-- Decoding the bytes from the program counter on gives the current instruction, unless it begins
or ends outside memory. -/
theorem decode_upcoming (m : Machine) :
    Instruction.decode m.upcoming =
      if m.memory.size ≤ m.registers.pc.toNat then .error .empty
      else if m.memory.size < m.registers.pc.toNat + m.currentInstruction.size then
        .error (.truncated (m.byteAt m.registers.pc.toNat)
          (operandSize (m.byteAt m.registers.pc.toNat))
          (m.memory.size - m.registers.pc.toNat - 1))
      else .ok (m.currentInstruction, m.currentInstruction.size) := by
  have hlength := m.length_upcoming
  cases hbytes : m.upcoming with
  | nil =>
      rw [hbytes, List.length_nil] at hlength
      rw [if_pos (by omega)]
      rfl
  | cons lead rest =>
      rw [hbytes, List.length_cons] at hlength
      have hbyte : ∀ k, (lead :: rest)[k]?.getD 0 = m.byteAt (m.registers.pc.toNat + k) := by
        intro k
        rw [← hbytes, getElem?_upcoming, byteAt]
      have hlead : lead = m.byteAt m.registers.pc.toNat := hbyte 0
      have hlow : rest[0]?.getD 0 = m.byteAt (m.registers.pc.toNat + 1) := hbyte 1
      have hhigh : rest[1]?.getD 0 = m.byteAt (m.registers.pc.toNat + 2) := hbyte 2
      have hsize : m.currentInstruction.size = 1 + operandSize lead := by
        rw [currentInstruction, ← hlead, Instruction.size_ofBytes]
      have hrest : rest.length = m.memory.size - m.registers.pc.toNat - 1 := by omega
      rw [if_neg (by omega), Instruction.decode_cons, hlow, hhigh, hrest, hsize, currentInstruction,
        ← hlead]
      by_cases hcut : rest.length < operandSize lead
      · rw [if_pos (by omega), if_pos (by omega)]
      · rw [if_neg (by omega), if_neg (by omega)]

theorem fetchByte_of_lt {address : Nat} (h : address < m.memory.size) (hlimit : address < 0x10000) :
    m.fetchByte address = .ok (m.byteAt address) := by
  simp only [fetchByte, hlimit, if_true, at?_eq_byteAt h]

theorem fetchOperands_of_le {start n : Nat} (hn : n ≤ 2) (h : start + n ≤ m.memory.size)
    (hlimit : start + n ≤ 0x10000) :
    m.fetchOperands start n =
      .ok (if 0 < n then m.byteAt start else 0, if 1 < n then m.byteAt (start + 1) else 0) := by
  match n, hn with
  | 0, _ => rfl
  | 1, _ =>
      simp only [fetchOperands, fetchByte_of_lt (Nat.lt_of_succ_le h) (Nat.lt_of_succ_le hlimit)]
      rfl
  | 2, _ =>
      have hlow : m.fetchByte start = .ok (m.byteAt start) :=
        fetchByte_of_lt (by omega) (by omega)
      simp only [fetchOperands, hlow,
        fetchByte_of_lt (Nat.lt_of_succ_le h) (Nat.lt_of_succ_le hlimit)]
      rfl

/-- What the bytes from the program counter on decode to is fetched, if it ends at an address that
the machine has, however long the memory is. -/
theorem fetch_of_decode {used : Nat} (h : Instruction.decode m.upcoming = .ok (i, used))
    (hroom : m.registers.pc.toNat + used ≤ 0x10000) :
    m.fetch = .ok (i, m.registers.pc.toNat + used) := by
  rw [decode_upcoming] at h
  by_cases hbegin : m.memory.size ≤ m.registers.pc.toNat
  · rw [if_pos hbegin] at h
    cases h
  · rw [if_neg hbegin] at h
    by_cases hend : m.memory.size < m.registers.pc.toNat + m.currentInstruction.size
    · rw [if_pos hend] at h
      cases h
    · rw [if_neg hend] at h
      obtain ⟨rfl, rfl⟩ := Prod.mk.inj (Except.ok.inj h)
      have hlead : m.currentInstruction.size =
          1 + operandSize (m.byteAt m.registers.pc.toNat) := Instruction.size_ofBytes _ _ _
      rw [hlead] at hend hroom
      have hend' : m.registers.pc.toNat + 1 + operandSize (m.byteAt m.registers.pc.toNat) ≤
          m.memory.size := by
        omega
      have hoperands := fetchOperands_of_le
        (Instruction.operandSize_le_two (m.byteAt m.registers.pc.toNat)) hend' (by omega)
      rw [fetch, fetchByte_of_lt (by omega) (by omega), hlead]
      simp only [hoperands, Instruction.ofBytes_of_size rfl, ← Nat.add_assoc]
      rfl

end Accumulator.Machine
