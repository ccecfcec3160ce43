import Accumulator.Instruction.Decoding

/-!
# Decoding and encoding

What the decoder reads off the front of a byte sequence encodes to the bytes it took. The form of
an operand decides how much of an operand pair an instruction keeps. An opcode byte with as many
operand bytes as its form asks for decodes to an instruction of that opcode, whatever comes after.
No more than three bytes are ever looked at.
-/

namespace Accumulator

/-- The number in a pair of operand bytes, as far as the form keeps it. -/
def OperandForm.value? (form : OperandForm) (low high : UInt8) : Option Nat :=
  match form with
  | .none => Option.none
  | .immediate | .zeroPage => some low.toNat
  | .absolute => some (low.toNat + 256 * high.toNat)

namespace Instruction

/-- The operand of an instruction as a number. -/
def operand? : Instruction → Option Nat
  | loadZeroPage byte | storeZeroPage byte => some byte.toNat
  | loadImmediate byte | addImmediate byte | subImmediate byte => some byte.toNat
  | load word | store word | add word | sub word => some word.toNat
  | jumpIfZero word | jump word | call word | jumpIfNegative word => some word.toNat
  | nop | halt | ret | unknown _ => none

theorem operandSize_le_two (lead : UInt8) : operandSize lead ≤ 2 := by
  rw [operandSize]
  cases ((Opcode.ofCode? lead).map Opcode.form).getD .none <;> simp [OperandForm.size]

theorem encode_ofBytes (lead low high : UInt8) :
    (ofBytes lead low high).encode = lead :: [low, high].take (operandSize lead) := by
  rw [operandSize]
  cases hop : Opcode.ofCode? lead with
  | none => simp [ofBytes, hop, encode, leadByte, operandBytes, OperandForm.size]
  | some op =>
      have hcode := Opcode.code_of_ofCode? hop
      rw [ofBytes, hop]
      cases op <;>
        simp [encode, leadByte, opcode?, operandBytes, Opcode.form, OperandForm.size, ← hcode]

theorem size_ofBytes (lead low high : UInt8) :
    (ofBytes lead low high).size = 1 + operandSize lead := by
  rw [← length_encode, encode_ofBytes, List.length_cons, List.length_take, Nat.add_comm]
  exact congrArg (1 + ·) (Nat.min_eq_left (operandSize_le_two lead))

theorem take_pair_getD {operands : List UInt8} (h : operands.length ≤ 2) :
    [operands[0]?.getD 0, operands[1]?.getD 0].take operands.length = operands := by
  match operands, h with
  | [], _ => rfl
  | [_], _ => rfl
  | [_, _], _ => rfl

/-- A decoded instruction encodes to exactly the bytes that were used. -/
theorem encode_of_decode {bytes : List UInt8} {i : Instruction} {used : Nat}
    (h : decode bytes = .ok (i, used)) : i.encode = bytes.take used := by
  cases bytes with
  | nil => simp [decode] at h
  | cons lead rest =>
      simp only [decode, ofParts] at h
      by_cases hlen : (rest.take (operandSize lead)).length < operandSize lead
      · rw [if_pos hlen] at h
        simp at h
      · rw [if_neg hlen] at h
        simp only [Except.ok.injEq, Prod.mk.injEq] at h
        obtain ⟨rfl, rfl⟩ := h
        have hown : (rest.take (operandSize lead)).length = operandSize lead :=
          Nat.le_antisymm (List.length_take_le _ _) (Nat.le_of_not_lt hlen)
        have hpair := take_pair_getD (hown ▸ operandSize_le_two lead)
        rw [hown] at hpair
        rw [encode_ofBytes, hpair, Nat.add_comm, List.take_succ_cons]

/-! ## The instructions of an opcode -/

theorem operandSize_code (op : Opcode) : operandSize op.code = op.form.size := by
  rw [operandSize, Opcode.ofCode?_code]
  rfl

/-- An opcode byte and its operand bytes are decoded, and nothing beyond them is looked at. -/
theorem decode_code_append {op : Opcode} {operands : List UInt8}
    (h : operands.length = op.form.size) (rest : List UInt8) :
    decode (op.code :: (operands ++ rest)) =
      .ok (ofBytes op.code (operands[0]?.getD 0) (operands[1]?.getD 0), 1 + op.form.size) := by
  have hown : (operands ++ rest).take op.form.size = operands := by
    rw [← h, List.take_left]
  simp only [decode, ofParts, operandSize_code, hown, h, Nat.lt_irrefl, if_false]

/-! ## As many bytes as are needed -/

/-- Operand bytes that an opcode does not have make no difference. -/
theorem ofBytes_of_size {lead : UInt8} {n : Nat} (h : operandSize lead = n) (low high : UInt8) :
    ofBytes lead (if 0 < n then low else 0) (if 1 < n then high else 0) =
      ofBytes lead low high := by
  subst h
  rw [operandSize]
  cases hop : Opcode.ofCode? lead with
  | none => simp only [ofBytes, hop]
  | some op => cases op <;> simp [ofBytes, hop, Opcode.form, OperandForm.size]

/-- Decoding fails where the operand is cut off, and else looks at no more than two bytes after the
first. -/
theorem decode_cons (lead : UInt8) (rest : List UInt8) :
    decode (lead :: rest) =
      if rest.length < operandSize lead then
        .error (.truncated lead (operandSize lead) rest.length)
      else .ok (ofBytes lead (rest[0]?.getD 0) (rest[1]?.getD 0), 1 + operandSize lead) := by
  rw [decode, ofParts]
  by_cases hcut : rest.length < operandSize lead
  · simp only [List.take_of_length_le (Nat.le_of_lt hcut), hcut, if_true]
  · have hown : ¬ (rest.take (operandSize lead)).length < operandSize lead := by
      rw [List.length_take]
      omega
    have hoperands := ofBytes_of_size (rfl : operandSize lead = _) (rest[0]?.getD 0)
      (rest[1]?.getD 0)
    simp only [hown, hcut, if_false, List.getElem?_take, ← hoperands]
    split <;> split <;> rfl

theorem length_le_of_decode_error {bytes : List UInt8} {e : DecodeError}
    (h : decode bytes = .error e) : bytes.length ≤ 2 := by
  cases bytes with
  | nil => exact Nat.zero_le 2
  | cons lead rest =>
      have hsize := operandSize_le_two lead
      rw [decode_cons] at h
      by_cases hcut : rest.length < operandSize lead
      · rw [List.length_cons]
        omega
      · rw [if_neg hcut] at h
        cases h

theorem used_of_decode_cons {lead : UInt8} {rest : List UInt8} {i : Instruction} {used : Nat}
    (h : decode (lead :: rest) = .ok (i, used)) :
    used = operandSize lead + 1 ∧ operandSize lead ≤ rest.length := by
  rw [decode_cons] at h
  by_cases hcut : rest.length < operandSize lead
  · rw [if_pos hcut] at h
    cases h
  · rw [if_neg hcut] at h
    obtain ⟨-, rfl⟩ := Prod.mk.inj (Except.ok.inj h)
    exact ⟨Nat.add_comm .., Nat.le_of_not_lt hcut⟩

/-- Only the operand bytes after the first byte are looked at. -/
theorem decode_congr {lead : UInt8} {rest other : List UInt8}
    (h : rest.take (operandSize lead) = other.take (operandSize lead)) :
    decode (lead :: rest) = decode (lead :: other) := by
  simp only [decode, ofParts, h]

/-- What comes after a decoded instruction makes no difference. -/
theorem decode_append {bytes : List UInt8} {i : Instruction} {used : Nat}
    (h : decode bytes = .ok (i, used)) (rest : List UInt8) :
    decode (bytes ++ rest) = .ok (i, used) := by
  cases bytes with
  | nil => cases h
  | cons lead operands =>
      rw [← h, List.cons_append]
      apply decode_congr
      exact List.take_append_of_le_length (used_of_decode_cons h).2

/-- A decoded instruction is decoded from the bytes that it takes, and from any more of them. -/
theorem decode_take_of_le {bytes : List UInt8} {i : Instruction} {used n : Nat}
    (h : decode bytes = .ok (i, used)) (hle : used ≤ n) :
    decode (bytes.take n) = .ok (i, used) := by
  cases bytes with
  | nil => cases h
  | cons lead rest =>
      obtain ⟨rfl, -⟩ := used_of_decode_cons h
      obtain ⟨k, rfl⟩ := Nat.exists_eq_add_of_le' hle
      rw [← h, ← Nat.add_assoc, List.take_succ_cons]
      apply decode_congr
      rw [List.take_take, Nat.min_eq_left (Nat.le_add_left _ _)]

end Instruction
end Accumulator
