import Accumulator.Proofs.Assembly.Sources
import Accumulator.Proofs.Listing.Lines

/-!
# Sequences of instructions

Instructions differ in length, and nothing marks where one ends and the next begins. Still a
sequence of them is found again in its bytes, whether these are decoded one instruction at a time or
listed, and in its texts, when these are assembled. The one condition is that a byte stands for
itself only if no opcode is assigned to it.
-/

namespace Accumulator.Instruction

/-- The bytes of instructions, one after the other. -/
def encodeAll (instructions : List Instruction) : List UInt8 := instructions.flatMap encode

/-- Decode until the bytes are used up, with the number of bytes that each instruction takes. -/
def decodeAll (bytes : List UInt8) : Except DecodeError (List (Instruction × Nat)) :=
  if bytes.isEmpty then .ok []
  else
    match _h : decode bytes with
    | .error e => .error e
    | .ok (i, used) => (decodeAll (bytes.drop used)).map ((i, used) :: ·)
termination_by bytes.length
decreasing_by
  have := Listing.le_of_decode _h
  simp only [List.length_drop]
  omega

@[simp] theorem decodeAll_nil : decodeAll [] = .ok [] := by
  rw [decodeAll]
  rfl

theorem decodeAll_of_decode {bytes : List UInt8} {i : Instruction} {used : Nat}
    (h : decode bytes = .ok (i, used)) :
    decodeAll bytes = (decodeAll (bytes.drop used)).map ((i, used) :: ·) := by
  have hne : bytes.isEmpty = false := by
    cases bytes with
    | nil => cases h
    | cons byte rest => rfl
  rw [decodeAll, hne, if_neg Bool.false_ne_true]
  split
  · rename_i hdecode
    cases h.symm.trans hdecode
  · rename_i hdecode
    cases h.symm.trans hdecode
    rfl

variable {i : Instruction}

/-! ## One instruction -/

theorem leadByte_of_opcode? {op : Opcode} (h : i.opcode? = some op) : i.leadByte = op.code := by
  cases i <;> cases h <;> rfl

theorem length_operandBytes {op : Opcode} (h : i.opcode? = some op) :
    i.operandBytes.length = op.form.size := by
  cases i <;> cases h <;> rfl

theorem ofBytes_operandBytes {op : Opcode} (h : i.opcode? = some op) :
    ofBytes op.code (i.operandBytes[0]?.getD 0) (i.operandBytes[1]?.getD 0) = i := by
  cases i <;> cases h <;> simp [ofBytes, operandBytes]

/-- An instruction is decoded from its bytes, and nothing beyond them is looked at. -/
theorem decode_encode_append (h : ∀ byte, i = .unknown byte → Opcode.ofCode? byte = none)
    (rest : List UInt8) : decode (i.encode ++ rest) = .ok (i, i.size) := by
  cases hop : i.opcode? with
  | none =>
      obtain ⟨byte, rfl⟩ : ∃ byte, i = .unknown byte := by
        cases i <;> cases hop
        exact ⟨_, rfl⟩
      have hcode := h byte rfl
      simp [encode, leadByte, operandBytes, decode, ofParts, operandSize, ofBytes, size, opcode?,
        OperandForm.size, hcode]
  | some op =>
      rw [encode, List.cons_append, leadByte_of_opcode? hop,
        decode_code_append (length_operandBytes hop), ofBytes_operandBytes hop, size, hop]
      rfl

/-! ## All instructions -/

variable {instructions : List Instruction}

theorem encodeAll_cons (i : Instruction) (rest : List Instruction) :
    encodeAll (i :: rest) = i.encode ++ encodeAll rest := rfl

theorem drop_size_encode_append (i : Instruction) (rest : List UInt8) :
    (i.encode ++ rest).drop i.size = rest :=
  List.drop_left' i.length_encode

theorem take_size_encode_append (i : Instruction) (rest : List UInt8) :
    (i.encode ++ rest).take i.size = i.encode :=
  List.take_left' i.length_encode

theorem decode_encodeAll_cons {rest : List Instruction}
    (h : ∀ byte, .unknown byte ∈ i :: rest → Opcode.ofCode? byte = none) :
    decode (encodeAll (i :: rest)) = .ok (i, i.size) := by
  apply decode_encode_append
  rintro byte rfl
  exact h byte List.mem_cons_self

theorem decodeAll_encodeAll
    (h : ∀ byte, .unknown byte ∈ instructions → Opcode.ofCode? byte = none) :
    decodeAll (encodeAll instructions) = .ok (instructions.map fun i => (i, i.size)) := by
  induction instructions with
  | nil => exact decodeAll_nil
  | cons i rest ih =>
      have hrest : decodeAll (encodeAll rest) = .ok (rest.map fun i => (i, i.size)) := by
        apply ih
        intro byte hbyte
        exact h byte (List.mem_cons_of_mem i hbyte)
      rw [decodeAll_of_decode (decode_encodeAll_cons h), encodeAll_cons, drop_size_encode_append,
        hrest]
      rfl

theorem lines_encodeAll
    (h : ∀ byte, .unknown byte ∈ instructions → Opcode.ofCode? byte = none)
    (address : UInt16) :
    (Listing.lines (encodeAll instructions) address).map (fun line => (line.bytes, line.text)) =
      instructions.map fun i => (i.encode, i.text) := by
  induction instructions generalizing address with
  | nil =>
      rw [encodeAll, List.flatMap_nil, Listing.lines_of_error rfl]
      rfl
  | cons i rest ih =>
      have hrest := ih (fun byte hbyte => h byte (List.mem_cons_of_mem i hbyte))
      rw [Listing.lines_of_decode (decode_encodeAll_cons h), encodeAll_cons, List.map_cons,
        List.map_cons, drop_size_encode_append, take_size_encode_append, hrest]

open Assembly in
/-- The texts of instructions assemble to their bytes. -/
theorem assemble_texts (instructions : List Instruction) (base : UInt16) (overflow : Overflow)
    (hfit : base.toNat + (encodeAll instructions).length ≤ Draft.addressLimit) :
    assemble (Text.join ['\n'] (instructions.map text)) base overflow =
      .ok (encodeAll instructions) := by
  let items := instructions.map fun i => (i.text, i.encode)
  have hitems : ∀ item ∈ items, Assembles item.1 item.2 := by
    intro item hitem
    obtain ⟨i, _, rfl⟩ := List.mem_map.mp hitem
    exact assembles_text i
  have htexts : items.map Prod.fst = instructions.map text := by
    simp [items]
  have hbytes : items.flatMap Prod.snd = encodeAll instructions := by
    rw [List.flatMap_map, encodeAll]
  have hassemble := assemble_join hitems base overflow (by rwa [hbytes])
  rwa [htexts, hbytes] at hassemble

/-- Instructions in which only bytes without an opcode stand for themselves survive encoding,
decoding and printing. Their bytes are listed with one line for each of them and decoded into them
again, each from as many bytes as it takes, and their texts assemble to their bytes. -/
theorem sequence_survives (instructions : List Instruction)
    (h : ∀ byte, .unknown byte ∈ instructions → Opcode.ofCode? byte = none) :
    (∀ address,
      (Listing.lines (encodeAll instructions) address).map (fun line => (line.bytes, line.text)) =
        instructions.map fun i => (i.encode, i.text)) ∧
    decodeAll (encodeAll instructions) = .ok (instructions.map fun i => (i, i.size)) ∧
    (∀ i ∈ instructions, i.size = i.encode.length) ∧
    ∀ (base : UInt16) (overflow : Assembly.Overflow),
      base.toNat + (encodeAll instructions).length ≤ 0x10000 →
      assemble (Text.join ['\n'] (instructions.map text)) base overflow =
        .ok (encodeAll instructions) :=
  ⟨lines_encodeAll h, decodeAll_encodeAll h, fun i _ => i.length_encode.symm,
    assemble_texts instructions⟩

/-- A call, a byte without an opcode whose neighbours could be taken for its operand, and a load
whose operand looks like a halt. -/
def mixedSequence : List Instruction := [.call 0x1234, .unknown 0xFF, .load 0x0101, .halt]

theorem mixedSequence_survives :
    (∀ byte, .unknown byte ∈ mixedSequence → Opcode.ofCode? byte = none) ∧
    decodeAll [0x42, 0x34, 0x12, 0xFF, 0x12, 0x01, 0x01, 0x01] =
      .ok [(.call 0x1234, 3), (.unknown 0xFF, 1), (.load 0x0101, 3), (.halt, 1)] ∧
    assemble (Text.join ['\n'] (mixedSequence.map text)) 0xFFF8 =
      .ok [0x42, 0x34, 0x12, 0xFF, 0x12, 0x01, 0x01, 0x01] := by
  have hbytes : ∀ byte, .unknown byte ∈ mixedSequence → Opcode.ofCode? byte = none := by
    intro byte hbyte
    obtain rfl : byte = 0xFF := by simpa [mixedSequence] using hbyte
    decide
  obtain ⟨_, hdecode, _, hassemble⟩ := sequence_survives mixedSequence hbytes
  exact ⟨hbytes, hdecode, hassemble 0xFFF8 .wraps (by decide)⟩

end Accumulator.Instruction
