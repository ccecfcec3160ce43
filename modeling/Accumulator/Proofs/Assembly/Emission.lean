import Accumulator.Proofs.Assembly.Placement

/-!
# The bytes of placed statements

Every statement yields as many bytes as it has room, so statements that follow each other without a
gap yield their bytes at their own addresses. Room that belongs to no statement but an origin is
zero. Bringing the output to the length that an origin asks for gives the same bytes, since that
never makes it shorter.
-/

namespace Accumulator.Assembly

variable {overflow : Overflow} {symbols : Symbols} {p : Placed} {placed before after : List Placed}
  {first last : Nat} {bytes output : List UInt8}

/-! ## One statement -/

theorem length_operandBytes {e : Expression} {form : OperandForm}
    (h : operandBytes overflow symbols e form = .ok bytes) : bytes.length = form.size := by
  cases form with
  | none =>
      obtain rfl := Except.ok.inj h
      rfl
  | immediate | zeroPage | absolute =>
      obtain ⟨value, _, hvalue⟩ := exists_of_bind_ok h
      obtain ⟨stored, _, rfl⟩ := exists_of_map_ok hvalue
      rfl

theorem length_listBytes {form : OperandForm} {items : List Expression}
    (h : listBytes overflow symbols form items = .ok bytes) :
    bytes.length = form.size * items.length := by
  obtain ⟨chunks, hchunks, rfl⟩ := exists_of_map_ok h
  clear h
  induction items generalizing chunks with
  | nil =>
      obtain rfl := Except.ok.inj hchunks
      rfl
  | cons e rest ih =>
      rw [mapM_cons_eq] at hchunks
      obtain ⟨chunk, hchunk, hrest⟩ := exists_of_bind_ok hchunks
      obtain ⟨others, hothers, rfl⟩ := exists_of_map_ok hrest
      rw [List.flatten_cons, List.length_append, ih others hothers, length_operandBytes hchunk,
        List.length_cons, Nat.mul_succ, Nat.add_comm]

/-- A statement yields as many bytes as it has room. -/
theorem length_bytes (hsized : p.Sized overflow symbols)
    (h : p.bytes overflow symbols = .ok bytes) :
    bytes.length = p.size := by
  obtain ⟨line, address, size, statement⟩ := p
  obtain ⟨hformed, htakes⟩ := hsized
  cases statement with
  | instruction opcode operand =>
      have hsize : size = 1 + opcode.form.size := htakes
      cases operand with
      | none =>
          have hform : opcode.form = .none := hformed.mp rfl
          obtain rfl := Except.ok.inj h
          rw [hsize, hform]
          rfl
      | some e =>
          obtain ⟨stored, hstored, rfl⟩ := exists_of_map_ok h
          rw [List.length_cons, length_operandBytes hstored, hsize, Nat.add_comm]
  | bytes items =>
      have hsize : size = items.length := htakes
      rw [length_listBytes h, hsize, OperandForm.size, Nat.one_mul]
  | words items =>
      have hsize : size = 2 * items.length := htakes
      rw [length_listBytes h, hsize, OperandForm.size]
  | origin target =>
      obtain rfl := Except.ok.inj h
      exact List.length_replicate

/-! ## Several statements -/

theorem emit_cons_eq (symbols : Symbols) (p : Placed) (rest : List Placed) :
    emit overflow symbols (p :: rest) =
      (p.emit overflow symbols).bind fun bytes =>
        (emit overflow symbols rest).map (bytes ++ ·) := by
  rw [emit, mapM_cons_eq]
  cases p.emit overflow symbols with
  | error e => rfl
  | ok bytes =>
      rw [emit]
      cases rest.mapM (Placed.emit overflow symbols) with
      | error e => rfl
      | ok chunks => rfl

theorem exists_of_emit_cons (h : emit overflow symbols (p :: after) = .ok output) :
    ∃ bytes rest, p.bytes overflow symbols = .ok bytes ∧ emit overflow symbols after = .ok rest ∧
      output = bytes ++ rest := by
  rw [emit_cons_eq] at h
  obtain ⟨bytes, hbytes, hrest⟩ := exists_of_bind_ok h
  obtain ⟨rest, hemit, rfl⟩ := exists_of_map_ok hrest
  exact ⟨bytes, rest, ok_of_mapError_ok hbytes, hemit, rfl⟩

theorem emit_cons_of_bytes (hp : p.bytes overflow symbols = .ok bytes)
    (hr : emit overflow symbols after = .ok output) :
    emit overflow symbols (p :: after) = .ok (bytes ++ output) := by
  apply emit_cons _ hr
  rw [Placed.emit, hp]
  rfl

theorem exists_of_emit_append (h : emit overflow symbols (before ++ after) = .ok output) :
    ∃ early late, emit overflow symbols before = .ok early ∧
      emit overflow symbols after = .ok late ∧
      output = early ++ late := by
  induction before generalizing output with
  | nil => exact ⟨[], output, rfl, h, rfl⟩
  | cons p rest ih =>
      obtain ⟨bytes, others, hbytes, hothers, rfl⟩ := exists_of_emit_cons h
      obtain ⟨early, late, hearly, hlate, rfl⟩ := ih hothers
      refine ⟨bytes ++ early, late, ?_, hlate, (List.append_assoc ..).symm⟩
      apply emit_cons _ hearly
      rw [Placed.emit, hbytes]
      rfl

/-- The output is as long as the room that the statements fill. -/
theorem length_emit (hcontiguous : Contiguous first placed last)
    (hsized : ∀ p ∈ placed, p.Sized overflow symbols)
    (h : emit overflow symbols placed = .ok output) :
    first + output.length = last := by
  induction hcontiguous generalizing output with
  | nil address =>
      obtain rfl := Except.ok.inj h
      rfl
  | @cons p rest stop _ ih =>
      rw [List.forall_mem_cons] at hsized
      obtain ⟨bytes, others, hbytes, hothers, rfl⟩ := exists_of_emit_cons h
      rw [List.length_append, length_bytes hsized.1 hbytes, ← Nat.add_assoc]
      exact ih hsized.2 hothers

/-- Between the bytes of the statements before it and after it, a statement has its own at its
address. -/
theorem exists_parts (hcontiguous : Contiguous first (before ++ p :: after) last)
    (hsized : ∀ q ∈ before ++ p :: after, q.Sized overflow symbols)
    (h : emit overflow symbols (before ++ p :: after) = .ok output) :
    ∃ early bytes late, emit overflow symbols before = .ok early ∧
      p.bytes overflow symbols = .ok bytes ∧
      output = early ++ (bytes ++ late) ∧ first + early.length = p.address ∧
      bytes.length = p.size := by
  rw [List.forall_mem_append, List.forall_mem_cons] at hsized
  obtain ⟨hbefore, hp, _⟩ := hsized
  obtain ⟨middle, hearly, hlate⟩ := hcontiguous.exists_middle
  obtain ⟨early, rest, hemitEarly, hemitRest, rfl⟩ := exists_of_emit_append h
  obtain ⟨bytes, late, hbytes, _, rfl⟩ := exists_of_emit_cons hemitRest
  refine ⟨early, bytes, late, hemitEarly, hbytes, rfl, ?_, length_bytes hp hbytes⟩
  rw [length_emit hearly hbefore hemitEarly]
  cases hlate with
  | cons _ => rfl

theorem exists_parts_of_mem (hcontiguous : Contiguous first placed last)
    (hsized : ∀ q ∈ placed, q.Sized overflow symbols)
    (h : emit overflow symbols placed = .ok output)
    (hp : p ∈ placed) :
    ∃ early bytes late, p.bytes overflow symbols = .ok bytes ∧ output = early ++ (bytes ++ late) ∧
      first + early.length = p.address ∧ bytes.length = p.size := by
  obtain ⟨before, after, rfl⟩ := List.append_of_mem hp
  obtain ⟨early, bytes, late, _, hparts⟩ := exists_parts hcontiguous hsized h
  exact ⟨early, bytes, late, hparts⟩

end Accumulator.Assembly
