import Accumulator.Listing
import Accumulator.Proofs.Instruction.Coding

/-!
# The lines of a listing

The lines of a listing are a partition of the listed bytes. Each is a whole instruction with its
text, except that one or two bytes at the end may be listed as data. The address of a line counts
the bytes of the lines in front of it and wraps after the last one. There is no other way to cut
the bytes like this, so a listing can be taken up at the end of any of its lines.
-/

namespace Accumulator

namespace ListingLine

/-- The bytes of a line are one complete instruction, and its text is that of the instruction. -/
def IsInstruction (line : ListingLine) : Prop :=
  ∃ i, Instruction.decode line.bytes = .ok (i, line.bytes.length) ∧ i.encode = line.bytes ∧
    line.text = i.text

/-- The bytes of a line are the first one or two of an instruction that is cut off, and its text
lists them as data. -/
def IsCutOff (line : ListingLine) : Prop :=
  (∃ e, Instruction.decode line.bytes = .error e) ∧
    (line.bytes.length = 1 ∨ line.bytes.length = 2) ∧ line.text = Listing.dataText line.bytes

end ListingLine

namespace Listing

theorem lines_of_decode {bytes : List UInt8} {i : Instruction} {used : Nat}
    (h : Instruction.decode bytes = .ok (i, used)) (address : UInt16) :
    lines bytes address =
      ⟨address, bytes.take used, i.text⟩ ::
        lines (bytes.drop used) (address + UInt16.ofNat used) := by
  rw [lines]
  split
  · rename_i j taken hdecode
    obtain ⟨rfl, rfl⟩ := Prod.mk.inj (Except.ok.inj (hdecode.symm.trans h))
    rfl
  · rename_i hdecode
    simp [h] at hdecode

theorem lines_of_error {bytes : List UInt8} {e : DecodeError}
    (h : Instruction.decode bytes = .error e) (address : UInt16) :
    lines bytes address = if bytes.isEmpty then [] else [⟨address, bytes, dataText bytes⟩] := by
  rw [lines]
  split
  · rename_i hdecode
    simp [h] at hdecode
  · rfl

/-- The number of bytes in lines. -/
def byteCount (ls : List ListingLine) : Nat := (ls.flatMap ListingLine.bytes).length

/-- Lines are a partition of bytes that start at an address. -/
structure Partitions (bytes : List UInt8) (base : UInt16) (ls : List ListingLine) : Prop where
  /-- Nothing is lost or repeated. -/
  flatMap_bytes : ls.flatMap ListingLine.bytes = bytes
  ne_nil : ∀ line ∈ ls, line.bytes ≠ []
  address : ∀ before line after, ls = before ++ line :: after →
    line.address.toNat = (base.toNat + byteCount before) % 0x10000
  instruction : ∀ line ∈ ls.dropLast, line.IsInstruction
  /-- Only the last line may be cut off. -/
  instruction_or_cutOff : ∀ line ∈ ls, line.IsInstruction ∨ line.IsCutOff

variable {bytes own : List UInt8} {base : UInt16} {text : Text} {line : ListingLine}
  {ls : List ListingLine}

theorem byteCount_cons (line : ListingLine) (ls : List ListingLine) :
    byteCount (line :: ls) = line.bytes.length + byteCount ls := by
  rw [byteCount, List.flatMap_cons, List.length_append, byteCount]

theorem byteCount_nil : byteCount [] = 0 := rfl

theorem toNat_add_ofNat_add (base : UInt16) (n m : Nat) :
    ((base + UInt16.ofNat n).toNat + m) % 0x10000 = (base.toNat + (n + m)) % 0x10000 := by
  rw [UInt16.toNat_add, UInt16.toNat_ofNat']
  omega

/-! ## The lines of a listing are a partition -/

theorem isInstruction_of_decode {i : Instruction} {used : Nat}
    (h : Instruction.decode bytes = .ok (i, used)) (address : UInt16) :
    ListingLine.IsInstruction ⟨address, bytes.take used, i.text⟩ := by
  have hused : (bytes.take used).length = used := List.length_take_of_le (le_of_decode h).2
  refine ⟨i, ?_, Instruction.encode_of_decode h, rfl⟩
  rw [Instruction.decode_take_of_le h (Nat.le_refl used), hused]

theorem isCutOff_of_error {e : DecodeError} (h : Instruction.decode bytes = .error e)
    (hne : bytes ≠ []) (address : UInt16) :
    ListingLine.IsCutOff ⟨address, bytes, dataText bytes⟩ := by
  have hle := Instruction.length_le_of_decode_error h
  have hpos := List.length_pos_iff.mpr hne
  refine ⟨⟨e, h⟩, ?_, rfl⟩
  dsimp only
  omega

theorem partitions_nil (base : UInt16) : Partitions [] base [] where
  flatMap_bytes := rfl
  ne_nil := List.forall_mem_nil _
  address := by
    intro before line after h
    cases before <;> cases h
  instruction := List.forall_mem_nil _
  instruction_or_cutOff := List.forall_mem_nil _

theorem Partitions.cons (h : Partitions bytes (base + UInt16.ofNat own.length) ls)
    (hline : ListingLine.IsInstruction ⟨base, own, text⟩) :
    Partitions (own ++ bytes) base (⟨base, own, text⟩ :: ls) where
  flatMap_bytes := by
    rw [List.flatMap_cons, h.flatMap_bytes]
  ne_nil := by
    obtain ⟨i, hdecode, _⟩ := hline
    rw [List.forall_mem_cons]
    exact ⟨List.length_pos_iff.mp (le_of_decode hdecode).1, h.ne_nil⟩
  address := by
    intro before other after heq
    cases before with
    | nil =>
        obtain ⟨rfl, -⟩ := List.cons.inj heq
        exact (Nat.mod_eq_of_lt base.toNat_lt).symm
    | cons first before =>
        obtain ⟨rfl, hrest⟩ := List.cons.inj heq
        rw [h.address before other after hrest, byteCount_cons, toNat_add_ofNat_add]
  instruction := by
    cases ls with
    | nil => exact List.forall_mem_nil _
    | cons second rest =>
        rw [List.dropLast_cons_cons, List.forall_mem_cons]
        exact ⟨hline, h.instruction⟩
  instruction_or_cutOff := by
    rw [List.forall_mem_cons]
    exact ⟨.inl hline, h.instruction_or_cutOff⟩

theorem partitions_singleton (hne : own ≠ []) (hline : ListingLine.IsCutOff ⟨base, own, text⟩) :
    Partitions own base [⟨base, own, text⟩] where
  flatMap_bytes := List.flatMap_singleton ..
  ne_nil := List.forall_mem_singleton.mpr hne
  address := by
    intro before other after heq
    cases before with
    | nil =>
        obtain ⟨rfl, -⟩ := List.cons.inj heq
        exact (Nat.mod_eq_of_lt base.toNat_lt).symm
    | cons first before => simp at heq
  instruction := List.forall_mem_nil _
  instruction_or_cutOff := List.forall_mem_singleton.mpr (.inr hline)

theorem partitions_lines (bytes : List UInt8) (base : UInt16) :
    Partitions bytes base (lines bytes base) := by
  induction bytes, base using lines.induct with
  | case1 bytes base i used h ih =>
      have hused : (bytes.take used).length = used := List.length_take_of_le (le_of_decode h).2
      rw [← hused] at ih
      have hcons := ih.cons (isInstruction_of_decode h base)
      rwa [hused, List.take_append_drop, ← lines_of_decode h] at hcons
  | case2 bytes base e h hempty =>
      rw [lines_of_error h, if_pos hempty, List.isEmpty_iff.mp hempty]
      exact partitions_nil base
  | case3 bytes base e h hempty =>
      have hne : bytes ≠ [] := by simpa using hempty
      rw [lines_of_error h, if_neg hempty]
      exact partitions_singleton hne (isCutOff_of_error h hne base)

theorem length_le_byteCount (h : ∀ line ∈ ls, line.bytes ≠ []) : ls.length ≤ byteCount ls := by
  induction ls with
  | nil => exact Nat.le_refl 0
  | cons line rest ih =>
      obtain ⟨hline, hrest⟩ := List.forall_mem_cons.mp h
      have hpos := List.length_pos_iff.mpr hline
      have hle := ih hrest
      rw [List.length_cons, byteCount_cons]
      omega

theorem Partitions.length_le (h : Partitions bytes base ls) : ls.length ≤ bytes.length := by
  have hle := length_le_byteCount h.ne_nil
  rwa [byteCount, h.flatMap_bytes] at hle

theorem flatMap_bytes_lines (bytes : List UInt8) (address : UInt16) :
    (lines bytes address).flatMap ListingLine.bytes = bytes :=
  (partitions_lines bytes address).flatMap_bytes

/-- What a line says about its bytes: they are one instruction, or data that is not empty. -/
inductive Shows (line : ListingLine) : Prop
  | instruction (i : Instruction) (text : line.text = i.text) (bytes : line.bytes = i.encode)
  | data (text : line.text = dataText line.bytes) (ne_nil : line.bytes ≠ [])

theorem shows_of_mem_lines {bytes : List UInt8} {address : UInt16} :
    ∀ line ∈ lines bytes address, Shows line := by
  have hlines := partitions_lines bytes address
  intro line hline
  obtain ⟨i, _, hencode, htext⟩ | ⟨_, _, htext⟩ := hlines.instruction_or_cutOff line hline
  · exact .instruction i htext hencode.symm
  · exact .data htext (hlines.ne_nil line hline)

/-! ## There is no other partition -/

theorem Partitions.tail (h : Partitions bytes base (line :: ls)) :
    Partitions (bytes.drop line.bytes.length) (base + UInt16.ofNat line.bytes.length) ls where
  flatMap_bytes := by
    rw [← h.flatMap_bytes, List.flatMap_cons, List.drop_left]
  ne_nil := (List.forall_mem_cons.mp h.ne_nil).2
  address := by
    rintro before other after rfl
    rw [h.address (line :: before) other after rfl, byteCount_cons, toNat_add_ofNat_add]
  instruction := by
    intro other hother
    apply h.instruction
    cases ls with
    | nil => cases hother
    | cons second rest =>
        rw [List.dropLast_cons_cons]
        exact List.mem_cons_of_mem line hother
  instruction_or_cutOff := (List.forall_mem_cons.mp h.instruction_or_cutOff).2

theorem Partitions.head_address (h : Partitions bytes base (line :: ls)) :
    line.address = base := by
  apply UInt16.toNat_inj.mp
  rw [h.address [] line ls rfl]
  exact Nat.mod_eq_of_lt base.toNat_lt

/-- A line that is cut off has no lines after it. -/
theorem Partitions.eq_nil_of_isCutOff (h : Partitions bytes base (line :: ls))
    (hline : line.IsCutOff) : ls = [] := by
  obtain ⟨⟨e, herror⟩, _⟩ := hline
  cases ls with
  | nil => rfl
  | cons second rest =>
      obtain ⟨i, hdecode, _⟩ := h.instruction line List.mem_cons_self
      cases herror.symm.trans hdecode

theorem Partitions.eq_lines (h : Partitions bytes base ls) : ls = lines bytes base := by
  induction ls generalizing bytes base with
  | nil =>
      rw [← h.flatMap_bytes, List.flatMap_nil, lines_of_error rfl]
      rfl
  | cons line rest ih =>
      have haddress := h.head_address
      have hbytes := h.flatMap_bytes
      have hrest := ih h.tail
      rw [List.flatMap_cons] at hbytes
      obtain ⟨i, hdecode, _, htext⟩ | hcut := h.instruction_or_cutOff line List.mem_cons_self
      · have hwhole := Instruction.decode_append hdecode (rest.flatMap ListingLine.bytes)
        rw [hbytes] at hwhole
        rw [lines_of_decode hwhole, ← hrest, ← haddress, ← htext, ← hbytes, List.take_left]
      · obtain rfl := h.eq_nil_of_isCutOff hcut
        obtain ⟨⟨e, herror⟩, _, htext⟩ := hcut
        have hne := h.ne_nil line List.mem_cons_self
        rw [List.flatMap_nil, List.append_nil] at hbytes
        rw [← hbytes, ← haddress, lines_of_error herror, if_neg (by simpa using hne), ← htext]

/-- The lines after some of them are a partition of the bytes that are left. -/
theorem Partitions.drop (h : Partitions bytes base ls) (k : Nat) :
    Partitions (bytes.drop (byteCount (ls.take k)))
      (base + UInt16.ofNat (byteCount (ls.take k))) (ls.drop k) := by
  induction k generalizing bytes base ls with
  | zero =>
      simpa [byteCount_nil] using h
  | succ k ih =>
      cases ls with
      | nil =>
          simpa [byteCount_nil] using h
      | cons line rest =>
          have hrest := ih h.tail
          rw [List.drop_drop, UInt16.add_assoc, ← UInt16.ofNat_add] at hrest
          rw [List.take_succ_cons, byteCount_cons]
          exact hrest

/-- The listing of bytes is their one partition into lines. It has no more lines than there are
bytes, and at the end of any of its lines the bytes that are left have the lines that are left as
their own listing. -/
theorem lines_partition (bytes : List UInt8) (base : UInt16) :
    Partitions bytes base (lines bytes base) ∧
    (∀ other, Partitions bytes base other ↔ other = lines bytes base) ∧
    (lines bytes base).length ≤ bytes.length ∧
    ∀ k, lines (bytes.drop (byteCount ((lines bytes base).take k)))
        (base + UInt16.ofNat (byteCount ((lines bytes base).take k))) =
      (lines bytes base).drop k := by
  have hlines := partitions_lines bytes base
  refine ⟨hlines, ?_, hlines.length_le, ?_⟩
  · intro other
    constructor
    · exact Partitions.eq_lines
    · rintro rfl
      exact hlines
  · intro k
    exact (hlines.drop k).eq_lines.symm

end Listing
end Accumulator
