import Accumulator.Proofs.Memory.ByteMap
import Mathlib.Order.Lattice.Nat

/-!
# Cells named by failed accesses

An access fails if the memory does not have all of its cells, and names a cell. Reading or writing a
byte and reading a word name the lowest cell that is missing. A word that is written has its room
tested at the second cell. It names the lowest missing cell if the first cell is there, and in any
case one that is missing.

## Implementation notes

Addresses have sixteen bits. A buffer may be longer, and then no word is read at the last address,
although the buffer has both of its cells.
-/

namespace Accumulator.Memory

variable {memory : Memory} {address : UInt16} {start count cell : Nat}

/-- The cells of an access that a memory does not have. -/
def missing (memory : Memory) (start count : Nat) : Set Nat :=
  {cell | start ≤ cell ∧ cell < start + count ∧ memory.at? cell = none}

/-- No cell of a word at an address lies inside the memory but behind the last address. -/
def Addressable (memory : Memory) (address : UInt16) : Prop :=
  memory.size ≤ 0x10000 ∨ address ≠ 0xFFFF

/-- An access fails exactly if there are missing cells, and then it names the lowest of them. -/
def NamesLowest {α : Type} (result : Except OutOfBounds α) (cells : Set Nat) : Prop :=
  ∀ e, result = .error e ↔ IsLeast cells e.address

/-! ## Missing cells -/

/-- Missing cells begin where both the access and the end of the memory have been reached. -/
theorem mem_missing_iff :
    cell ∈ memory.missing start count ↔ max start memory.size ≤ cell ∧ cell < start + count := by
  have hdef : cell ∈ memory.missing start count ↔
      start ≤ cell ∧ cell < start + count ∧ memory.at? cell = none := Iff.rfl
  rw [hdef, at?_eq_none_iff]
  omega

theorem isLeast_missing (hcell : cell = max start memory.size) (hlt : cell < start + count) :
    IsLeast (memory.missing start count) cell := by
  refine ⟨mem_missing_iff.mpr ⟨hcell.ge, hlt⟩, ?_⟩
  intro other hother
  rw [hcell]
  exact (mem_missing_iff.mp hother).1

theorem notMem_missing (h : start + count ≤ memory.size) : cell ∉ memory.missing start count := by
  rw [mem_missing_iff]
  omega

variable {α : Type} {result : Except OutOfBounds α}

theorem namesLowest_of_ok {a : α} (h : result = .ok a) (hsize : start + count ≤ memory.size) :
    NamesLowest result (memory.missing start count) := by
  intro e
  constructor
  · intro herror
    rw [h] at herror
    cases herror
  · intro hleast
    exact absurd hleast.1 (notMem_missing hsize)

theorem namesLowest_of_error (h : result = .error ⟨cell⟩) (hcell : cell = max start memory.size)
    (hlt : cell < start + count) : NamesLowest result (memory.missing start count) := by
  have hleast := isLeast_missing hcell hlt
  intro e
  rw [h, Except.error.injEq]
  constructor
  · rintro rfl
    exact hleast
  · intro hother
    rw [hleast.unique hother]

theorem NamesLowest.fails_iff {cells : Set Nat} (h : NamesLowest result cells) :
    (∃ e, result = .error e) ↔ cells.Nonempty := by
  constructor
  · rintro ⟨e, he⟩
    exact ⟨e.address, ((h e).mp he).1⟩
  · intro hne
    exact ⟨⟨sInf cells⟩, (h _).mpr ⟨Nat.sInf_mem hne, fun _ => Nat.sInf_le⟩⟩

/-! ## Accesses -/

theorem namesLowest_read (memory : Memory) (address : UInt16) :
    NamesLowest (memory.read address) (memory.missing address.toNat 1) := by
  by_cases hin : address.toNat < memory.size
  · obtain ⟨value, hvalue⟩ := exists_at? hin
    have hread : memory.read address = .ok value := by
      rw [read, hvalue]
    exact namesLowest_of_ok hread hin
  · have hout := Nat.le_of_not_lt hin
    have hread : memory.read address = .error ⟨address.toNat⟩ := by
      rw [read, (at?_eq_none_iff _ _).mpr hout]
    exact namesLowest_of_error hread (by omega) (by omega)

theorem namesLowest_write (memory : Memory) (address : UInt16) (value : UInt8) :
    NamesLowest (memory.write address value) (memory.missing address.toNat 1) := by
  by_cases hin : address.toNat < memory.size
  · have hwrite : memory.write address value = .ok (memory.put address.toNat value) := if_pos hin
    exact namesLowest_of_ok hwrite hin
  · have hwrite : memory.write address value = .error ⟨address.toNat⟩ := if_neg hin
    exact namesLowest_of_error hwrite (by omega) (by omega)

theorem succ_lt_of_addressable (h : memory.Addressable address)
    (hin : address.toNat + 1 < memory.size) : address.toNat + 1 < 0x10000 := by
  have hbound := address.toNat_lt
  rcases h with hsize | hlast
  · omega
  · have hne : address.toNat ≠ 0xFFFF := fun heq => hlast (UInt16.toNat_inj.mp heq)
    omega

/-- The two cells of a word that is read are tried in order. -/
theorem namesLowest_readWord (h : memory.Addressable address) :
    NamesLowest (memory.readWord address) (memory.missing address.toNat 2) := by
  by_cases hfirst : address.toNat < memory.size
  · obtain ⟨low, hlow⟩ := exists_at? hfirst
    by_cases hsecond : address.toNat + 1 < memory.size
    · obtain ⟨high, hhigh⟩ := exists_at? hsecond
      have hread : memory.readWord address = .ok (joinBytes low high) := by
        rw [readWord, hlow]
        simp only [succ_lt_of_addressable h hsecond, if_true, hhigh]
      exact namesLowest_of_ok hread hsecond
    · have hhigh := (at?_eq_none_iff memory _).mpr (Nat.le_of_not_lt hsecond)
      -- the same cell is named whether the memory ends in front of it or the addresses do
      have hread : memory.readWord address = .error ⟨address.toNat + 1⟩ := by
        rw [readWord, hlow]
        simp only [hhigh, ite_self]
      exact namesLowest_of_error hread (by omega) (by omega)
  · have hlow := (at?_eq_none_iff memory _).mpr (Nat.le_of_not_lt hfirst)
    have hread : memory.readWord address = .error ⟨address.toNat⟩ := by
      rw [readWord, hlow]
    exact namesLowest_of_error hread (by omega) (by omega)

/-- There is no address behind the last one, whatever the buffer has there. -/
theorem readWord_of_not_addressable (h : ¬ memory.Addressable address) :
    memory.readWord address = .error ⟨0x10000⟩ := by
  rw [Addressable, not_or, Nat.not_le, not_not] at h
  obtain ⟨hsize, rfl⟩ := h
  have hlast : (0xFFFF : UInt16).toNat = 0xFFFF := rfl
  obtain ⟨low, hlow⟩ := exists_at? (Nat.lt_of_succ_lt hsize)
  rw [readWord, hlast, hlow]
  rfl

theorem writeWord_of_lt (h : address.toNat + 1 < memory.size) (value : UInt16) :
    ∃ next, memory.writeWord address value = .ok next :=
  ⟨_, if_pos h⟩

theorem writeWord_of_le (h : memory.size ≤ address.toNat + 1) (value : UInt16) :
    memory.writeWord address value = .error ⟨address.toNat + 1⟩ :=
  if_neg (Nat.not_lt_of_le h)

theorem namesLowest_writeWord (h : address.toNat < memory.size) (value : UInt16) :
    NamesLowest (memory.writeWord address value) (memory.missing address.toNat 2) := by
  by_cases hsecond : address.toNat + 1 < memory.size
  · obtain ⟨next, hnext⟩ := writeWord_of_lt hsecond value
    exact namesLowest_of_ok hnext hsecond
  · have hwrite := writeWord_of_le (Nat.le_of_not_lt hsecond) value
    exact namesLowest_of_error hwrite (by omega) (by omega)

/-- A word that is not written names its second cell. -/
theorem mem_missing_of_writeWord {value : UInt16} {e : OutOfBounds}
    (h : memory.writeWord address value = .error e) :
    e.address ∈ memory.missing address.toNat 2 := by
  have hout := (writeWord_error_iff memory address value).mp ⟨e, h⟩
  have hsecond : address.toNat + 1 ∈ memory.missing address.toNat 2 :=
    mem_missing_iff.mpr ⟨by omega, by omega⟩
  rw [writeWord_of_le hout] at h
  obtain rfl := Except.error.inj h
  exact hsecond

theorem writeWord_fails_iff (memory : Memory) (address value : UInt16) :
    (∃ e, memory.writeWord address value = .error e) ↔
      (memory.missing address.toNat 2).Nonempty := by
  constructor
  · rintro ⟨e, he⟩
    exact ⟨e.address, mem_missing_of_writeWord he⟩
  · rintro ⟨cell, hcell⟩
    have hbounds := mem_missing_iff.mp hcell
    exact (writeWord_error_iff memory address value).mpr (by omega)

/-- A word is read where one can be written. -/
theorem readWord_fails_iff (h : memory.Addressable address) (value : UInt16) :
    (∃ e, memory.readWord address = .error e) ↔
      ∃ e, memory.writeWord address value = .error e := by
  rw [(namesLowest_readWord h).fails_iff, writeWord_fails_iff]

/-! ## All accesses at an address -/

/-- How the accesses at an address fail. -/
structure FailsInBounds (memory : Memory) (address : UInt16) : Prop where
  read : NamesLowest (memory.read address) (memory.missing address.toNat 1)
  write : ∀ value, NamesLowest (memory.write address value) (memory.missing address.toNat 1)
  readWord : memory.Addressable address →
    NamesLowest (memory.readWord address) (memory.missing address.toNat 2)
  /-- The second cell of a word at the last address has no address. -/
  readWord_last : ¬ memory.Addressable address → memory.readWord address = .error ⟨0x10000⟩
  /-- A word is written unless a cell is missing. -/
  writeWord_fails : ∀ value, (∃ e, memory.writeWord address value = .error e) ↔
    (memory.missing address.toNat 2).Nonempty
  /-- If it is not written, some missing cell is named. -/
  writeWord_mem : ∀ value e, memory.writeWord address value = .error e →
    e.address ∈ memory.missing address.toNat 2
  /-- If its first cell is there, the lowest missing cell is named. -/
  writeWord : address.toNat < memory.size → ∀ value,
    NamesLowest (memory.writeWord address value) (memory.missing address.toNat 2)
  /-- A word is read where one can be written. -/
  words_fail : memory.Addressable address → ∀ value,
    (∃ e, memory.readWord address = .error e) ↔ ∃ e, memory.writeWord address value = .error e
  /-- If its first cell is there, both fail with the same error. -/
  words_error : memory.Addressable address → address.toNat < memory.size → ∀ value e,
    memory.readWord address = .error e ↔ memory.writeWord address value = .error e

/-- Accesses fail where cells are missing. All of them name the lowest of these, except that a word
at the last address is not read from a longer buffer, and that a word wholly outside the memory is
written with an error about one of its cells. -/
theorem accesses_fail_in_bounds (memory : Memory) (address : UInt16) :
    memory.FailsInBounds address where
  read := namesLowest_read memory address
  write := namesLowest_write memory address
  readWord := namesLowest_readWord
  readWord_last := readWord_of_not_addressable
  writeWord_fails := writeWord_fails_iff memory address
  writeWord_mem := fun _ _ => mem_missing_of_writeWord
  writeWord := namesLowest_writeWord
  words_fail := readWord_fails_iff
  words_error := by
    intro haddressable hfirst value e
    exact (namesLowest_readWord haddressable e).trans (namesLowest_writeWord hfirst value e).symm

/-- A word that ends behind the last cell. -/
theorem accesses_fail_at_end :
    (zeroed 16).Addressable 15 ∧ (15 : UInt16).toNat < (zeroed 16).size ∧
    (zeroed 16).readWord 15 = .error ⟨16⟩ ∧
    (zeroed 16).writeWord 15 0x1234 = .error ⟨16⟩ := by
  have haddressable : (zeroed 16).Addressable 15 := .inl (by decide)
  have hfirst : (15 : UInt16).toNat < (zeroed 16).size := by decide
  have hleast : IsLeast ((zeroed 16).missing (15 : UInt16).toNat 2) 16 :=
    isLeast_missing (by decide) (by decide)
  have hfails := accesses_fail_in_bounds (zeroed 16) 15
  have hread := (hfails.readWord haddressable ⟨16⟩).mpr hleast
  exact ⟨haddressable, hfirst, hread, (hfails.words_error haddressable hfirst 0x1234 _).mp hread⟩

/-- At the last address of a longer buffer, a word is not read although no cell of it is missing,
and a word behind the end of a memory is written with an error about its second cell, while reading
it names the first. -/
theorem word_errors_not_lowest :
    ((zeroed 0x10001).readWord 0xFFFF = .error ⟨0x10000⟩ ∧
      ¬ IsLeast ((zeroed 0x10001).missing 0xFFFF 2) 0x10000) ∧
    ((zeroed 4).writeWord 4 1 = .error ⟨5⟩ ∧ (zeroed 4).readWord 4 = .error ⟨4⟩ ∧
      ¬ IsLeast ((zeroed 4).missing 4 2) 5) := by
  have hlast : ¬ (zeroed 0x10001).Addressable 0xFFFF := by
    rw [Addressable, size_zeroed]
    decide
  have hnone : 0x10000 ∉ (zeroed 0x10001).missing 0xFFFF 2 :=
    notMem_missing (by rw [size_zeroed])
  have hfour : 4 ∈ (zeroed 4).missing 4 2 := mem_missing_iff.mpr (by decide)
  refine ⟨⟨readWord_of_not_addressable hlast, ?_⟩, by decide, by decide, ?_⟩
  · intro hleast
    exact hnone hleast.1
  · intro hleast
    exact absurd (hleast.2 hfour) (by decide)

end Accumulator.Memory
