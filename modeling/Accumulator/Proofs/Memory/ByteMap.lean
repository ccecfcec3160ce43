import Accumulator.Memory
import Mathlib.Data.List.Induction

/-!
# Memory as a map of bytes

Bytes, words, whole programs and a clearing of everything are put into a memory by functions that
each check their room in their own way. Their common meaning is a history: every cell holds the
byte that the last successful operation on it has put there, or zero if there was none. Reading a
byte, a word or a window shows nothing else. An operation that fails leaves all cells alone.

## Implementation notes

A buffer may be longer than addresses reach. A word is read at two addresses, so there is none at
the last address of sixteen bits, even if a further cell follows; writing one there needs only the
cells.
-/

namespace Accumulator

/-- What changes the contents of a memory. -/
inductive MemoryOperation
  | write (address : UInt16) (value : UInt8)
  | writeWord (address value : UInt16)
  | load (offset : UInt16) (bytes : List UInt8)
  | clear
  deriving DecidableEq, Repr

namespace MemoryOperation

/-- Whether all cells of an operation are inside a memory of a capacity. -/
def fits (capacity : Nat) : MemoryOperation → Bool
  | write address _ => address.toNat < capacity
  | writeWord address _ => address.toNat + 1 < capacity
  | load offset bytes => offset.toNat + bytes.length ≤ capacity
  | clear => true

/-- The byte that an operation puts into a cell, if it covers the cell. -/
def byteAt? (cell : Nat) : MemoryOperation → Option UInt8
  | write address value => if cell = address.toNat then some value else none
  | writeWord address value =>
      if cell = address.toNat then some (lowByte value)
      else if cell = address.toNat + 1 then some (highByte value)
      else none
  | load offset bytes => if offset.toNat ≤ cell then bytes[cell - offset.toNat]? else none
  | clear => some 0

/-- The byte that the last successful operation on a cell has put there, or zero. -/
def lastByte (capacity : Nat) (history : List MemoryOperation) (cell : Nat) : UInt8 :=
  ((history.filter (fits capacity)).filterMap (byteAt? cell)).getLast?.getD 0

theorem lastByte_concat_of_fits {capacity : Nat} {operation : MemoryOperation}
    (h : operation.fits capacity = true) (history : List MemoryOperation) (cell : Nat) :
    lastByte capacity (history ++ [operation]) cell =
      (operation.byteAt? cell).getD (lastByte capacity history cell) := by
  rw [lastByte, List.filter_append, List.filter_cons_of_pos h, List.filter_nil,
    List.filterMap_append]
  cases hbyte : operation.byteAt? cell with
  | none =>
      rw [List.filterMap_cons_none hbyte, List.filterMap_nil, List.append_nil]
      rfl
  | some byte =>
      rw [List.filterMap_cons_some hbyte, List.filterMap_nil, List.getLast?_concat]
      rfl

theorem lastByte_concat_of_not_fits {capacity : Nat} {operation : MemoryOperation}
    (h : operation.fits capacity = false) (history : List MemoryOperation) (cell : Nat) :
    lastByte capacity (history ++ [operation]) cell = lastByte capacity history cell := by
  rw [lastByte, List.filter_append, List.filter_cons_of_neg (by simp [h]), List.filter_nil,
    List.append_nil, lastByte]

end MemoryOperation

/-- Why an operation fails. -/
inductive MemoryFailure
  | access (error : OutOfBounds)
  | load (error : LoadError)
  deriving DecidableEq, Repr

namespace Memory

open MemoryOperation

/-- Try an operation. -/
def attempt (memory : Memory) : MemoryOperation → Except MemoryFailure Memory
  | .write address value => (memory.write address value).mapError .access
  | .writeWord address value => (memory.writeWord address value).mapError .access
  | .load offset bytes => (memory.load offset bytes).mapError .load
  | .clear => .ok memory.clear

/-- The memory after an operation, and the failure if there was one. -/
def perform (memory : Memory) (operation : MemoryOperation) : Memory × Option MemoryFailure :=
  match memory.attempt operation with
  | .ok next => (next, none)
  | .error failure => (memory, some failure)

/-- The memory after several operations, those that fail included. -/
def performAll (memory : Memory) (history : List MemoryOperation) : Memory :=
  history.foldl (fun memory operation => (memory.perform operation).1) memory

variable {memory : Memory} {capacity : Nat} {byte : Nat → UInt8} {operation : MemoryOperation}

/-! ## Operations -/

theorem exists_write_eq {address : UInt16} (h : address.toNat < memory.size) (value : UInt8) :
    ∃ next, memory.write address value = .ok next ∧ next.size = memory.size ∧
      ∀ cell, next.at? cell =
        ((MemoryOperation.write address value).byteAt? cell).or (memory.at? cell) := by
  refine ⟨memory.put address.toNat value, if_pos h, size_put .., ?_⟩
  intro cell
  rw [at?_put, byteAt?]
  by_cases hcell : cell = address.toNat
  · rw [if_pos hcell, if_pos ⟨hcell.symm, h⟩]
    rfl
  · rw [if_neg hcell, if_neg fun hc => hcell hc.1.symm]
    rfl

theorem exists_writeWord_eq {address : UInt16} (h : address.toNat + 1 < memory.size)
    (value : UInt16) :
    ∃ next, memory.writeWord address value = .ok next ∧ next.size = memory.size ∧
      ∀ cell, next.at? cell =
        ((MemoryOperation.writeWord address value).byteAt? cell).or (memory.at? cell) := by
  refine ⟨_, if_pos h, ?_, ?_⟩
  · rw [size_put, size_put]
  · intro cell
    rw [at?_put, at?_put, size_put, byteAt?]
    by_cases hlow : cell = address.toNat
    · subst hlow
      rw [if_neg (by omega), if_pos ⟨rfl, by omega⟩, if_pos rfl]
      rfl
    · rw [if_neg hlow]
      by_cases hhigh : cell = address.toNat + 1
      · rw [if_pos ⟨hhigh.symm, h⟩, if_pos hhigh]
        rfl
      · rw [if_neg fun hc => hhigh hc.1.symm, if_neg fun hc => hlow hc.1.symm, if_neg hhigh]
        rfl

theorem load_eq_ok {offset : UInt16} {bytes : List UInt8}
    (h : offset.toNat + bytes.length ≤ memory.size) :
    memory.load offset bytes = .ok (memory.putAll offset.toNat bytes) := by
  have hroom : ¬ memory.size - offset.toNat < bytes.length := by omega
  have hstart : ¬ memory.size < offset.toNat := by omega
  rw [load, if_neg hroom, if_neg hstart]

/-- Bytes that do not fit are too many for the room behind the offset, unless there are none. -/
theorem load_eq (memory : Memory) (offset : UInt16) (bytes : List UInt8) :
    memory.load offset bytes =
      if offset.toNat + bytes.length ≤ memory.size then .ok (memory.putAll offset.toNat bytes)
      else if bytes = [] then .error (.pastEnd offset.toNat)
      else .error (.tooLarge bytes.length (memory.size - offset.toNat)) := by
  by_cases hfit : offset.toNat + bytes.length ≤ memory.size
  · rw [if_pos hfit, load_eq_ok hfit]
  · rw [if_neg hfit, load]
    by_cases hnone : bytes = []
    · subst hnone
      rw [List.length_nil] at hfit ⊢
      rw [if_pos rfl, if_neg (Nat.not_lt_zero _), if_pos (by omega)]
    · have hpos := List.length_pos_iff.mpr hnone
      rw [if_neg hnone, if_pos (by omega)]

theorem exists_load_eq {offset : UInt16} {bytes : List UInt8}
    (h : offset.toNat + bytes.length ≤ memory.size) :
    ∃ next, memory.load offset bytes = .ok next ∧ next.size = memory.size ∧
      ∀ cell, next.at? cell =
        ((MemoryOperation.load offset bytes).byteAt? cell).or (memory.at? cell) := by
  refine ⟨_, load_eq_ok h, size_putAll .., ?_⟩
  intro cell
  rw [at?_putAll, byteAt?]
  by_cases hin : offset.toNat ≤ cell ∧ cell < offset.toNat + bytes.length ∧ cell < memory.size
  · have hlt : cell - offset.toNat < bytes.length := by omega
    rw [if_pos hin, if_pos hin.1, List.getElem?_eq_getElem hlt]
    rfl
  · rw [if_neg hin]
    by_cases hle : offset.toNat ≤ cell
    · rw [if_pos hle, List.getElem?_eq_none (by omega)]
      rfl
    · rw [if_neg hle]
      rfl

theorem exists_load_error {offset : UInt16} {bytes : List UInt8}
    (h : memory.size < offset.toNat + bytes.length) :
    ∃ e, memory.load offset bytes = .error e := by
  rw [load_eq, if_neg (Nat.not_le_of_lt h)]
  by_cases hnone : bytes = []
  · exact ⟨_, if_pos hnone⟩
  · exact ⟨_, if_neg hnone⟩

/-- An operation inside the memory puts its bytes into the cells that it covers. -/
theorem exists_attempt_eq (h : operation.fits memory.size = true) :
    ∃ next, memory.attempt operation = .ok next ∧ next.size = memory.size ∧
      ∀ cell < memory.size, next.at? cell = (operation.byteAt? cell).or (memory.at? cell) := by
  cases operation with
  | write address value =>
      obtain ⟨next, hnext, hsize, hcells⟩ := exists_write_eq (of_decide_eq_true h) value
      refine ⟨next, ?_, hsize, fun cell _ => hcells cell⟩
      rw [attempt, hnext]
      rfl
  | writeWord address value =>
      obtain ⟨next, hnext, hsize, hcells⟩ := exists_writeWord_eq (of_decide_eq_true h) value
      refine ⟨next, ?_, hsize, fun cell _ => hcells cell⟩
      rw [attempt, hnext]
      rfl
  | load offset bytes =>
      obtain ⟨next, hnext, hsize, hcells⟩ := exists_load_eq (of_decide_eq_true h)
      refine ⟨next, ?_, hsize, fun cell _ => hcells cell⟩
      rw [attempt, hnext]
      rfl
  | clear =>
      refine ⟨memory.clear, rfl, size_clear memory, ?_⟩
      intro cell hcell
      rw [clear, at?_zeroed, if_pos hcell]
      rfl

theorem exists_attempt_error (h : operation.fits memory.size = false) :
    ∃ failure, memory.attempt operation = .error failure := by
  cases operation with
  | write address value =>
      have hout : ¬ address.toNat < memory.size := of_decide_eq_false h
      exact ⟨.access ⟨address.toNat⟩, by rw [attempt, write, if_neg hout]; rfl⟩
  | writeWord address value =>
      have hout : ¬ address.toNat + 1 < memory.size := of_decide_eq_false h
      exact ⟨.access ⟨address.toNat + 1⟩, by rw [attempt, writeWord, if_neg hout]; rfl⟩
  | load offset bytes =>
      have hout : ¬ offset.toNat + bytes.length ≤ memory.size := of_decide_eq_false h
      obtain ⟨e, he⟩ := exists_load_error (Nat.lt_of_not_le hout)
      exact ⟨.load e, by rw [attempt, he]; rfl⟩
  | clear => cases h

theorem perform_of_fits (h : operation.fits memory.size = true) :
    ∃ next, memory.perform operation = (next, none) ∧ next.size = memory.size ∧
      ∀ cell < memory.size, next.at? cell = (operation.byteAt? cell).or (memory.at? cell) := by
  obtain ⟨next, hnext, hrest⟩ := exists_attempt_eq h
  exact ⟨next, by rw [perform, hnext], hrest⟩

/-- An operation that does not fit changes nothing. -/
theorem perform_of_not_fits (h : operation.fits memory.size = false) :
    ∃ failure, memory.perform operation = (memory, some failure) := by
  obtain ⟨failure, hfailure⟩ := exists_attempt_error h
  exact ⟨failure, by rw [perform, hfailure]⟩

theorem kept_of_failure {failure : MemoryFailure}
    (h : (memory.perform operation).2 = some failure) : (memory.perform operation).1 = memory := by
  cases hfits : operation.fits memory.size with
  | true =>
      obtain ⟨next, hnext, _⟩ := perform_of_fits hfits
      rw [hnext] at h
      cases h
  | false =>
      obtain ⟨_, hkept⟩ := perform_of_not_fits hfits
      rw [hkept]

theorem succeeds_iff (memory : Memory) (operation : MemoryOperation) :
    (memory.perform operation).2 = none ↔ operation.fits memory.size = true := by
  cases hfits : operation.fits memory.size with
  | true =>
      obtain ⟨next, hnext, _⟩ := perform_of_fits hfits
      rw [hnext]
      exact iff_of_true rfl rfl
  | false =>
      obtain ⟨failure, hkept⟩ := perform_of_not_fits hfits
      rw [hkept]
      exact iff_of_false (Option.some_ne_none failure) Bool.false_ne_true

theorem size_perform (memory : Memory) (operation : MemoryOperation) :
    (memory.perform operation).1.size = memory.size := by
  cases h : operation.fits memory.size with
  | true =>
      obtain ⟨next, hnext, hsize, _⟩ := perform_of_fits h
      rw [hnext]
      exact hsize
  | false =>
      obtain ⟨failure, hfailure⟩ := perform_of_not_fits h
      rw [hfailure]

/-! ## Maps of bytes -/

/-- A memory has a number of cells, and these hold the bytes of a map. -/
structure IsMap (memory : Memory) (capacity : Nat) (byte : Nat → UInt8) : Prop where
  size : memory.size = capacity
  at? : ∀ cell < capacity, memory.at? cell = some (byte cell)

theorem isMap_zeroed (capacity : Nat) : (zeroed capacity).IsMap capacity fun _ => 0 where
  size := size_zeroed capacity
  at? := by
    intro cell hcell
    rw [at?_zeroed, if_pos hcell]

theorem IsMap.at?_eq (h : memory.IsMap capacity byte) (cell : Nat) :
    memory.at? cell = if cell < capacity then some (byte cell) else none := by
  split
  · rename_i hcell
    exact h.at? cell hcell
  · rename_i hcell
    rw [at?_eq_none_iff, h.size]
    exact Nat.le_of_not_lt hcell

theorem IsMap.perform_of_fits (h : memory.IsMap capacity byte)
    (hfits : operation.fits capacity = true) :
    (memory.perform operation).1.IsMap capacity fun cell =>
      (operation.byteAt? cell).getD (byte cell) := by
  rw [← h.size] at hfits
  obtain ⟨next, hnext, hsize, hcells⟩ := Memory.perform_of_fits hfits
  rw [hnext]
  refine ⟨hsize.trans h.size, ?_⟩
  intro cell hcell
  rw [hcells cell (h.size ▸ hcell), h.at? cell hcell, Option.or_some]

theorem IsMap.perform_of_not_fits (h : memory.IsMap capacity byte)
    (hfits : operation.fits capacity = false) :
    ∃ failure, memory.perform operation = (memory, some failure) :=
  Memory.perform_of_not_fits (h.size.symm ▸ hfits)

/-- A memory that was new holds the bytes of its history. -/
theorem isMap_performAll (capacity : Nat) (history : List MemoryOperation) :
    ((zeroed capacity).performAll history).IsMap capacity (lastByte capacity history) := by
  induction history using List.reverseRecOn with
  | nil => exact isMap_zeroed capacity
  | append_singleton history operation ih =>
      rw [performAll, List.foldl_append, List.foldl_cons, List.foldl_nil, ← performAll]
      cases hfits : operation.fits capacity with
      | true =>
          rw [funext (lastByte_concat_of_fits hfits history)]
          exact ih.perform_of_fits hfits
      | false =>
          obtain ⟨failure, hfailure⟩ := ih.perform_of_not_fits hfits
          rw [hfailure, funext (lastByte_concat_of_not_fits hfits history)]
          exact ih

/-! ## Readers -/

theorem IsMap.read (h : memory.IsMap capacity byte) (address : UInt16) :
    memory.read address =
      if address.toNat < capacity then .ok (byte address.toNat) else .error ⟨address.toNat⟩ := by
  rw [Memory.read, h.at?_eq]
  split
  · rename_i hsome
    split at hsome
    · rename_i hcell
      rw [if_pos hcell, Option.some.inj hsome]
    · cases hsome
  · rename_i hnone
    split at hnone
    · cases hnone
    · rename_i hcell
      rw [if_neg hcell]

theorem IsMap.readWord_of_lt (h : memory.IsMap capacity byte) {address : UInt16}
    (hlt : address.toNat + 1 < min capacity 0x10000) :
    memory.readWord address = .ok (joinBytes (byte address.toNat) (byte (address.toNat + 1))) := by
  rw [Nat.lt_min] at hlt
  rw [Memory.readWord, h.at? _ (Nat.lt_of_succ_lt hlt.1)]
  simp only [hlt.2, if_true, h.at? _ hlt.1]

theorem IsMap.readWord_of_le (h : memory.IsMap capacity byte) {address : UInt16}
    (hle : min capacity 0x10000 ≤ address.toNat + 1) :
    ∃ e, memory.readWord address = .error e := by
  rw [Memory.readWord]
  by_cases hfirst : address.toNat < capacity
  · rw [h.at? _ hfirst]
    by_cases hnext : address.toNat + 1 < 0x10000
    · have hnone : memory.at? (address.toNat + 1) = none := by
        rw [h.at?_eq, if_neg (by omega)]
      exact ⟨⟨address.toNat + 1⟩, by simp only [hnext, if_true, hnone]⟩
    · exact ⟨⟨address.toNat + 1⟩, by simp only [hnext, if_false]⟩
  · rw [h.at?_eq, if_neg hfirst]
    exact ⟨⟨address.toNat⟩, rfl⟩

theorem getElem?_slice (memory : Memory) (start count k : Nat) :
    (memory.slice start count)[k]? = if k < count then memory.at? (start + k) else none := by
  rw [slice, Array.toList_extract, List.extract_eq_take_drop, Nat.add_sub_cancel_left,
    List.getElem?_take, List.getElem?_drop, at?, Array.getElem?_toList]

/-- A window shows the cells at its addresses, as far as they lie inside the memory. -/
theorem slice_eq_filterMap (memory : Memory) (start count : Nat) :
    memory.slice start count = (List.range' start count).filterMap memory.at? := by
  rw [slice, Array.toList_extract, List.extract_eq_take_drop, Nat.add_sub_cancel_left]
  induction count generalizing start with
  | zero => rw [List.take_zero, List.range'_zero, List.filterMap_nil]
  | succ count ih =>
      have hat : memory.cells.toList[start]? = memory.at? start := Array.getElem?_toList
      rw [List.range'_succ, List.drop_eq_getElem?_toList_append, hat]
      cases hcell : memory.at? start with
      | none =>
          have hend : memory.cells.toList.length ≤ start + 1 := by
            have hle := (memory.at?_eq_none_iff start).mp hcell
            rw [Array.length_toList]
            exact Nat.le_succ_of_le hle
          rw [List.filterMap_cons_none hcell, ← ih, List.drop_eq_nil_of_le hend, List.take_nil]
          rfl
      | some b =>
          rw [List.filterMap_cons_some hcell, ← ih]
          rfl

theorem IsMap.slice (h : memory.IsMap capacity byte) (start count : Nat) :
    memory.slice start count =
      (List.range' start (min (start + count) capacity - start)).map byte := by
  apply List.ext_getElem?
  intro k
  rw [getElem?_slice, h.at?_eq, List.getElem?_map]
  by_cases hk : k < min (start + count) capacity - start
  · rw [if_pos (by omega), if_pos (by omega), List.getElem?_range' hk, Nat.one_mul]
    rfl
  · rw [List.getElem?_eq_none (by rw [List.length_range']; omega)]
    by_cases hcount : k < count
    · rw [if_pos hcount, if_neg (by omega)]
      rfl
    · rw [if_neg hcount]
      rfl

theorem IsMap.readWord_error_iff (h : memory.IsMap capacity byte) (address : UInt16) :
    (∃ e, memory.readWord address = .error e) ↔ min capacity 0x10000 ≤ address.toNat + 1 := by
  refine ⟨?_, h.readWord_of_le⟩
  rintro ⟨e, he⟩
  by_contra hlt
  rw [h.readWord_of_lt (Nat.lt_of_not_le hlt)] at he
  cases he

/-- A word consists of the bytes at its address and at the next one. -/
theorem IsMap.halves_of_readWord (h : memory.IsMap capacity byte) {address word : UInt16}
    (hword : memory.readWord address = .ok word) :
    ∃ low high, memory.read address = .ok low ∧ memory.read (address + 1) = .ok high ∧
      word.toNat = low.toNat + 256 * high.toNat := by
  have hlt : address.toNat + 1 < min capacity 0x10000 := by
    by_contra hle
    obtain ⟨e, he⟩ := h.readWord_of_le (Nat.le_of_not_lt hle)
    rw [he] at hword
    cases hword
  have hnext : (address + 1).toNat = address.toNat + 1 :=
    toNat_add_of_lt (b := 1) (Nat.lt_min.mp hlt).2
  rw [h.readWord_of_lt hlt] at hword
  refine ⟨byte address.toNat, byte (address.toNat + 1), ?_, ?_, ?_⟩
  · rw [h.read, if_pos (Nat.lt_of_succ_lt (Nat.lt_min.mp hlt).1)]
  · rw [h.read, hnext, if_pos (Nat.lt_min.mp hlt).1]
  · rw [← Except.ok.inj hword, joinBytes_toNat]

theorem write_error_iff (memory : Memory) (address : UInt16) (value : UInt8) :
    (∃ e, memory.write address value = .error e) ↔ memory.size ≤ address.toNat := by
  rw [write]
  split
  · rename_i hin
    simp [hin]
  · rename_i hout
    simpa using hout

theorem writeWord_error_iff (memory : Memory) (address value : UInt16) :
    (∃ e, memory.writeWord address value = .error e) ↔ memory.size ≤ address.toNat + 1 := by
  rw [writeWord]
  split
  · rename_i hin
    simp [hin]
  · rename_i hout
    simpa using hout

/-- A memory is the map of the bytes that its history has left. No operation changes its size, and
one that fails changes nothing at all. A byte cannot be written behind the last cell, nor a word
that ends there; a word cannot be read where one of its two cells is missing or has no address.
Every reader shows the bytes of the map. -/
theorem performAll_contents (capacity : Nat) (history : List MemoryOperation) :
    let memory := (zeroed capacity).performAll history
    memory.size = capacity ∧
    (∀ operation failure, (memory.perform operation).2 = some failure →
      (memory.perform operation).1 = memory) ∧
    (∀ operation, (memory.perform operation).2 = none ↔ operation.fits capacity = true) ∧
    (∀ address value, (∃ e, memory.write address value = .error e) ↔ capacity ≤ address.toNat) ∧
    (∀ address value,
      (∃ e, memory.writeWord address value = .error e) ↔ capacity ≤ address.toNat + 1) ∧
    (∀ address,
      (∃ e, memory.readWord address = .error e) ↔ min capacity 0x10000 ≤ address.toNat + 1) ∧
    (∀ address, memory.read address =
      if address.toNat < capacity then .ok (lastByte capacity history address.toNat)
      else .error ⟨address.toNat⟩) ∧
    (∀ address word, memory.readWord address = .ok word →
      ∃ low high, memory.read address = .ok low ∧ memory.read (address + 1) = .ok high ∧
        word.toNat = low.toNat + 256 * high.toNat) ∧
    ∀ start count, memory.slice start count =
      (List.range' start (min (start + count) capacity - start)).map
        (lastByte capacity history) := by
  intro memory
  have hmap : memory.IsMap capacity (lastByte capacity history) :=
    isMap_performAll capacity history
  refine ⟨hmap.size, fun _ _ => kept_of_failure, ?_, ?_, ?_, hmap.readWord_error_iff, hmap.read,
    fun _ _ => hmap.halves_of_readWord, hmap.slice⟩
  · intro operation
    rw [succeeds_iff, hmap.size]
  · intro address value
    rw [write_error_iff, hmap.size]
  · intro address value
    rw [writeWord_error_iff, hmap.size]

/-- Three bytes at the end of a memory, a word that does not fit behind them, a word that overlaps
the first of them, and a byte outside. -/
def overlapping : List MemoryOperation :=
  [.load 5 [1, 2, 3], .writeWord 7 0x1234, .writeWord 4 0xBEEF, .write 8 9]

theorem performAll_overlapping :
    ((zeroed 8).performAll overlapping).slice 3 100 = [0, 0xEF, 0xBE, 2, 3] ∧
    ((zeroed 8).performAll overlapping).readWord 4 = .ok 0xBEEF ∧
    ∃ low high, ((zeroed 8).performAll overlapping).read 4 = .ok low ∧
      ((zeroed 8).performAll overlapping).read 5 = .ok high ∧
      0xBEEF = low.toNat + 256 * high.toNat := by
  have hword : ((zeroed 8).performAll overlapping).readWord 4 = .ok 0xBEEF := by decide
  obtain ⟨_, _, _, _, _, _, _, hhalves, hslice⟩ := performAll_contents 8 overlapping
  exact ⟨(hslice 3 100).trans (by decide), hword, hhalves 4 0xBEEF hword⟩

/-- In a memory with a cell behind the last address, a word is not read at that address, although
it has been written there. -/
theorem readWord_at_last_address :
    ¬ ((∃ e, ((zeroed 0x10001).performAll [.writeWord 0xFFFF 0x0201]).readWord 0xFFFF = .error e) ↔
      0x10001 ≤ (0xFFFF : UInt16).toNat + 1) := by
  have hmap := isMap_performAll 0x10001 [.writeWord 0xFFFF 0x0201]
  intro hiff
  exact absurd (hiff.mp (hmap.readWord_of_le (by decide))) (by decide)

end Memory
end Accumulator
