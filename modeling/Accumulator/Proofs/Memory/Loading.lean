import Accumulator.Proofs.Memory.ByteMap

/-!
# Loading all or nothing

Bytes that fit between an offset and the end of memory are placed there, and no other cell changes.
Bytes that do not fit are refused as too many, and then nothing changes. There is one exception.
The room behind an offset past the end counts as zero bytes, so that no bytes at all are not too
many for it. They pass the test of the size and fail at the copy.
-/

namespace Accumulator.Memory

variable {memory : Memory} {bytes : List UInt8}

/-- A memory differs from another one only in that it holds bytes at an offset. -/
structure Receives (memory : Memory) (offset : Nat) (bytes : List UInt8) (next : Memory) :
    Prop where
  size : next.size = memory.size
  inside : ∀ k < bytes.length, next.at? (offset + k) = bytes[k]?
  outside : ∀ cell, cell < offset ∨ offset + bytes.length ≤ cell →
    next.at? cell = memory.at? cell

/-- Bytes that fit are placed and all others are refused as too many, with the number of bytes for
which there is room. -/
def LoadsTotally (memory : Memory) (offset : UInt16) (bytes : List UInt8) : Prop :=
  if offset.toNat + bytes.length ≤ memory.size then
    ∃ next, memory.perform (.load offset bytes) = (next, none) ∧
      memory.Receives offset.toNat bytes next
  else
    memory.perform (.load offset bytes) =
      (memory, some (.load (.tooLarge bytes.length (memory.size - offset.toNat))))

theorem receives_putAll {start : Nat} (h : start + bytes.length ≤ memory.size) :
    memory.Receives start bytes (memory.putAll start bytes) where
  size := size_putAll ..
  inside := by
    intro k hk
    rw [at?_putAll, if_pos (by omega), Nat.add_sub_cancel_left]
  outside := by
    intro cell hcell
    rw [at?_putAll, if_neg (by omega)]

theorem perform_load (memory : Memory) (offset : UInt16) (bytes : List UInt8) :
    memory.perform (.load offset bytes) =
      if offset.toNat + bytes.length ≤ memory.size then
        (memory.putAll offset.toNat bytes, none)
      else if bytes = [] then (memory, some (.load (.pastEnd offset.toNat)))
      else (memory, some (.load (.tooLarge bytes.length (memory.size - offset.toNat)))) := by
  rw [perform, attempt, load_eq]
  by_cases hfit : offset.toNat + bytes.length ≤ memory.size
  · rw [if_pos hfit, if_pos hfit]
    rfl
  · rw [if_neg hfit, if_neg hfit]
    by_cases hnone : bytes = []
    · rw [if_pos hnone, if_pos hnone]
      rfl
    · rw [if_neg hnone, if_neg hnone]
      rfl

/-- Loading places all of the bytes or changes nothing, and it refuses bytes that do not fit as too
many, except where there are none and the offset is past the end of memory. Exactly there it fails
in another way. -/
theorem loadsTotally_iff (memory : Memory) (offset : UInt16) (bytes : List UInt8) :
    (memory.LoadsTotally offset bytes ↔ ¬ (bytes = [] ∧ memory.size < offset.toNat)) ∧
    (memory.perform (.load offset bytes) = (memory, some (.load (.pastEnd offset.toNat))) ↔
      bytes = [] ∧ memory.size < offset.toNat) := by
  have hkinds : ∀ room, (memory, some (MemoryFailure.load (.tooLarge bytes.length room))) ≠
      (memory, some (MemoryFailure.load (.pastEnd offset.toNat))) := by
    intro room h
    cases h
  rw [LoadsTotally, perform_load]
  by_cases hpast : bytes = [] ∧ memory.size < offset.toNat
  · have hout : ¬ offset.toNat + bytes.length ≤ memory.size := by omega
    rw [if_neg hout, if_neg hout, if_pos hpast.1]
    exact ⟨iff_of_false (hkinds _).symm (not_not_intro hpast), iff_of_true rfl hpast⟩
  · by_cases hfit : offset.toNat + bytes.length ≤ memory.size
    · rw [if_pos hfit, if_pos hfit]
      refine ⟨iff_of_true ⟨_, rfl, receives_putAll hfit⟩ hpast, iff_of_false ?_ hpast⟩
      intro h
      cases congrArg Prod.snd h
    · have hsome : bytes ≠ [] := by
        rintro rfl
        rw [List.length_nil] at hfit
        exact hpast ⟨rfl, by omega⟩
      rw [if_neg hfit, if_neg hfit, if_neg hsome]
      exact ⟨iff_of_true rfl hpast, iff_of_false (hkinds _) hpast⟩

/-- No bytes past the end of a memory are not refused as too many. -/
theorem load_nothing_past_end :
    (zeroed 4).perform (.load 5 []) = (zeroed 4, some (.load (.pastEnd 5))) ∧
    ¬ (zeroed 4).LoadsTotally 5 [] := by
  have hperform : (zeroed 4).perform (.load 5 []) = (zeroed 4, some (.load (.pastEnd 5))) := by
    decide
  refine ⟨hperform, ?_⟩
  rw [LoadsTotally, if_neg (by decide), hperform]
  decide

end Accumulator.Memory
