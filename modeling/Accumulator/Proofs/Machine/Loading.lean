import Accumulator.Proofs.Machine.Footprint
import Accumulator.Proofs.Memory.ByteMap

/-!
# Loading programs

A machine built for a layout keeps it whatever it executes, so a reset leads back to the machine
that the layout starts with. A program is loaded if it fits between the start of the heap and the
end of memory, and is refused otherwise; with a valid layout there is no other case.
-/

namespace Accumulator.Machine

variable {layout : Layout} {m m' : Machine} {program : List UInt8}

/-! ## Machines built for a layout -/

/-- A machine has a given layout and a memory of its capacity. -/
structure BuiltFor (layout : Layout) (m : Machine) : Prop where
  layout_eq : m.layout = layout
  size : m.memory.size = layout.capacity

theorem builtFor_blank (layout : Layout) : (blank layout).BuiltFor layout :=
  ⟨rfl, Memory.size_zeroed layout.capacity⟩

theorem ofLayout_ok_iff : ofLayout layout = .ok m ↔ layout.Valid ∧ m = blank layout := by
  constructor
  · intro h
    obtain ⟨accepted, haccepted, rfl⟩ := exists_of_map_ok h
    obtain ⟨hvalid, rfl⟩ := Layout.validate_ok_iff.mp haccepted
    exact ⟨hvalid, rfl⟩
  · rintro ⟨hvalid, rfl⟩
    rw [ofLayout, Layout.validate_ok_iff.mpr ⟨hvalid, rfl⟩]
    rfl

theorem layout_step (m : Machine) : m.step.1.layout = m.layout := by
  cases hstep : m.step with
  | mk next result =>
      cases result with
      | error fault => rw [(step_error_iff.mp hstep).1]
      | ok i =>
          obtain ⟨effect, _, rfl⟩ := step_ok_iff.mp hstep
          rfl

theorem BuiltFor.step (h : m.BuiltFor layout) : m.step.1.BuiltFor layout :=
  ⟨m.layout_step.trans h.layout_eq, m.size_step.trans h.size⟩

theorem BuiltFor.path {instructions : List Instruction} (h : m.BuiltFor layout)
    (hpath : m.Path instructions m') : m'.BuiltFor layout := by
  induction hpath with
  | nil m => exact h
  | cons step path ih =>
      have hnext := h.step
      rw [step] at hnext
      exact ih hnext

theorem BuiltFor.run (h : m.BuiltFor layout) (budget : Nat) :
    (m.run budget).1.BuiltFor layout := by
  obtain ⟨instructions, hpath, _⟩ := m.exists_path_run budget
  exact h.path hpath

/-- A reset leaves nothing of a machine but its layout. -/
theorem BuiltFor.reset_eq (h : m.BuiltFor layout) : m.reset = blank layout := by
  obtain ⟨rfl, hsize⟩ := h
  rw [reset, Memory.clear, hsize]
  rfl

/-! ## Programs -/

theorem BuiltFor.loadProgram_of_le (h : m.BuiltFor layout)
    (hroom : layout.heapStart.toNat + program.length ≤ layout.capacity) :
    m.loadProgram program =
      .ok { m with memory := m.memory.putAll layout.heapStart.toNat program } := by
  obtain ⟨rfl, hsize⟩ := h
  rw [loadProgram, loadAt, Memory.load_eq_ok (hsize.symm ▸ hroom)]
  rfl

theorem BuiltFor.loadProgram_of_lt (h : m.BuiltFor layout) (hvalid : layout.Valid)
    (hlarge : layout.capacity < layout.heapStart.toNat + program.length) :
    m.loadProgram program =
      .error (.tooLarge program.length (layout.capacity - layout.heapStart.toNat)) := by
  obtain ⟨rfl, hsize⟩ := h
  have hheap := hvalid.heap_lt
  have hsome : program ≠ [] := by
    rintro rfl
    rw [List.length_nil] at hlarge
    omega
  rw [loadProgram, loadAt, Memory.load_eq, hsize, if_neg (Nat.not_le_of_lt hlarge), if_neg hsome]
  rfl

theorem BuiltFor.loaded {loaded : Machine} (h : m.BuiltFor layout)
    (hloaded : m.loadProgram program = .ok loaded) : loaded.BuiltFor layout := by
  obtain ⟨memory, hmemory, rfl⟩ := exists_of_map_ok hloaded
  rw [eq_putAll_of_load hmemory]
  exact ⟨h.layout_eq, (Memory.size_putAll ..).trans h.size⟩

end Accumulator.Machine
