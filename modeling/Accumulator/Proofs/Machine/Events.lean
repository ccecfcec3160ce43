import Accumulator.Proofs.Machine.Effects

/-!
# Events in the life of a machine

Between two looks at a machine it may take a step, or its host may write to its memory or change
registers other than the stack pointer. An operation that fails leaves the machine as it was. The
cells that an event writes, apart from the frame that a call pushes, are listed; all others keep
their contents.
-/

namespace Accumulator

/-- What happens to a machine at a time. -/
inductive Event
  /-- The machine takes a step. -/
  | step
  /-- The host writes a byte. -/
  | write (address : UInt16) (value : UInt8)
  /-- The host writes a word. -/
  | writeWord (address value : UInt16)
  /-- The host places bytes in memory. -/
  | load (offset : UInt16) (bytes : List UInt8)
  /-- The host sets the registers other than the stack pointer. -/
  | setRegisters (pc : UInt16) (acc : UInt8) (flags : Flags)
  deriving DecidableEq, Repr

namespace Machine

/-- The machine after an event. -/
def respond (m : Machine) : Event → Machine
  | .step => m.step.1
  | .write address value => (m.write address value).toOption.getD m
  | .writeWord address value => (m.writeWord address value).toOption.getD m
  | .load offset bytes => (m.loadAt offset bytes).toOption.getD m
  | .setRegisters pc acc flags => m.setRegisters ⟨pc, acc, m.registers.sp, flags⟩

/-- The machine after several events. -/
def respondAll (m : Machine) (events : List Event) : Machine := events.foldl respond m

/-- The instruction that an event executes. -/
def executed? (m : Machine) : Event → Option Instruction
  | .step => m.step.2.toOption
  | _ => none

/-- What an event does to the call stack. -/
def stackMove (m : Machine) (e : Event) : StackMove :=
  ((m.executed? e).map Instruction.stackMove).getD .keep

/-- The cells that an event writes, apart from the frame that a call pushes. -/
def touched (m : Machine) : Event → List Nat
  | .step => (m.step.2.toOption.bind Instruction.storeAddress?).toList.map UInt16.toNat
  | .write address value => if (m.write address value).isOk then [address.toNat] else []
  | .writeWord address value =>
      if (m.writeWord address value).isOk then [address.toNat, address.toNat + 1] else []
  | .load offset bytes =>
      if (m.loadAt offset bytes).isOk then List.range' offset.toNat bytes.length else []
  | .setRegisters _ _ _ => []

theorem changes_write (m : Machine) (address : UInt16) (value : UInt8) :
    m.Changes (m.respond (.write address value)) (m.touched (.write address value)) .keep := by
  rw [respond, touched, write, Memory.write]
  by_cases hin : address.toNat < m.memory.size
  · rw [if_pos hin]
    constructor
    · rfl
    · rfl
    · intro cell hcell
      apply at?_put_of_ne
      rintro rfl
      exact hcell (List.mem_singleton_self _)
  · rw [if_neg hin]
    exact .refl m _

theorem changes_writeWord (m : Machine) (address value : UInt16) :
    m.Changes (m.respond (.writeWord address value)) (m.touched (.writeWord address value))
      .keep := by
  rw [respond, touched, writeWord, Memory.writeWord]
  by_cases hin : address.toNat + 1 < m.memory.size
  · rw [if_pos hin]
    constructor
    · rfl
    · rfl
    · intro cell hcell
      have hfirst : cell ≠ address.toNat := by
        rintro rfl
        exact hcell (List.mem_cons_self ..)
      have hsecond : cell ≠ address.toNat + 1 := by
        rintro rfl
        exact hcell (List.mem_cons_of_mem _ (List.mem_singleton_self _))
      exact (at?_put_of_ne hsecond).trans (at?_put_of_ne hfirst)
  · rw [if_neg hin]
    exact .refl m _

theorem eq_putAll_of_load {memory memory' : Memory} {offset : UInt16} {bytes : List UInt8}
    (h : memory.load offset bytes = .ok memory') : memory' = memory.putAll offset.toNat bytes := by
  rw [Memory.load] at h
  by_cases hlarge : memory.size - offset.toNat < bytes.length
  · simp [hlarge] at h
  · by_cases hpast : memory.size < offset.toNat
    · simp [hlarge, hpast] at h
    · rw [if_neg hlarge, if_neg hpast, Except.ok.injEq] at h
      exact h.symm

/-- A program that has been loaded is found from the start of the heap on. -/
theorem at?_of_loadProgram {m loaded : Machine} {program : List UInt8}
    (h : m.loadProgram program = .ok loaded) {k : Nat} (hk : k < program.length) :
    loaded.memory.at? (m.layout.heapStart.toNat + k) = program[k]? := by
  obtain ⟨memory, hload, rfl⟩ := exists_of_map_ok h
  have hroom : program.length ≤ m.memory.size - m.layout.heapStart.toNat := by
    by_contra hlarge
    rw [Memory.load, if_pos (Nat.lt_of_not_le hlarge)] at hload
    cases hload
  rw [eq_putAll_of_load hload, Memory.at?_putAll, if_pos (by omega), Nat.add_sub_cancel_left]

theorem changes_load (m : Machine) (offset : UInt16) (bytes : List UInt8) :
    m.Changes (m.respond (.load offset bytes)) (m.touched (.load offset bytes)) .keep := by
  rw [respond, touched, loadAt]
  cases hload : m.memory.load offset bytes with
  | error e => exact .refl m _
  | ok memory =>
      obtain rfl := eq_putAll_of_load hload
      constructor
      · rfl
      · rfl
      · intro cell hcell
        refine (Memory.at?_putAll ..).trans (if_neg ?_)
        rintro ⟨hge, hlt, _⟩
        exact hcell (List.mem_range'_1.mpr ⟨hge, hlt⟩)

theorem executed?_step {m m' : Machine} {i : Instruction} (h : m.step = (m', .ok i)) :
    m.executed? .step = some i := by
  rw [executed?, h]
  rfl

theorem changes_step (m : Machine) :
    m.Changes (m.respond .step) (m.touched .step) (m.stackMove .step) := by
  cases hstep : m.step with
  | mk m' result =>
      rw [respond, touched, stackMove, executed?, hstep]
      cases result with
      | error fault =>
          rw [(step_error_iff.mp hstep).1]
          exact .refl m _
      | ok i => exact changes_of_step hstep

/-- Every event moves the call stack as it says and changes only the cells that it touches. -/
theorem changes_respond (m : Machine) (e : Event) :
    m.Changes (m.respond e) (m.touched e) (m.stackMove e) := by
  cases e with
  | step => exact m.changes_step
  | write address value => exact m.changes_write address value
  | writeWord address value => exact m.changes_writeWord address value
  | load offset bytes => exact m.changes_load offset bytes
  | setRegisters pc acc flags => exact .keep rfl rfl fun _ _ => rfl

theorem changes_of_stackMove {m : Machine} {e : Event} {move : StackMove}
    (h : m.stackMove e = move) : m.Changes (m.respond e) (m.touched e) move := by
  rw [← h]
  exact m.changes_respond e

end Machine
end Accumulator
