import Accumulator.Proofs.Machine.Loading
import Accumulator.Proofs.Machine.StoredPrograms

/-!
# Room for the first call

A valid layout has two bytes for a frame behind the start of its stack region, and that is room for
a call, with one exception. A frame in the last two bytes of the address space would leave the stack
pointer without an address, so the valid layout whose stack region consists of just these two bytes
holds no frame at all.
-/

namespace Accumulator

namespace Layout

variable {layout : Layout}

/-- The stack region is the last frame of the address space. -/
def IsTopmost (layout : Layout) : Prop :=
  layout.capacity = maxCapacity ∧ layout.stackStart = 0xFFFE

instance (layout : Layout) : Decidable layout.IsTopmost :=
  inferInstanceAs (Decidable (_ ∧ _))

theorem Valid.stackDepth_eq_zero_iff (h : layout.Valid) :
    layout.stackDepth = 0 ↔ layout.IsTopmost := by
  have hcapacity := h.capacity_le
  have hstack := h.stack_le
  have hstart : layout.stackStart = 0xFFFE ↔ layout.stackStart.toNat = 0xFFFE :=
    UInt16.toNat_inj.symm
  rw [IsTopmost, hstart, stackDepth]
  simp only [maxCapacity, frameSize] at hcapacity hstack ⊢
  omega

end Layout

namespace Machine

variable {layout : Layout} {m : Machine}

/-- None of several events executes a call. -/
def CallFree : Machine → List Event → Prop
  | _, [] => True
  | m, e :: rest => m.stackMove e ≠ .push ∧ (m.respond e).CallFree rest

/-- Without a call there is nothing to return from, so the call stack stays empty. -/
theorem Framed.respond_of_empty {e : Event} (h : m.Framed layout) (hempty : m.callStack = [])
    (hmove : m.stackMove e ≠ .push) : (m.respond e).callStack = [] := by
  have hnext := h.respond e
  rw [← List.length_eq_zero_iff, hnext.length_callStack]
  rw [← List.length_eq_zero_iff, h.length_callStack] at hempty
  cases hcase : m.stackMove e with
  | push => exact absurd hcase hmove
  | pop =>
      have hstart := h.stackStart_eq
      cases changes_of_stackMove hcase with
      | pop frame => omega
  | keep =>
      cases changes_of_stackMove hcase with
      | keep hlayout sp => rw [sp, hempty]

theorem Framed.respondAll_of_empty {events : List Event} (h : m.Framed layout)
    (hempty : m.callStack = []) (hfree : m.CallFree events) :
    (m.respondAll events).Framed layout ∧ (m.respondAll events).callStack = [] := by
  induction events generalizing m with
  | nil => exact ⟨h, hempty⟩
  | cons e rest ih => exact ih (h.respond e) (h.respond_of_empty hempty hfree.1) hfree.2

/-- On an empty call stack, only the topmost stack region has no room for a call. -/
theorem Framed.step_call_of_empty (h : m.Framed layout) (hempty : m.callStack = [])
    {target : UInt16} {next : Nat} (hfetch : m.fetch = .ok (.call target, next))
    (hend : next ≠ 0x10000) :
    m.step.2 = if layout.IsTopmost then .error ⟨.stackOverflow, m.registers.pc⟩
      else .ok (.call target) := by
  have hdepth : m.callStack.length = layout.stackDepth ↔ layout.IsTopmost := by
    rw [hempty, List.length_nil, eq_comm]
    exact h.valid.stackDepth_eq_zero_iff
  rw [h.step_call hfetch hend, if_congr hdepth rfl rfl]

theorem callStack_blank (layout : Layout) : (blank layout).callStack = [] :=
  (stacks_nil rfl).callStack

/-- A layout that is accepted has room for a frame, and its machine carries out the first call that
it comes to, whatever has been done to it before, except where the stack region is the last frame of
the address space: then there is no room, and the first call overflows. -/
theorem first_call_fits (accepted : ofLayout layout = .ok m) :
    (1 ≤ layout.stackDepth ↔ ¬ layout.IsTopmost) ∧
    ∀ events target next, m.CallFree events →
      (m.respondAll events).fetch = .ok (.call target, next) → next ≠ 0x10000 →
        (m.respondAll events).step.2 =
          if layout.IsTopmost then .error ⟨.stackOverflow, (m.respondAll events).registers.pc⟩
          else .ok (.call target) := by
  have hframed := (Reachable.ofLayout accepted).framed
  have hempty : m.callStack = [] := by
    rw [(ofLayout_ok_iff.mp accepted).2, callStack_blank]
  constructor
  · rw [Nat.one_le_iff_ne_zero, ne_eq, hframed.valid.stackDepth_eq_zero_iff]
  · intro events target next hfree hfetch hend
    obtain ⟨hlater, hstack⟩ := hframed.respondAll_of_empty hempty hfree
    exact hlater.step_call_of_empty hstack hfetch hend

/-- A program that writes a byte, and whose next instruction is a call. -/
def writeThenCall : List UInt8 := [0x11, 0x07, 0x22, 0x08, 0x00, 0x42, 0x0A, 0x00]

/-- One frame is room enough for the first call, which the machine comes to after a write. -/
theorem first_call_fits_once :
    ofLayout ⟨16, 0, 14⟩ = .ok (blank ⟨16, 0, 14⟩) ∧ 1 ≤ Layout.stackDepth ⟨16, 0, 14⟩ ∧
    (blank ⟨16, 0, 14⟩).CallFree [.load 0 writeThenCall, .step, .step] ∧
    ((blank ⟨16, 0, 14⟩).respondAll [.load 0 writeThenCall, .step, .step]).fetch =
      .ok (.call 10, 8) ∧
    ((blank ⟨16, 0, 14⟩).respondAll [.load 0 writeThenCall, .step, .step]).step.2 =
      .ok (.call 10) := by
  have haccepted : ofLayout ⟨16, 0, 14⟩ = .ok (blank ⟨16, 0, 14⟩) := rfl
  have hother : ¬ Layout.IsTopmost ⟨16, 0, 14⟩ := by decide
  have hfree : (blank ⟨16, 0, 14⟩).CallFree [.load 0 writeThenCall, .step, .step] :=
    ⟨by decide, by decide, by decide, trivial⟩
  have hfetch : ((blank ⟨16, 0, 14⟩).respondAll [.load 0 writeThenCall, .step, .step]).fetch =
      .ok (.call 10, 8) := by
    decide +kernel
  obtain ⟨hroom, hcall⟩ := first_call_fits haccepted
  refine ⟨haccepted, hroom.mpr hother, hfree, hfetch, ?_⟩
  rw [hcall _ 10 8 hfree hfetch (by decide), if_neg hother]

/-- The layout whose stack region is the last frame of the address space. -/
def topmostLayout : Layout := ⟨0x10000, 0, 0xFFFE⟩

/-- The layout with the topmost stack region is accepted although it holds no frame. The first
instruction of a program in its machine is refused if it is a call. -/
theorem topmostLayout_overflows :
    topmostLayout.validate = .ok topmostLayout ∧ topmostLayout.stackDepth = 0 ∧
    ∃ loaded, (blank topmostLayout).loadProgram (Instruction.call 0).encode = .ok loaded ∧
      loaded.fetch = .ok (.call 0, 3) ∧ loaded.step.2 = .error ⟨.stackOverflow, 0⟩ := by
  have haccepted : ofLayout topmostLayout = .ok (blank topmostLayout) := rfl
  obtain ⟨memory, hload⟩ : ∃ memory, (blank topmostLayout).loadProgram (Instruction.call 0).encode =
      .ok { blank topmostLayout with memory := memory } :=
    ⟨_, (builtFor_blank topmostLayout).loadProgram_of_le (by decide)⟩
  generalize hloaded : { blank topmostLayout with memory := memory } = loaded at hload
  have hframed := ((Reachable.ofLayout haccepted).loadProgram hload).framed
  have hpc : loaded.registers.pc = 0 := by
    rw [← hloaded]
    rfl
  have hempty : loaded.callStack = [] := by
    apply (stacks_nil _).callStack
    rw [← hloaded]
    rfl
  have hholds : loaded.Holds loaded.registers.pc.toNat (Instruction.call 0).encode := by
    intro k hk
    rw [hpc]
    exact at?_of_loadProgram hload hk
  have hfetch : loaded.fetch = .ok (.call 0, 3) := by
    have hdecode := hholds.decode (fun byte hbyte => Instruction.noConfusion hbyte)
    rw [fetch_of_decode hdecode (by rw [hpc]; decide), hpc]
    rfl
  refine ⟨rfl, rfl, loaded, hload, hfetch, ?_⟩
  rw [hframed.step_call_of_empty hempty hfetch (by decide), if_pos (by decide), hpc]

end Machine
end Accumulator
