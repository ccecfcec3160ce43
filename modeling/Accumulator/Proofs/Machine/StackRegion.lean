import Accumulator.Proofs.Machine.CallStack
import Accumulator.Proofs.Machine.Composition

/-!
# The stack region

On a machine whose stack pointer is moved by calls and returns alone, the stack pointer stays inside
the stack region and a whole number of frames behind its start, and the call stack has one return
address for each of these frames. A call overflows exactly when the layout holds no more of them,
and a return fails exactly when there are none.
-/

namespace Accumulator

namespace Memory

variable {memory memory' : Memory}

theorem size_of_write {address : UInt16} {value : UInt8}
    (h : memory.write address value = .ok memory') : memory'.size = memory.size := by
  rw [write] at h
  split at h
  · rw [← Except.ok.inj h, size_put]
  · cases h

theorem size_of_writeWord {address value : UInt16}
    (h : memory.writeWord address value = .ok memory') : memory'.size = memory.size := by
  rw [writeWord] at h
  split at h
  · rw [← Except.ok.inj h, size_put, size_put]
  · cases h

/-- Any two neighbouring cells hold a word. -/
theorem exists_holdsWord {address : Nat} (h : address + 1 < memory.size) :
    ∃ word, memory.HoldsWord address word := by
  obtain ⟨low, hlow⟩ := exists_at? (Nat.lt_of_succ_lt h)
  obtain ⟨high, hhigh⟩ := exists_at? h
  refine ⟨joinBytes low high, ?_, ?_⟩
  · rw [hlow, lowByte_joinBytes]
  · rw [hhigh, highByte_joinBytes]

end Memory

namespace Machine

variable {layout : Layout} {m m' : Machine}

/-! ## Reachable machines -/

/-- The machines that a layout leads to as long as no one assigns the stack pointer. -/
inductive Reachable (layout : Layout) : Machine → Prop
  | ofLayout {m : Machine} (accepted : ofLayout layout = .ok m) : Reachable layout m
  | restart {m : Machine} (h : Reachable layout m) : Reachable layout m.restart
  | reset {m : Machine} (h : Reachable layout m) : Reachable layout m.reset
  | run {m : Machine} (h : Reachable layout m) (budget : Nat) : Reachable layout (m.run budget).1
  | loadProgram {m loaded : Machine} {program : List UInt8} (h : Reachable layout m)
      (fits : m.loadProgram program = .ok loaded) : Reachable layout loaded
  | event {m : Machine} (h : Reachable layout m) (e : Event) : Reachable layout (m.respond e)

/-- The memory is that of the layout, and the stack pointer is inside the stack region, a whole
number of frames behind its start. -/
structure Framed (layout : Layout) (m : Machine) : Prop where
  valid : layout.Valid
  layout_eq : m.layout = layout
  size : m.memory.size = layout.capacity
  start_le : layout.stackStart.toNat ≤ m.registers.sp.toNat
  le_limit : m.registers.sp.toNat ≤ min layout.capacity 0xFFFF
  even : (m.registers.sp.toNat - layout.stackStart.toNat) % 2 = 0

/-! ## The memory keeps its size -/

theorem size_storeAll (memory : Memory) (stores : List (UInt16 × UInt8)) :
    (storeAll memory stores).size = memory.size := by
  induction stores generalizing memory with
  | nil => rfl
  | cons store rest ih => exact (ih (memory.put store.1.toNat store.2)).trans (Memory.size_put ..)

theorem size_step (m : Machine) : m.step.1.memory.size = m.memory.size := by
  cases hstep : m.step with
  | mk next result =>
      cases result with
      | error fault => rw [(step_error_iff.mp hstep).1]
      | ok i =>
          obtain ⟨effect, _, rfl⟩ := step_ok_iff.mp hstep
          exact size_storeAll m.memory effect.stores

theorem size_respond (m : Machine) (e : Event) : (m.respond e).memory.size = m.memory.size := by
  cases e with
  | step => exact size_step m
  | write address value =>
      rw [respond, write]
      cases hwrite : m.memory.write address value with
      | error e => rfl
      | ok memory => exact Memory.size_of_write hwrite
  | writeWord address value =>
      rw [respond, writeWord]
      cases hwrite : m.memory.writeWord address value with
      | error e => rfl
      | ok memory => exact Memory.size_of_writeWord hwrite
  | load offset bytes =>
      rw [respond, loadAt]
      cases hload : m.memory.load offset bytes with
      | error e => rfl
      | ok memory =>
          rw [eq_putAll_of_load hload]
          exact Memory.size_putAll ..
  | setRegisters pc acc flags => rfl

/-! ## The invariant -/

theorem Framed.of_start (hvalid : layout.Valid) (hlayout : m.layout = layout)
    (hsize : m.memory.size = layout.capacity) (hsp : m.registers.sp = layout.stackStart) :
    m.Framed layout := by
  have hstart := hvalid.stack_le
  have hword := layout.stackStart.toNat_lt
  refine ⟨hvalid, hlayout, hsize, ?_, ?_, ?_⟩
  · exact Nat.le_of_eq (congrArg UInt16.toNat hsp.symm)
  · rw [hsp, Nat.le_min]
    simp only [Layout.frameSize] at hstart
    omega
  · rw [hsp, Nat.sub_self]

theorem Framed.changes {cells : List Nat} {move : StackMove} (h : m.Framed layout)
    (hchanges : m.Changes m' cells move) (hsize : m'.memory.size = m.memory.size) :
    m'.Framed layout := by
  have hstart := h.start_le
  have hlimit := h.le_limit
  have heven := h.even
  have hkept := hsize.trans h.size
  cases hchanges with
  | push next room hlayout sp =>
      have hroom : m.registers.sp.toNat + 2 ≤ layout.capacity := h.size ▸ room
      have hword := m'.registers.sp.toNat_lt
      refine ⟨h.valid, hlayout.trans h.layout_eq, hkept, ?_, ?_, ?_⟩
      · rw [sp]
        omega
      · rw [Nat.le_min]
        omega
      · rw [sp]
        omega
  | pop frame pc hlayout sp =>
      rw [h.layout_eq] at frame
      have hsub : (m.registers.sp - 2).toNat = m.registers.sp.toNat - 2 := toNat_sub_two frame
      refine ⟨h.valid, hlayout.trans h.layout_eq, hkept, ?_, ?_, ?_⟩
      · rw [sp, hsub]
        omega
      · rw [sp, hsub]
        exact Nat.le_trans (Nat.sub_le _ _) hlimit
      · rw [sp, hsub]
        omega
  | keep hlayout sp =>
      exact ⟨h.valid, hlayout.trans h.layout_eq, hkept, sp ▸ hstart, sp ▸ hlimit, sp ▸ heven⟩

theorem Framed.respond (h : m.Framed layout) (e : Event) : (m.respond e).Framed layout :=
  h.changes (m.changes_respond e) (m.size_respond e)

theorem Framed.path {instructions : List Instruction} (h : m.Framed layout)
    (hpath : m.Path instructions m') : m'.Framed layout := by
  induction hpath with
  | nil m => exact h
  | @cons m next last i rest step path ih =>
      apply ih
      have hnext : m.respond .step = next := by rw [Machine.respond, step]
      exact hnext ▸ h.respond .step

theorem Reachable.framed (h : Reachable layout m) : m.Framed layout := by
  induction h with
  | @ofLayout m accepted =>
      obtain ⟨valid, hvalid, rfl⟩ := exists_of_map_ok accepted
      obtain ⟨hlayout, rfl⟩ := Layout.validate_ok_iff.mp hvalid
      exact .of_start hlayout rfl (Memory.size_zeroed _) rfl
  | restart h ih =>
      exact .of_start ih.valid ih.layout_eq ih.size (congrArg Layout.stackStart ih.layout_eq)
  | reset h ih =>
      exact .of_start ih.valid ih.layout_eq ((Memory.size_clear _).trans ih.size)
        (congrArg Layout.stackStart ih.layout_eq)
  | @run m h budget ih =>
      obtain ⟨instructions, hpath, _⟩ := m.exists_path_run budget
      exact ih.path hpath
  | @loadProgram m loaded program h fits ih =>
      have hloaded : m.respond (.load m.layout.heapStart program) = loaded := by
        rw [Machine.respond]
        rw [Machine.loadProgram] at fits
        rw [fits]
        rfl
      exact hloaded ▸ ih.respond _
  | event h e ih => exact ih.respond e

/-! ## The depth of the call stack -/

theorem Framed.stackStart_eq (h : m.Framed layout) :
    m.layout.stackStart.toNat = layout.stackStart.toNat := by
  rw [h.layout_eq]

/-- The frames below the stack pointer hold return addresses, whatever their bytes are. -/
theorem Framed.exists_stacks (h : m.Framed layout) :
    ∃ returns, m.Stacks returns ∧
      returns.length = (m.registers.sp.toNat - layout.stackStart.toNat) / 2 := by
  have hstart := h.stackStart_eq
  have hle := h.start_le
  have hlimit := h.le_limit
  have heven := h.even
  have hsize := h.size
  have hword : ∀ k : Fin ((m.registers.sp.toNat - layout.stackStart.toNat) / 2),
      ∃ word, m.memory.HoldsWord (m.layout.stackStart.toNat + 2 * k) word := by
    intro k
    apply Memory.exists_holdsWord
    have hk := k.isLt
    omega
  -- the words of the frames, in order, are the return addresses
  choose words hwords using hword
  refine ⟨List.ofFn words, ⟨?_, ?_⟩, List.length_ofFn⟩
  · rw [List.length_ofFn]
    omega
  · intro k hk
    rw [List.getElem_ofFn]
    exact hwords ⟨k, by rwa [List.length_ofFn] at hk⟩

theorem Framed.length_callStack (h : m.Framed layout) :
    m.callStack.length = (m.registers.sp.toNat - layout.stackStart.toNat) / 2 := by
  obtain ⟨returns, hstacks, hlength⟩ := h.exists_stacks
  rw [hstacks.callStack, hlength]

theorem Framed.length_callStack_le (h : m.Framed layout) :
    m.callStack.length ≤ layout.stackDepth := by
  rw [h.length_callStack, Layout.stackDepth, Layout.frameSize]
  exact Nat.div_le_div_right (Nat.sub_le_sub_right h.le_limit _)

/-- There is no room for a further frame exactly if the call stack has its full depth. -/
theorem Framed.full_iff (h : m.Framed layout) :
    m.memory.size < m.registers.sp.toNat + Layout.frameSize ∨
        0xFFFF < m.registers.sp.toNat + Layout.frameSize ↔
      m.callStack.length = layout.stackDepth := by
  have hle := h.start_le
  have hlimit := h.le_limit
  have heven := h.even
  -- the region may end in an odd byte, which both sides of the equation round away
  rw [h.length_callStack, h.size, Layout.stackDepth, Layout.frameSize]
  omega

theorem Framed.empty_iff (h : m.Framed layout) :
    m.registers.sp.toNat < m.layout.stackStart.toNat + Layout.frameSize ↔ m.callStack = [] := by
  have hle := h.start_le
  have heven := h.even
  rw [← List.length_eq_zero_iff, h.length_callStack, h.stackStart_eq, Layout.frameSize]
  omega

/-! ## Calls and returns -/

theorem fetchByte_lt {address : Nat} {byte : UInt8} (h : m.fetchByte address = .ok byte) :
    address < 0x10000 := by
  by_contra hout
  rw [fetchByte, if_neg hout] at h
  cases h

theorem fetchOperands_le {address size : Nat} {operands : UInt8 × UInt8}
    (h : m.fetchOperands address size = .ok operands) (haddress : address ≤ 0x10000)
    (hsize : size ≤ 2) : address + size ≤ 0x10000 := by
  match size with
  | 0 => exact haddress
  | 1 =>
      rw [fetchOperands] at h
      cases hlow : m.fetchByte address with
      | error kind => simp [hlow] at h
      | ok low => exact fetchByte_lt hlow
  | 2 =>
      simp only [fetchOperands] at h
      cases hlow : m.fetchByte address with
      | error kind => simp [hlow] at h
      | ok low =>
          cases hhigh : m.fetchByte (address + 1) with
          | error kind => simp [hlow, hhigh] at h
          | ok high => exact fetchByte_lt hhigh

/-- An instruction that can be fetched ends inside the address space. -/
theorem fetch_next_le {i : Instruction} {next : Nat} (h : m.fetch = .ok (i, next)) :
    next ≤ 0x10000 := by
  obtain ⟨lead, low, high, hlead, hoperands, _, rfl⟩ := exists_of_fetch_ok h
  exact fetchOperands_le hoperands (fetchByte_lt hlead) (Instruction.operandSize_le_two lead)

/-- A call that does not stand at the end of the address space overflows exactly if the call stack
has its full depth. -/
theorem Framed.step_call (h : m.Framed layout) {target : UInt16} {next : Nat}
    (hfetch : m.fetch = .ok (.call target, next)) (hend : next ≠ 0x10000) :
    m.step.2 = if m.callStack.length = layout.stackDepth then
      .error ⟨.stackOverflow, m.registers.pc⟩ else .ok (.call target) := by
  have hnext : next < 0x10000 := Nat.lt_of_le_of_ne (fetch_next_le hfetch) hend
  by_cases hfull : m.callStack.length = layout.stackDepth
  · simp only [step, plan, hfetch, advance, hnext, effectOf, callEffect, Registers.jump,
      h.full_iff, hfull, if_true]
  · simp only [step, plan, hfetch, advance, hnext, effectOf, callEffect, Registers.jump,
      h.full_iff, hfull, if_true, if_false]

theorem Framed.exists_return_target (h : m.Framed layout) (hne : m.callStack ≠ []) :
    ∃ target, m.memory.readWord (m.registers.sp - 2) = .ok target := by
  have hframe : m.layout.stackStart.toNat + 2 ≤ m.registers.sp.toNat :=
    Nat.le_of_not_lt (mt h.empty_iff.mp hne)
  have hsub : (m.registers.sp - 2).toNat = m.registers.sp.toNat - 2 := toNat_sub_two hframe
  have hlimit := h.le_limit
  have hsize := h.size
  obtain ⟨target, htarget⟩ : ∃ target, m.memory.HoldsWord (m.registers.sp - 2).toNat target :=
    Memory.exists_holdsWord (by omega)
  exact ⟨target, htarget.readWord (by omega)⟩

/-- A return fails exactly if the call stack is empty, wherever it stands. -/
theorem Framed.step_return (h : m.Framed layout) {next : Nat}
    (hfetch : m.fetch = .ok (.ret, next)) :
    m.step.2 = if m.callStack = [] then .error ⟨.stackUnderflow, m.registers.pc⟩ else .ok .ret := by
  obtain ⟨moved, hadvance⟩ : ∃ moved, m.advance .ret next = .ok moved := by
    by_cases hnext : next < 0x10000
    · exact ⟨_, advance_ok_iff.mpr (.inl ⟨hnext, rfl⟩)⟩
    · exact ⟨_, advance_ok_iff.mpr (.inr ⟨Nat.le_of_not_lt hnext, rfl, rfl⟩)⟩
  have hsp := advance_sp hadvance
  by_cases hempty : m.callStack = []
  · simp only [step, plan, hfetch, hadvance, effectOf, returnEffect, hsp, h.empty_iff, hempty,
      if_true]
  · obtain ⟨target, htarget⟩ := h.exists_return_target hempty
    simp only [step, plan, hfetch, hadvance, effectOf, returnEffect, hsp, h.empty_iff, hempty,
      if_false, htarget]

/-- The stack region of a machine whose stack pointer is moved by calls and returns alone. The call
stack holds a return address for every frame between its start and the stack pointer. A call, unless
it ends the address space, overflows exactly if it finds the call stack at the depth of the layout,
and a return fails exactly if it finds the call stack empty. -/
theorem stack_region (h : Reachable layout m) :
    (m.layout = layout ∧ m.memory.size = layout.capacity) ∧
    (layout.stackStart.toNat ≤ m.registers.sp.toNat ∧
      m.registers.sp.toNat ≤ min layout.capacity 0xFFFF ∧
      (m.registers.sp.toNat - layout.stackStart.toNat) % 2 = 0) ∧
    (m.callStack.length = (m.registers.sp.toNat - layout.stackStart.toNat) / 2 ∧
      m.callStack.length ≤ layout.stackDepth) ∧
    (∀ target next, m.fetch = .ok (.call target, next) → next ≠ 0x10000 →
      (m.step.2 = .error ⟨.stackOverflow, m.registers.pc⟩ ↔
        m.callStack.length = layout.stackDepth) ∧
      (m.callStack.length < layout.stackDepth → m.step.2 = .ok (.call target))) ∧
    ∀ next, m.fetch = .ok (.ret, next) →
      (m.step.2 = .error ⟨.stackUnderflow, m.registers.pc⟩ ↔ m.callStack = []) ∧
      (m.callStack ≠ [] → m.step.2 = .ok .ret) := by
  have hframed := h.framed
  refine ⟨⟨hframed.layout_eq, hframed.size⟩, ⟨hframed.start_le, hframed.le_limit, hframed.even⟩,
    ⟨hframed.length_callStack, hframed.length_callStack_le⟩, ?_, ?_⟩
  · intro target next hfetch hend
    rw [hframed.step_call hfetch hend]
    constructor
    · rw [ite_eq_left_iff]
      simp
    · intro hlt
      exact if_neg (Nat.ne_of_lt hlt)
  · intro next hfetch
    rw [hframed.step_return hfetch]
    constructor
    · rw [ite_eq_left_iff]
      simp
    · intro hne
      exact if_neg hne

/-- A buffer of nine bytes, of which the stack region has five: two frames and an odd byte. -/
def oddLayout : Layout := ⟨9, 0, 4⟩

/-- A call of itself at 0 and a return at 3, after two calls. -/
def callsItself : Machine :=
  (((blank oddLayout).respond (.load 0 [0x42, 0x00, 0x00, 0x43])).run 2).1

theorem stack_region_full :
    Reachable oddLayout callsItself ∧ callsItself.fetch = .ok (.call 0, 3) ∧
    callsItself.callStack.length = oddLayout.stackDepth ∧
    callsItself.step.2 = .error ⟨.stackOverflow, 0⟩ ∧
    Reachable oddLayout (callsItself.respond (.setRegisters 3 0 .clear)) ∧
    (callsItself.respond (.setRegisters 3 0 .clear)).fetch = .ok (.ret, 4) ∧
    (callsItself.respond (.setRegisters 3 0 .clear)).step.2 = .ok .ret := by
  have hreachable : Reachable oddLayout callsItself := .run (.event (.ofLayout rfl) _) 2
  have hcall : callsItself.fetch = .ok (.call 0, 3) := by decide +kernel
  have hfull : callsItself.callStack.length = oddLayout.stackDepth := by decide +kernel
  have hmoved := Reachable.event hreachable (.setRegisters 3 0 .clear)
  have hreturn : (callsItself.respond (.setRegisters 3 0 .clear)).fetch = .ok (.ret, 4) := by
    decide +kernel
  have hne : (callsItself.respond (.setRegisters 3 0 .clear)).callStack ≠ [] := by decide +kernel
  obtain ⟨_, _, _, hcalls, _⟩ := stack_region hreachable
  obtain ⟨_, _, _, _, hreturns⟩ := stack_region hmoved
  exact ⟨hreachable, hcall, hfull, (hcalls 0 3 hcall (by decide)).1.mpr hfull, hmoved, hreturn,
    (hreturns 4 hreturn).2 hne⟩

end Machine
end Accumulator
