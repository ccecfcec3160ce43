import Accumulator.Proofs.Machine.Faults
import Accumulator.Proofs.Machine.StackRegion

/-!
# The footprint of a step

A step looks at the bytes of its instruction and at the cells that the instruction works on, and it
writes among the latter only. Two machines that agree on these cells plan the same, so a cell that
no step of a run has in its footprint can be written before the run or after it.
-/

namespace Accumulator

namespace Machine

/-- The cells read for a number of bytes from an address on, up to the first that fails. -/
def fetchedFrom (m : Machine) (address : Nat) : Nat → List Nat
  | 0 => []
  | count + 1 =>
      match m.fetchByte address with
      | .error _ => [address]
      | .ok _ => address :: m.fetchedFrom (address + 1) count

/-- The cells of the instruction at the program counter, up to the first that cannot be fetched. -/
def fetchedCells (m : Machine) : List Nat :=
  let start := m.registers.pc.toNat
  match m.fetchByte start with
  | .error _ => [start]
  | .ok lead => start :: m.fetchedFrom (start + 1) (operandSize lead)

/-- The cells that an instruction works on: the frame that a call pushes, the frame that a return
pops, or the data of a load, a store, an addition or a subtraction. -/
def dataCells (m : Machine) (i : Instruction) : List Nat :=
  let sp := m.registers.sp.toNat
  match i.stackMove with
  | .push => [sp, sp + 1]
  | .pop => List.range' (sp - 2) (min 2 sp)
  | .keep => i.dataAddress?.toList

/-- The footprint of a step: the bytes that it fetches, and if these are an instruction, the cells
that it works on. -/
def footprint (m : Machine) : List Nat :=
  m.fetchedCells ++
    match m.fetch with
    | .error _ => []
    | .ok (i, _) => m.dataCells i

/-- Two machines have the same registers and stack region and agree on some cells. -/
structure AgreeOn (cells : List Nat) (m m' : Machine) : Prop where
  registers : m'.registers = m.registers
  stackStart : m'.layout.stackStart = m.layout.stackStart
  memory : ∀ cell ∈ cells, m'.memory.at? cell = m.memory.at? cell

variable {m m' : Machine} {i : Instruction} {cells : List Nat} {registers : Registers}
  {effect : Effect}

theorem AgreeOn.mono {fewer : List Nat} (h : AgreeOn cells m m') (hsubset : fewer ⊆ cells) :
    AgreeOn fewer m m' where
  registers := h.registers
  stackStart := h.stackStart
  memory := by
    intro cell hcell
    exact h.memory cell (hsubset hcell)

/-! ## Planning reads the footprint only -/

/-- A cell on which two memories agree lies in both or in none. -/
theorem lt_size_congr {memory memory' : Memory} {cell : Nat}
    (h : memory'.at? cell = memory.at? cell) : cell < memory'.size ↔ cell < memory.size := by
  rw [← not_iff_not, Nat.not_lt, Nat.not_lt, ← Memory.at?_eq_none_iff, ← Memory.at?_eq_none_iff, h]

theorem fetchByte_congr {address : Nat} (h : m'.memory.at? address = m.memory.at? address) :
    m'.fetchByte address = m.fetchByte address := by
  simp only [fetchByte, h]

theorem mem_fetchedFrom_self (m : Machine) (start count : Nat) :
    start ∈ m.fetchedFrom start (count + 1) := by
  rw [fetchedFrom]
  split <;> exact List.mem_cons_self

theorem fetchOperands_congr {start count : Nat} (hcount : count ≤ 2)
    (h : AgreeOn (m.fetchedFrom start count) m m') :
    m'.fetchOperands start count = m.fetchOperands start count := by
  match count, hcount with
  | 0, _ => rfl
  | 1, _ =>
      have hlow := fetchByte_congr (h.memory start (m.mem_fetchedFrom_self start 0))
      simp only [fetchOperands, hlow]
  | 2, _ =>
      have hlow := fetchByte_congr (h.memory start (m.mem_fetchedFrom_self start 1))
      cases hread : m.fetchByte start with
      | error kind => simp only [fetchOperands, hlow, hread]
      | ok low =>
          have hhigh : m'.fetchByte (start + 1) = m.fetchByte (start + 1) := by
            apply fetchByte_congr
            apply h.memory
            simp only [fetchedFrom, hread]
            exact List.mem_cons_of_mem start (m.mem_fetchedFrom_self (start + 1) 0)
          simp only [fetchOperands, hlow, hhigh]

theorem mem_fetchedCells_pc (m : Machine) : m.registers.pc.toNat ∈ m.fetchedCells := by
  rw [fetchedCells]
  split <;> exact List.mem_cons_self

theorem fetchedCells_of_lead {lead : UInt8} (h : m.fetchByte m.registers.pc.toNat = .ok lead) :
    m.fetchedCells = m.registers.pc.toNat ::
      m.fetchedFrom (m.registers.pc.toNat + 1) (operandSize lead) := by
  simp only [fetchedCells, h]

theorem fetch_congr (h : AgreeOn m.fetchedCells m m') : m'.fetch = m.fetch := by
  have hlead := fetchByte_congr (h.memory _ m.mem_fetchedCells_pc)
  cases hread : m.fetchByte m.registers.pc.toNat with
  | error kind => simp only [fetch, h.registers, hlead, hread]
  | ok lead =>
      rw [fetchedCells_of_lead hread] at h
      have hoperands := fetchOperands_congr (Instruction.operandSize_le_two lead)
        (h.mono (List.subset_cons_self _ _))
      simp only [fetch, h.registers, hlead, hread, hoperands]

theorem advance_congr (h : AgreeOn cells m m') (i : Instruction) (next : Nat) :
    m'.advance i next = m.advance i next := by
  simp only [advance, h.registers]

theorem readData_congr {address : UInt16}
    (h : m'.memory.at? address.toNat = m.memory.at? address.toNat) :
    m'.readData address = m.readData address := by
  simp only [readData, Memory.read, h]

theorem storeEffect_congr {address : UInt16}
    (h : m'.memory.at? address.toNat = m.memory.at? address.toNat) :
    m'.storeEffect registers address = m.storeEffect registers address := by
  simp only [storeEffect, lt_size_congr h]

theorem callEffect_congr (hsp : registers.sp = m.registers.sp)
    (h : m'.memory.at? (m.registers.sp.toNat + 1) = m.memory.at? (m.registers.sp.toNat + 1))
    (target : UInt16) : m'.callEffect registers target = m.callEffect registers target := by
  have hroom : m'.memory.size < m.registers.sp.toNat + Layout.frameSize ↔
      m.memory.size < m.registers.sp.toNat + Layout.frameSize := by
    rw [← not_iff_not, Nat.not_lt, Nat.not_lt]
    exact lt_size_congr h
  simp only [callEffect, hsp, hroom]

theorem returnEffect_congr (hsp : registers.sp = m.registers.sp)
    (h : AgreeOn (m.dataCells .ret) m m') :
    m'.returnEffect registers = m.returnEffect registers := by
  rw [returnEffect, returnEffect, h.stackStart, hsp]
  by_cases hframe : m.registers.sp.toNat < m.layout.stackStart.toNat + Layout.frameSize
  · rw [if_pos hframe, if_pos hframe]
  · rw [if_neg hframe, if_neg hframe]
    have hlow : m.layout.stackStart.toNat + 2 ≤ m.registers.sp.toNat := Nat.le_of_not_lt hframe
    have htop : (m.registers.sp - 2).toNat = m.registers.sp.toNat - 2 := toNat_sub_two hlow
    have hcells : ∀ cell, m.registers.sp.toNat - 2 ≤ cell → cell < m.registers.sp.toNat →
        m'.memory.at? cell = m.memory.at? cell := by
      intro cell hle hlt
      apply h.memory
      apply List.mem_range'_1.mpr
      omega
    have hread : m'.memory.readWord (m.registers.sp - 2) =
        m.memory.readWord (m.registers.sp - 2) := by
      simp only [Memory.readWord, htop]
      rw [hcells (m.registers.sp.toNat - 2) (by omega) (by omega),
        hcells (m.registers.sp.toNat - 2 + 1) (by omega) (by omega)]
    simp only [hread]

theorem effectOf_congr (hsp : registers.sp = m.registers.sp)
    (h : AgreeOn (m.dataCells i) m m') : m'.effectOf registers i = m.effectOf registers i := by
  cases i with
  | nop | halt | unknown _ | loadImmediate _ | addImmediate _ | subImmediate _ => rfl
  | jumpIfZero _ | jump _ | jumpIfNegative _ => rfl
  | loadZeroPage address =>
      have hdata : m'.readData address.toUInt16 = m.readData address.toUInt16 :=
        readData_congr (h.memory _ (List.mem_singleton_self _))
      simp only [effectOf, hdata]
  | load address | add address | sub address =>
      have hdata := readData_congr (h.memory address.toNat (List.mem_singleton_self _))
      simp only [effectOf, hdata]
  | storeZeroPage address =>
      have hcell : m'.memory.at? address.toUInt16.toNat = m.memory.at? address.toUInt16.toNat :=
        h.memory _ (List.mem_singleton_self _)
      exact storeEffect_congr hcell
  | store address => exact storeEffect_congr (h.memory _ (List.mem_singleton_self _))
  | call target =>
      exact callEffect_congr hsp (h.memory _ (List.mem_cons_of_mem _ (List.mem_singleton_self _)))
        target
  | ret => exact returnEffect_congr hsp h

theorem dataCells_subset_footprint {next : Nat} (h : m.fetch = .ok (i, next)) :
    m.dataCells i ⊆ m.footprint := by
  simp only [footprint, h]
  exact List.subset_append_right _ _

/-- Machines that agree on the footprint of one of them plan the same. -/
theorem plan_congr (h : AgreeOn m.footprint m m') : m'.plan = m.plan := by
  have hfetch := fetch_congr (h.mono (List.subset_append_left _ _))
  cases hread : m.fetch with
  | error kind => simp only [plan, hfetch, hread]
  | ok fetched =>
      obtain ⟨i, next⟩ := fetched
      have hadvance := advance_congr h i next
      cases hmove : m.advance i next with
      | error kind => simp only [plan, hfetch, hread, hadvance, hmove]
      | ok moved =>
          have heffect := effectOf_congr (advance_sp hmove)
            (h.mono (dataCells_subset_footprint hread))
          simp only [plan, hfetch, hread, hadvance, hmove, heffect]

/-! ## Cells that are written -/

theorem dataAddress?_of_storeAddress? {address : UInt16} (h : i.storeAddress? = some address) :
    i.dataAddress? = some address.toNat := by
  cases i with
  | storeZeroPage _ | store _ =>
      obtain rfl := Option.some.inj h
      rfl
  | _ => exact absurd h.symm (Option.some_ne_none address)

/-- An instruction writes only cells that it works on. -/
theorem mem_dataCells_of_store (hsp : registers.sp = m.registers.sp)
    (h : m.effectOf registers i = .ok effect) {store : UInt16 × UInt8}
    (hstore : store ∈ effect.stores) : store.1.toNat ∈ m.dataCells i := by
  cases hmove : i.stackMove with
  | push =>
      obtain ⟨target, rfl⟩ := exists_call_of_push hmove
      obtain ⟨_, hlimit, rfl⟩ := callEffect_ok h
      rw [hsp] at hlimit
      have hsecond : (m.registers.sp + 1).toNat = m.registers.sp.toNat + 1 :=
        toNat_add_of_lt (b := 1) (Nat.lt_of_succ_lt hlimit)
      have hcells : m.dataCells (.call target) =
          [m.registers.sp.toNat, m.registers.sp.toNat + 1] := rfl
      simp only [hsp, List.mem_cons, List.not_mem_nil, or_false] at hstore
      rw [hcells]
      obtain rfl | rfl := hstore
      · exact List.mem_cons_self
      · rw [hsecond]
        exact List.mem_cons_of_mem _ (List.mem_singleton_self _)
  | pop =>
      obtain rfl := eq_ret_of_pop hmove
      obtain ⟨_, target, _, rfl⟩ := returnEffect_ok h
      exact absurd hstore List.not_mem_nil
  | keep =>
      cases haddress : i.storeAddress? with
      | none =>
          rw [(effectOf_other hmove haddress h).2] at hstore
          exact absurd hstore List.not_mem_nil
      | some address =>
          rw [effectOf_store haddress] at h
          obtain ⟨_, rfl⟩ := storeEffect_ok h
          obtain rfl := List.mem_singleton.mp hstore
          rw [dataCells, hmove, dataAddress?_of_storeAddress? haddress]
          exact List.mem_singleton_self _

/-- A step writes only cells of its footprint. -/
theorem mem_footprint_of_store (h : m.plan = .ok (i, effect)) {store : UInt16 × UInt8}
    (hstore : store ∈ effect.stores) : store.1.toNat ∈ m.footprint := by
  obtain ⟨next, moved, hfetch, hadvance, heffect⟩ := plan_ok_iff.mp h
  apply dataCells_subset_footprint hfetch
  exact mem_dataCells_of_store (advance_sp hadvance) heffect hstore

/-! ## A cell outside the footprint -/

/-- Change one cell of the memory. -/
def setCell (m : Machine) (address : Nat) (value : UInt8) : Machine :=
  { m with memory := m.memory.put address value }

variable {address budget : Nat}

theorem put_comm {other : Nat} (h : address ≠ other) (memory : Memory) (value byte : UInt8) :
    (memory.put address value).put other byte = (memory.put other byte).put address value :=
  congrArg Memory.mk (Array.setIfInBounds_comm _ _ h)

theorem storeAll_put {stores : List (UInt16 × UInt8)}
    (h : ∀ store ∈ stores, store.1.toNat ≠ address) (memory : Memory) (value : UInt8) :
    storeAll (memory.put address value) stores = (storeAll memory stores).put address value := by
  induction stores generalizing memory with
  | nil => rfl
  | cons store rest ih =>
      rw [List.forall_mem_cons] at h
      calc
        storeAll (memory.put address value) (store :: rest) =
            storeAll ((memory.put address value).put store.1.toNat store.2) rest := rfl
        _ = storeAll ((memory.put store.1.toNat store.2).put address value) rest := by
          rw [put_comm (Ne.symm h.1)]
        _ = (storeAll memory (store :: rest)).put address value := ih h.2 _

theorem agreeOn_setCell (h : address ∉ cells) (value : UInt8) :
    AgreeOn cells m (m.setCell address value) where
  registers := rfl
  stackStart := rfl
  memory := by
    intro cell hcell
    apply at?_put_of_ne
    rintro rfl
    exact h hcell

/-- A cell outside the footprint of a step keeps what was written to it, and makes no difference to
the step. -/
theorem step_setCell (h : address ∉ m.footprint) (value : UInt8) :
    (m.setCell address value).step = (m.step.1.setCell address value, m.step.2) := by
  have hplan := plan_congr (agreeOn_setCell h value)
  cases hresult : m.plan with
  | error kind =>
      simp only [step, hplan, hresult]
      rfl
  | ok planned =>
      obtain ⟨i, effect⟩ := planned
      have hstores : ∀ store ∈ effect.stores, store.1.toNat ≠ address := by
        rintro store hstore rfl
        exact h (mem_footprint_of_store hresult hstore)
      have hcommit : (m.setCell address value).commit i effect =
          (m.commit i effect).setCell address value := by
        simp only [commit, setCell, storeAll_put hstores]
      simp only [step, hplan, hresult, hcommit]

/-- A cell that no step of a run has in its footprint makes no difference to the run. -/
theorem run_setCell (h : ∀ k < budget, m.RunsFor k → address ∉ (m.after k).footprint)
    (value : UInt8) :
    (m.setCell address value).run budget =
      ((m.run budget).1.setCell address value, (m.run budget).2) := by
  induction budget generalizing m with
  | zero => rfl
  | succ budget ih =>
      have hfirst : (m.setCell address value).step =
          (m.step.1.setCell address value, m.step.2) :=
        step_setCell (h 0 (Nat.succ_pos budget) (runsFor_zero m)) value
      cases hstep : m.step with
      | mk next result =>
          rw [hstep] at hfirst
          cases result with
          | error fault => rw [run_succ_of_fault hstep, run_succ_of_fault hfirst]
          | ok i =>
              by_cases hi : i = .halt
              · subst hi
                rw [run_succ_of_halt hstep, run_succ_of_halt hfirst]
              · have hnext : ∀ k < budget, next.RunsFor k →
                    address ∉ (next.after k).footprint := by
                  intro k hk hruns
                  have hafter : m.after (k + 1) = next.after k := by
                    rw [after, hstep]
                  rw [← hafter]
                  apply h (k + 1) (Nat.succ_lt_succ hk)
                  apply runsFor_succ.mpr
                  rw [hstep]
                  exact ⟨⟨i, by rw [hstep], hi⟩, hruns⟩
                rw [run_succ_of_ne_halt hstep hi, run_succ_of_ne_halt hfirst hi, ih hnext]

theorem Path.size {instructions : List Instruction} (h : m.Path instructions m') :
    m'.memory.size = m.memory.size := by
  induction h with
  | nil m => rfl
  | @cons m next last i rest step path ih =>
      calc
        last.memory.size = next.memory.size := ih
        _ = m.step.1.memory.size := by rw [step]
        _ = m.memory.size := size_step m

theorem size_run (m : Machine) (budget : Nat) : (m.run budget).1.memory.size = m.memory.size := by
  obtain ⟨instructions, hpath, _⟩ := m.exists_path_run budget
  exact hpath.size

theorem write_eq_setCell {address : UInt16} (h : address.toNat < m.memory.size) (value : UInt8) :
    m.write address value = .ok (m.setCell address.toNat value) := by
  rw [write, Memory.write, if_pos h]
  rfl

/-- A byte can be written before a run or after it, with the same outcome and the same machine in
the end, if its cell is in the footprint of no step that the run attempts. -/
theorem run_write_comm {address : UInt16} {budget : Nat} (hin : address.toNat < m.memory.size)
    (hfree : ∀ k < budget, m.RunsFor k → address.toNat ∉ (m.after k).footprint) (value : UInt8) :
    ∃ written, m.write address value = .ok written ∧
      (written.run budget).2 = (m.run budget).2 ∧
      (m.run budget).1.write address value = .ok (written.run budget).1 := by
  have hrun := run_setCell hfree value
  refine ⟨m.setCell address.toNat value, write_eq_setCell hin value, ?_, ?_⟩
  · rw [hrun]
  · rw [hrun]
    apply write_eq_setCell
    rwa [size_run]

/-- A call and its return, then a return that finds no frame. -/
def returnsTwice : Machine :=
  { blank ⟨12, 0, 8⟩ with memory := ⟨#[0x42, 4, 0, 0x43, 0x43, 0, 0, 0, 0, 0, 0, 0]⟩ }

theorem run_write_comm_fault :
    (10 : UInt16).toNat < returnsTwice.memory.size ∧
    (∀ k < 5, returnsTwice.RunsFor k → (10 : UInt16).toNat ∉ (returnsTwice.after k).footprint) ∧
    (returnsTwice.run 5).2 = .error ⟨.stackUnderflow, 3⟩ ∧
    ∃ written, returnsTwice.write 10 0xFF = .ok written ∧
      (written.run 5).2 = .error ⟨.stackUnderflow, 3⟩ ∧
      (returnsTwice.run 5).1.write 10 0xFF = .ok (written.run 5).1 := by
  have hin : (10 : UInt16).toNat < returnsTwice.memory.size := by decide
  have hcells : ∀ k < 5, (10 : UInt16).toNat ∉ (returnsTwice.after k).footprint := by decide
  have hfree : ∀ k < 5, returnsTwice.RunsFor k →
      (10 : UInt16).toNat ∉ (returnsTwice.after k).footprint := fun k hk _ => hcells k hk
  have hfault : (returnsTwice.run 5).2 = .error ⟨.stackUnderflow, 3⟩ := rfl
  obtain ⟨written, hwrite, hsame, hafter⟩ := run_write_comm hin hfree 0xFF
  exact ⟨hin, hfree, hfault, written, hwrite, hsame.trans hfault, hafter⟩

end Machine
end Accumulator
