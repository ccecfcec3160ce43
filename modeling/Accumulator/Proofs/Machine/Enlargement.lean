import Accumulator.Proofs.Machine.Footprint
import Accumulator.Proofs.Machine.Semantics

/-!
# More memory behind a program

A step that succeeds has its whole footprint in memory. So it is planned in the same way on a
machine that has the same memory and more cells behind it, and leaves those cells alone. A run
without a fault therefore goes the same way on the larger machine.
-/

namespace Accumulator

namespace Machine

/-- A larger machine has the registers, the stack region and the memory of a smaller one, and the
cells of `tail` behind it. -/
structure EnlargedBy (tail : Memory) (small large : Machine) : Prop where
  registers : large.registers = small.registers
  stackStart : large.layout.stackStart = small.layout.stackStart
  below : ∀ cell < small.memory.size, large.memory.at? cell = small.memory.at? cell
  above : ∀ cell, small.memory.size ≤ cell → large.memory.at? cell = tail.at? cell

variable {m small large next : Machine} {tail : Memory} {i : Instruction} {effect : Effect}

/-! ## The footprint of a step that succeeds -/

theorem lt_size_of_at? {memory : Memory} {cell : Nat} {value : UInt8}
    (h : memory.at? cell = some value) : cell < memory.size := by
  by_contra hout
  rw [(Memory.at?_eq_none_iff memory cell).mpr (Nat.le_of_not_lt hout)] at h
  cases h

theorem lt_size_of_fetchByte {address : Nat} {byte : UInt8} (h : m.fetchByte address = .ok byte) :
    address < m.memory.size := by
  rw [fetchByte, if_pos (fetchByte_lt h)] at h
  cases hat : m.memory.at? address with
  | none => simp [hat] at h
  | some value => exact lt_size_of_at? hat

theorem lt_size_of_fetchOperands {start count : Nat} {operands : UInt8 × UInt8} (hcount : count ≤ 2)
    (h : m.fetchOperands start count = .ok operands) :
    ∀ cell ∈ m.fetchedFrom start count, cell < m.memory.size := by
  match count, hcount with
  | 0, _ => exact List.forall_mem_nil _
  | 1, _ =>
      rw [fetchOperands] at h
      cases hlow : m.fetchByte start with
      | error kind => simp [hlow] at h
      | ok low =>
          simp only [fetchedFrom, hlow, List.forall_mem_singleton]
          exact lt_size_of_fetchByte hlow
  | 2, _ =>
      simp only [fetchOperands] at h
      cases hlow : m.fetchByte start with
      | error kind => simp [hlow] at h
      | ok low =>
          cases hhigh : m.fetchByte (start + 1) with
          | error kind => simp [hlow, hhigh] at h
          | ok high =>
              simp only [fetchedFrom, hlow, hhigh, List.forall_mem_cons]
              exact ⟨lt_size_of_fetchByte hlow, lt_size_of_fetchByte hhigh, List.forall_mem_nil _⟩

theorem lt_size_of_fetch {following : Nat} (h : m.fetch = .ok (i, following)) :
    ∀ cell ∈ m.fetchedCells, cell < m.memory.size := by
  obtain ⟨lead, low, high, hlead, hoperands, _, _⟩ := exists_of_fetch_ok h
  rw [fetchedCells_of_lead hlead, List.forall_mem_cons]
  constructor
  · exact lt_size_of_fetchByte hlead
  · exact lt_size_of_fetchOperands (Instruction.operandSize_le_two lead) hoperands

theorem lt_size_of_readData {address : UInt16} {value : UInt8}
    (h : m.readData address = .ok value) : address.toNat < m.memory.size :=
  lt_size_of_at? (at?_of_readData h)

/-- An instruction that has an effect works on cells inside memory. -/
theorem lt_size_of_effectOf {registers : Registers} (hsp : registers.sp = m.registers.sp)
    (h : m.effectOf registers i = .ok effect) : ∀ cell ∈ m.dataCells i, cell < m.memory.size := by
  cases i with
  | nop | halt | unknown _ | loadImmediate _ | addImmediate _ | subImmediate _ =>
      exact List.forall_mem_nil _
  | jumpIfZero _ | jump _ | jumpIfNegative _ => exact List.forall_mem_nil _
  | loadZeroPage _ | load _ | add _ | sub _ =>
      obtain ⟨value, hread, _⟩ := exists_of_map_ok h
      intro cell hcell
      obtain rfl := List.mem_singleton.mp hcell
      exact lt_size_of_readData hread
  | storeZeroPage _ | store _ =>
      intro cell hcell
      obtain rfl := List.mem_singleton.mp hcell
      exact (storeEffect_ok h).1
  | call _ =>
      have hroom := (callEffect_ok h).1
      rw [hsp] at hroom
      have hcells : ∀ cell ∈ [m.registers.sp.toNat, m.registers.sp.toNat + 1],
          cell < m.memory.size := by
        simp only [List.forall_mem_cons]
        exact ⟨Nat.lt_of_succ_lt hroom, hroom, List.forall_mem_nil _⟩
      exact hcells
  | ret =>
      obtain ⟨hframe, target, hread, _⟩ := returnEffect_ok h
      rw [hsp] at hframe hread
      have hsecond := lt_size_of_at? (at?_of_readWord hread).2
      rw [toNat_sub_two hframe] at hsecond
      intro cell hcell
      obtain ⟨_, hlt⟩ := List.mem_range'_1.mp hcell
      omega

/-- A step that can be planned has its whole footprint in memory. -/
theorem lt_size_of_plan (h : m.plan = .ok (i, effect)) :
    ∀ cell ∈ m.footprint, cell < m.memory.size := by
  obtain ⟨following, moved, hfetch, hadvance, heffect⟩ := plan_ok_iff.mp h
  simp only [footprint, hfetch, List.forall_mem_append]
  constructor
  · exact lt_size_of_fetch hfetch
  · exact lt_size_of_effectOf (advance_sp hadvance) heffect

/-! ## The same step on a larger machine -/

theorem storeAll_congr {memory memory' : Memory} {cell : Nat}
    (h : memory'.at? cell = memory.at? cell) (stores : List (UInt16 × UInt8)) :
    (storeAll memory' stores).at? cell = (storeAll memory stores).at? cell := by
  induction stores generalizing memory memory' with
  | nil => exact h
  | cons store rest ih =>
      apply ih
      by_cases hcell : store.1.toNat = cell
      · subst hcell
        simp only [Memory.at?_put, lt_size_congr h, h]
      · rw [at?_put_of_ne (Ne.symm hcell), at?_put_of_ne (Ne.symm hcell), h]

theorem at?_storeAll_of_ne {stores : List (UInt16 × UInt8)} {cell : Nat}
    (h : ∀ store ∈ stores, cell ≠ store.1.toNat) (memory : Memory) :
    (storeAll memory stores).at? cell = memory.at? cell := by
  induction stores generalizing memory with
  | nil => rfl
  | cons store rest ih =>
      rw [List.forall_mem_cons] at h
      calc
        (storeAll memory (store :: rest)).at? cell =
            (memory.put store.1.toNat store.2).at? cell := ih h.2 _
        _ = memory.at? cell := at?_put_of_ne h.1

/-- A larger machine takes the steps that succeed on the smaller one, and stays larger by the same
cells. -/
theorem EnlargedBy.step (h : small.EnlargedBy tail large) (hstep : small.step = (next, .ok i)) :
    ∃ next', large.step = (next', .ok i) ∧ next.EnlargedBy tail next' := by
  obtain ⟨effect, hplan, rfl⟩ := step_ok_iff.mp hstep
  have hin := lt_size_of_plan hplan
  have hagree : AgreeOn small.footprint small large :=
    ⟨h.registers, h.stackStart, fun cell hcell => h.below cell (hin cell hcell)⟩
  have hsize : (small.commit i effect).memory.size = small.memory.size :=
    size_storeAll small.memory effect.stores
  refine ⟨large.commit i effect, step_ok_iff.mpr ⟨effect, (plan_congr hagree).trans hplan, rfl⟩, ?_⟩
  constructor
  · rfl
  · exact h.stackStart
  · intro cell hcell
    rw [hsize] at hcell
    exact storeAll_congr (h.below cell hcell) effect.stores
  · intro cell hcell
    rw [hsize] at hcell
    have hne : ∀ store ∈ effect.stores, cell ≠ store.1.toNat := by
      rintro store hstore rfl
      exact absurd (hin _ (mem_footprint_of_store hplan hstore)) (Nat.not_lt.mpr hcell)
    exact (at?_storeAll_of_ne hne large.memory).trans (h.above cell hcell)

/-- A run without a fault goes the same way with more memory behind it: the larger machine gives the
same report, ends with the registers and the memory of the smaller one, and keeps the cells behind
that memory. The lengths of the two memories and what the further cells hold are arbitrary. -/
theorem run_enlarged {budget : Nat} {report : Report} (h : small.EnlargedBy tail large)
    (hrun : (small.run budget).2 = .ok report) :
    (large.run budget).2 = .ok report ∧
      (small.run budget).1.EnlargedBy tail (large.run budget).1 ∧
      (small.run budget).1.memory.size = small.memory.size := by
  refine and_assoc.mp ⟨?_, size_run small budget⟩
  induction budget generalizing small large report with
  | zero => exact ⟨hrun, h⟩
  | succ budget ih =>
      cases hstep : small.step with
      | mk next result =>
          cases result with
          | error fault =>
              rw [run_succ_of_fault hstep] at hrun
              cases hrun
          | ok i =>
              obtain ⟨next', hstep', hnext⟩ := h.step hstep
              by_cases hi : i = .halt
              · subst hi
                rw [run_succ_of_halt hstep] at hrun ⊢
                rw [run_succ_of_halt hstep']
                exact ⟨hrun, hnext⟩
              · rw [run_succ_of_ne_halt hstep hi] at hrun ⊢
                rw [run_succ_of_ne_halt hstep' hi]
                obtain ⟨rest, hrest, rfl⟩ := exists_of_map_ok hrun
                obtain ⟨hreport, henlarged⟩ := ih hnext hrest
                refine ⟨?_, henlarged⟩
                rw [hreport]
                rfl

/-- A machine that calls an instruction whose operand is in the frame of that call, and then runs to
the end of its memory. -/
def executesFrame : Machine :=
  { blank ⟨6, 0, 4⟩ with memory := ⟨#[0x42, 0x03, 0x00, 0x11, 0xFF, 0xFF]⟩ }

/-- The same machine with two more cells. -/
def executesFrameWithin : Machine :=
  { blank ⟨8, 0, 4⟩ with memory := ⟨#[0x42, 0x03, 0x00, 0x11, 0xFF, 0xFF, 0x01, 0x43]⟩ }

theorem run_enlarged_to_end :
    executesFrame.EnlargedBy executesFrameWithin.memory executesFrameWithin ∧
    (executesFrame.run 3).2 = .ok ⟨3, false⟩ ∧
    (executesFrameWithin.run 3).2 = .ok ⟨3, false⟩ ∧
    (executesFrameWithin.run 3).1.registers = ⟨6, 3, 6, .clear⟩ ∧
    (executesFrame.run 4).2 = .error ⟨.outOfBounds 6, 6⟩ ∧
    (executesFrameWithin.run 4).2 = .ok ⟨4, true⟩ := by
  have henlarged : executesFrame.EnlargedBy executesFrameWithin.memory executesFrameWithin :=
    ⟨rfl, rfl, by decide, fun _ _ => rfl⟩
  have hrun : (executesFrame.run 3).2 = .ok ⟨3, false⟩ := rfl
  have hregisters : (executesFrame.run 3).1.registers = ⟨6, 3, 6, .clear⟩ := rfl
  obtain ⟨hlarge, hafter, _⟩ := run_enlarged henlarged hrun
  exact ⟨henlarged, hrun, hlarge, hafter.registers.trans hregisters, rfl, rfl⟩

end Machine
end Accumulator
