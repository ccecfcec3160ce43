import Accumulator.Debugger.Session
import Accumulator.Proofs.Machine.Stepping

/-!
# Breakpoints in a run

A run is executed in slices. Within a slice the address of every instruction but the first is
compared with the breakpoints, and the run stops in front of one. The first instruction of a slice
is never compared. It is meant to be the one at which the run is taken up, but every later slice
begins in the same way, so a breakpoint at the boundary of two slices is run through.

## Implementation notes

Instructions are counted over the whole run, so that instruction `i` is the one that the machine of
the session executes after `i` steps. An instruction that faults is not executed.
-/

namespace Accumulator.Session

/-! ## One slice -/

/-- A session goes on from another by a number of instructions. Only the last of them may be a
halt, and then the run has ended. -/
structure Advances (s : Session) (count : Nat) (t : Session) : Prop where
  breakpoints : t.breakpoints = s.breakpoints
  machine : t.machine = s.machine.after count
  executes : ∀ i < count, (s.machine.after i).Executes
  proceeds : ∀ i, i + 1 < count → (s.machine.after i).Proceeds
  running : t.running = true → s.machine.RunsFor count

variable {s t u : Session}

theorem Advances.zero (hbreakpoints : t.breakpoints = s.breakpoints)
    (hmachine : t.machine = s.machine) : s.Advances 0 t where
  breakpoints := hbreakpoints
  machine := hmachine
  executes := fun _ h => absurd h (Nat.not_lt_zero _)
  proceeds := fun _ h => absurd h (Nat.not_lt_zero _)
  running := fun _ => s.machine.runsFor_zero

theorem Advances.trans {k n : Nat} (h : s.Advances k t) (ht : t.running = true)
    (h' : t.Advances n u) : s.Advances (k + n) u := by
  have hruns := h.running ht
  have hmachine : ∀ i, s.machine.after (k + i) = t.machine.after i := by
    intro i
    rw [h.machine, Machine.after_add]
  have hcases : ∀ i, i < k ∨ ∃ j, i = k + j ∧ s.machine.after i = t.machine.after j := by
    intro i
    by_cases hi : i < k
    · exact Or.inl hi
    · obtain ⟨j, rfl⟩ := Nat.exists_eq_add_of_le (Nat.le_of_not_lt hi)
      exact Or.inr ⟨j, rfl, hmachine j⟩
  constructor
  · exact h'.breakpoints.trans h.breakpoints
  · rw [hmachine]
    exact h'.machine
  · intro i hi
    obtain hlt | ⟨j, rfl, hafter⟩ := hcases i
    · exact (hruns i hlt).executes
    · rw [hafter]
      apply h'.executes
      omega
  · intro i hi
    obtain hlt | ⟨j, rfl, hafter⟩ := hcases i
    · exact hruns i hlt
    · rw [hafter]
      apply h'.proceeds
      omega
  · intro hu
    rw [Machine.runsFor_add, ← h.machine]
    exact ⟨hruns, h'.running hu⟩

theorem step_machine (s : Session) : s.step.machine = s.machine.after 1 := by
  rw [step, Machine.after, Machine.after]
  split
  · rename_i h
    rw [h]
  · rename_i h
    rw [h]
  · rename_i h
    rw [h]

theorem step_breakpoints (s : Session) : s.step.breakpoints = s.breakpoints := by
  rw [step]
  split
  · rfl
  · rfl
  · rfl

theorem step_running (s : Session) :
    s.step.running = true ↔ s.running = true ∧ s.machine.Proceeds := by
  rw [step]
  split
  · rename_i next h
    simp [Machine.Proceeds, h]
  · rename_i next i hne h
    have hi : i ≠ .halt := fun hi => hne (by rw [hi])
    simp [Machine.Proceeds, h, hi]
  · rename_i next fault h
    simp [Machine.Proceeds, h]

/-- One step executes an instruction, or faults and ends the run. -/
theorem advances_step (s : Session) :
    ∃ count, count ≤ 1 ∧ s.Advances count s.step ∧ (s.machine.Executes → count = 1) := by
  by_cases hexecutes : s.machine.Executes
  · refine ⟨1, Nat.le_refl 1, ⟨s.step_breakpoints, s.step_machine, ?_, ?_, ?_⟩, fun _ => rfl⟩
    · intro i hi
      rw [Nat.lt_one_iff.mp hi]
      exact hexecutes
    · intro i hi
      omega
    · intro hrunning
      exact Machine.runsFor_one.mpr (s.step_running.mp hrunning).2
  · refine ⟨0, Nat.zero_le 1, .zero s.step_breakpoints ?_, fun h => absurd h hexecutes⟩
    rw [s.step_machine, Machine.after_of_not_executes hexecutes]

/-- The address of an instruction of the run. -/
def addressAt (s : Session) (i : Nat) : UInt16 := (s.machine.after i).registers.pc

theorem Advances.addressAt {k : Nat} (h : s.Advances k t) (i : Nat) :
    t.addressAt i = s.addressAt (k + i) := by
  rw [Session.addressAt, Session.addressAt, h.machine, Machine.after_add]

/-- Execute one instruction without a look at the breakpoints, then go on as far as a budget and the
breakpoints allow. -/
def resume (s : Session) (budget : Nat) : Session :=
  if s.step.running then s.step.proceed budget else s.step

theorem proceed_succ (s : Session) (budget : Nat) :
    s.proceed (budget + 1) =
      if s.pc ∈ s.breakpoints then { s with running := false, status := .stoppedAt s.pc }
      else s.resume budget := rfl

theorem tick_eq_resume (h : s.running = true) : s.tick = s.resume (sliceSize - 1) := by
  rw [tick, if_pos h]
  rfl

/-- The instructions after the first are not at breakpoints, and a run that has not ended has used
its budget up. -/
structure Checked (s : Session) (count : Nat) (t : Session) (budget : Nat) : Prop where
  advances : s.Advances count t
  clear : ∀ i, 0 < i → i < count → s.addressAt i ∉ s.breakpoints
  within : count ≤ budget
  full : t.running = true → count = budget

theorem checked_resume {budget : Nat}
    (hrest : ∀ t : Session, t.running = true → ∃ count, t.Checked count (t.proceed budget) budget ∧
      (0 < count → t.addressAt 0 ∉ t.breakpoints)) (s : Session) :
    ∃ count, s.Checked count (s.resume budget) (budget + 1) ∧
      (s.machine.Executes → 0 < count) := by
  obtain ⟨count, hle, hstep, hone⟩ := s.advances_step
  rw [resume]
  by_cases hrunning : s.step.running = true
  · obtain rfl := hone (s.step_running.mp hrunning).2.executes
    obtain ⟨more, hchecked, hfirst⟩ := hrest s.step hrunning
    rw [if_pos hrunning]
    refine ⟨1 + more, ⟨hstep.trans hrunning hchecked.advances, ?_, ?_, ?_⟩, ?_⟩
    · intro i hpos hi
      obtain ⟨j, rfl⟩ := Nat.exists_eq_add_of_le (Nat.succ_le_of_lt hpos)
      rw [← hstep.addressAt, ← hstep.breakpoints]
      cases j with
      | zero =>
          apply hfirst
          omega
      | succ j =>
          apply hchecked.clear (j + 1) (Nat.succ_pos j)
          omega
    · rw [Nat.add_comm]
      exact Nat.succ_le_succ hchecked.within
    · intro hr
      rw [hchecked.full hr, Nat.add_comm]
    · intro _
      exact Nat.add_pos_left Nat.one_pos more
  · rw [if_neg hrunning]
    refine ⟨count, ⟨hstep, ?_, Nat.le_trans hle (Nat.le_add_left 1 budget), ?_⟩, ?_⟩
    · intro i hpos hi
      omega
    · intro hr
      exact absurd hr hrunning
    · intro h
      rw [hone h]
      exact Nat.one_pos

theorem checked_proceed (budget : Nat) (s : Session) (hrunning : s.running = true) :
    ∃ count, s.Checked count (s.proceed budget) budget ∧
      (0 < count → s.addressAt 0 ∉ s.breakpoints) := by
  induction budget generalizing s with
  | zero =>
      refine ⟨0, ⟨.zero rfl rfl, ?_, Nat.le_refl 0, fun _ => rfl⟩, ?_⟩
      · intro i _ hi
        exact absurd hi (Nat.not_lt_zero i)
      · intro h
        exact absurd h (Nat.lt_irrefl 0)
  | succ budget ih =>
      rw [proceed_succ]
      by_cases hstop : s.pc ∈ s.breakpoints
      · rw [if_pos hstop]
        refine ⟨0, ⟨.zero rfl rfl, ?_, Nat.zero_le _, ?_⟩, ?_⟩
        · intro i _ hi
          exact absurd hi (Nat.not_lt_zero i)
        · intro h
          exact absurd h Bool.false_ne_true
        · intro h
          exact absurd h (Nat.lt_irrefl 0)
      · rw [if_neg hstop]
        obtain ⟨count, hchecked, _⟩ := checked_resume ih s
        exact ⟨count, hchecked, fun _ => hstop⟩

theorem checked_tick (h : s.running = true) :
    ∃ count, s.Checked count s.tick sliceSize ∧ (s.machine.Executes → 0 < count) := by
  rw [tick_eq_resume h]
  exact checked_resume (checked_proceed _) s

theorem resume_running {budget : Nat}
    (hrest : ∀ t : Session, t.running = true → t.machine.RunsFor budget →
      (∀ i < budget, t.addressAt i ∉ t.breakpoints) → (t.proceed budget).running = true)
    (hrunning : s.running = true) (hruns : s.machine.RunsFor (budget + 1))
    (hclear : ∀ i, 0 < i → i < budget + 1 → s.addressAt i ∉ s.breakpoints) :
    (s.resume budget).running = true := by
  obtain ⟨hproceeds, hruns⟩ := Machine.runsFor_succ.mp hruns
  have hstep : s.step.running = true := s.step_running.mpr ⟨hrunning, hproceeds⟩
  rw [resume, if_pos hstep]
  apply hrest s.step hstep
  · rwa [s.step_machine]
  · intro i hi
    have haddress : s.step.addressAt i = s.addressAt (i + 1) := by
      rw [addressAt, s.step_machine]
      rfl
    rw [s.step_breakpoints, haddress]
    exact hclear (i + 1) (Nat.succ_pos i) (Nat.succ_lt_succ hi)

theorem proceed_running (budget : Nat) (s : Session) (hrunning : s.running = true)
    (hruns : s.machine.RunsFor budget)
    (hclear : ∀ i < budget, s.addressAt i ∉ s.breakpoints) :
    (s.proceed budget).running = true := by
  induction budget generalizing s with
  | zero => exact hrunning
  | succ budget ih =>
      have hfirst : s.pc ∉ s.breakpoints := hclear 0 (Nat.succ_pos budget)
      rw [proceed_succ, if_neg hfirst]
      apply resume_running ih hrunning hruns
      intro i _ hi
      exact hclear i hi

/-! ## All slices of a run -/

/-- The session after the start of a run and a number of slices. -/
def slices (s : Session) : Nat → Session
  | 0 => s.run
  | n + 1 => (s.slices n).tick

/-- The number of instructions executed in a number of slices: what the counter has gone on by in
each of them, taken together. -/
def executed (s : Session) : Nat → Nat
  | 0 => 0
  | n + 1 =>
      s.executed n + ((s.slices (n + 1)).machine.counter - (s.slices n).machine.counter).toNat

/-- A run gets to an instruction: no earlier one faults or halts, and none of them is at a
breakpoint, apart from those at the beginning of a slice. -/
def Reaches (s : Session) (k : Nat) : Prop :=
  s.machine.RunsFor k ∧
    ∀ i, 0 < i → i < k → ¬ sliceSize ∣ i → s.addressAt i ∉ s.breakpoints

/-- No instruction but the first of the run is executed at a breakpoint, and a run that has come to
one afterwards goes no further. -/
def HonoursBreakpoints (s : Session) : Prop :=
  ∀ n, (∀ i, 0 < i → i < s.executed n → s.addressAt i ∉ s.breakpoints) ∧
    (0 < s.executed n → (s.slices n).pc ∈ s.breakpoints →
      (s.slices (n + 1)).running = false ∧ (s.slices (n + 1)).machine = (s.slices n).machine)

theorem tick_of_not_running (h : ¬ s.running = true) : s.tick = s := by
  rw [tick, if_neg h]

/-- A slice adds the instructions that it executes to the number of those before it. -/
theorem exists_executed_succ {n : Nat} (hrunning : (s.slices n).running = true) :
    ∃ more, s.executed (n + 1) = s.executed n + more ∧
      (s.slices n).Checked more (s.slices (n + 1)) sliceSize ∧
      ((s.slices n).machine.Executes → 0 < more) := by
  obtain ⟨more, hchecked, hpos⟩ := checked_tick hrunning
  have hadvances : (s.slices n).Advances more (s.slices (n + 1)) := hchecked.advances
  refine ⟨more, ?_, hchecked, hpos⟩
  have hsmall : more < 0x10000000000000000 := Nat.lt_of_le_of_lt hchecked.within (by decide)
  rw [executed, hadvances.machine,
    (Machine.counts_after hadvances.executes).toNat_sub hsmall]

theorem executed_succ_of_not_running {n : Nat} (h : ¬ (s.slices n).running = true) :
    s.executed (n + 1) = s.executed n := by
  have htick : s.slices (n + 1) = s.slices n := tick_of_not_running h
  rw [executed, htick, UInt64.sub_self]
  exact Nat.add_zero _

theorem advances_slices (s : Session) (n : Nat) :
    s.Advances (s.executed n) (s.slices n) ∧
      (∀ i, 0 < i → i < s.executed n → ¬ sliceSize ∣ i → s.addressAt i ∉ s.breakpoints) ∧
      ((s.slices n).running = true → s.executed n = sliceSize * n) := by
  induction n with
  | zero =>
      refine ⟨.zero rfl rfl, ?_, fun _ => rfl⟩
      intro i _ hi
      exact absurd hi (Nat.not_lt_zero i)
  | succ n ih =>
      obtain ⟨hadvances, hclear, hfull⟩ := ih
      by_cases hrunning : (s.slices n).running = true
      · obtain ⟨more, hmore, hchecked, _⟩ := exists_executed_succ hrunning
        rw [hmore]
        refine ⟨hadvances.trans hrunning hchecked.advances, ?_, ?_⟩
        · intro i hpos hi hboundary
          by_cases hlt : i < s.executed n
          · exact hclear i hpos hlt hboundary
          · obtain ⟨j, rfl⟩ := Nat.exists_eq_add_of_le (Nat.le_of_not_lt hlt)
            have hj : 0 < j := by
              apply Nat.pos_of_ne_zero
              rintro rfl
              apply hboundary
              rw [hfull hrunning]
              exact Nat.dvd_mul_right sliceSize n
            rw [← hadvances.addressAt, ← hadvances.breakpoints]
            exact hchecked.clear j hj (Nat.lt_of_add_lt_add_left hi)
        · intro hr
          calc
            s.executed n + more = sliceSize * n + sliceSize := by
              rw [hfull hrunning, hchecked.full hr]
            _ = sliceSize * (n + 1) := (Nat.mul_succ sliceSize n).symm
      · have htick : s.slices (n + 1) = s.slices n := tick_of_not_running hrunning
        rw [executed_succ_of_not_running hrunning, htick]
        exact ⟨hadvances, hclear, fun hr => absurd hr hrunning⟩

theorem slices_machine (s : Session) (n : Nat) :
    (s.slices n).machine = s.machine.after (s.executed n) :=
  (s.advances_slices n).1.machine

theorem executed_of_running {n : Nat} (h : (s.slices n).running = true) :
    s.executed n = sliceSize * n :=
  (s.advances_slices n).2.2 h

/-- A breakpoint that is run through is at the boundary of two slices. -/
theorem dvd_of_executed {n i : Nat} (hpos : 0 < i) (hi : i < s.executed n)
    (hbreak : s.addressAt i ∈ s.breakpoints) : sliceSize ∣ i := by
  apply Decidable.byContradiction
  intro hboundary
  exact (s.advances_slices n).2.1 i hpos hi hboundary hbreak

theorem reaches_of_executed {n i : Nat} (hi : i < s.executed n) : s.Reaches i := by
  obtain ⟨hadvances, hclear, _⟩ := s.advances_slices n
  constructor
  · intro j hj
    exact hadvances.proceeds j (Nat.lt_of_le_of_lt hj hi)
  · intro j hpos hj
    exact hclear j hpos (Nat.lt_trans hj hi)

theorem executes_of_executed {n i : Nat} (hi : i < s.executed n) :
    (s.machine.after i).Executes :=
  (s.advances_slices n).1.executes i hi

theorem reaches_of_running {n : Nat} (h : (s.slices n).running = true) :
    s.Reaches (sliceSize * n) := by
  obtain ⟨hadvances, hclear, hfull⟩ := s.advances_slices n
  rw [← hfull h]
  exact ⟨hadvances.running h, hclear⟩

/-- A run that gets to the boundary after a number of slices is still going on there. -/
theorem Reaches.running {n : Nat} (h : s.Reaches (sliceSize * n)) :
    (s.slices n).running = true := by
  induction n with
  | zero => rfl
  | succ n ih =>
      obtain ⟨hruns, hclear⟩ := h
      rw [Nat.mul_succ] at hruns hclear
      have hsplit := Machine.runsFor_add.mp hruns
      have hrunning : (s.slices n).running = true := by
        apply ih
        refine ⟨hsplit.1, ?_⟩
        intro i hpos hi
        exact hclear i hpos (Nat.lt_add_right _ hi)
      obtain ⟨hadvances, _, hfull⟩ := s.advances_slices n
      rw [hfull hrunning] at hadvances
      have htick : s.slices (n + 1) = (s.slices n).resume (sliceSize - 1) :=
        tick_eq_resume hrunning
      rw [htick]
      apply resume_running (proceed_running _) hrunning
      · rw [hadvances.machine]
        exact hsplit.2
      · intro i hpos hi
        rw [hadvances.addressAt, hadvances.breakpoints]
        apply hclear _ (Nat.add_pos_right _ hpos) (Nat.add_lt_add_left hi _)
        intro hboundary
        have hdvd : sliceSize ∣ i := (Nat.dvd_add_right (Nat.dvd_mul_right _ _)).mp hboundary
        exact absurd (Nat.le_of_dvd hpos hdvd) (Nat.not_le.mpr hi)

theorem executed_lt_succ {n : Nat} (hrunning : (s.slices n).running = true)
    (h : (s.slices n).machine.Executes) : s.executed n < s.executed (n + 1) := by
  obtain ⟨more, hmore, _, hpos⟩ := exists_executed_succ hrunning
  rw [hmore]
  exact Nat.lt_add_of_pos_right (hpos h)

/-- A slice that begins with a fault ends the run and leaves the machine as it is. -/
theorem tick_of_not_executes (hrunning : s.running = true) (h : ¬ s.machine.Executes) :
    s.tick.running = false ∧ s.tick.machine = s.machine := by
  have hstopped : ¬ s.step.running = true := fun hr => h (s.step_running.mp hr).2.executes
  rw [tick_eq_resume hrunning, resume, if_neg hstopped]
  constructor
  · exact Bool.eq_false_iff.mpr hstopped
  · rw [s.step_machine, Machine.after_of_not_executes h]

/-- A run honours all breakpoints exactly if no instruction at one of them can be executed at the
boundary of two slices that the run gets to. No other breakpoint is ever run through, and a run that
has come to a stop between two boundaries has ended. -/
theorem honoursBreakpoints_iff (s : Session) :
    (s.HonoursBreakpoints ↔
      ∀ n, 0 < n → s.Reaches (sliceSize * n) → s.addressAt (sliceSize * n) ∈ s.breakpoints →
        ¬ (s.machine.after (sliceSize * n)).Executes) ∧
    ∀ n, (∀ i, 0 < i → i < s.executed n → s.addressAt i ∈ s.breakpoints → sliceSize ∣ i) ∧
      (¬ sliceSize ∣ s.executed n → (s.slices n).running = false) := by
  refine ⟨⟨?_, ?_⟩, fun n => ⟨fun i => dvd_of_executed, ?_⟩⟩
  · intro h n hpos hreaches hbreak hexecutes
    have hrunning := hreaches.running
    have hexecuted := executed_of_running hrunning
    rw [← hexecuted, ← slices_machine] at hexecutes
    have hmore := executed_lt_succ hrunning hexecutes
    rw [hexecuted] at hmore
    exact (h (n + 1)).1 _ (Nat.mul_pos (Nat.succ_pos _) hpos) hmore hbreak
  · intro h n
    constructor
    · intro i hpos hi hbreak
      obtain ⟨k, rfl⟩ := dvd_of_executed hpos hi hbreak
      exact h k (Nat.pos_of_mul_pos_left hpos) (reaches_of_executed hi) hbreak
        (executes_of_executed hi)
    · intro hpos hbreak
      by_cases hrunning : (s.slices n).running = true
      · have hexecuted := executed_of_running hrunning
        have hfaults : ¬ (s.slices n).machine.Executes := by
          rw [slices_machine, hexecuted]
          refine h n (Nat.pos_of_mul_pos_left (hexecuted ▸ hpos)) (reaches_of_running hrunning) ?_
          rw [← hexecuted, addressAt, ← slices_machine]
          exact hbreak
        exact tick_of_not_executes hrunning hfaults
      · have htick : s.slices (n + 1) = s.slices n := tick_of_not_running hrunning
        rw [htick]
        exact ⟨Bool.eq_false_iff.mpr hrunning, rfl⟩
  · intro hboundary
    apply Bool.eq_false_iff.mpr
    intro hrunning
    apply hboundary
    rw [executed_of_running hrunning]
    exact Nat.dvd_mul_right sliceSize n

/-- A session whose machine does nothing 72 times and then faults. -/
def idleSession (breakpoint : UInt16) : Session :=
  { start (.blank ⟨72, 0, 70⟩) [] with breakpoints := [breakpoint] }

/-- A breakpoint within a slice is honoured. -/
theorem idleSession_honoursBreakpoints : (idleSession 2).HonoursBreakpoints := by
  apply (honoursBreakpoints_iff (idleSession 2)).1.mpr
  intro n hpos hreaches
  have hlt : 2 < sliceSize * n := Nat.lt_of_lt_of_le (by decide) (Nat.le_mul_of_pos_right _ hpos)
  exact absurd (by decide) (hreaches.2 2 (by decide) hlt (by decide))

/-- The breakpoint at the boundary of the first two slices is run through. -/
theorem idleSession_passes_boundary : ¬ (idleSession 64).HonoursBreakpoints := by
  intro h
  have hexecuted : 64 < (idleSession 64).executed 2 := by decide +kernel
  exact absurd (by decide +kernel) ((h 2).1 64 (by decide) hexecuted)

end Accumulator.Session
