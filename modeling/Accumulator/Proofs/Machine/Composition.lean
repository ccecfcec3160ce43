import Accumulator.Proofs.Machine.Stepping
import Accumulator.Proofs.Results

/-!
# Runs in two parts

The instructions that complete in a run form a path of the machine, and how the run ends is decided
by that path and its budget. A run that used up its budget can be continued as if it had not been
interrupted; one that has halted or faulted is the same under any larger budget.
-/

namespace Accumulator

/-- The report of a run that follows on instructions executed before it. -/
def Report.following (done : Nat) (report : Report) : Report :=
  { report with executed := done + report.executed }

@[simp] theorem Report.following_zero (report : Report) : report.following 0 = report := by
  rw [following, Nat.zero_add]

namespace Machine

variable {m m' next : Machine} {i : Instruction}

/-! ## Paths -/

/-- A machine executes instructions one after the other and so becomes another machine. -/
inductive Path : Machine → List Instruction → Machine → Prop
  | nil (m : Machine) : Path m [] m
  | cons {m next last : Machine} {i : Instruction} {rest : List Instruction}
      (step : m.step = (next, .ok i)) (path : Path next rest last) : Path m (i :: rest) last

variable {instructions : List Instruction}

theorem Path.counts (h : m.Path instructions m') : m.Counts instructions.length m' := by
  induction h with
  | nil m => exact .zero m
  | @cons m next last i rest step path ih =>
      rw [List.length_cons, Nat.add_comm]
      exact (counts_step step).trans ih

theorem Path.trans {following : List Instruction} (h : m.Path instructions next)
    (hfollowing : next.Path following m') : m.Path (instructions ++ following) m' := by
  induction h with
  | nil m => exact hfollowing
  | cons step path ih => exact .cons step (ih hfollowing)

/-- The last instruction of a path is the one that the machine remembers. -/
theorem Path.lastInstruction (h : m.Path instructions m') :
    m'.lastInstruction = instructions.getLast?.or m.lastInstruction := by
  induction h with
  | nil m => rfl
  | @cons m next last i rest step path ih =>
      rw [ih, step_lastInstruction step, List.getLast?_cons]
      cases rest.getLast? <;> rfl

/-! ## What a run executes -/

/-- How a run ends after the instructions that it has completed. -/
inductive Ends (budget : Nat) (instructions : List Instruction) (last : Machine) :
    Except Fault Report → Prop
  /-- The budget is used up. -/
  | exhausted (length : instructions.length = budget) (running : .halt ∉ instructions) :
      Ends budget instructions last (.ok ⟨instructions.length, false⟩)
  /-- The last instruction is a halt, and no other one is. -/
  | halted {before : List Instruction} (length : instructions.length ≤ budget)
      (eq : instructions = before ++ [.halt]) (running : .halt ∉ before) :
      Ends budget instructions last (.ok ⟨instructions.length, true⟩)
  /-- The instruction after these faults. -/
  | faulted {fault : Fault} (length : instructions.length < budget)
      (running : .halt ∉ instructions) (step : last.step = (last, .error fault)) :
      Ends budget instructions last (.error fault)

theorem Ends.length_le {budget : Nat} {last : Machine} {outcome : Except Fault Report}
    (h : Ends budget instructions last outcome) : instructions.length ≤ budget := by
  cases h with
  | exhausted length => exact Nat.le_of_eq length
  | halted length => exact length
  | faulted length => exact Nat.le_of_lt length

theorem Ends.executed {budget : Nat} {last : Machine} {report : Report}
    (h : Ends budget instructions last (.ok report)) : report.executed = instructions.length := by
  cases h with
  | exhausted => rfl
  | halted => rfl

/-- The instructions executed before a run only add to its count. -/
theorem runFrom_eq (done budget : Nat) (m : Machine) :
    runFrom done budget m =
      ((m.run budget).1, (m.run budget).2.map (Report.following done)) := by
  induction budget generalizing done m with
  | zero => rfl
  | succ budget ih =>
      rw [run, runFrom, runFrom]
      cases hstep : m.step with
      | mk next result =>
          cases result with
          | error fault => rfl
          | ok i =>
              by_cases hi : i = .halt
              · subst hi
                rfl
              · simp only [ih (done + 1), ih (0 + 1)]
                cases (next.run budget).2 with
                | error fault => rfl
                | ok report =>
                    simp only [Except.map, Report.following, Nat.add_assoc, Nat.zero_add]

theorem run_zero (m : Machine) : m.run 0 = (m, .ok ⟨0, false⟩) := rfl

theorem run_succ_of_fault {fault : Fault} (h : m.step = (m', .error fault)) (budget : Nat) :
    m.run (budget + 1) = (m', .error fault) := by
  rw [run, runFrom, h]

theorem run_succ_of_halt (h : m.step = (m', .ok .halt)) (budget : Nat) :
    m.run (budget + 1) = (m', .ok ⟨1, true⟩) := by
  rw [run, runFrom, h]

theorem run_succ_of_ne_halt (h : m.step = (m', .ok i)) (hi : i ≠ .halt) (budget : Nat) :
    m.run (budget + 1) = ((m'.run budget).1, (m'.run budget).2.map (Report.following 1)) := by
  have hrun : m.run (budget + 1) = runFrom 1 budget m' := by
    rw [run, runFrom, h]
    cases i with
    | halt => exact absurd rfl hi
    | _ => rfl
  rw [hrun, runFrom_eq]

/-- A path without halts is all of the run that its length allows. -/
theorem Path.run (h : m.Path instructions m') (hhalt : .halt ∉ instructions) :
    m.run instructions.length = (m', .ok ⟨instructions.length, false⟩) := by
  induction h with
  | nil m => rfl
  | @cons m next last i rest step path ih =>
      have hi : i ≠ .halt := fun heq => hhalt (heq ▸ List.mem_cons_self)
      have hrest : .halt ∉ rest := fun hmem => hhalt (List.mem_cons_of_mem i hmem)
      rw [List.length_cons, run_succ_of_ne_halt step hi, ih hrest]
      simp only [Except.map, Report.following, Nat.add_comm 1]

/-- A run follows a path, and ends as that path says. -/
theorem exists_path_run (m : Machine) (budget : Nat) :
    ∃ instructions, m.Path instructions (m.run budget).1 ∧
      Ends budget instructions (m.run budget).1 (m.run budget).2 := by
  induction budget generalizing m with
  | zero => exact ⟨[], .nil m, .exhausted rfl List.not_mem_nil⟩
  | succ budget ih =>
      cases hstep : m.step with
      | mk next result =>
          cases result with
          | error fault =>
              obtain rfl := (step_error_iff.mp hstep).1
              rw [run_succ_of_fault hstep]
              exact ⟨[], .nil next, .faulted (Nat.succ_pos budget) List.not_mem_nil hstep⟩
          | ok i =>
              by_cases hi : i = .halt
              · subst hi
                rw [run_succ_of_halt hstep]
                exact ⟨[.halt], .cons hstep (.nil next),
                  .halted (Nat.succ_le_succ (Nat.zero_le _)) rfl List.not_mem_nil⟩
              · obtain ⟨rest, hpath, hends⟩ := ih next
                rw [run_succ_of_ne_halt hstep hi]
                refine ⟨i :: rest, .cons hstep hpath, ?_⟩
                revert hends
                generalize (next.run budget).1 = last
                generalize (next.run budget).2 = outcome
                intro hends
                have hnot :
                    ∀ {others : List Instruction}, .halt ∉ others → .halt ∉ i :: others := by
                  intro others hothers
                  exact List.not_mem_cons_of_ne_of_not_mem (Ne.symm hi) hothers
                cases hends with
                | exhausted length running =>
                    simp only [Except.map, Report.following, Nat.add_comm 1]
                    exact .exhausted (congrArg (· + 1) length) (hnot running)
                | @halted before length eq running =>
                    simp only [Except.map, Report.following, Nat.add_comm 1]
                    exact .halted (Nat.succ_le_succ length) (congrArg (i :: ·) eq) (hnot running)
                | faulted length running step =>
                    exact .faulted (Nat.succ_lt_succ length) (hnot running) step

/-! ## Continuing a run -/

theorem map_following_following (outcome : Except Fault Report) (first second : Nat) :
    (outcome.map (Report.following first)).map (Report.following second) =
      outcome.map (Report.following (second + first)) := by
  cases outcome with
  | error fault => rfl
  | ok report => simp only [Except.map, Report.following, Nat.add_assoc]

/-- A run that used up its budget is continued by the next run. -/
theorem run_add_of_running {first : Nat} {report : Report}
    (h : (m.run first).2 = .ok report) (hrunning : report.halted = false) (second : Nat) :
    m.run (first + second) =
      (((m.run first).1.run second).1,
        ((m.run first).1.run second).2.map (Report.following first)) := by
  induction first generalizing m report with
  | zero =>
      rw [Nat.zero_add, run_zero]
      cases m.run second with
      | mk last outcome =>
          cases outcome with
          | error fault => rfl
          | ok report => simp only [Except.map, Report.following_zero]
  | succ first ih =>
      rw [Nat.add_right_comm]
      cases hstep : m.step with
      | mk next result =>
          cases result with
          | error fault =>
              rw [run_succ_of_fault hstep] at h
              cases h
          | ok i =>
              by_cases hi : i = .halt
              · subst hi
                rw [run_succ_of_halt hstep, Except.ok.injEq] at h
                rw [← h] at hrunning
                exact Bool.noConfusion hrunning
              · rw [run_succ_of_ne_halt hstep hi] at h
                obtain ⟨rest, hrest, rfl⟩ := exists_of_map_ok h
                rw [run_succ_of_ne_halt hstep hi, run_succ_of_ne_halt hstep hi,
                  ih hrest hrunning, map_following_following, Nat.add_comm 1]

/-- A run that has halted or faulted is the same under any larger budget. -/
theorem run_add_of_stopped {first : Nat}
    (h : ∀ report, (m.run first).2 = .ok report → report.halted = true) (second : Nat) :
    m.run (first + second) = m.run first := by
  induction first generalizing m with
  | zero => exact Bool.noConfusion (h _ rfl)
  | succ first ih =>
      rw [Nat.add_right_comm]
      cases hstep : m.step with
      | mk next result =>
          cases result with
          | error fault => rw [run_succ_of_fault hstep, run_succ_of_fault hstep]
          | ok i =>
              by_cases hi : i = .halt
              · subst hi
                rw [run_succ_of_halt hstep, run_succ_of_halt hstep]
              · rw [run_succ_of_ne_halt hstep hi] at h
                rw [run_succ_of_ne_halt hstep hi, run_succ_of_ne_halt hstep hi, ih]
                intro report hreport
                exact h (report.following 1) (by rw [hreport]; rfl)

end Machine
end Accumulator
