import Accumulator.Proofs.Debugger.Transparency
import Accumulator.Proofs.Machine.Loading

/-!
# Sessions that are reset

A reset of a session leads its machine back to where the layout starts, with the program in place,
whatever has been done to the session and to the machine before. What the user has set up stays:
the breakpoints and the rows of memory on view. If the program does not fit, the status says so and
memory is left empty.
-/

namespace Accumulator.Session

/-- What may happen to a session. Its user asks for something, or its host changes the registers or
the memory of its machine. -/
inductive Action
  | command (command : Command)
  | reset
  | setRegisters (registers : Registers)
  | alter (operation : MemoryOperation)
  deriving DecidableEq, Repr

/-- The session after an action. -/
def act (s : Session) : Action → Session
  | .command command => s.perform command
  | .reset => s.reset
  | .setRegisters registers => { s with machine := s.machine.setRegisters registers }
  | .alter operation =>
      { s with machine := { s.machine with memory := (s.machine.memory.perform operation).1 } }

/-- The session after several actions, one after another. -/
def actAll (s : Session) (actions : List Action) : Session := actions.foldl act s

variable {layout : Layout} {program : List UInt8} {s : Session}

/-! ## What a session keeps -/

/-- A session has the program that it was started with, and a machine built for the same layout. -/
structure BelongsTo (layout : Layout) (program : List UInt8) (s : Session) : Prop where
  machine : s.machine.BuiltFor layout
  program_eq : s.program = program

/-- What the user has set up is the same in two sessions. -/
structure SameSetup (s t : Session) : Prop where
  program : t.program = s.program
  breakpoints : t.breakpoints = s.breakpoints
  scroll : t.scroll = s.scroll

theorem SameSetup.trans {t u : Session} (h : s.SameSetup t) (h' : t.SameSetup u) :
    s.SameSetup u :=
  ⟨h'.program.trans h.program, h'.breakpoints.trans h.breakpoints, h'.scroll.trans h.scroll⟩

theorem sameSetup_step (s : Session) : s.SameSetup s.step := by
  rw [step]
  split
  · exact ⟨rfl, rfl, rfl⟩
  · exact ⟨rfl, rfl, rfl⟩
  · exact ⟨rfl, rfl, rfl⟩

theorem sameSetup_proceed (s : Session) (budget : Nat) : s.SameSetup (s.proceed budget) := by
  induction budget generalizing s with
  | zero => exact ⟨rfl, rfl, rfl⟩
  | succ budget ih =>
      rw [proceed]
      split
      · exact ⟨rfl, rfl, rfl⟩
      · dsimp only
        split
        · exact s.sameSetup_step.trans (ih s.step)
        · exact s.sameSetup_step

theorem sameSetup_tick (s : Session) : s.SameSetup s.tick := by
  rw [tick]
  split
  · dsimp only
    split
    · exact s.sameSetup_step.trans (s.step.sameSetup_proceed _)
    · exact s.sameSetup_step
  · exact ⟨rfl, rfl, rfl⟩

theorem perform_program (s : Session) (command : Command) :
    (s.perform command).program = s.program := by
  cases command with
  | step => exact s.sameSetup_step.program
  | tick => exact s.sameSetup_tick.program
  | run | scrollUp => rfl
  | toggleBreakpoint =>
      rw [perform, toggleBreakpoint]
      split
      · rfl
      · rfl
  | scrollDown =>
      rw [perform, scrollDown]
      split
      · rfl
      · rfl

theorem BelongsTo.perform (h : s.BelongsTo layout program) (command : Command) :
    (s.perform command).BelongsTo layout program where
  machine := by
    have hsteps := (s.takesSteps_record command).machine
    rw [record_session] at hsteps
    rw [hsteps]
    exact h.machine.path (s.machine.path_results _)
  program_eq := (s.perform_program command).trans h.program_eq

/-! ## Resets -/

/-- The program is loaded into the machine that has been reset, if it can be. -/
theorem reset_machine (s : Session) :
    s.reset.machine = (s.machine.reset.loadProgram s.program).toOption.getD s.machine.reset := by
  rw [reset]
  split
  · rename_i hload
    rw [hload]
    rfl
  · rename_i hload
    rw [hload]
    rfl

theorem BelongsTo.reset_machine (h : s.BelongsTo layout program) :
    s.reset.machine =
      ((Machine.blank layout).loadProgram program).toOption.getD (Machine.blank layout) := by
  rw [Session.reset_machine, h.machine.reset_eq, h.program_eq]

/-- Only the machine, the run and the status are reset. -/
theorem reset_kept (s : Session) :
    s.reset.running = false ∧ s.reset.breakpoints = s.breakpoints ∧
      s.reset.scroll = s.scroll ∧ s.reset.program = s.program := by
  rw [reset]
  split
  · exact ⟨rfl, rfl, rfl, rfl⟩
  · exact ⟨rfl, rfl, rfl, rfl⟩

theorem BelongsTo.reset_of_le (h : s.BelongsTo layout program)
    (hroom : layout.heapStart.toNat + program.length ≤ layout.capacity) :
    s.reset.status = .reloaded := by
  have hload := (Machine.builtFor_blank layout).loadProgram_of_le hroom
  rw [Session.reset]
  simp only [h.machine.reset_eq, h.program_eq, hload]

theorem BelongsTo.reset_of_lt (h : s.BelongsTo layout program) (hvalid : layout.Valid)
    (hlarge : layout.capacity < layout.heapStart.toNat + program.length) :
    s.reset.machine = Machine.blank layout ∧ ∃ e, s.reset.status = .reloadFailed e := by
  have hload := (Machine.builtFor_blank layout).loadProgram_of_lt hvalid hlarge
  rw [Session.reset]
  simp only [h.machine.reset_eq, h.program_eq, hload]
  exact ⟨trivial, _, rfl⟩

theorem BelongsTo.reset (h : s.BelongsTo layout program) : s.reset.BelongsTo layout program where
  machine := by
    rw [h.reset_machine]
    cases hload : (Machine.blank layout).loadProgram program with
    | ok loaded => exact (Machine.builtFor_blank layout).loaded hload
    | error e => exact Machine.builtFor_blank layout
  program_eq := s.reset_kept.2.2.2.trans h.program_eq

/-- Whatever happens to a session, it keeps its program and the layout of its machine. -/
theorem BelongsTo.act (h : s.BelongsTo layout program) (action : Action) :
    (s.act action).BelongsTo layout program := by
  cases action with
  | command command => exact h.perform command
  | reset => exact h.reset
  | setRegisters registers => exact ⟨⟨h.machine.layout_eq, h.machine.size⟩, h.program_eq⟩
  | alter operation =>
      have hsize := s.machine.memory.size_perform operation
      exact ⟨⟨h.machine.layout_eq, hsize.trans h.machine.size⟩, h.program_eq⟩

theorem BelongsTo.actAll (h : s.BelongsTo layout program) (actions : List Action) :
    (s.actAll actions).BelongsTo layout program := by
  induction actions generalizing s with
  | nil => exact h
  | cons action rest ih => exact ih (h.act action)

/-- How the status begins where the program could not be loaded again. -/
def failureMark : Text := "Reload failed: ".toList

/-- A reset forgets the run. After any actions on a session and its machine, it leaves the machine
that a new one of the same layout becomes when loading the program is tried on it. The run has
ended; breakpoints and rows on view stay. The status reports a failure exactly if the program does
not fit behind the start of the heap, and then memory is zero. -/
theorem reset_forgets {fresh m : Machine} (accepted : Machine.ofLayout layout = .ok fresh)
    (built : m.BuiltFor layout) (program : List UInt8) (actions : List Action) :
    let s := (start m program).actAll actions
    s.reset.machine = (fresh.loadProgram program).toOption.getD fresh ∧
    s.reset.running = false ∧ s.reset.breakpoints = s.breakpoints ∧ s.reset.scroll = s.scroll ∧
    (failureMark <+: s.reset.status.text ↔
      layout.capacity < layout.heapStart.toNat + program.length) ∧
    (layout.capacity < layout.heapStart.toNat + program.length →
      s.reset.machine.memory = .zeroed layout.capacity) := by
  intro s
  obtain ⟨hvalid, rfl⟩ := Machine.ofLayout_ok_iff.mp accepted
  have hstart : (start m program).BelongsTo layout program := ⟨built, rfl⟩
  have hbelongs := hstart.actAll actions
  obtain ⟨hrunning, hbreakpoints, hscroll, _⟩ := s.reset_kept
  refine ⟨hbelongs.reset_machine, hrunning, hbreakpoints, hscroll, ?_, ?_⟩
  · by_cases hlarge : layout.capacity < layout.heapStart.toNat + program.length
    · obtain ⟨_, e, hstatus⟩ := hbelongs.reset_of_lt hvalid hlarge
      rw [hstatus]
      exact iff_of_true (List.prefix_append ..) hlarge
    · rw [hbelongs.reset_of_le (Nat.le_of_not_lt hlarge)]
      exact iff_of_false (by decide) hlarge
  · intro hlarge
    rw [(hbelongs.reset_of_lt hvalid hlarge).1]
    rfl

/-- A memory of eight bytes, with programs at its third. -/
def narrow : Layout := ⟨8, 2, 4⟩

/-- One instruction is executed, a breakpoint is set, and the registers and a cell outside the
program are overwritten. -/
def disturbances : List Action :=
  [.command .step, .command .toggleBreakpoint, .setRegisters ⟨7, 9, 6, .clear⟩,
    .alter (.write 7 0xAA), .command .scrollDown]

theorem reset_forgets_disturbances :
    ((start (.blank narrow) [0x01, 0x43]).actAll disturbances).machine.cycles = 1 ∧
    ((start (.blank narrow) [0x01, 0x43]).actAll disturbances).reset.machine =
      { Machine.blank narrow with memory := ⟨#[0, 0, 0x01, 0x43, 0, 0, 0, 0]⟩ } ∧
    ((start (.blank narrow) [0x01, 0x43]).actAll disturbances).reset.breakpoints = [3] ∧
    ((start (.blank narrow) (List.replicate 7 1)).actAll disturbances).reset.machine.memory =
      .zeroed 8 := by
  have haccepted : Machine.ofLayout narrow = .ok (.blank narrow) := rfl
  have hbuilt := Machine.builtFor_blank narrow
  obtain ⟨hmachine, _, hbreakpoints, _⟩ :=
    reset_forgets haccepted hbuilt [0x01, 0x43] disturbances
  obtain ⟨_, _, _, _, _, hempty⟩ :=
    reset_forgets haccepted hbuilt (List.replicate 7 1) disturbances
  exact ⟨by decide, hmachine.trans (by decide), hbreakpoints.trans (by decide),
    hempty (by decide)⟩

end Accumulator.Session
