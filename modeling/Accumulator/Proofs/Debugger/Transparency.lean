import Accumulator.Proofs.Debugger.Breakpoints
import Accumulator.Proofs.Machine.Composition

/-!
# Sessions execute plain steps

Whatever is asked of a session short of a reset, its machine takes plain steps, one after the other,
and nothing else happens to it. To see this, a session is carried along with a record of what its
attempts to execute an instruction gave. The record of any sequence of commands is that of as many
plain steps, whatever the breakpoints are, so no instruction is lost, repeated or skipped where a
run is taken up again.

## Implementation notes

An attempt that faults leaves the machine as it is, so there may be more attempts than instructions
executed. The cycle count goes on by the number of the latter. A command executes no more than a
slice of them, so unless there are more commands than anyone can give, the difference of the
counters is that number, also where the counter has started again at zero.
-/

namespace Accumulator

/-! ## Plain steps -/

/-- A halt or a fault, after which a run does not go on. -/
def EndsRun : Except Fault Instruction → Prop
  | .ok i => i = .halt
  | .error _ => True

namespace Machine

/-- What a number of steps give, one after the other. -/
def results (m : Machine) : Nat → List (Except Fault Instruction)
  | 0 => []
  | n + 1 => m.step.2 :: m.step.1.results n

variable {m m' : Machine}

theorem results_add (m : Machine) (k n : Nat) :
    m.results (k + n) = m.results k ++ (m.after k).results n := by
  induction k generalizing m with
  | zero => rw [Nat.zero_add, results, List.nil_append, after_zero]
  | succ k ih => rw [Nat.add_right_comm, results, results, ih, List.cons_append, after]

/-- The instructions among the results of plain steps are executed one after the other. -/
theorem path_results (m : Machine) (n : Nat) :
    m.Path ((m.results n).filterMap Except.toOption) (m.after n) := by
  induction n generalizing m with
  | zero => exact .nil m
  | succ n ih =>
      cases hstep : m.step with
      | mk next result =>
          rw [results, after, hstep]
          cases result with
          | ok i => exact .cons hstep (ih next)
          | error fault =>
              obtain rfl := (step_error_iff.mp hstep).1
              exact ih next

theorem Path.eq_after {instructions : List Instruction} (h : m.Path instructions m') :
    m' = m.after instructions.length := by
  induction h with
  | nil m => rfl
  | @cons m next last i rest step path ih => rw [List.length_cons, after, step, ih]

theorem length_results (m : Machine) (n : Nat) : (m.results n).length = n := by
  induction n generalizing m with
  | zero => rfl
  | succ n ih => rw [results, List.length_cons, ih]

/-- The plain steps that execute an instruction lead to the machine by themselves, and the cycle
count goes on by their number. -/
theorem exists_counts_after (m : Machine) (n : Nat) :
    ∃ k, k ≤ n ∧ m.after n = m.after k ∧ m.Counts k (m.after n) := by
  have hpath := m.path_results n
  have hlength := List.length_filterMap_le Except.toOption (m.results n)
  rw [m.length_results] at hlength
  exact ⟨_, hlength, hpath.eq_after, hpath.counts⟩

theorem endsRun_iff (m : Machine) : EndsRun m.step.2 ↔ ¬ m.Proceeds := by
  cases hresult : m.step.2 with
  | ok i => simp [EndsRun, Proceeds, hresult]
  | error fault => simp [EndsRun, Proceeds, hresult]

end Machine

/-! ## Recorded sessions -/

/-- A session with what the attempts that led to it gave, in their order. -/
structure Recording where
  session : Session
  results : List (Except Fault Instruction)

/-- Go on from the session of a recording. -/
def Recording.andThen (r : Recording) (next : Session → Recording) : Recording where
  session := (next r.session).session
  results := r.results ++ (next r.session).results

/-- Go on from the session of a recording if it is still running. -/
def Recording.whileRunning (r : Recording) (next : Session → Recording) : Recording :=
  if r.session.running then r.andThen next else r

namespace Session

/-- What can be asked of a session other than a reset. -/
inductive Command
  | step
  | run
  | tick
  | toggleBreakpoint
  | scrollUp
  | scrollDown
  deriving DecidableEq, Repr

/-- Do what a command asks for. -/
def perform (s : Session) : Command → Session
  | .step => s.step
  | .run => s.run
  | .tick => s.tick
  | .toggleBreakpoint => s.toggleBreakpoint
  | .scrollUp => s.scrollUp
  | .scrollDown => s.scrollDown

/-- Do what several commands ask for, one after another. -/
def performAll (s : Session) (commands : List Command) : Session := commands.foldl perform s

/-- A session that nothing was attempted for. -/
def unattempted (s : Session) : Recording := ⟨s, []⟩

/-- Execute one instruction and record the attempt. -/
def recordStep (s : Session) : Recording := ⟨s.step, [s.machine.step.2]⟩

/-- The rest of a slice with its attempts. -/
def recordProceed (s : Session) : Nat → Recording
  | 0 => s.unattempted
  | budget + 1 =>
      if s.pc ∈ s.breakpoints then
        unattempted { s with running := false, status := .stoppedAt s.pc }
      else
        s.recordStep.whileRunning fun next => next.recordProceed budget

/-- One slice of a run with its attempts. -/
def recordTick (s : Session) : Recording :=
  if s.running then s.recordStep.whileRunning fun next => next.recordProceed (sliceSize - 1)
  else s.unattempted

/-- Do what a command asks for and record the attempts. -/
def record (s : Session) : Command → Recording
  | .step => s.recordStep
  | .tick => s.recordTick
  | command => (s.perform command).unattempted

/-- Do what several commands ask for and record the attempts. -/
def recordAll (s : Session) : List Command → Recording
  | [] => s.unattempted
  | command :: rest => (s.record command).andThen fun next => next.recordAll rest

variable {s : Session}

/-! ## Recording changes nothing -/

theorem recordStep_whileRunning_session (s : Session) (next : Session → Recording) :
    (s.recordStep.whileRunning next).session =
      if s.step.running then (next s.step).session else s.step := by
  have hsession : s.recordStep.session = s.step := rfl
  rw [Recording.whileRunning, hsession]
  split
  · rfl
  · rfl

theorem recordProceed_session (s : Session) (budget : Nat) :
    (s.recordProceed budget).session = s.proceed budget := by
  induction budget generalizing s with
  | zero => rfl
  | succ budget ih =>
      rw [recordProceed, proceed]
      split
      · rfl
      · rw [recordStep_whileRunning_session, ih]

theorem recordTick_session (s : Session) : s.recordTick.session = s.tick := by
  rw [recordTick, tick]
  split
  · rw [recordStep_whileRunning_session, recordProceed_session]
  · rfl

theorem record_session (s : Session) (command : Command) :
    (s.record command).session = s.perform command := by
  cases command with
  | tick => exact s.recordTick_session
  | step | run | toggleBreakpoint | scrollUp | scrollDown => rfl

theorem recordAll_session (s : Session) (commands : List Command) :
    (s.recordAll commands).session = s.performAll commands := by
  induction commands generalizing s with
  | nil => rfl
  | cons command rest ih =>
      rw [recordAll, Recording.andThen, ih, record_session]
      rfl

/-! ## The record is that of plain steps -/

/-- A recording whose attempts are plain steps of the machine of a session. -/
structure TakesSteps (s : Session) (r : Recording) : Prop where
  machine : r.session.machine = s.machine.after r.results.length
  results : r.results = s.machine.results r.results.length

theorem TakesSteps.unattempted {t : Session} (h : t.machine = s.machine) :
    s.TakesSteps t.unattempted :=
  ⟨h, rfl⟩

theorem takesSteps_recordStep (s : Session) : s.TakesSteps s.recordStep :=
  ⟨s.step_machine, rfl⟩

theorem TakesSteps.andThen {r : Recording} {next : Session → Recording} (h : s.TakesSteps r)
    (hnext : r.session.TakesSteps (next r.session)) : s.TakesSteps (r.andThen next) where
  machine := by
    rw [Recording.andThen, List.length_append, Machine.after_add, ← h.machine]
    exact hnext.machine
  results := by
    rw [Recording.andThen, List.length_append, Machine.results_add, ← h.machine, ← h.results,
      ← hnext.results]

theorem TakesSteps.whileRunning {r : Recording} {next : Session → Recording} (h : s.TakesSteps r)
    (hnext : r.session.TakesSteps (next r.session)) : s.TakesSteps (r.whileRunning next) := by
  rw [Recording.whileRunning]
  split
  · exact h.andThen hnext
  · exact h

theorem takesSteps_recordProceed (s : Session) (budget : Nat) :
    s.TakesSteps (s.recordProceed budget) := by
  induction budget generalizing s with
  | zero => exact .unattempted rfl
  | succ budget ih =>
      rw [recordProceed]
      split
      · exact .unattempted rfl
      · exact s.takesSteps_recordStep.whileRunning (ih _)

theorem takesSteps_recordTick (s : Session) : s.TakesSteps s.recordTick := by
  rw [recordTick]
  split
  · exact s.takesSteps_recordStep.whileRunning (takesSteps_recordProceed _ _)
  · exact .unattempted rfl

/-- Only a step and a slice touch the machine. -/
theorem perform_machine (s : Session) {command : Command} (hstep : command ≠ .step)
    (htick : command ≠ .tick) : (s.perform command).machine = s.machine := by
  cases command with
  | step => exact absurd rfl hstep
  | tick => exact absurd rfl htick
  | run | scrollUp => rfl
  | toggleBreakpoint =>
      rw [perform, toggleBreakpoint]
      split
      · rfl
      · rfl
  | scrollDown =>
      rw [perform, scrollDown]
      split
      · rfl
      · rfl

theorem takesSteps_record (s : Session) (command : Command) : s.TakesSteps (s.record command) := by
  cases command with
  | step => exact s.takesSteps_recordStep
  | tick => exact s.takesSteps_recordTick
  | run | toggleBreakpoint | scrollUp | scrollDown =>
      exact .unattempted (s.perform_machine (by decide) (by decide))

theorem takesSteps_recordAll (s : Session) (commands : List Command) :
    s.TakesSteps (s.recordAll commands) := by
  induction commands generalizing s with
  | nil => exact .unattempted rfl
  | cons command rest ih => exact (s.takesSteps_record command).andThen (ih _)

/-! ## The number of attempts -/

theorem length_whileRunning_le {r : Recording} {next : Session → Recording} {n : Nat}
    (h : (next r.session).results.length ≤ n) :
    (r.whileRunning next).results.length ≤ n + r.results.length := by
  rw [Recording.whileRunning]
  split
  · rw [Recording.andThen, List.length_append, Nat.add_comm]
    exact Nat.add_le_add_right h _
  · exact Nat.le_add_left _ _

theorem length_recordProceed_le (s : Session) (budget : Nat) :
    (s.recordProceed budget).results.length ≤ budget := by
  induction budget generalizing s with
  | zero => exact Nat.le_refl 0
  | succ budget ih =>
      rw [recordProceed]
      split
      · exact Nat.zero_le _
      · exact length_whileRunning_le (ih _)

theorem length_record_le (s : Session) (command : Command) :
    (s.record command).results.length ≤ sliceSize := by
  cases command with
  | step => exact (by decide : 1 ≤ sliceSize)
  | tick =>
      rw [record, recordTick]
      split
      · exact length_whileRunning_le (length_recordProceed_le _ (sliceSize - 1))
      · exact Nat.zero_le _
  | run | toggleBreakpoint | scrollUp | scrollDown => exact Nat.zero_le _

/-- Every command attempts at most a slice of instructions. -/
theorem length_recordAll_le (s : Session) (commands : List Command) :
    (s.recordAll commands).results.length ≤ sliceSize * commands.length := by
  induction commands generalizing s with
  | nil => exact Nat.le_refl 0
  | cons command rest ih =>
      calc
        (s.recordAll (command :: rest)).results.length =
            (s.record command).results.length +
              ((s.record command).session.recordAll rest).results.length :=
          List.length_append
        _ ≤ sliceSize + sliceSize * rest.length :=
          Nat.add_le_add (s.length_record_le command) (ih _)
        _ = sliceSize * (command :: rest).length := by
          rw [List.length_cons, Nat.mul_succ, Nat.add_comm]

/-! ## The end of a run -/

/-- Nothing is attempted after a halt or a fault, which leave the session stopped. -/
structure StopsAtEnd (r : Recording) : Prop where
  last : ∀ result ∈ r.results.dropLast, ¬ EndsRun result
  stopped : ∀ result ∈ r.results, EndsRun result → r.session.running = false

theorem stopsAtEnd_unattempted (s : Session) : StopsAtEnd s.unattempted :=
  ⟨List.forall_mem_nil _, List.forall_mem_nil _⟩

theorem stopsAtEnd_recordStep (s : Session) : StopsAtEnd s.recordStep where
  last := List.forall_mem_nil _
  stopped := by
    intro result hresult hends
    obtain rfl := List.mem_singleton.mp hresult
    apply Bool.eq_false_iff.mpr
    intro hrunning
    exact s.machine.endsRun_iff.mp hends (s.step_running.mp hrunning).2

/-- What is attempted after a step that leaves the session running does not follow a halt or a
fault. -/
theorem StopsAtEnd.whileRunning {next : Session → Recording} (h : StopsAtEnd (next s.step)) :
    StopsAtEnd (s.recordStep.whileRunning next) := by
  rw [Recording.whileRunning]
  by_cases hrunning : s.recordStep.session.running = true
  · rw [if_pos hrunning]
    have hfirst : ¬ EndsRun s.machine.step.2 := by
      rw [s.machine.endsRun_iff, not_not]
      exact (s.step_running.mp hrunning).2
    have hresults : (s.recordStep.andThen next).results =
        s.machine.step.2 :: (next s.step).results := rfl
    constructor
    · rw [hresults]
      cases hmore : (next s.step).results with
      | nil => exact List.forall_mem_nil _
      | cons second rest =>
          rw [List.dropLast_cons_cons, ← hmore, List.forall_mem_cons]
          exact ⟨hfirst, h.last⟩
    · rw [hresults, List.forall_mem_cons]
      exact ⟨fun hends => absurd hends hfirst, h.stopped⟩
  · rw [if_neg hrunning]
    exact s.stopsAtEnd_recordStep

theorem stopsAtEnd_recordProceed (s : Session) (budget : Nat) :
    StopsAtEnd (s.recordProceed budget) := by
  induction budget generalizing s with
  | zero => exact s.stopsAtEnd_unattempted
  | succ budget ih =>
      rw [recordProceed]
      split
      · exact stopsAtEnd_unattempted _
      · exact (ih s.step).whileRunning

theorem stopsAtEnd_recordTick (s : Session) : StopsAtEnd s.recordTick := by
  rw [recordTick]
  split
  · exact (stopsAtEnd_recordProceed _ _).whileRunning
  · exact s.stopsAtEnd_unattempted

/-! ## Taking up a run -/

/-- The commands that take up a run a number of times, for one slice each. -/
def resumptions : Nat → List Command
  | 0 => []
  | n + 1 => .run :: .tick :: resumptions n

theorem exists_recordTick_run (s : Session) :
    ∃ rest, s.run.recordTick.results = s.machine.step.2 :: rest := by
  have hrunning : s.run.running = true := rfl
  have hstep : s.run.recordStep.results = [s.machine.step.2] := rfl
  rw [recordTick, if_pos hrunning, Recording.whileRunning]
  split
  · rw [Recording.andThen, hstep]
    exact ⟨_, rfl⟩
  · exact ⟨[], hstep⟩

theorem recordAll_resumptions_succ (s : Session) (n : Nat) :
    (s.recordAll (resumptions (n + 1))).results =
      s.run.recordTick.results ++ (s.run.recordTick.session.recordAll (resumptions n)).results :=
  rfl

theorem le_attempts_resumptions (s : Session) (n : Nat) :
    n ≤ (s.recordAll (resumptions n)).results.length := by
  induction n generalizing s with
  | zero => exact Nat.zero_le _
  | succ n ih =>
      obtain ⟨rest, hrest⟩ := s.exists_recordTick_run
      have hmore := ih s.run.recordTick.session
      rw [recordAll_resumptions_succ, hrest, List.length_append, List.length_cons]
      omega

/-- A session is transparent for its machine. Any commands leave the machine that as many plain
steps give as its cycle count has gone on by, and their attempts are the plain steps in order. Only
a step and a slice touch the machine. Within a slice nothing is attempted after a halt or a fault,
and a slice that takes up a run attempts the next instruction before anything else, so that taking
up a run several times attempts at least as many instructions. -/
theorem commands_transparent (s : Session) (commands : List Command) :
    (∃ k, k ≤ sliceSize * commands.length ∧
      (s.performAll commands).machine = s.machine.after k ∧
      s.machine.Counts k (s.performAll commands).machine) ∧
    (sliceSize * commands.length < 0x10000000000000000 →
      (s.performAll commands).machine =
        s.machine.after ((s.performAll commands).machine.counter - s.machine.counter).toNat) ∧
    (∃ results, s.recordAll commands = ⟨s.performAll commands, results⟩ ∧
      results = s.machine.results results.length ∧
      s.machine.Path (results.filterMap Except.toOption) (s.performAll commands).machine) ∧
    (∀ command, command ≠ .step → command ≠ .tick →
      (s.perform command).machine = s.machine) ∧
    (∃ results, s.record .tick = ⟨s.tick, results⟩ ∧
      (∀ result ∈ results.dropLast, ¬ EndsRun result) ∧
      ∀ result ∈ results, EndsRun result → s.tick.running = false) ∧
    (∃ rest, (s.run.record .tick).results = s.machine.step.2 :: rest) ∧
    ∀ n, n ≤ (s.recordAll (resumptions n)).results.length := by
  have hsession := s.recordAll_session commands
  have hsteps := s.takesSteps_recordAll commands
  have hmachine := hsteps.machine
  have hstops := s.stopsAtEnd_recordTick
  rw [hsession] at hmachine
  obtain ⟨k, hk, hafter, hcounts⟩ :=
    s.machine.exists_counts_after (s.recordAll commands).results.length
  rw [← hmachine] at hafter hcounts
  have hle : k ≤ sliceSize * commands.length := Nat.le_trans hk (s.length_recordAll_le commands)
  refine ⟨⟨k, hle, hafter, hcounts⟩, ?_, ⟨(s.recordAll commands).results, ?_, hsteps.results, ?_⟩,
    fun _ => s.perform_machine, ⟨s.recordTick.results, ?_, hstops.last, ?_⟩,
    s.exists_recordTick_run, s.le_attempts_resumptions⟩
  · intro hsmall
    rw [hcounts.toNat_sub (Nat.lt_of_le_of_lt hle hsmall)]
    exact hafter
  · rw [← hsession]
  · have hpath := s.machine.path_results (s.recordAll commands).results.length
    rwa [← hsteps.results, ← hmachine] at hpath
  · rw [← s.recordTick_session]
    rfl
  · rw [← s.recordTick_session]
    exact hstops.stopped

/-- A session that loads a value, does nothing and halts, with a breakpoint at every instruction
after the first; behind the halt it returns without a call. -/
def haltingSession : Session :=
  let m := { Machine.blank ⟨6, 0, 4⟩ with memory := ⟨#[0x11, 0x05, 0x00, 0x01, 0x43, 0x00]⟩ }
  { start m [] with breakpoints := [2, 3, 4] }

/-- Taken up four times, the session executes its three instructions and then faults. -/
theorem haltingSession_transparent :
    (haltingSession.recordAll (resumptions 4)).results =
      [.ok (.loadImmediate 5), .ok .nop, .ok .halt, .error ⟨.stackUnderflow, 4⟩] ∧
    (haltingSession.performAll (resumptions 4)).machine = haltingSession.machine.after 3 ∧
    haltingSession.toggleBreakpoint.machine = haltingSession.machine := by
  have hresults : (haltingSession.recordAll (resumptions 4)).results =
      [.ok (.loadImmediate 5), .ok .nop, .ok .halt, .error ⟨.stackUnderflow, 4⟩] := by
    decide +kernel
  have hgrowth : ((haltingSession.performAll (resumptions 4)).machine.counter -
      haltingSession.machine.counter).toNat = 3 := by
    decide +kernel
  obtain ⟨_, hmachine, _, hkept, _⟩ := commands_transparent haltingSession (resumptions 4)
  have hmachine := hmachine (by decide)
  rw [hgrowth] at hmachine
  exact ⟨hresults, hmachine, hkept .toggleBreakpoint (by decide) (by decide)⟩

end Session
end Accumulator
