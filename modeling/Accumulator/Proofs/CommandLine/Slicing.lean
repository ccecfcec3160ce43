import Accumulator.CommandLine.Running
import Accumulator.Proofs.Machine.Composition
import Accumulator.Proofs.Machine.Entries

/-!
# How a program run is cut up

A program may be run in chunks of any length or one instruction at a time. Either way it is the run
of the machine in one go: the same machine is left, the same number of instructions is counted, and
the same end is reported. A record of the instructions only adds its lines to what is printed.
-/

namespace Accumulator.CommandLine

/-- The execution that a run in one go amounts to, without a record of its instructions. -/
def Execution.ofRun : Machine × Except Fault Report → Execution
  | (last, .error fault) => ⟨last, last.cycles, false, some fault, []⟩
  | (last, .ok report) => ⟨last, last.cycles, report.halted, none, []⟩

theorem Execution.ofRun_following (done : Nat) (last : Machine) (outcome : Except Fault Report) :
    ofRun (last, outcome.map (Report.following done)) = ofRun (last, outcome) := by
  cases outcome with
  | error fault => rfl
  | ok report => rfl

/-- The result of an execution, whether it was recorded or not. -/
def Execution.result (e : Execution) : Machine × Nat × Bool × Option Fault :=
  (e.machine, e.executed, e.halted, e.fault)

variable {m : Machine}

@[simp] theorem Execution.ofRun_machine {ran : Machine × Except Fault Report} :
    (ofRun ran).machine = ran.1 := by
  obtain ⟨last, outcome⟩ := ran
  cases outcome <;> rfl

@[simp] theorem Execution.ofRun_executed {ran : Machine × Except Fault Report} :
    (ofRun ran).executed = ran.1.cycles := by
  obtain ⟨last, outcome⟩ := ran
  cases outcome <;> rfl

theorem executed_le {budget : Nat} {report : Report} (h : (m.run budget).2 = .ok report) :
    report.executed ≤ budget := by
  obtain ⟨instructions, _, hends⟩ := m.exists_path_run budget
  rw [h] at hends
  exact hends.executed ▸ hends.length_le

/-- The count of a run is exact if the counter has room for its budget. -/
theorem cycles_run {budget : Nat} {report : Report}
    (hroom : m.cycles + budget < 0x10000000000000000)
    (h : (m.run budget).2 = .ok report) :
    (m.run budget).1.cycles = m.cycles + report.executed := by
  obtain ⟨instructions, hpath, hends⟩ := m.exists_path_run budget
  rw [h] at hends
  have hlength := hends.length_le
  rw [hpath.counts.cycles (by omega), hends.executed]

/-! ## Chunks -/

theorem chunkLength_pos (chunk : Nat) {left : Nat} (h : left ≠ 0) : 0 < chunkLength chunk left := by
  rw [chunkLength]
  omega

theorem chunkLength_le (chunk left : Nat) : chunkLength chunk left ≤ left := Nat.min_le_left _ _

/-- The chunks of a run together are the run in one go, as far as the counter can count it. -/
theorem runChunks_eq (chunk left : Nat) (m : Machine)
    (hroom : m.cycles + left < 0x10000000000000000) :
    runChunks chunk left m.cycles m = Execution.ofRun (m.run left) := by
  induction left using Nat.strongRecOn generalizing m with
  | ind left ih =>
      by_cases hleft : left = 0
      · subst hleft
        rw [runChunks]
        rfl
      · have hpos := chunkLength_pos chunk hleft
        have hcut : left = chunkLength chunk left + (left - chunkLength chunk left) :=
          (Nat.add_sub_of_le (chunkLength_le chunk left)).symm
        rw [runChunks, dif_neg hleft]
        generalize hfirst : chunkLength chunk left = first at hpos hcut ⊢
        cases houtcome : (m.run first).2 with
        | error fault =>
            have hstopped : m.run left = m.run first := by
              rw [hcut]
              apply Machine.run_add_of_stopped
              intro report hreport
              rw [houtcome] at hreport
              cases hreport
            have hrun : m.run first = ((m.run first).1, .error fault) := Prod.ext rfl houtcome
            rw [hstopped, hrun]
            rfl
        | ok report =>
            have hrun : m.run first = ((m.run first).1, .ok report) := Prod.ext rfl houtcome
            have hle : first ≤ left := hfirst ▸ chunkLength_le chunk left
            have hcycles := cycles_run (by omega : m.cycles + first < 0x10000000000000000) houtcome
            cases hhalted : report.halted with
            | true =>
                have hstopped : m.run left = m.run first := by
                  rw [hcut]
                  apply Machine.run_add_of_stopped
                  intro other hother
                  rw [houtcome, Except.ok.injEq] at hother
                  rwa [← hother]
                rw [hstopped, hrun]
                simp only [hhalted, if_true, Execution.ofRun, hcycles]
            | false =>
                have hexecuted := executed_le houtcome
                have hrest := ih (left - first) (Nat.sub_lt (Nat.pos_of_ne_zero hleft) hpos)
                  (m.run first).1 (by omega)
                have hwhole : Execution.ofRun (m.run left) =
                    Execution.ofRun ((m.run first).1.run (left - first)) := by
                  rw [hcut, Machine.run_add_of_running houtcome hhalted, ← hcut]
                  exact Execution.ofRun_following first _ _
                rw [hwhole, ← hrest, hcycles, hrun]
                simp only [hhalted, Bool.false_eq_true, if_false]

/-! ## One instruction at a time -/

/-- Stepping with a record leaves the machine of the run in one go and ends like it. The entries it
adds are those of the instructions that complete, and keep to the budget. -/
theorem exists_traceFrom_eq (entries : Array TraceEntry) (budget : Nat) (m : Machine) :
    ∃ added : List TraceEntry,
      (m.traceFrom entries budget).entries.toList = entries.toList ++ added ∧
      added.length ≤ budget ∧
      m.Path (added.map TraceEntry.instruction) (m.traceFrom entries budget).machine ∧
      ((m.traceFrom entries budget).machine, (m.traceFrom entries budget).halted,
          (m.traceFrom entries budget).fault) =
        ((Execution.ofRun (m.run budget)).machine, (Execution.ofRun (m.run budget)).halted,
          (Execution.ofRun (m.run budget)).fault) := by
  induction budget generalizing entries m with
  | zero => exact ⟨[], by simp [Machine.traceFrom], Nat.le_refl 0, .nil m, rfl⟩
  | succ budget ih =>
      cases hstep : m.step with
      | mk next result =>
          rw [Machine.traceFrom, hstep]
          cases result with
          | error fault =>
              obtain rfl := (Machine.step_error_iff.mp hstep).1
              rw [Machine.run_succ_of_fault hstep]
              exact ⟨[], by simp, Nat.zero_le _, .nil next, rfl⟩
          | ok i =>
              by_cases hi : i = .halt
              · subst hi
                rw [Machine.run_succ_of_halt hstep]
                exact ⟨[.ofStep m.registers.pc .halt next], by simp, Nat.le_add_left 1 budget,
                  .cons hstep (.nil next), rfl⟩
              · obtain ⟨added, hentries, hlength, hpath, hend⟩ :=
                  ih (entries.push (.ofStep m.registers.pc i next)) next
                rw [Machine.run_succ_of_ne_halt hstep hi, Execution.ofRun_following]
                simp only [hi, if_false]
                refine ⟨.ofStep m.registers.pc i next :: added, ?_, Nat.succ_le_succ hlength,
                  .cons hstep hpath, hend⟩
                rw [hentries, Array.toList_push, List.append_assoc, List.singleton_append]

/-! ## A whole run -/

/-- The counts of an execution fit together and keep to a limit on the instructions. -/
structure Execution.Accounts (maxSteps : Nat) (e : Execution) : Prop where
  within : e.executed ≤ maxSteps
  counted : e.executed = e.machine.cycles
  complete : e.halted = false → e.fault = none → e.executed = maxSteps
  one_end : e.halted = false ∨ e.fault = none

/-- A run in one go accounts for its instructions if the cycle count is clear before it. -/
theorem accounts_ofRun (h : m.cycles = 0) {budget : Nat} (hbudget : budget < 0x10000000000000000) :
    (Execution.ofRun (m.run budget)).Accounts budget := by
  obtain ⟨instructions, hpath, hends⟩ := m.exists_path_run budget
  have hcycles : (m.run budget).1.cycles = instructions.length := by
    have hlength := hends.length_le
    rw [hpath.counts.cycles (by omega), h, Nat.zero_add]
  have hwithin : (m.run budget).1.cycles ≤ budget := Nat.le_trans (Nat.le_of_eq hcycles)
    hends.length_le
  revert hends hcycles hwithin
  generalize m.run budget = ran
  obtain ⟨last, outcome⟩ := ran
  intro hends hcycles hwithin
  cases hends with
  | exhausted length => exact ⟨hwithin, rfl, fun _ _ => hcycles.trans length, .inl rfl⟩
  | halted => exact ⟨hwithin, rfl, fun hc => Bool.noConfusion hc, .inr rfl⟩
  | faulted => exact ⟨hwithin, rfl, fun _ hc => absurd hc (Option.some_ne_none _), .inl rfl⟩

/-- However a program run is cut up, it is the run in one go with some record. -/
theorem exists_execute_eq (options : RunOptions) (h : m.cycles = 0) :
    ∃ entries, execute options m =
        { Execution.ofRun (m.run options.maxSteps.toNat) with entries := entries } ∧
      (options.trace = false → entries = []) ∧
      (options.trace = true →
        m.Path (entries.map TraceEntry.instruction) (m.run options.maxSteps.toNat).1 ∧
          (m.run options.maxSteps.toNat).1.cycles = entries.length) := by
  rw [execute]
  cases htrace : options.trace with
  | false =>
      refine ⟨[], ?_, fun _ => rfl, fun hc => Bool.noConfusion hc⟩
      have hroom : m.cycles + options.maxSteps.toNat < 0x10000000000000000 := by
        rw [h, Nat.zero_add]
        exact options.maxSteps.toNat_lt
      have hchunks := runChunks_eq options.chunk options.maxSteps.toNat m hroom
      rw [h] at hchunks
      simp only [Bool.false_eq_true, if_false, hchunks]
      cases m.run options.maxSteps.toNat with
      | mk last outcome => cases outcome <;> rfl
  | true =>
      obtain ⟨added, hentries, hlength, hpath, hend⟩ :=
        exists_traceFrom_eq #[] options.maxSteps.toNat m
      simp only [Prod.mk.injEq] at hend
      obtain ⟨hmachine, hhalted, hfault⟩ := hend
      rw [hmachine, Execution.ofRun_machine] at hpath
      have hcount : (m.run options.maxSteps.toNat).1.cycles = added.length := by
        have hbudget := options.maxSteps.toNat_lt
        have hexact := hpath.counts.cycles
        rw [List.length_map, h, Nat.zero_add] at hexact
        exact hexact (by omega)
      refine ⟨added, ?_, fun hc => Bool.noConfusion hc, fun _ => ⟨hpath, hcount⟩⟩
      · simp only [if_true, runTraced, Machine.trace, hmachine, hhalted, hfault,
          Execution.ofRun_executed, hcount, ← Array.length_toList, hentries, List.nil_append]

/-! ## What is printed -/

theorem printAll_eq (output : String) (lines : List Text) :
    printAll output lines = output ++ printAll "" lines := by
  induction lines generalizing output with
  | nil => exact (String.append_empty).symm
  | cons text rest ih =>
      have hcons : ∀ printed : String,
          printAll printed (text :: rest) = printAll (printed ++ line (String.ofList text)) rest :=
        fun _ => rfl
      rw [hcons, hcons, ih, ih ("" ++ line (String.ofList text)), String.empty_append,
        String.append_assoc]

/-- The line of an entry, as text or as JSON. -/
def entryText (json : Bool) (entry : TraceEntry) : Text :=
  if json then entry.toJson.compact else entry.text

theorem isLine_entryText (json : Bool) (entry : TraceEntry) : (entryText json entry).IsLine := by
  cases json with
  | true => exact entry.isLine_compact
  | false => exact entry.isLine_text

/-- What a run prints before its record. -/
def reportHead (name : Text) (size : Nat) (heapStart : UInt16) (json : Bool) : String :=
  if json then "" else startText name size heapStart

/-- What a run prints after its record. -/
def reportTail (maxSteps : Nat) (json : Bool) (e : Execution) : String :=
  if json then printAll "" [(summaryJson e).indented 0]
  else resultText e ++ if !e.halted && e.fault.isNone then limitText maxSteps else ""

theorem report_eq (name : Text) (size : Nat) (options : RunOptions) (e : Execution) :
    report name size options e =
      reportHead name size e.machine.layout.heapStart options.json ++
        printAll "" (e.entries.map (entryText options.json)) ++
        reportTail options.maxSteps.toNat options.json e := by
  cases hjson : options.json with
  | true =>
      have hentry : entryText true = fun entry => entry.toJson.compact := rfl
      simp only [report, reportHead, reportTail, hjson, if_true, jsonReport, hentry,
        String.empty_append]
      rw [← printAll_eq, printAll, printAll, List.foldl_append, printAll]
  | false =>
      have hentry : entryText false = TraceEntry.text := rfl
      simp only [report, reportHead, reportTail, hjson, Bool.false_eq_true, if_false, plainReport,
        hentry]
      rw [printAll_eq]
      split
      · simp only [String.append_assoc]
      · rw [String.append_empty, String.append_assoc]

/-- Around its record, a run prints what its result says. -/
theorem report_of_result {e e' : Execution} (h : e'.result = e.result) (name : Text) (size : Nat)
    (options : RunOptions) :
    report name size options e' =
      reportHead name size e.machine.layout.heapStart options.json ++
        printAll "" (e'.entries.map (entryText options.json)) ++
        reportTail options.maxSteps.toNat options.json e := by
  obtain ⟨machine, executed, halted, fault, entries⟩ := e
  obtain ⟨machine', executed', halted', fault', entries'⟩ := e'
  simp only [Execution.result, Prod.mk.injEq] at h
  obtain ⟨rfl, rfl, rfl, rfl⟩ := h
  exact report_eq name size options _

/-! ## The command -/

/-- The same run, cut into chunks of another length or into single instructions that are
recorded. -/
def RunOptions.recut (options : RunOptions) (chunk : Nat) (trace : Bool) : RunOptions :=
  { options with chunk := chunk, trace := trace }

theorem result_recut (h : m.cycles = 0) (options : RunOptions) (chunk : Nat) (trace : Bool) :
    (execute (options.recut chunk trace) m).result = (execute options m).result := by
  obtain ⟨entries, hexecute, _, _⟩ := exists_execute_eq options h
  obtain ⟨others, hother, _, _⟩ := exists_execute_eq (options.recut chunk trace) h
  rw [hother, hexecute]
  rfl

theorem cycles_of_ofLayout {layout : Layout} (h : Machine.ofLayout layout = .ok m) :
    m.cycles = 0 := by
  obtain ⟨valid, _, rfl⟩ := exists_of_map_ok h
  rfl

theorem cycles_of_loadMachine {files : Files} {name : Text} {options : LayoutOptions}
    {program : List UInt8} (h : loadMachine files name options = .ok (m, program)) :
    m.cycles = 0 := by
  rw [loadMachine] at h
  split at h
  · cases h
  · split at h
    · cases h
    · rename_i blank hblank
      split at h
      · cases h
      · split at h
        · cases h
        · rename_i hloaded
          obtain ⟨memory, _, rfl⟩ := exists_of_map_ok hloaded
          cases h
          exact cycles_of_ofLayout (m := blank) hblank

variable {files : Files} {name : Text} {options : RunOptions} {program : List UInt8}

theorem runCommand_eq (h : loadMachine files name options.layout = .ok (m, program)) :
    runCommand files name options =
      match (execute options m).fault with
      | some fault =>
          fail files (report name program.length options (execute options m)) (.fault fault)
      | none => succeed files (report name program.length options (execute options m)) := by
  cases hfault : (execute options m).fault with
  | some fault => simp only [runCommand, h, hfault]
  | none => simp only [runCommand, h, hfault]

theorem runCommand_output (h : loadMachine files name options.layout = .ok (m, program)) :
    (runCommand files name options).output =
      report name program.length options (execute options m) := by
  rw [runCommand_eq h]
  cases (execute options m).fault with
  | none => rfl
  | some fault => rfl

theorem runCommand_exitCode (h : loadMachine files name options.layout = .ok (m, program)) :
    (runCommand files name options).exitCode =
      if (execute options m).fault.isSome then 1 else 0 := by
  rw [runCommand_eq h]
  cases (execute options m).fault with
  | none => rfl
  | some fault => rfl

/-- However a program run is cut up, it leaves the same machine, counts the same instructions, and
ends in the same way with the same exit code. The count is that of the machine and keeps to the
limit, which is used up unless the program halts or faults. A record adds one line for each
instruction executed. -/
theorem runCommand_recut (hload : loadMachine files name options.layout = .ok (m, program)) :
    (∀ chunk trace,
      (execute (options.recut chunk trace) m).result = (execute options m).result ∧
      (runCommand files name (options.recut chunk trace)).exitCode =
        (runCommand files name options).exitCode) ∧
    (execute options m).Accounts options.maxSteps.toNat ∧
    ((runCommand files name options).exitCode = 1 ↔ (execute options m).fault ≠ none) ∧
    ∃ instructions head tail, m.Path instructions (execute options m).machine ∧
      (execute options m).executed = instructions.length ∧
      ∀ chunk, (runCommand files name (options.recut chunk false)).output = head ++ tail ∧
        ∃ entries : List TraceEntry, entries.map TraceEntry.instruction = instructions ∧
          (∀ entry ∈ entries, (entryText options.json entry).IsLine) ∧
          (runCommand files name (options.recut chunk true)).output =
            head ++ printAll "" (entries.map (entryText options.json)) ++ tail := by
  have hcycles := cycles_of_loadMachine hload
  have hreload : ∀ chunk trace,
      loadMachine files name (options.recut chunk trace).layout = .ok (m, program) :=
    fun _ _ => hload
  have haccounts := accounts_ofRun hcycles options.maxSteps.toNat_lt
  have hresult := result_recut hcycles options
  obtain ⟨entries, hexecute, _, _⟩ := exists_execute_eq options hcycles
  obtain ⟨recorded, htraced, _, hpath⟩ := exists_execute_eq (options.recut 0 true) hcycles
  have hmachine : (m.run options.maxSteps.toNat).1 = (execute options m).machine := by
    rw [hexecute, Execution.ofRun_machine]
  refine ⟨?_, ?_, ?_, recorded.map TraceEntry.instruction,
    reportHead name program.length (execute options m).machine.layout.heapStart options.json,
    reportTail options.maxSteps.toNat options.json (execute options m),
    hmachine ▸ (hpath rfl).1, ?_, ?_⟩
  · intro chunk trace
    refine ⟨hresult chunk trace, ?_⟩
    have hfault : (execute (options.recut chunk trace) m).fault = (execute options m).fault :=
      congrArg (fun result => result.2.2.2) (hresult chunk trace)
    rw [runCommand_exitCode (hreload chunk trace), runCommand_exitCode hload, hfault]
  · rw [hexecute]
    exact ⟨haccounts.within, haccounts.counted, haccounts.complete, haccounts.one_end⟩
  · rw [runCommand_exitCode hload]
    cases (execute options m).fault <;> simp
  · rw [List.length_map, ← (hpath rfl).2, hexecute]
    exact haccounts.counted.trans (congrArg Machine.cycles Execution.ofRun_machine)
  · intro chunk
    obtain ⟨unrecorded, hplain, hempty, _⟩ := exists_execute_eq (options.recut chunk false) hcycles
    refine ⟨?_, recorded, rfl, fun entry _ => isLine_entryText options.json entry, ?_⟩
    · rw [runCommand_output (hreload chunk false),
        report_of_result (hresult chunk false), hplain, hempty rfl]
      exact congrArg (· ++ _) String.append_empty
    · have hsame : execute (options.recut chunk true) m = execute (options.recut 0 true) m := rfl
      rw [runCommand_output (hreload chunk true),
        report_of_result (hresult chunk true), hsame, htraced]
      rfl

/-- A directory with one image, which loads a value and then returns without a call. -/
def returnFiles : Files :=
  { entries := [([['r', '.', 'b', 'i', 'n']], ⟨#[0x11, 0x05, 0x43]⟩)] }

/-- A run in chunks of two instructions on a machine of eight bytes. -/
def inPairs : RunOptions :=
  { maxSteps := 10, chunk := 2, layout := { capacity := some 8, stackStart := some 6 } }

/-- The machine that the image is loaded into. -/
def returnMachine : Machine :=
  { Machine.blank ⟨8, 0, 6⟩ with memory := ⟨#[0x11, 0x05, 0x43, 0, 0, 0, 0, 0]⟩ }

/-- The fault in the middle of the first chunk is that of single steps. -/
theorem runCommand_recut_fault :
    loadMachine returnFiles ['r', '.', 'b', 'i', 'n'] inPairs.layout =
      .ok (returnMachine, [0x11, 0x05, 0x43]) ∧
    (execute (inPairs.recut 0 true) returnMachine).result =
      (execute inPairs returnMachine).result ∧
    (execute inPairs returnMachine).fault = some ⟨.stackUnderflow, 2⟩ ∧
    (execute inPairs returnMachine).executed = 1 ∧
    (runCommand returnFiles ['r', '.', 'b', 'i', 'n'] inPairs).exitCode = 1 := by
  have hload : loadMachine returnFiles ['r', '.', 'b', 'i', 'n'] inPairs.layout =
      .ok (returnMachine, [0x11, 0x05, 0x43]) := rfl
  obtain ⟨hrecut, _, hexit, _⟩ := runCommand_recut hload
  have hresult := (hrecut 0 true).1
  have hfault : (execute inPairs returnMachine).fault = some ⟨.stackUnderflow, 2⟩ :=
    (congrArg (fun result => result.2.2.2) hresult).symm
  have hexecuted : (execute inPairs returnMachine).executed = 1 :=
    (congrArg (fun result => result.2.1) hresult).symm
  exact ⟨hload, hresult, hfault, hexecuted, hexit.mpr (by simp [hfault])⟩

end Accumulator.CommandLine
