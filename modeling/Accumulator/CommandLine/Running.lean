import Accumulator.CommandLine.Loading
import Accumulator.Json.Printer
import Accumulator.Machine.Run
import Accumulator.Machine.Snapshot

/-!
# Running programs

A program is run up to a number of steps, either in chunks or one instruction at a time with a
record of each. How it ended is reported as text or as JSON.
-/

namespace Accumulator.CommandLine

/-- How a program ran. -/
structure Execution where
  machine : Machine
  /-- The number of instructions executed. -/
  executed : Nat
  halted : Bool
  fault : Option Fault
  /-- The instructions executed, where they were recorded. -/
  entries : List TraceEntry := []

/-- The length of the next chunk of a run with some steps left. -/
def chunkLength (chunk left : Nat) : Nat := min left (max chunk 1)

/-- Run in chunks, after some instructions have been executed already. Where a chunk ends in a
fault, the cycle count says how many instructions were executed. -/
def runChunks (chunk left executed : Nat) (m : Machine) : Execution :=
  if _ : left = 0 then ⟨m, executed, false, none, []⟩
  else
    match m.run (chunkLength chunk left) with
    | (next, .error fault) => ⟨next, next.cycles, false, some fault, []⟩
    | (next, .ok report) =>
        if report.halted then ⟨next, executed + report.executed, true, none, []⟩
        else runChunks chunk (left - chunkLength chunk left) (executed + report.executed) next
termination_by left
decreasing_by
  simp only [chunkLength]
  omega

/-- Run one instruction at a time and record each. -/
def runTraced (maxSteps : Nat) (m : Machine) : Execution :=
  let trace := m.trace maxSteps
  ⟨trace.machine, trace.entries.size, trace.halted, trace.fault, trace.entries.toList⟩

/-- Run a program as the options say. -/
def execute (options : RunOptions) (m : Machine) : Execution :=
  if options.trace then runTraced options.maxSteps.toNat m
  else runChunks options.chunk options.maxSteps.toNat 0 m

/-- A truth value in words. -/
def truth (b : Bool) : String := if b then "true" else "false"

/-- The lines before the first instruction. -/
def startText (name : Text) (size : Nat) (heapStart : UInt16) : String :=
  line ("🔧 Running: " ++ String.ofList name ++ " (" ++ toString size ++ " bytes at " ++
    String.ofList (HexBytes.word heapStart) ++ ")") ++ line "" ++ line "━━━ Execution ━━━"

/-- How an execution ended, as text. -/
def resultText (e : Execution) : String :=
  let r := e.machine.registers
  let word (w : UInt16) := String.ofList (HexBytes.word w)
  line "" ++ line "━━━ Result ━━━" ++
    line ("Steps: " ++ toString e.executed) ++
    line ("Halted: " ++ truth e.halted) ++
    line ("PC:  " ++ word r.pc) ++
    line ("ACC: " ++ String.ofList (HexBytes.byte r.acc) ++ " (" ++ toString r.acc.toNat ++ ")") ++
    line ("SP:  " ++ word r.sp ++ " (depth " ++ toString e.machine.callStack.length ++ ")") ++
    line ("Flags: " ++ String.ofList r.flags.text ++ " (C=" ++ truth r.flags.carry ++ " Z=" ++
      truth r.flags.zero ++ " N=" ++ truth r.flags.negative ++ ")")

/-- The hint after a run that used up its steps. -/
def limitText (maxSteps : Nat) : String :=
  line "" ++ line ("⚠️  Reached step limit (" ++ toString maxSteps ++
    "). Use --max-steps to increase.")

/-- How an execution ended, in JSON. -/
def summaryJson (e : Execution) : Json :=
  .record
    [("executed".toList, .nat e.executed), ("halted".toList, .bool e.halted),
      ("fault".toList, match e.fault with
        | some fault => fault.toJson
        | none => .null),
      ("state".toList, e.machine.snapshot.toJson)]

/-- Print lines after some output. -/
def printAll (output : String) (lines : List Text) : String :=
  lines.foldl (fun printed text => printed ++ line (String.ofList text)) output

/-- What a run prints as text. -/
def plainReport (name : Text) (size : Nat) (heapStart : UInt16) (maxSteps : Nat)
    (e : Execution) : String :=
  let printed := printAll (startText name size heapStart) (e.entries.map TraceEntry.text)
  let result := printed ++ resultText e
  if !e.halted && e.fault.isNone then result ++ limitText maxSteps else result

/-- What a run prints in JSON. -/
def jsonReport (e : Execution) : String :=
  printAll "" (e.entries.map (fun entry => entry.toJson.compact) ++ [(summaryJson e).indented 0])

/-- What a run prints. -/
def report (name : Text) (size : Nat) (options : RunOptions) (e : Execution) : String :=
  if options.json then jsonReport e
  else plainReport name size e.machine.layout.heapStart options.maxSteps.toNat e

/-- Run the program in a file. -/
def runCommand (files : Files) (name : Text) (options : RunOptions) : Outcome :=
  match loadMachine files name options.layout with
  | .error failure => fail files "" failure
  | .ok (m, program) =>
      let e := execute options m
      let printed := report name program.length options e
      match e.fault with
      | some fault => fail files printed (.fault fault)
      | none => succeed files printed

end Accumulator.CommandLine
