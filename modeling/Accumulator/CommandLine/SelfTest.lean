import Accumulator.Assembly.Program
import Accumulator.CommandLine.Outcome
import Accumulator.Machine.Run
import Accumulator.Machine.Snapshot

/-!
# The self-test

A few short programs are assembled and run, and the machine is compared with what they should leave.
-/

namespace Accumulator.CommandLine

/-- A program and what has to hold after it. -/
structure TestCase where
  name : String
  source : String
  /-- A test of the machine and the outcome of the run. -/
  holds : Machine → Except Fault Report → Bool

/-- Whether a run ended without a fault. -/
def ranThrough : Except Fault Report → Bool
  | .ok _ => true
  | .error _ => false

/-- The programs of the self-test. -/
def testCases : List TestCase :=
  [{ name := "Load/add/store"
     source := "LDA_I 5\nADD_I 3\nSTA_Z 0x10\nHLT"
     holds := fun m outcome =>
       ranThrough outcome && m.registers.acc == 8 && m.memory.at? 0x10 == some 8 &&
         !m.registers.flags.zero && !m.registers.flags.carry },
    { name := "Subtract borrow"
      source := "SUB_I 1\nHLT"
      holds := fun m outcome =>
        ranThrough outcome && m.registers.acc == 255 && m.registers.flags.carry },
    { name := "Unknown opcode is a no-op"
      source := "DB 0xFF\nHLT"
      holds := fun m outcome =>
        ranThrough outcome && m.registers.acc == 0 && m.registers.flags.bits == 0 &&
          m.registers.pc == 2 },
    { name := "Call and return"
      source := "JSR SUB\nHLT\nSUB: LDA_I 42\nRET"
      holds := fun m outcome =>
        ranThrough outcome && m.registers.acc == 42 && m.registers.pc == 4 &&
          m.registers.sp == m.layout.stackStart },
    { name := "Return underflow faults"
      source := "RET"
      holds := fun _ outcome =>
        match outcome with
        | .error ⟨.stackUnderflow, 0⟩ => true
        | _ => false }]

/-- Whether a test passes. -/
def TestCase.passes (test : TestCase) : Bool :=
  match assemble test.source.toList 0 with
  | .error _ => false
  | .ok bytes =>
      match Machine.standard.loadProgram bytes with
      | .error _ => false
      | .ok loaded =>
          let (final, outcome) := loaded.run 100
          test.holds final outcome

/-- Whether an empty run leaves the machine as it is. -/
def emptyRunPasses : Bool :=
  let (final, outcome) := Machine.standard.run 0
  ranThrough outcome && final.snapshot == Machine.standard.snapshot

/-- The names of all tests and whether they pass. -/
def testResults : List (String × Bool) :=
  (testCases.map fun test => (test.name, test.passes)) ++
    [("steps(0) leaves state unchanged", emptyRunPasses)]

/-- The line of a test. -/
def testLine (result : String × Bool) : String :=
  line (result.1 ++ "... " ++ if result.2 then "✓" else "✗")

/-- Print the results of tests. -/
def testReport (results : List (String × Bool)) (files : Files) : Outcome :=
  let passed := results.countP fun result => result.2
  let failed := results.length - passed
  let printed := line "━━━ ACC8 Self-Test ━━━" ++ line "" ++ String.join (results.map testLine) ++
    line "" ++ line "━━━━━━━━━━━━━━━━━━━━━━━━━━━━━━" ++
    line ("Results: " ++ toString passed ++ " passed, " ++ toString failed ++ " failed")
  if failed = 0 then succeed files (printed ++ line "✓ All tests passed!")
  else { exitCode := 1, output := printed, files := files }

/-- Run the self-test. -/
def selfTestCommand (files : Files) : Outcome := testReport testResults files

end Accumulator.CommandLine
