import Accumulator.Machine.Step

/-!
# Runs

A run executes instructions up to a budget. It ends early after a halt, which counts as executed,
and at a fault, which does not.
-/

namespace Accumulator

/-- The outcome of a run without a fault. -/
structure Report where
  /-- The number of instructions executed, a halt included. -/
  executed : Nat
  /-- Whether the run ended on a halt. -/
  halted : Bool
  deriving DecidableEq, Repr

namespace Machine

/-- Run after some instructions have been executed already. -/
def runFrom (done : Nat) : Nat → Machine → Machine × Except Fault Report
  | 0, m => (m, .ok ⟨done, false⟩)
  | budget + 1, m =>
      match m.step with
      | (next, .error fault) => (next, .error fault)
      | (next, .ok .halt) => (next, .ok ⟨done + 1, true⟩)
      | (next, .ok _) => runFrom (done + 1) budget next

/-- Run up to a number of instructions. -/
def run (m : Machine) (budget : Nat) : Machine × Except Fault Report := runFrom 0 budget m

end Machine
end Accumulator
