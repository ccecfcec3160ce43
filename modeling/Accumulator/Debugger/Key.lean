import Accumulator.Debugger.Session

/-!
# Keys

Every key of the debugger is one change of a session. Stepping by hand and pausing end a run.
-/

namespace Accumulator

/-- What a user may ask of a session. -/
inductive Key
  | step
  | run
  | pause
  | breakpoint
  | reset
  | up
  | down
  deriving DecidableEq, Repr

/-- The key that a letter stands for. -/
def Key.ofChar? : Char → Option Key
  | 's' => some .step
  | 'r' => some .run
  | 'p' => some .pause
  | 'b' => some .breakpoint
  | 'x' => some .reset
  | 'u' => some .up
  | 'd' => some .down
  | _ => none

namespace Session

/-- End a run. -/
def pause (s : Session) : Session := { s with running := false, status := .paused }

/-- Do what a key asks for. -/
def press (s : Session) : Key → Session
  | .step => step { s with running := false }
  | .run => s.run
  | .pause => s.pause
  | .breakpoint => s.toggleBreakpoint
  | .reset => s.reset
  | .up => s.scrollUp
  | .down => s.scrollDown

/-- Do what several keys ask for, one after another. -/
def pressAll (s : Session) (keys : List Key) : Session := keys.foldl press s

end Session
end Accumulator
