import Accumulator.Debugger.Screen
import Accumulator.Debugger.Session

/-!
# The view of a session

The screen has two columns. On the left are the program from the next instruction on, the registers
and the status; on the right are memory, the call stack and the list of commands.
-/

namespace Accumulator.Session

/-- The line of an instruction: a mark for a breakpoint, a mark for the next instruction, the
address and the text. -/
def programLine (s : Session) (line : ListingLine) : StyledLine :=
  let current := s.isCurrent line
  let marked := line.address ∈ s.breakpoints
  let style :=
    if current then Style.boldOf .yellow else if marked then .of .red else .plain
  .uniform style
    ((if marked then ['●', ' '] else [' ', ' ']) ++ (if current then ['▶', ' '] else [' ', ' ']) ++
      HexBytes.word line.address ++ ": ".toList ++ line.text)

/-- The program from the next instruction on, in a panel of a given height. -/
def programPanel (s : Session) (height : Nat) : Panel where
  title := " Disassembly ".toList
  border := .of .cyan
  lines := (s.disassembly (height - 2)).map s.programLine

/-- The letter of a flag, or a dash if it is clear. -/
def flagSpan (name : Char) (set : Bool) : Span :=
  if set then ⟨[name, ' '], .boldOf .green⟩ else ⟨['-', ' '], .of .darkGray⟩

/-- A byte read as a two's complement number. -/
def signedByte (b : UInt8) : Int := b.toInt8.toInt

/-- The registers. -/
def registerPanel (s : Session) : Panel :=
  let r := s.machine.registers
  { title := " Registers ".toList
    border := .of .green
    lines :=
      [⟨[⟨"PC:  ".toList, .plain⟩, ⟨HexBytes.word r.pc, .of .yellow⟩, ⟨"   SP: ".toList, .plain⟩,
          ⟨HexBytes.word r.sp, .of .white⟩], .plain⟩,
        ⟨[⟨"ACC: ".toList, .plain⟩, ⟨HexBytes.byte r.acc, .of .white⟩,
          ⟨" = ".toList ++ (Numeral.decimal r.acc.toNat).padLeft 3 ++ " / ".toList ++
            (Numeral.signedDecimal (signedByte r.acc)).padLeft 4, .plain⟩], .plain⟩,
        ⟨[⟨"Flags: ".toList, .plain⟩, flagSpan 'N' r.flags.negative, flagSpan 'Z' r.flags.zero,
          flagSpan 'C' r.flags.carry], .plain⟩,
        ⟨[⟨"Cycles: ".toList, .plain⟩, ⟨Numeral.decimal s.machine.cycles, .of .cyan⟩,
          ⟨"   ".toList, .plain⟩,
          if s.running then ⟨"Running".toList, .of .green⟩ else ⟨"Stopped".toList, .of .red⟩],
          .plain⟩] }

/-- The status. -/
def statusPanel (s : Session) : Panel where
  title := " Status ".toList
  border := .of .white
  lines := [.uniform (.of .white) s.status.text]
  fill := .of .white

/-- The style of a memory byte. The next instruction and the innermost frame stand out. -/
def byteStyle (s : Session) (address : Nat) (byte : UInt8) : Style :=
  let sp := s.machine.registers.sp.toNat
  if address = s.pc.toNat then .boldOf .yellow
  else if address + 2 = sp ∨ address + 1 = sp then .of .magenta
  else if byte ≠ 0 then .of .white
  else .of .darkGray

/-- The line of the memory row that starts at an address. -/
def memoryLine (s : Session) (start : Nat) : StyledLine where
  spans :=
    ⟨Numeral.hex 4 start ++ ": ".toList, .of .darkGray⟩ ::
      (s.machine.memory.dump start rowSize).map fun cell =>
        ⟨HexBytes.byte cell.2 ++ [' '], s.byteStyle cell.1 cell.2⟩

/-- The addresses at which up to a number of memory rows start, from the first one on view. -/
def visibleRows (s : Session) (count : Nat) : List Nat :=
  ((List.range' s.scroll count).map (rowSize * ·)).takeWhile (· < s.machine.memory.size)

/-- The memory rows on view, in a panel of a given height. -/
def memoryPanel (s : Session) (height : Nat) : Panel where
  title := " Memory ".toList
  border := .of .magenta
  lines := (s.visibleRows (height - 2)).map s.memoryLine

/-- The return addresses, innermost first. -/
def stackPanel (s : Session) : Panel :=
  let frames := s.machine.callStack
  { title := " Call stack (".toList ++ Numeral.decimal frames.length ++ ") ".toList
    border := .plain
    lines :=
      frames.reverse.map fun address => .uniform .plain (['→', ' '] ++ HexBytes.word address) }

/-- The commands. -/
def helpPanel : Panel where
  title := " Help ".toList
  border := .of .darkGray
  lines :=
    ["s: Step  r: Run  p: Pause  b: Breakpoint", "x: Reset  ↑↓: Scroll memory  q: Quit"].map
      fun line => .uniform (.of .darkGray) line.toList
  fill := .of .darkGray

/-- Put two columns side by side. -/
def beside (left right : List (List Cell)) : List (List Cell) := List.zipWith (· ++ ·) left right

/-- The screen of a given size. The left column takes eleven twentieths of the width; the panels at
the top take what the others leave of the height. -/
def draw (s : Session) (width height : Nat) : List (List Cell) :=
  let left := width * 55 / 100
  let right := width - left
  let top := height - 10
  beside
    ((s.programPanel top).rows left top ++ s.registerPanel.rows left 7 ++ s.statusPanel.rows left 3)
    ((s.memoryPanel top).rows right top ++ s.stackPanel.rows right 6 ++ helpPanel.rows right 4)

end Accumulator.Session
