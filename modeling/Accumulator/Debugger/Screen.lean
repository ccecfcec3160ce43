import Accumulator.Text.Basic

/-!
# Screens

A screen is a grid of styled characters. It is put together from panels, each a box with a title
around lines of text that are cut at the right and at the bottom.
-/

namespace Accumulator

/-- The colours in use. -/
inductive Color
  | cyan
  | green
  | magenta
  | red
  | yellow
  | white
  | darkGray
  deriving DecidableEq, Repr

/-- How a character is shown. -/
structure Style where
  color : Option Color := none
  bold : Bool := false
  deriving DecidableEq, Repr

/-- The style of ordinary text. -/
def Style.plain : Style := {}

/-- Ordinary text in a colour. -/
def Style.of (color : Color) : Style := { color := some color }

/-- Bold text in a colour. -/
def Style.boldOf (color : Color) : Style := { color := some color, bold := true }

/-- One place of a screen. -/
structure Cell where
  glyph : Char
  style : Style
  deriving DecidableEq, Repr

/-- A text in one style. -/
structure Span where
  text : Text
  style : Style := .plain
  deriving DecidableEq, Repr

/-- A line of a panel. -/
structure StyledLine where
  spans : List Span
  /-- The style of the places after the text. -/
  fill : Style := .plain
  deriving DecidableEq, Repr

namespace StyledLine

/-- A text in one style, which covers the whole line. -/
def uniform (style : Style) (text : Text) : StyledLine := ⟨[⟨text, style⟩], style⟩

/-- The places of a line of a given width. -/
def cells (line : StyledLine) (width : Nat) : List Cell :=
  let shown := (line.spans.flatMap fun span => span.text.map (⟨·, span.style⟩)).take width
  shown ++ List.replicate (width - shown.length) ⟨' ', line.fill⟩

end StyledLine

/-- A box with a title around lines. -/
structure Panel where
  title : Text
  border : Style
  lines : List StyledLine
  /-- The style of the lines below the last one. -/
  fill : Style := .plain

namespace Panel

/-- A horizontal edge of the box, with a text written on it. -/
def edge (left right : Char) (text : Text) (style : Style) (inner : Nat) : List Cell :=
  let shown := text.take inner
  (left :: shown ++ List.replicate (inner - shown.length) '─' ++ [right]).map (⟨·, style⟩)

/-- The rows of a panel of a given size, both edges included. -/
def rows (panel : Panel) (width height : Nat) : List (List Cell) :=
  let inner := width - 2
  let count := height - 2
  let side : Cell := ⟨'│', panel.border⟩
  let blank : StyledLine := ⟨[], panel.fill⟩
  let shown := panel.lines.take count
  edge '┌' '┐' panel.title panel.border inner ::
    (shown ++ List.replicate (count - shown.length) blank).map
      (fun line => side :: line.cells inner ++ [side]) ++
    [edge '└' '┘' [] panel.border inner]

end Panel
end Accumulator
