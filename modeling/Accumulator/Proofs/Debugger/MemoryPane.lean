import Accumulator.Debugger.View
import Accumulator.Proofs.Debugger.Resetting
import Accumulator.Proofs.Machine.Loading

/-!
# The memory pane

The pane shows memory in rows of eight bytes, from a row that the user has scrolled to. Whatever
happens to a session, this row begins inside the memory, so the pane is never empty. It shows the
rows from there on in their order, up to its height or to the last row, and each row with the bytes
that lie inside the memory.
-/

namespace Accumulator

/-! ## What a panel shows -/

/-- A text cut and filled to a width. -/
def Text.fit (width : Nat) (text : Text) : Text := Text.padRight width (text.take width)

namespace StyledLine

/-- The text of a line without its styles. -/
def text (line : StyledLine) : Text := line.spans.flatMap Span.text

theorem length_cells (line : StyledLine) (width : Nat) : (line.cells width).length = width := by
  simp only [cells, List.length_append, List.length_replicate, List.length_take]
  omega

theorem map_glyph_cells (line : StyledLine) (width : Nat) :
    (line.cells width).map Cell.glyph = line.text.fit width := by
  have hglyphs : (line.spans.flatMap fun span => span.text.map (Cell.mk · span.style)).map
      Cell.glyph = line.text := by
    rw [List.map_flatMap, text]
    congr 1
    funext span
    rw [List.map_map]
    exact List.map_id _
  rw [Text.fit, Text.padRight, ← hglyphs, ← List.map_take, List.length_map, cells,
    List.map_append, List.map_replicate]

end StyledLine

namespace Panel

/-- What is drawn inside the box of a panel, line by line. -/
def inside (panel : Panel) (width height : Nat) : List Text :=
  (((panel.rows width height).drop 1).take (height - 2)).map fun row =>
    ((row.drop 1).take (width - 2)).map Cell.glyph

/-- The lines are cut and filled to the size of the box. -/
theorem inside_eq (panel : Panel) (width height : Nat) :
    panel.inside width height =
      ((panel.lines.take (height - 2)).map StyledLine.text ++
        List.replicate (height - 2 - panel.lines.length) []).map (Text.fit (width - 2)) := by
  have hblank : (List.replicate (height - 2 - panel.lines.length) []) =
      (List.replicate (height - 2 - (panel.lines.take (height - 2)).length)
        (⟨[], panel.fill⟩ : StyledLine)).map StyledLine.text := by
    rw [List.map_replicate, List.length_take]
    congr 1
    omega
  rw [hblank, ← List.map_append, List.map_map, inside, rows]
  simp only [List.cons_append, List.drop_succ_cons, List.drop_zero]
  rw [List.take_left', List.map_map]
  · apply List.map_congr_left
    intro line _
    rw [Function.comp_apply, Function.comp_apply, List.drop_succ_cons, List.drop_zero,
      List.take_left' (line.length_cells _), line.map_glyph_cells]
  · rw [List.length_map, List.length_append, List.length_replicate, List.length_take]
    omega

end Panel

namespace Session

variable {layout : Layout} {program : List UInt8} {s : Session}

/-! ## Scrolling -/

/-- A row is one of the memory exactly if it begins inside it. -/
theorem lt_rowCount_iff (s : Session) (row : Nat) :
    row < s.rowCount ↔ rowSize * row < s.machine.memory.size := by
  rw [rowCount, rowSize]
  omega

theorem scrollUp_scrollDown (h : s.scroll + 1 < s.rowCount) : s.scrollDown.scrollUp = s := by
  rw [scrollDown, if_pos h]
  rfl

theorem scroll_perform_lt (h : s.scroll < s.rowCount) (command : Command) :
    (s.perform command).scroll < s.rowCount := by
  cases command with
  | step =>
      rw [perform, s.sameSetup_step.scroll]
      exact h
  | tick =>
      rw [perform, s.sameSetup_tick.scroll]
      exact h
  | run => exact h
  | toggleBreakpoint =>
      rw [perform, toggleBreakpoint]
      split
      · exact h
      · exact h
  | scrollUp => exact Nat.lt_of_le_of_lt (Nat.sub_le _ _) h
  | scrollDown =>
      rw [perform, scrollDown]
      split
      · assumption
      · exact h

theorem scroll_act_lt (h : s.scroll < s.rowCount) (action : Action) :
    (s.act action).scroll < s.rowCount := by
  cases action with
  | command command => exact scroll_perform_lt h command
  | reset =>
      rw [act, s.reset_kept.2.2.1]
      exact h
  | setRegisters registers => exact h
  | alter operation => exact h

theorem BelongsTo.rowCount_eq (h : s.BelongsTo layout program) :
    s.rowCount = (layout.capacity + rowSize - 1) / rowSize := by
  rw [rowCount, h.machine.size]

theorem BelongsTo.scroll_actAll_lt (h : s.BelongsTo layout program)
    (hscroll : s.scroll < s.rowCount)
    (actions : List Action) : (s.actAll actions).scroll < s.rowCount := by
  induction actions generalizing s with
  | nil => exact hscroll
  | cons action rest ih =>
      have hnext := h.act action
      have hcount : (s.act action).rowCount = s.rowCount := by
        rw [hnext.rowCount_eq, h.rowCount_eq]
      rw [← hcount]
      apply ih hnext
      rw [hcount]
      exact scroll_act_lt hscroll action

/-- A session starts with the row of the first instruction on view. -/
theorem scroll_start_lt {m : Machine} (hvalid : layout.Valid) (built : m.BuiltFor layout)
    (program : List UInt8) : (start m program).scroll < (start m program).rowCount := by
  have hheap := hvalid.heap_lt
  rw [← built.size, ← built.layout_eq] at hheap
  rw [lt_rowCount_iff, start]
  exact Nat.lt_of_le_of_lt (Nat.mul_div_le _ _) hheap

/-! ## Rows -/

/-- The bytes of a memory row, as far as they lie inside the memory. -/
def rowBytes (s : Session) (row : Nat) : List UInt8 :=
  (List.range' (rowSize * row) rowSize).filterMap s.machine.memory.at?

/-- A memory row as text: its address and its bytes. -/
def rowText (s : Session) (row : Nat) : Text :=
  Numeral.hex 4 (rowSize * row) ++ [':', ' '] ++
    (s.rowBytes row).flatMap fun b => HexBytes.byte b ++ [' ']

/-- The rows from the first one on view on, as far as a number of lines and the memory reach. -/
def rowsOnView (s : Session) (count : Nat) : List Nat :=
  List.range' s.scroll (min (s.scroll + count) s.rowCount - s.scroll)

theorem takeWhile_range' (start count bound : Nat) :
    (List.range' start count).takeWhile (fun k => decide (k < bound)) =
      List.range' start (min (start + count) bound - start) := by
  induction count generalizing start with
  | zero =>
      have hnone : min (start + 0) bound - start = 0 := by omega
      rw [hnone]
      rfl
  | succ count ih =>
      rw [List.range'_succ]
      by_cases hlt : start < bound
      · have hsome : min (start + (count + 1)) bound - start =
            min (start + 1 + count) bound - (start + 1) + 1 := by
          omega
        rw [List.takeWhile_cons, if_pos (decide_eq_true hlt), ih, hsome, List.range'_succ]
      · have hnone : min (start + (count + 1)) bound - start = 0 := by omega
        rw [List.takeWhile_cons, if_neg (by simpa using hlt), hnone]
        rfl

theorem visibleRows_eq (s : Session) (count : Nat) :
    s.visibleRows count = (s.rowsOnView count).map (rowSize * ·) := by
  rw [visibleRows, List.takeWhile_map, rowsOnView, ← takeWhile_range']
  congr 2
  funext row
  exact decide_eq_decide.mpr (s.lt_rowCount_iff row).symm

theorem text_memoryLine (s : Session) (row : Nat) :
    (s.memoryLine (rowSize * row)).text = s.rowText row := by
  have hbytes : (s.machine.memory.dump (rowSize * row) rowSize).map Prod.snd = s.rowBytes row := by
    rw [rowBytes, ← Memory.slice_eq_filterMap, Memory.dump, List.map_map]
    exact List.zipIdx_map_fst _ _
  rw [StyledLine.text, memoryLine, List.flatMap_cons, List.flatMap_map, rowText, ← hbytes,
    List.flatMap_map]
  rfl

theorem length_rowsOnView_le (s : Session) (count : Nat) :
    (s.rowsOnView count).length ≤ count := by
  rw [rowsOnView, List.length_range']
  omega

theorem text_memoryPanel (s : Session) (height : Nat) :
    (s.memoryPanel height).lines.map StyledLine.text =
      (s.rowsOnView (height - 2)).map s.rowText := by
  have hlines : (s.memoryPanel height).lines =
      (s.visibleRows (height - 2)).map s.memoryLine := rfl
  rw [hlines, visibleRows_eq, List.map_map, List.map_map]
  apply List.map_congr_left
  intro row _
  exact s.text_memoryLine row

/-- Whatever happens to a session on a valid layout, the first row on view begins inside the memory.
Scrolling down and up again changes nothing, and on the last row scrolling down alone changes
nothing. The pane lists the rows from the first one on view on, one for each line of its box until
the memory ends, and at least one if there is a line. A row is its address and those of its eight
bytes that lie inside the memory, cut to the width of the box. -/
theorem memoryPanel_in_memory {m : Machine} (hvalid : layout.Valid) (built : m.BuiltFor layout)
    (program : List UInt8) (actions : List Action) :
    let s := (start m program).actAll actions
    let rows := (layout.capacity + 7) / 8
    8 * s.scroll < layout.capacity ∧
    (if s.scroll + 1 = rows then s.scrollDown = s else s.scrollDown.scrollUp = s) ∧
    ∀ width height,
      let shown := List.range' s.scroll (min (s.scroll + (height - 2)) rows - s.scroll)
      (s.memoryPanel height).lines.map StyledLine.text = shown.map s.rowText ∧
      (s.memoryPanel height).inside width height =
        (shown.map s.rowText ++ List.replicate (height - 2 - shown.length) []).map
          (Text.fit (width - 2)) ∧
      (1 ≤ height - 2 → (s.memoryPanel height).lines ≠ []) := by
  intro s rows
  have hstart : (start m program).BelongsTo layout program := ⟨built, rfl⟩
  have hbelongs := hstart.actAll actions
  have hrows : s.rowCount = rows := hbelongs.rowCount_eq
  have hscroll : s.scroll < s.rowCount := by
    have hlt := hstart.scroll_actAll_lt (scroll_start_lt hvalid built program) actions
    rwa [hstart.rowCount_eq, ← hbelongs.rowCount_eq] at hlt
  refine ⟨?_, ?_, ?_⟩
  · have hinside := (s.lt_rowCount_iff s.scroll).mp hscroll
    rwa [hbelongs.machine.size] at hinside
  · split
    · rename_i hlast
      rw [scrollDown, if_neg (by omega)]
    · rename_i hmore
      exact scrollUp_scrollDown (by omega)
  · intro width height shown
    have hshown : s.rowsOnView (height - 2) = shown := by
      rw [rowsOnView, hrows]
    have htext := s.text_memoryPanel height
    rw [hshown] at htext
    have hcount : (s.memoryPanel height).lines.length = shown.length := by
      simpa using congrArg List.length htext
    have hfits : (shown.map s.rowText).length ≤ height - 2 := by
      rw [List.length_map, ← hshown]
      exact s.length_rowsOnView_le _
    refine ⟨htext, ?_, ?_⟩
    · rw [Panel.inside_eq, List.map_take, htext, hcount, List.take_of_length_le hfits]
    · intro hroom hnone
      rw [hnone, List.length_nil, List.length_range'] at hcount
      omega

/-- A memory whose last row has four bytes, with programs at the second of them. -/
def shortRow : Layout := ⟨20, 17, 4⟩

/-- The user scrolls down at the last row, up and down again, and resets the machine. -/
def scrolling : List Action :=
  [.command .scrollDown, .command .scrollUp, .command .tick, .command .scrollDown, .reset]

theorem memoryPanel_in_memory_shortRow :
    shortRow.Valid ∧ (Machine.blank shortRow).BuiltFor shortRow ∧
    ((start (.blank shortRow) [0x11, 0x05, 0x01]).actAll scrolling).scroll = 2 ∧
    (((start (.blank shortRow) [0x11, 0x05, 0x01]).actAll scrolling).memoryPanel 4).inside 14 4 =
      ["0010: 00 11 ".toList, List.replicate 12 ' '] ∧
    (((start (.blank shortRow) [0x11, 0x05, 0x01]).actAll scrolling).memoryPanel 3).lines ≠ [] := by
  have hvalid : shortRow.Valid := ⟨by decide, by decide, by decide, by decide⟩
  have hbuilt := Machine.builtFor_blank shortRow
  obtain ⟨_, _, hpanel⟩ := memoryPanel_in_memory hvalid hbuilt [0x11, 0x05, 0x01] scrolling
  obtain ⟨_, hinside, _⟩ := hpanel 14 4
  obtain ⟨_, _, hsome⟩ := hpanel 14 3
  exact ⟨hvalid, hbuilt, by decide, hinside.trans (by decide +kernel), hsome (by decide)⟩

end Session
end Accumulator
