import Accumulator.Proofs.Assembly.Passes

/-!
# Sources one after the other

Two sources joined by a line feed assemble to the bytes of the first followed by those of the
second, where the second is assembled for the address at which the first one ends. Each may define
labels as long as the other does not define the same ones.

The reader comes to the second source with the labels and the statements of the first. They lie
beneath what it has read since, and the second source, which names its own labels only, is read as
if it stood alone.
-/

namespace Accumulator.Assembly

open Text

variable {overflow : Overflow} {source first second : Text} {base : UInt16}
  {symbols more : Symbols}
  {output : List UInt8}

/-! ## The seam -/

/-- A blank at the end of a line is in its comment or at the end of its code. -/
theorem stripComment_concat {c : Char} (hblank : isBlank c = true) (quoted : Bool) (text : Text) :
    stripComment quoted (text ++ [c]) = stripComment quoted text ∨
      stripComment quoted (text ++ [c]) = stripComment quoted text ++ [c] := by
  have hquote : c ≠ '\'' := ne_of_test hblank rfl
  have hmark : c ≠ ';' := ne_of_test hblank rfl
  induction text generalizing quoted with
  | nil =>
      right
      simp [stripComment, hquote, hmark]
  | cons d rest ih =>
      simp only [List.cons_append, stripComment]
      by_cases hd : d = '\''
      · simpa only [if_pos hd, List.cons_append, List.cons.injEq, true_and] using ih (!quoted)
      · simp only [if_neg hd]
        by_cases hend : d = ';' ∧ quoted = false
        · left
          simp only [if_pos hend]
        · simpa only [if_neg hend, List.cons_append, List.cons.injEq, true_and] using ih quoted

theorem trim_stripComment_dropReturn (line : Text) :
    (stripComment false (dropReturn line)).trim = (stripComment false line).trim := by
  by_cases hlast : line.getLast? = some '\r'
  · obtain ⟨kept, rfl⟩ := List.getLast?_eq_some_iff.mp hlast
    have hdrop : dropReturn (kept ++ ['\r']) = kept := by
      rw [dropReturn, if_pos hlast, List.dropLast_concat]
    have hblank : isBlank '\r' = true := rfl
    rw [hdrop]
    rcases stripComment_concat hblank false kept with hstrip | hstrip
    · rw [hstrip]
    · rw [hstrip, trim_append_blanks _ (List.forall_mem_singleton.mpr hblank)]
  · rw [dropReturn, if_neg hlast]

/-- A carriage return at the end of a line makes no difference. -/
theorem sourceLine_dropReturn (line : Text) :
    SourceLine.ofText (dropReturn line) = SourceLine.ofText line := by
  simp only [SourceLine.ofText, trim_stripComment_dropReturn]

namespace Draft

variable {draft next middle : Draft} {lines rest : List (Text × Nat)}

theorem readLines_append_eq (draft : Draft) (lines rest : List (Text × Nat)) :
    draft.readLines overflow (lines ++ rest) =
      (draft.readLines overflow lines).bind (·.readLines overflow rest) := by
  induction lines generalizing draft with
  | nil => rfl
  | cons head tail ih =>
      rw [List.cons_append, readLines, readLines]
      cases draft.readLine overflow head.2 head.1 with
      | error e => rfl
      | ok next => exact ih next

theorem readLines_append (h : draft.readLines overflow lines = .ok middle)
    (rest : List (Text × Nat)) :
    draft.readLines overflow (lines ++ rest) = middle.readLines overflow rest := by
  rw [readLines_append_eq, h]
  rfl

/-- Lines are read for their labels and their statements. -/
theorem readLines_congr {lines others : List Text}
    (h : lines.map SourceLine.ofText = others.map SourceLine.ofText) (draft : Draft) (n : Nat) :
    draft.readLines overflow (lines.zipIdx n) = draft.readLines overflow (others.zipIdx n) := by
  induction lines generalizing others draft n with
  | nil => rw [List.map_eq_nil_iff.mp h.symm]
  | cons text rest ih =>
      obtain ⟨other, more, rfl, htext, hrest⟩ := List.map_eq_cons_iff.mp h.symm
      have hread : draft.readLine overflow n other = draft.readLine overflow n text := by
        rw [readLine, readLine, htext]
      rw [List.zipIdx_cons, List.zipIdx_cons, readLines, readLines, hread]
      cases draft.readLine overflow n text with
      | error e => rfl
      | ok next => exact ih hrest.symm next (n + 1)

/-- A line feed behind a source adds nothing to its draft. -/
theorem ofSource_eq_endedLines (source : Text) (base : UInt16) :
    ofSource overflow source base =
      (start base).readLines overflow ((endedLines source).zipIdx 1) := by
  obtain ⟨ended, last, hended, hlines⟩ := exists_lines_eq source
  rw [ofSource, hlines, hended]
  -- an empty last piece is no line of the source, and a blank one in front of the line feed
  by_cases hempty : last = []
  · subst hempty
    have hblank (middle : Draft) (n : Nat) :
        middle.readLines overflow ([dropReturn []].zipIdx n) = .ok middle :=
      readLines_cons (readLine_of_empty rfl overflow middle n) []
    rw [if_pos rfl, List.append_nil, List.zipIdx_append, readLines_append_eq]
    cases (start base).readLines overflow (ended.zipIdx 1) with
    | error e => rfl
    | ok middle => exact (hblank middle (1 + ended.length)).symm
  · rw [if_neg hempty]
    apply readLines_congr
    rw [List.map_append, List.map_append, List.map_singleton, List.map_singleton,
      sourceLine_dropReturn]

/-- A source is read piece by piece, with the carriage returns in front of its line feeds. -/
theorem ofSource_eq_pieces (source : Text) (base : UInt16) :
    ofSource overflow source base =
      (start base).readLines overflow ((pieces (· == '\n') source).zipIdx 1) := by
  rw [ofSource_eq_endedLines, endedLines]
  apply readLines_congr
  rw [List.map_map]
  exact List.map_congr_left fun piece _ => sourceLine_dropReturn piece

end Draft

/-! ## Labels -/

/-- The label that a line defines. -/
def labelOf (line : Text) : Option Text := (SourceLine.ofText line).label

/-- The labels that a source defines, in order and as they are written. -/
def definedLabels (source : Text) : List Text := source.lines.filterMap labelOf

namespace Draft

variable {draft next : Draft}

theorem Defines.names {label : Option Text} (h : draft.Defines label next) :
    next.symbols.map Prod.fst = label.toList.map upper ++ draft.symbols.map Prod.fst := by
  cases h with
  | unlabelled => rfl
  | label fresh => rfl

theorem Places.symbols_eq {line : Nat} {body : Text} (h : draft.Places overflow line body next) :
    next.symbols = draft.symbols := by
  cases h with
  | blank => rfl
  | statement _ _ _ _ => rfl

/-- The names of the symbols are those of the labels read, the last one first. -/
theorem names_of_readLines {lines : List Text} {line : Nat}
    (h : draft.readLines overflow (lines.zipIdx line) = .ok next) :
    next.symbols.map Prod.fst =
      ((lines.filterMap labelOf).map upper).reverse ++ draft.symbols.map Prod.fst := by
  induction lines generalizing draft line with
  | nil =>
      obtain rfl := Except.ok.inj h
      rfl
  | cons text rest ih =>
      obtain ⟨middle, htext, hrest⟩ := exists_of_readLines_cons h
      obtain ⟨labelled, hdefines, hplaces⟩ := exists_of_readLine_ok htext
      have hnames : labelled.symbols.map Prod.fst =
          (labelOf text).toList.map upper ++ draft.symbols.map Prod.fst := hdefines.names
      rw [ih hrest, hplaces.symbols_eq, hnames, List.filterMap_cons]
      cases labelOf text with
      | none => rfl
      | some label => simp

end Draft

/-- A name that is no label of the source is none of its symbols. -/
theorem lookup_eq_none {draft : Draft} (h : Draft.ofSource overflow source base = .ok draft)
    {name : Text}
    (hname : ∀ label ∈ definedLabels source, label.upper ≠ name) :
    draft.symbols.lookup name = none := by
  have hnames := Draft.names_of_readLines h
  rw [← definedLabels, Draft.start, List.map_nil, List.append_nil] at hnames
  apply List.lookup_eq_none_iff.mpr
  intro entry hentry
  have hmem : entry.1 ∈ ((definedLabels source).map upper).reverse :=
    hnames ▸ List.mem_map_of_mem hentry
  rw [List.mem_reverse, List.mem_map] at hmem
  obtain ⟨label, hlabel, heq⟩ := hmem
  simpa using (heq ▸ hname label hlabel).symm

theorem Symbols.keptBy_append (symbols other : Symbols) : symbols.KeptBy (symbols ++ other) := by
  intro name address h
  rw [List.lookup_append, h, Option.some_or]

/-- The symbols of a source are kept beneath those of another one that defines other labels. -/
theorem keptBy_of_disjoint {upper lower : Draft} {next : UInt16}
    (hlower : Draft.ofSource overflow first base = .ok lower)
    (hupper : Draft.ofSource overflow second next = .ok upper)
    (hdisjoint : ∀ a ∈ definedLabels first, ∀ b ∈ definedLabels second, a.upper ≠ b.upper) :
    lower.symbols.KeptBy (upper.symbols ++ lower.symbols) := by
  intro name address hfind
  rw [List.lookup_append]
  by_cases hname : ∃ a ∈ definedLabels first, a.upper = name
  · obtain ⟨a, ha, rfl⟩ := hname
    rw [lookup_eq_none hupper fun b hb => (hdisjoint a ha b hb).symm, hfind, Option.none_or]
  · push Not at hname
    rw [lookup_eq_none hlower hname] at hfind
    cases hfind

/-! ## Reading on -/

/-- A placed statement of a source that comes some lines later. -/
def Placed.later (count : Nat) (p : Placed) : Placed := { p with line := p.line + count }

namespace Draft

/-- A draft on top of another one, whose lines come first. -/
def onto (lower : Draft) (count : Nat) (upper : Draft) : Draft where
  location := upper.location
  symbols := upper.symbols ++ lower.symbols
  placed := lower.placed ++ upper.placed.map (Placed.later count)

variable {lower upper next : Draft} {count line : Nat}

theorem defineLabel_onto {label : Option Text}
    (hfresh : ∀ name ∈ label, lower.symbols.find? name = none) :
    (lower.onto count upper).defineLabel label =
      (upper.defineLabel label).map (lower.onto count) := by
  cases label with
  | none => rfl
  | some name =>
      have hfind : (upper.symbols ++ lower.symbols).find? name = upper.symbols.find? name := by
        have hlower : lower.symbols.lookup name.upper = none := hfresh name rfl
        rw [Symbols.find?, List.lookup_append, hlower, Option.or_none, ← Symbols.find?]
      simp only [defineLabel, define, onto, hfind]
      split
      · rfl
      · split
        · rfl
        · rfl

theorem sizeOf_onto (lower : Draft) (count : Nat) {statement : Statement} {size : Nat}
    (h : upper.sizeOf overflow statement = .ok size) :
    (lower.onto count upper).sizeOf overflow statement = .ok size := by
  cases statement with
  | instruction _ _ | bytes _ | words _ => exact h
  | origin target =>
      rw [sizeOf] at h ⊢
      cases heval : target.eval overflow upper.symbols with
      | error problem => simp [heval] at h
      | ok value =>
          have hmore : target.eval overflow (lower.onto count upper).symbols = .ok value :=
            Expression.eval_of_keptBy (Symbols.keptBy_append upper.symbols lower.symbols) heval
          rw [heval] at h
          rw [hmore]
          exact h

theorem placeBody_onto (lower : Draft) (count : Nat) {body : Text}
    (h : upper.Places overflow line body next) :
    (lower.onto count upper).placeBody overflow (line + count) body =
      .ok (lower.onto count next) := by
  cases h with
  | blank => rfl
  | @statement body statement size ne_nil read room fits =>
      have hplace := place_fits (sizeOf_onto lower count room) fits (line + count)
      rw [placeBody, if_neg (by simpa using ne_nil), read]
      refine hplace.trans ?_
      simp [extend, onto, Placed.later]

theorem readLine_ok_iff {text : Text} :
    upper.readLine overflow line text = .ok next ↔
      ∃ labelled, upper.defineLabel (labelOf text) = .ok labelled ∧
        labelled.placeBody overflow line (SourceLine.ofText text).body = .ok next := by
  rw [readLine, ← labelOf]
  cases upper.defineLabel (labelOf text) with
  | error problem => simp
  | ok labelled =>
      simp only [Except.ok.injEq, exists_eq_left']
      constructor
      · exact ok_of_mapError_ok
      · intro h
        rw [h]
        rfl

/-- A line that defines no label of the draft beneath is read as if that were not there. -/
theorem readLine_onto {text : Text}
    (hfresh : ∀ name ∈ labelOf text, lower.symbols.find? name = none)
    (h : upper.readLine overflow line text = .ok next) :
    (lower.onto count upper).readLine overflow (line + count) text =
      .ok (lower.onto count next) := by
  obtain ⟨labelled, hlabel, hbody⟩ := readLine_ok_iff.mp h
  apply readLine_ok_iff.mpr
  refine ⟨lower.onto count labelled, ?_, placeBody_onto lower count (places_of_ok hbody)⟩
  rw [defineLabel_onto hfresh, hlabel]
  rfl

/-- So are all lines that define none of them. -/
theorem readLines_onto (count : Nat) {lines : List Text}
    (hfresh : ∀ text ∈ lines, ∀ name ∈ labelOf text, lower.symbols.find? name = none)
    (h : upper.readLines overflow (lines.zipIdx line) = .ok next) :
    (lower.onto count upper).readLines overflow (lines.zipIdx (line + count)) =
      .ok (lower.onto count next) := by
  induction lines generalizing upper line with
  | nil =>
      obtain rfl := Except.ok.inj h
      rfl
  | cons text rest ih =>
      rw [List.forall_mem_cons] at hfresh
      obtain ⟨middle, htext, hrest⟩ := exists_of_readLines_cons h
      rw [readLines_cons (readLine_onto hfresh.1 htext), Nat.add_right_comm]
      exact ih hfresh.2 hrest

/-- A draft begins on top of another one where that ends. -/
theorem onto_start {next : UInt16} (h : next.toNat = lower.location) (count : Nat) :
    lower.onto count (start next) = lower := by
  obtain ⟨location, symbols, placed⟩ := lower
  obtain rfl : next.toNat = location := h
  simp [onto, start]

/-- The draft of two sources is that of the second on top of that of the first. -/
theorem ofSource_append {next : UInt16} (hlower : ofSource overflow first base = .ok lower)
    (hnext : next.toNat = lower.location) (hupper : ofSource overflow second next = .ok upper)
    (hdisjoint : ∀ a ∈ definedLabels first, ∀ b ∈ definedLabels second, a.upper ≠ b.upper) :
    ofSource overflow (first ++ '\n' :: second) base =
      .ok (lower.onto (endedLines first).length upper) := by
  have hfresh : ∀ text ∈ second.lines, ∀ name ∈ labelOf text, lower.symbols.find? name = none := by
    intro text htext name hname
    apply lookup_eq_none hlower
    intro label hlabel
    exact hdisjoint label hlabel name (List.mem_filterMap.mpr ⟨text, htext, hname⟩)
  have hread := readLines_onto (endedLines first).length hfresh hupper
  rw [onto_start hnext] at hread
  rw [ofSource, lines_append_lineFeed, List.zipIdx_append,
    readLines_append ((ofSource_eq_endedLines first base).symm.trans hlower)]
  exact hread

end Draft

/-! ## Writing on -/

variable {placed : List Placed} {p : Placed} {bytes : List UInt8}

theorem operandBytes_of_keptBy (hkept : symbols.KeptBy more) {e : Expression} {form : OperandForm}
    (h : operandBytes overflow symbols e form = .ok bytes) :
    operandBytes overflow more e form = .ok bytes := by
  cases form with
  | none => exact h
  | immediate | zeroPage | absolute =>
      obtain ⟨value, heval, hvalue⟩ := exists_of_bind_ok h
      rw [operandBytes, Expression.eval_of_keptBy hkept heval]
      exact hvalue

theorem listBytes_of_keptBy (hkept : symbols.KeptBy more) {form : OperandForm}
    {items : List Expression} (h : listBytes overflow symbols form items = .ok bytes) :
    listBytes overflow more form items = .ok bytes := by
  obtain ⟨chunks, hchunks, rfl⟩ := exists_of_map_ok h
  have hmore : items.mapM (fun e => operandBytes overflow more e form) = .ok chunks :=
    mapM_of_forall₂ ((forall₂_of_mapM hchunks).imp fun _ _ => operandBytes_of_keptBy hkept)
  rw [listBytes, hmore]
  rfl

theorem bytes_of_keptBy (hkept : symbols.KeptBy more) (h : p.bytes overflow symbols = .ok bytes) :
    p.bytes overflow more = .ok bytes := by
  obtain ⟨line, address, size, statement⟩ := p
  cases statement with
  | instruction opcode operand =>
      cases operand with
      | none => exact h
      | some e =>
          obtain ⟨stored, hstored, rfl⟩ := exists_of_map_ok h
          simp only [Placed.bytes, operandBytes_of_keptBy hkept hstored, Except.map]
  | bytes items | words items => exact listBytes_of_keptBy hkept h
  | origin target => exact h

/-- Statements yield the same bytes with more symbols and wherever their lines are. -/
theorem emit_map {f : Placed → Placed} (hkept : symbols.KeptBy more)
    (hf : ∀ p : Placed, (f p).bytes overflow more = p.bytes overflow more)
    (h : emit overflow symbols placed = .ok output) :
    emit overflow more (placed.map f) = .ok output := by
  induction placed generalizing output with
  | nil => exact h
  | cons p rest ih =>
      obtain ⟨bytes, others, hbytes, hothers, rfl⟩ := exists_of_emit_cons h
      refine emit_cons_of_bytes ?_ (ih hothers)
      exact (hf p).trans (bytes_of_keptBy hkept hbytes)

theorem emit_append {before after : List Placed} {early late : List UInt8}
    (hbefore : emit overflow symbols before = .ok early)
    (hafter : emit overflow symbols after = .ok late) :
    emit overflow symbols (before ++ after) = .ok (early ++ late) := by
  induction before generalizing early with
  | nil =>
      obtain rfl := Except.ok.inj hbefore
      exact hafter
  | cons p rest ih =>
      obtain ⟨bytes, others, hbytes, hothers, rfl⟩ := exists_of_emit_cons hbefore
      rw [List.cons_append, List.append_assoc]
      exact emit_cons_of_bytes hbytes (ih hothers)

/-! ## Both together -/

/-- Two sources that define different labels assemble to the bytes of the first and then those of
the second, the second being assembled for the address at which the first one ends. -/
theorem assemble_append {x y : List UInt8} (hx : assemble first base overflow = .ok x)
    (hroom : base.toNat + x.length ≤ 0xFFFF)
    (hy : assemble second (UInt16.ofNat (base.toNat + x.length)) overflow = .ok y)
    (hdisjoint : ∀ a ∈ definedLabels first, ∀ b ∈ definedLabels second, a.upper ≠ b.upper) :
    assemble (first ++ '\n' :: second) base overflow = .ok (x ++ y) := by
  obtain ⟨lower, hlower, hearly⟩ := exists_of_assemble_ok hx
  obtain ⟨upper, hupper, hlate⟩ := exists_of_assemble_ok hy
  have hlaid := Draft.laid_of_ofSource hlower
  have hnext : (UInt16.ofNat (base.toNat + x.length)).toNat = lower.location := by
    rw [UInt16.toNat_ofNat_of_lt' (Nat.lt_succ_of_le hroom)]
    exact length_emit hlaid.contiguous hlaid.sized hearly
  have hfirst := emit_map (f := id) (keptBy_of_disjoint hlower hupper hdisjoint) (fun _ => rfl)
    hearly
  have hsecond := emit_map (f := Placed.later (endedLines first).length)
    (Symbols.keptBy_append upper.symbols lower.symbols) (fun _ => rfl) hlate
  rw [List.map_id] at hfirst
  rw [assemble, Draft.ofSource_append hlower hnext hupper hdisjoint]
  simpa [Draft.finish, Draft.onto] using emit_append hfirst hsecond

/-- A source whose last line ends with a carriage return only. -/
def caller : Text := "START: JSR DONE\n DW START\nDONE: RET ; back\r".toList

/-- A source with a gap and a label that is used before it is defined, in small letters. -/
def jumper : Text := " JMP last\n ORG 0x1C\nLAST: HLT".toList

theorem assemble_append_jumper :
    assemble caller 0x10 = .ok [0x42, 0x15, 0x00, 0x10, 0x00, 0x43] ∧
    assemble jumper 0x16 = .ok [0x41, 0x1C, 0x00, 0x00, 0x00, 0x00, 0x01] ∧
    assemble (caller ++ '\n' :: jumper) 0x10 =
      .ok [0x42, 0x15, 0x00, 0x10, 0x00, 0x43, 0x41, 0x1C, 0x00, 0x00, 0x00, 0x00, 0x01] := by
  have hx : assemble caller 0x10 = .ok [0x42, 0x15, 0x00, 0x10, 0x00, 0x43] := by
    apply ok_of_toOption
    decide +kernel
  have hy : assemble jumper 0x16 = .ok [0x41, 0x1C, 0x00, 0x00, 0x00, 0x00, 0x01] := by
    apply ok_of_toOption
    decide +kernel
  exact ⟨hx, hy, assemble_append hx (by decide) hy (by decide +kernel)⟩

end Accumulator.Assembly
