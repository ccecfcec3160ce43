import Accumulator.Proofs.Assembly.Semicolons

/-!
# Comments behind a line

A comment can be put behind any line that closes its quotes: the source is assembled as before. A
line that leaves a quote open, as the literal of a quote does, takes what follows it for its own
code. There the semicolon of the comment follows a blank, so no source with such a line can be
assembled.
-/

namespace Accumulator.Assembly

open Text

variable {text before after : Text}

/-! ## The end of the code -/

/-- The quotes of a line, up to its comment if it has one, come in pairs. -/
def ClosesQuotes (line : Text) : Prop := Even ((stripComment false line).count '\'')

instance : DecidablePred ClosesQuotes := fun _ => inferInstanceAs (Decidable (Even _))

theorem stripComment_cons (quoted : Bool) (c : Char) (rest : Text) :
    stripComment quoted (c :: rest) =
      if c = ';' ∧ quoted = false then [] else c :: stripComment (quoted ^^ (c == '\'')) rest := by
  by_cases hquote : c = '\''
  · subst hquote
    simp [stripComment]
  · have hbeq : (c == '\'') = false := beq_eq_false_iff_ne.mpr hquote
    simp [stripComment, hquote, hbeq]

/-- Behind quotes that are closed, only a blank is kept in front of a comment. -/
theorem stripComment_comment {quoted : Bool} (comment : Text)
    (h : Even ((stripComment quoted text).count '\'') ↔ quoted = false) :
    stripComment quoted (text ++ ' ' :: ';' :: comment) = stripComment quoted text ∨
      stripComment quoted (text ++ ' ' :: ';' :: comment) = stripComment quoted text ++ [' '] := by
  induction text generalizing quoted with
  | nil =>
      right
      obtain rfl : quoted = false := h.mp ⟨0, rfl⟩
      rfl
  | cons c rest ih =>
      rw [List.cons_append]
      simp only [stripComment_cons _ c] at h ⊢
      split
      · exact .inl rfl
      · rename_i hcode
        rw [if_neg hcode, even_count_cons] at h
        simpa only [List.cons_append, List.cons.injEq, true_and] using ih h

/-- Behind a quote that is open, everything is code. -/
theorem stripComment_append_of_open {quoted : Bool} (more : Text)
    (h : ¬ (Even ((stripComment quoted text).count '\'') ↔ quoted = false)) :
    stripComment quoted (text ++ more) = text ++ stripComment true more := by
  induction text generalizing quoted with
  | nil =>
      have hquoted : quoted = true := by simpa [stripComment] using h
      rw [hquoted, List.nil_append, List.nil_append]
  | cons c rest ih =>
      rw [List.cons_append, List.cons_append]
      simp only [stripComment_cons _ c] at h ⊢
      by_cases hcode : c = ';' ∧ quoted = false
      · obtain ⟨rfl, rfl⟩ := hcode
        simp at h
      · rw [if_neg hcode, even_count_cons] at h
        rw [if_neg hcode, ih h]

/-! ## A comment behind a line -/

/-- A line with a comment behind it. -/
def commented (line comment : Text) : Text := line ++ ' ' :: ';' :: comment

/-- A text is a line between what stands before it and behind it. -/
structure IsLine (before line after : Text) : Prop where
  starts : before = [] ∨ ∃ earlier, before = earlier ++ ['\n']
  unbroken : '\n' ∉ line
  ends : after = [] ∨ (∃ later, after = '\n' :: later) ∨ ∃ later, after = '\r' :: '\n' :: later

/-- A line ends with nothing or with a carriage return. -/
def IsEnding (ending : Text) : Prop := ending = [] ∨ ending = ['\r']

theorem sourceLine_append_ending {ending : Text} (h : IsEnding ending) (line : Text) :
    SourceLine.ofText (line ++ ending) = SourceLine.ofText line := by
  rcases h with rfl | rfl
  · rw [List.append_nil]
  · have hdrop : dropReturn (line ++ ['\r']) = line := by simp [dropReturn]
    rw [← sourceLine_dropReturn, hdrop]

namespace IsLine

variable {line : Text}

theorem exists_pieces_after (h : IsLine before line after) :
    ∃ ending later, IsEnding ending ∧ ∀ text, '\n' ∉ text →
      pieces (· == '\n') (text ++ after) = (text ++ ending) :: later := by
  have hplain : ∀ {text : Text}, '\n' ∉ text → ∀ c ∈ text, (c == '\n') = false := by
    intro text htext c hc
    apply beq_eq_false_iff_ne.mpr
    rintro rfl
    exact htext hc
  rcases h.ends with rfl | ⟨later, rfl⟩ | ⟨later, rfl⟩
  · refine ⟨[], [], .inl rfl, ?_⟩
    intro text htext
    rw [List.append_nil, pieces_eq_singleton (hplain htext)]
  · refine ⟨[], pieces (· == '\n') later, .inl rfl, ?_⟩
    intro text htext
    rw [List.append_nil, pieces_append later (hplain htext) rfl]
  · refine ⟨['\r'], pieces (· == '\n') later, .inr rfl, ?_⟩
    intro text htext
    have hreturn : ∀ c ∈ text ++ ['\r'], (c == '\n') = false :=
      List.forall_mem_append.mpr ⟨hplain htext, List.forall_mem_singleton.mpr rfl⟩
    have hcut := pieces_append later hreturn (beq_self_eq_true '\n')
    rw [List.append_assoc] at hcut
    exact hcut

/-- Whatever the line is replaced with is a piece of the source, with the ending of the line. -/
theorem exists_pieces (h : IsLine before line after) :
    ∃ earlier ending later, IsEnding ending ∧ ∀ text, '\n' ∉ text →
      pieces (· == '\n') (before ++ text ++ after) = earlier ++ (text ++ ending) :: later := by
  obtain ⟨ending, later, hending, hafter⟩ := h.exists_pieces_after
  rcases h.starts with rfl | ⟨earlier, rfl⟩
  · refine ⟨[], ending, later, hending, ?_⟩
    intro text htext
    rw [List.nil_append, hafter text htext, List.nil_append]
  · refine ⟨pieces (· == '\n') earlier, ending, later, hending, ?_⟩
    intro text htext
    rw [List.append_assoc, List.append_assoc, List.singleton_append, pieces_append_cons _ _ rfl,
      hafter text htext]

end IsLine

theorem sourceLine_commented {line : Text} (comment : Text) (h : ClosesQuotes line) :
    SourceLine.ofText (commented line comment) = SourceLine.ofText line := by
  have htrim : (stripComment false (commented line comment)).trim =
      (stripComment false line).trim := by
    rcases stripComment_comment comment (iff_of_true h rfl) with hstrip | hstrip
    · rw [commented, hstrip]
    · rw [commented, hstrip, trim_append_blanks _ (List.forall_mem_singleton.mpr rfl)]
  simp only [SourceLine.ofText, htrim]

/-- A comment behind a line that closes its quotes makes no difference. Behind any other line it is
taken for code, and the source is refused. -/
theorem assemble_commented {before line after comment : Text} (hline : IsLine before line after)
    (hcomment : '\n' ∉ comment) (base : UInt16) (overflow : Overflow) :
    (ClosesQuotes line → assemble (before ++ commented line comment ++ after) base overflow =
      assemble (before ++ line ++ after) base overflow) ∧
    (¬ ClosesQuotes line →
      ∃ e, assemble (before ++ commented line comment ++ after) base overflow = .error e) := by
  have hunbroken : '\n' ∉ commented line comment := by
    simp [commented, hline.unbroken, hcomment]
  obtain ⟨earlier, ending, later, hending, hpieces⟩ := hline.exists_pieces
  constructor
  · intro hcloses
    have hread : Draft.ofSource overflow (before ++ commented line comment ++ after) base =
        Draft.ofSource overflow (before ++ line ++ after) base := by
      rw [Draft.ofSource_eq_pieces, Draft.ofSource_eq_pieces, hpieces _ hunbroken,
        hpieces _ hline.unbroken]
      apply Draft.readLines_congr
      simp only [List.map_append, List.map_cons, sourceLine_append_ending hending,
        sourceLine_commented comment hcloses]
    rw [assemble, assemble, hread]
  · intro hopen
    cases hassemble : assemble (before ++ commented line comment ++ after) base overflow with
    | error e => exact ⟨e, rfl⟩
    | ok output =>
        have hall := semicolonsQuoted_of_assemble hassemble
        rw [hpieces _ hunbroken] at hall
        have hquoted := hall _ (List.mem_append_right _ List.mem_cons_self)
        have hcode := stripComment_append_of_open (' ' :: ';' :: (comment ++ ending))
          fun hiff => hopen (hiff.mpr rfl)
        have htext : commented line comment ++ ending =
            line ++ ' ' :: ';' :: (comment ++ ending) := by simp [commented]
        rw [htext, hcode] at hquoted
        exact absurd hquoted (SemicolonsQuoted.not_blank line _)

/-- A line with a label, two literals and a comment. -/
def literalsLine : Text := "LIST: DB 'a', ';' ; codes".toList

/-- The line between others, one of which uses its label. -/
theorem assemble_commented_literalsLine :
    IsLine "START: NOP\n".toList literalsLine "\r\n DW LIST".toList ∧ ClosesQuotes literalsLine ∧
    assemble ("START: NOP\n".toList ++ literalsLine ++ "\r\n DW LIST".toList) 0x10 =
      .ok [0x00, 0x61, 0x3B, 0x11, 0x00] ∧
    assemble ("START: NOP\n".toList ++ commented literalsLine "it's a list".toList ++
      "\r\n DW LIST".toList) 0x10 = .ok [0x00, 0x61, 0x3B, 0x11, 0x00] := by
  have hline : IsLine "START: NOP\n".toList literalsLine "\r\n DW LIST".toList :=
    ⟨.inr ⟨"START: NOP".toList, rfl⟩, by decide, .inr (.inr ⟨" DW LIST".toList, rfl⟩)⟩
  have hcloses : ClosesQuotes literalsLine := by decide
  have hcomment : '\n' ∉ "it's a list".toList := by decide
  have hassemble : assemble ("START: NOP\n".toList ++ literalsLine ++ "\r\n DW LIST".toList) 0x10 =
      .ok [0x00, 0x61, 0x3B, 0x11, 0x00] := by
    apply ok_of_toOption
    decide +kernel
  exact ⟨hline, hcloses, hassemble,
    ((assemble_commented hline hcomment 0x10 .wraps).1 hcloses).trans hassemble⟩

/-- The literal of a quote leaves a quote open, so a comment behind it is taken for code. -/
theorem comment_after_quote_refused :
    assemble "DB '''".toList 0 = .ok [0x27] ∧
    assemble (commented "DB '''".toList " x".toList) 0 =
      .error ⟨1, .invalidNumber "''' ; x".toList⟩ := by
  decide +kernel

end Accumulator.Assembly
