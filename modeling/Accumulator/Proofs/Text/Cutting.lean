import Accumulator.Text.Basic
import Mathlib.Data.List.Basic
import Mathlib.Data.List.DropRight
import Mathlib.Data.List.TakeWhile

/-!
# Cutting texts that were put together

Trimming, cutting at a separator and cutting into words or lines undo padding, joining and ending
each line with a line feed, as long as the parts hold none of the characters that the cut looks
for. Labels, mnemonics and numerals consist of letters, digits and underscores, which are none of
these.
-/

namespace Accumulator.Text

/-- The characters of labels, mnemonics and numerals. -/
def isNameChar (c : Char) : Bool := c.isAlphanum || c == '_'

theorem isNameChar_of_isAlphanum {c : Char} (h : c.isAlphanum = true) : isNameChar c = true := by
  simp [isNameChar, h]

theorem ne_of_test {test : Char → Bool} {c d : Char} (hc : test c = true) (hd : test d = false) :
    c ≠ d := by
  rintro rfl
  exact Bool.false_ne_true (hd.symm.trans hc)

theorem toNat_bounds_of_isNameChar {c : Char} (h : isNameChar c = true) :
    48 ≤ c.toNat ∧ c.toNat ≤ 122 := by
  have hval : c.val.toNat = c.toNat := rfl
  have hranges : isNameChar c =
      (decide (c.val ≥ 'A'.val ∧ c.val ≤ 'Z'.val) ||
          (decide (c.val ≥ 'a'.val) && decide (c.val ≤ 'z'.val)) ||
        (decide (c.val ≥ '0'.val) && decide (c.val ≤ '9'.val)) || c == '_') := rfl
  simp only [hranges, Bool.or_eq_true, Bool.and_eq_true, decide_eq_true_eq, beq_iff_eq,
    UInt32.le_iff_toNat_le, ge_iff_le, hval] at h
  rcases h with h | rfl
  · simp at h
    omega
  · decide

theorem isBlank_of_isNameChar {c : Char} (h : isNameChar c = true) : isBlank c = false := by
  have hbounds := toNat_bounds_of_isNameChar h
  simp [isBlank, blankRanges]
  omega

/-! ## Trimming -/

/-- A text that neither starts nor ends with a blank. -/
structure Tight (text : Text) : Prop where
  head : ∀ c, text.head? = some c → isBlank c = false
  last : ∀ c, text.getLast? = some c → isBlank c = false

theorem tight_of_isNameChar {text : Text} (h : ∀ c ∈ text, isNameChar c = true) :
    Tight text := by
  constructor
  · intro c hc
    exact isBlank_of_isNameChar (h c (List.mem_of_mem_head? hc))
  · intro c hc
    exact isBlank_of_isNameChar (h c (List.mem_of_mem_getLast? hc))

theorem Tight.append {first second : Text} (hf : Tight first) (hs : Tight second)
    (hfne : first ≠ []) (hsne : second ≠ []) (middle : Text) :
    Tight (first ++ middle ++ second) := by
  constructor
  · intro c hc
    rw [List.append_assoc, List.head?_append_of_ne_nil _ hfne] at hc
    exact hf.head c hc
  · intro c hc
    rw [List.getLast?_append_of_ne_nil _ hsne] at hc
    exact hs.last c hc

theorem trimRight_blanks {blanks : Text} (h : ∀ c ∈ blanks, isBlank c = true) :
    trimRight blanks = [] := by
  induction blanks with
  | nil => rfl
  | cons c rest ih =>
      rw [List.forall_mem_cons] at h
      simp [trimRight_cons, ih h.2, h.1]

theorem trimRight_append_blanks (text : Text) {blanks : Text}
    (h : ∀ c ∈ blanks, isBlank c = true) : trimRight (text ++ blanks) = trimRight text := by
  induction text with
  | nil => exact trimRight_blanks h
  | cons c rest ih => rw [List.cons_append, trimRight_cons, trimRight_cons, ih]

theorem trimRight_of_last {text : Text} (h : ∀ c, text.getLast? = some c → isBlank c = false) :
    trimRight text = text := by
  induction text with
  | nil => rfl
  | cons c rest ih =>
      cases rest with
      | nil => simp [trimRight_cons, h c rfl]
      | cons d rest =>
          have hrest : trimRight (d :: rest) = d :: rest := by
            apply ih
            intro e he
            apply h
            rwa [List.getLast?_cons_cons]
          rw [trimRight_cons, hrest]
          simp

/-- Blanks around a text that has none at its ends are trimmed away, and nothing else is. -/
theorem Tight.trim_eq {text : Text} (h : Tight text) (hne : text ≠ []) (before after : Text)
    (hb : ∀ c ∈ before, isBlank c = true) (ha : ∀ c ∈ after, isBlank c = true) :
    trim (before ++ text ++ after) = text := by
  obtain ⟨first, rest, rfl⟩ := List.exists_cons_of_ne_nil hne
  have hfirst : isBlank first = false := h.head first rfl
  rw [trim, List.append_assoc, List.dropWhile_append_of_pos hb, List.cons_append,
    List.dropWhile_cons_of_neg (by simp [hfirst]), ← List.cons_append,
    trimRight_append_blanks _ ha, trimRight_of_last h.last]

theorem Tight.trim_self {text : Text} (h : Tight text) : trim text = text := by
  by_cases hne : text = []
  · subst hne
    rfl
  · simpa using h.trim_eq hne [] [] (by simp) (by simp)

theorem trim_cons_blank {c : Char} (h : isBlank c = true) (text : Text) :
    trim (c :: text) = trim text := by
  rw [trim, List.dropWhile_cons_of_pos h, trim]

theorem trim_append_blanks (text : Text) {blanks : Text} (h : ∀ c ∈ blanks, isBlank c = true) :
    trim (text ++ blanks) = trim text := by
  rw [trim, trim, List.dropWhile_append]
  split
  · rename_i hempty
    rw [List.isEmpty_iff.mp hempty, List.dropWhile_eq_nil_iff.mpr h]
  · exact trimRight_append_blanks _ h

theorem trimRight_append_cons {c : Char} (hc : isBlank c = false) (before after : Text) :
    trimRight (before ++ c :: after) = before ++ c :: trimRight after := by
  induction before with
  | nil => simp [trimRight_cons, hc]
  | cons d rest ih =>
      rw [List.cons_append, trimRight_cons, ih]
      simp

theorem exists_eq_trimRight_append (text : Text) :
    ∃ blanks, (∀ c ∈ blanks, isBlank c = true) ∧ text = trimRight text ++ blanks := by
  induction text with
  | nil => exact ⟨[], List.forall_mem_nil _, rfl⟩
  | cons c rest ih =>
      obtain ⟨blanks, hblanks, hrest⟩ := ih
      rw [trimRight_cons]
      split
      · rename_i hdrop
        rw [Bool.and_eq_true, List.isEmpty_iff] at hdrop
        rw [hdrop.2, List.nil_append] at hrest
        refine ⟨c :: blanks, List.forall_mem_cons.mpr ⟨hdrop.1, hblanks⟩, ?_⟩
        rw [hrest]
        rfl
      · exact ⟨blanks, hblanks, congrArg (c :: ·) hrest⟩

theorem trim_trimRight (text : Text) : trim (trimRight text) = trim text := by
  obtain ⟨blanks, hblanks, htext⟩ := exists_eq_trimRight_append text
  calc
    trim (trimRight text) = trim (trimRight text ++ blanks) := (trim_append_blanks _ hblanks).symm
    _ = trim text := by rw [← htext]

theorem exists_eq_append_trim (text : Text) :
    ∃ before after, (∀ c ∈ before, isBlank c = true) ∧ (∀ c ∈ after, isBlank c = true) ∧
      text = before ++ trim text ++ after := by
  obtain ⟨after, hafter, hkept⟩ := exists_eq_trimRight_append (text.dropWhile isBlank)
  refine ⟨text.takeWhile isBlank, after, fun c hc => List.mem_takeWhile_imp hc, hafter, ?_⟩
  rw [trim, List.append_assoc, ← hkept, List.takeWhile_append_dropWhile]

theorem trim_dropWhile_isBlank (text : Text) : trim (text.dropWhile isBlank) = trim text := by
  rw [trim, List.dropWhile_idempotent, trim]

/-- Trimming leaves what stands in the middle of a text that does not start with blanks only. -/
theorem trim_append_cons {c : Char} (hc : isBlank c = false) {before : Text}
    (hbefore : trim before ≠ []) (after : Text) :
    trim (before ++ c :: after) = before.dropWhile isBlank ++ c :: trimRight after := by
  have hne : before.dropWhile isBlank ≠ [] := by
    intro hnil
    rw [trim, hnil] at hbefore
    exact hbefore rfl
  rw [trim, List.dropWhile_append, if_neg (by simpa using hne), trimRight_append_cons hc]

theorem head?_trim {text : Text} {c : Char} (before : Text)
    (hbefore : ∀ d ∈ before, isBlank d = true)
    (hc : isBlank c = false) (after : Text) (h : text = before ++ c :: after) :
    (trim text).head? = some c := by
  have hdrop : text.dropWhile isBlank = c :: after := by
    rw [h, List.dropWhile_append_of_pos hbefore, List.dropWhile_cons_of_neg (by simp [hc])]
  rw [trim, hdrop, ← List.nil_append (c :: after), trimRight_append_cons hc]
  rfl

theorem head?_dropWhile_isBlank {text : Text} {c : Char} (h : (trim text).head? = some c) :
    (text.dropWhile isBlank).head? = some c := by
  cases hdrop : text.dropWhile isBlank with
  | nil =>
      rw [trim, hdrop] at h
      cases h
  | cons d rest =>
      have hd : isBlank d = false := by
        have := List.head?_dropWhile_not isBlank text
        rw [hdrop] at this
        simpa using this
      rw [trim, hdrop, ← List.nil_append (d :: rest), trimRight_append_cons hd] at h
      exact h

/-! ## Separators -/

theorem cutAtFirst_append {isSeparator : Char → Bool} {before : Text} {c : Char} (after : Text)
    (hb : ∀ d ∈ before, isSeparator d = false) (hc : isSeparator c = true) :
    cutAtFirst isSeparator (before ++ c :: after) = some (before, after) := by
  have hpos : ∀ d ∈ before, (!isSeparator d) = true := by simpa using hb
  rw [cutAtFirst, List.dropWhile_append_of_pos hpos, List.takeWhile_append_of_pos hpos]
  simp [hc]

theorem cutAtFirst_append_of_forall {isSeparator : Char → Bool} {before : Text} (after : Text)
    (h : ∀ d ∈ before, isSeparator d = false) :
    cutAtFirst isSeparator (before ++ after) =
      (cutAtFirst isSeparator after).map fun parts => (before ++ parts.1, parts.2) := by
  have hpos : ∀ d ∈ before, (!isSeparator d) = true := by simpa using h
  rw [cutAtFirst, List.dropWhile_append_of_pos hpos, List.takeWhile_append_of_pos hpos, cutAtFirst]
  cases after.dropWhile fun c => !isSeparator c with
  | nil => rfl
  | cons c rest => rfl

theorem cutAtFirst_eq_none {isSeparator : Char → Bool} {text : Text}
    (h : ∀ d ∈ text, isSeparator d = false) : cutAtFirst isSeparator text = none := by
  have hdrop : text.dropWhile (fun c => !isSeparator c) = [] := by
    simpa [List.dropWhile_eq_nil_iff] using h
  rw [cutAtFirst, hdrop]

theorem pieces_eq_singleton {isSeparator : Char → Bool} {text : Text}
    (h : ∀ d ∈ text, isSeparator d = false) : pieces isSeparator text = [text] := by
  induction text with
  | nil => rfl
  | cons d rest ih =>
      rw [List.forall_mem_cons] at h
      rw [pieces_cons, ih h.2, h.1]
      rfl

/-- A text can be cut at any one of its separators first. -/
theorem pieces_append_cons {isSeparator : Char → Bool} {c : Char} (before after : Text)
    (hc : isSeparator c = true) :
    pieces isSeparator (before ++ c :: after) =
      pieces isSeparator before ++ pieces isSeparator after := by
  induction before with
  | nil => simp [pieces_cons, hc]
  | cons d rest ih =>
      rw [List.cons_append, pieces_cons, pieces_cons, ih]
      split
      · rfl
      · obtain ⟨first, others, hpieces⟩ :=
          List.exists_cons_of_ne_nil (pieces_ne_nil isSeparator rest)
        rw [hpieces]
        rfl

theorem pieces_append {isSeparator : Char → Bool} {before : Text} {c : Char} (after : Text)
    (hb : ∀ d ∈ before, isSeparator d = false) (hc : isSeparator c = true) :
    pieces isSeparator (before ++ c :: after) = before :: pieces isSeparator after := by
  rw [pieces_append_cons before after hc, pieces_eq_singleton hb, List.singleton_append]

theorem join_cons_cons (separator first second : Text) (rest : List Text) :
    join separator (first :: second :: rest) =
      first ++ separator ++ join separator (second :: rest) := by
  simp [join]

theorem forall_mem_join {p : Char → Prop} {separator : Text} {items : List Text}
    (hs : ∀ c ∈ separator, p c) (h : ∀ item ∈ items, ∀ c ∈ item, p c) :
    ∀ c ∈ join separator items, p c := by
  induction items with
  | nil => simp [join]
  | cons first rest ih =>
      rw [List.forall_mem_cons] at h
      cases rest with
      | nil => simpa [join] using h.1
      | cons second rest =>
          rw [join_cons_cons, List.forall_mem_append, List.forall_mem_append]
          exact ⟨⟨h.1, hs⟩, ih h.2⟩

theorem join_singleton (separator item : Text) : join separator [item] = item := by
  simp [join]

/-- A blank in front is trimmed off the first piece. -/
theorem map_trim_pieces_cons {isSeparator : Char → Bool} {c : Char} (hc : isBlank c = true)
    (hsep : isSeparator c = false) (text : Text) :
    (pieces isSeparator (c :: text)).map trim = (pieces isSeparator text).map trim := by
  obtain ⟨first, others, hpieces⟩ := List.exists_cons_of_ne_nil (pieces_ne_nil isSeparator text)
  rw [pieces_cons, if_neg (by simp [hsep]), hpieces, extendFirst, List.map_cons, List.map_cons,
    trim_cons_blank hc]

/-- Items joined by commas and blanks are cut at their own commas, and between neighbours. -/
theorem map_trim_pieces_join {items : List Text} (hne : items ≠ []) :
    (pieces (· == ',') (join [',', ' '] items)).map trim =
      items.flatMap fun item => (pieces (· == ',') item).map trim := by
  induction items with
  | nil => exact absurd rfl hne
  | cons first rest ih =>
      cases rest with
      | nil => rw [join_singleton, List.flatMap_singleton]
      | cons second rest =>
          rw [join_cons_cons, List.append_assoc, List.cons_append, List.cons_append,
            List.nil_append, pieces_append_cons _ _ rfl, List.map_append,
            map_trim_pieces_cons rfl rfl, ih (by simp)]
          rfl

/-- Items joined by commas and blanks are found again by cutting at the commas and trimming. -/
theorem trim_pieces_join {items : List Text} (hne : items ≠ [])
    (h : ∀ item ∈ items, ∀ c ∈ item, isNameChar c = true) :
    (pieces (· == ',') (join [',', ' '] items)).map trim = items := by
  have hitem : ∀ item ∈ items, (pieces (· == ',') item).map trim = [item] := by
    intro item hitem
    have hcomma : ∀ c ∈ item, (c == ',') = false := by
      intro c hc
      exact beq_eq_false_iff_ne.mpr (ne_of_test (h item hitem c hc) rfl)
    have htight : trim item = item := (tight_of_isNameChar (h item hitem)).trim_self
    rw [pieces_eq_singleton hcomma, List.map_singleton, htight]
  rw [map_trim_pieces_join hne, List.flatMap_congr hitem, List.flatMap_singleton']

theorem head?_join (separator : Text) {first : Text} (rest : List Text) (hne : first ≠ []) :
    (join separator (first :: rest)).head? = first.head? := by
  cases rest with
  | nil => rw [join_singleton]
  | cons second rest =>
      rw [join_cons_cons, List.append_assoc, List.head?_append_of_ne_nil _ hne]

theorem join_ne_nil (separator : Text) {items : List Text} (hne : items ≠ [])
    (h : ∀ item ∈ items, item ≠ []) : join separator items ≠ [] := by
  obtain ⟨first, rest, rfl⟩ := List.exists_cons_of_ne_nil hne
  rw [List.forall_mem_cons] at h
  cases rest with
  | nil =>
      rw [join_singleton]
      exact h.1
  | cons second rest => simp [join_cons_cons, h.1]

/-- Texts without blanks at their ends have none when they are joined. -/
theorem tight_join (separator : Text) {items : List Text} (hne : ∀ item ∈ items, item ≠ [])
    (h : ∀ item ∈ items, Tight item) : Tight (join separator items) := by
  induction items with
  | nil => exact ⟨by simp [join], by simp [join]⟩
  | cons first rest ih =>
      rw [List.forall_mem_cons] at h hne
      cases rest with
      | nil =>
          rw [join_singleton]
          exact h.1
      | cons second rest =>
          rw [join_cons_cons]
          exact h.1.append (ih hne.2 h.2) hne.1 (join_ne_nil separator (by simp) hne.2) separator

/-! ## Words -/

theorem words_append {before : Text} {c : Char} (after : Text) (hne : before ≠ [])
    (hb : ∀ d ∈ before, isBlank d = false) (hc : isBlank c = true) :
    words (before ++ c :: after) = before :: words after := by
  rw [words, pieces_append after hb hc, List.filter_cons_of_pos (by simpa using hne), words]

theorem words_cons_blank {c : Char} (h : isBlank c = true) (text : Text) :
    words (c :: text) = words text := by
  rw [words, pieces_cons, if_pos h, List.filter_cons_of_neg (by simp), words]

theorem words_blanks {blanks : Text} (h : ∀ c ∈ blanks, isBlank c = true) : words blanks = [] := by
  induction blanks with
  | nil => rfl
  | cons c rest ih =>
      rw [List.forall_mem_cons] at h
      rw [words_cons_blank h.1, ih h.2]

/-- Items joined by blanks are found again as words, with or without more blanks behind them. -/
theorem words_join {items : List Text}
    (h : ∀ item ∈ items, item ≠ [] ∧ ∀ c ∈ item, isBlank c = false)
    {blanks : Text} (hblanks : ∀ c ∈ blanks, isBlank c = true) (hne : blanks ≠ []) :
    words (join [' '] items ++ blanks) = items := by
  induction items with
  | nil => exact words_blanks hblanks
  | cons first rest ih =>
      rw [List.forall_mem_cons] at h
      cases rest with
      | nil =>
          obtain ⟨blank, others, rfl⟩ := List.exists_cons_of_ne_nil hne
          rw [List.forall_mem_cons] at hblanks
          rw [join_singleton, words_append others h.1.1 h.1.2 hblanks.1, words_blanks hblanks.2]
      | cons second rest =>
          rw [join_cons_cons, List.append_assoc, List.append_assoc, List.singleton_append,
            words_append _ h.1.1 h.1.2 rfl, ih h.2]

/-! ## Lines -/

theorem pieces_flatMap_lineFeed {texts : List Text} (h : ∀ text ∈ texts, '\n' ∉ text) :
    pieces (· == '\n') (texts.flatMap fun text => text ++ ['\n']) = texts ++ [[]] := by
  induction texts with
  | nil => rfl
  | cons text rest ih =>
      rw [List.forall_mem_cons] at h
      have htext : ∀ c ∈ text, (c == '\n') = false := by
        intro c hc
        apply beq_eq_false_iff_ne.mpr
        rintro rfl
        exact h.1 hc
      rw [List.flatMap_cons, List.append_assoc, List.singleton_append,
        pieces_append _ htext rfl, ih h.2, List.cons_append]

/-- Texts that are each ended by a line feed are the lines of the whole. -/
theorem lines_flatMap_lineFeed {texts : List Text} (hfeed : ∀ text ∈ texts, '\n' ∉ text)
    (hreturn : ∀ text ∈ texts, text.getLast? ≠ some '\r') :
    lines (texts.flatMap fun text => text ++ ['\n']) = texts := by
  have hmap : texts.map dropReturn = texts := by
    calc
      texts.map dropReturn = texts.map id := by
        apply List.map_congr_left
        intro text htext
        exact if_neg (hreturn text htext)
      _ = texts := List.map_id texts
  simp only [lines, pieces_flatMap_lineFeed hfeed, List.dropLast_concat, hmap]
  simp

/-- Texts of characters that end no line are the lines of the whole if each is ended by a line
feed. -/
theorem lines_flatMap_of_forall {test : Char → Bool} (hfeed : test '\n' = false)
    (hreturn : test '\r' = false) {texts : List Text}
    (h : ∀ text ∈ texts, ∀ c ∈ text, test c = true) :
    lines (texts.flatMap fun text => text ++ ['\n']) = texts := by
  apply lines_flatMap_lineFeed
  · intro text htext hc
    exact absurd rfl (ne_of_test (h text htext _ hc) hfeed)
  · intro text htext hlast
    exact absurd rfl (ne_of_test (h text htext _ (List.mem_of_getLast? hlast)) hreturn)

/-- The lines of a text that is followed by a line feed, which ends the last of them. -/
def endedLines (text : Text) : List Text := (pieces (· == '\n') text).map dropReturn

theorem lines_append_lineFeed (before after : Text) :
    lines (before ++ '\n' :: after) = endedLines before ++ lines after := by
  have hcut : pieces (· == '\n') (before ++ '\n' :: after) =
      pieces (· == '\n') before ++ pieces (· == '\n') after := pieces_append_cons before after rfl
  have hne := pieces_ne_nil (· == '\n') after
  simp only [lines, endedLines]
  rw [hcut, List.dropLast_append_of_ne_nil hne, List.getLast?_append_of_ne_nil _ hne,
    List.map_append, List.append_assoc]

theorem pieces_lineFeed_of_forall {test : Char → Bool} (hfeed : test '\n' = false) {text : Text}
    (h : ∀ c ∈ text, test c = true) : pieces (· == '\n') text = [text] := by
  apply pieces_eq_singleton
  intro c hc
  exact beq_eq_false_iff_ne.mpr (ne_of_test (h c hc) hfeed)

theorem endedLines_of_forall {test : Char → Bool} (hfeed : test '\n' = false)
    (hreturn : test '\r' = false) {text : Text} (h : ∀ c ∈ text, test c = true) :
    endedLines text = [text] := by
  have hdrop : dropReturn text = text := by
    apply if_neg
    intro hlast
    exact absurd rfl (ne_of_test (h _ (List.mem_of_getLast? hlast)) hreturn)
  rw [endedLines, pieces_lineFeed_of_forall hfeed h, List.map_singleton, hdrop]

/-- Texts that are not empty and hold no character that ends a line are the lines of the whole if
there is a line feed between neighbours. -/
theorem lines_join {test : Char → Bool} (hfeed : test '\n' = false) (hreturn : test '\r' = false)
    {texts : List Text} (h : ∀ text ∈ texts, text ≠ [] ∧ ∀ c ∈ text, test c = true) :
    lines (join ['\n'] texts) = texts := by
  induction texts with
  | nil => rfl
  | cons first rest ih =>
      rw [List.forall_mem_cons] at h
      obtain ⟨⟨hne, hfirst⟩, hrest⟩ := h
      cases rest with
      | nil =>
          rw [join_singleton, lines, pieces_lineFeed_of_forall hfeed hfirst]
          simp [hne]
      | cons second rest =>
          rw [join_cons_cons, List.append_assoc, List.singleton_append, lines_append_lineFeed,
            endedLines_of_forall hfeed hreturn hfirst, ih hrest, List.singleton_append]

/-- Without a line feed at its end, a text has no last line where that is empty, and one that keeps
its carriage return otherwise. -/
theorem exists_lines_eq (text : Text) :
    ∃ ended last, endedLines text = ended ++ [dropReturn last] ∧
      lines text = ended ++ if last = [] then [] else [last] := by
  obtain ⟨cut, last, hcut⟩ :=
    List.eq_nil_or_concat' (pieces (· == '\n') text) |>.resolve_left (pieces_ne_nil _ _)
  refine ⟨cut.map dropReturn, last, ?_, ?_⟩
  · rw [endedLines, hcut, List.map_append, List.map_singleton]
  · simp only [lines]
    rw [hcut, List.dropLast_concat, List.getLast?_concat]
    by_cases hlast : last = []
    · subst hlast
      rfl
    · simp [hlast]

/-! ## Parts

What is cut out of a text has its characters in the order of the text.
-/

theorem trimRight_sublist (text : Text) : (trimRight text).Sublist text := by
  induction text with
  | nil => exact List.nil_sublist _
  | cons c rest ih =>
      rw [trimRight_cons]
      split
      · exact List.nil_sublist _
      · exact ih.cons_cons c

theorem trim_sublist (text : Text) : (trim text).Sublist text :=
  (trimRight_sublist _).trans (List.dropWhile_sublist _)

theorem exists_of_cutAtFirst {test : Char → Bool} {text before after : Text}
    (h : cutAtFirst test text = some (before, after)) :
    ∃ c, test c = true ∧ text = before ++ c :: after := by
  rw [cutAtFirst] at h
  cases hdrop : text.dropWhile fun c => !test c with
  | nil =>
      rw [hdrop] at h
      cases h
  | cons c rest =>
      have hc := List.head?_dropWhile_not (fun c => !test c) text
      rw [hdrop] at h hc
      cases h
      refine ⟨c, by simpa using hc, ?_⟩
      rw [← hdrop, List.takeWhile_append_dropWhile]

/-- The first piece ends at the first separator, and the others are those of what follows it. -/
theorem exists_of_pieces_eq_cons {test : Char → Bool} {text first : Text} {others : List Text}
    (h : pieces test text = first :: others) :
    (others = [] ∧ text = first) ∨
      ∃ c rest, test c = true ∧ text = first ++ c :: rest ∧ pieces test rest = others := by
  induction text generalizing first with
  | nil =>
      cases h
      exact .inl ⟨rfl, rfl⟩
  | cons c rest ih =>
      rw [pieces_cons] at h
      split at h
      · rename_i hc
        cases h
        exact .inr ⟨c, rest, hc, rfl, rfl⟩
      · obtain ⟨piece, more, hpieces⟩ := List.exists_cons_of_ne_nil (pieces_ne_nil test rest)
        rw [hpieces] at h
        cases h
        rcases ih hpieces with ⟨rfl, rfl⟩ | ⟨d, later, hd, rfl, hlater⟩
        · exact .inl ⟨rfl, rfl⟩
        · exact .inr ⟨d, later, hd, rfl, hlater⟩

theorem length_pieces_le (test : Char → Bool) (text : Text) :
    (pieces test text).length ≤ text.length + 1 := by
  induction text with
  | nil => exact Nat.le_refl 1
  | cons c rest ih =>
      obtain ⟨first, others, hpieces⟩ := List.exists_cons_of_ne_nil (pieces_ne_nil test rest)
      rw [pieces_cons, hpieces]
      rw [hpieces, List.length_cons] at ih
      split <;> simp only [extendFirst, List.length_cons] <;> omega

theorem sublist_of_cutAtFirst {test : Char → Bool} {text before after : Text}
    (h : cutAtFirst test text = some (before, after)) :
    before.Sublist text ∧ after.Sublist text := by
  obtain ⟨c, _, rfl⟩ := exists_of_cutAtFirst h
  constructor
  · exact List.sublist_append_left ..
  · exact (List.sublist_cons_self ..).trans (List.sublist_append_right ..)

theorem sublist_of_mem_pieces {test : Char → Bool} {text piece : Text}
    (h : piece ∈ pieces test text) : piece.Sublist text := by
  induction text generalizing piece with
  | nil =>
      obtain rfl := List.mem_singleton.mp h
      exact List.nil_sublist _
  | cons c rest ih =>
      rw [pieces_cons] at h
      split at h
      · rcases List.mem_cons.mp h with rfl | h
        · exact List.nil_sublist _
        · exact (ih h).cons c
      · obtain ⟨first, others, hpieces⟩ := List.exists_cons_of_ne_nil (pieces_ne_nil test rest)
        rw [hpieces] at h ih
        rcases List.mem_cons.mp h with rfl | h
        · exact (ih (List.mem_cons_self ..)).cons_cons c
        · exact (ih (List.mem_cons_of_mem first h)).cons c

theorem dropReturn_sublist (line : Text) : (dropReturn line).Sublist line := by
  rw [dropReturn]
  split
  · exact List.dropLast_sublist line
  · exact List.Sublist.refl line

theorem sublist_of_mem_lines {text line : Text} (h : line ∈ lines text) : line.Sublist text := by
  rcases List.mem_append.mp h with h | h
  · obtain ⟨piece, hpiece, rfl⟩ := List.mem_map.mp h
    have hmem := (List.dropLast_sublist _).subset hpiece
    exact (dropReturn_sublist piece).trans (sublist_of_mem_pieces hmem)
  · have hlast := Option.mem_toList.mp (List.mem_filter.mp h).1
    exact sublist_of_mem_pieces (List.mem_of_getLast? hlast)

end Accumulator.Text
