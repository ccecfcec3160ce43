import Accumulator.Json.Reader
import Accumulator.Proofs.Json.Lexing
import Mathlib.Data.List.Forall2

/-!
# JSON values read back

A value is a sequence of tokens, and every text of a value is read as these tokens. Whatever arrays
and objects are open around it, the tokens of a value lead to the state in which it has been read.
Together this gives back every value from every way to write it. The compact text of a value is one
of them, if its strings are texts and its numbers are numbers.
-/

namespace Accumulator.Json

open Text

/-! ## The tokens of a value -/

/-- Sequences of tokens with a comma between neighbours. -/
def separated (sequences : List (List Token)) : List Token :=
  (sequences.intersperse [.comma]).flatten

theorem separated_singleton (first : List Token) : separated [first] = first := by
  simp [separated]

theorem separated_cons_cons (first second : List Token) (rest : List (List Token)) :
    separated (first :: second :: rest) = first ++ .comma :: separated (second :: rest) := by
  simp [separated]

theorem exists_separated_eq (first : List Token) (rest : List (List Token)) :
    ∃ more, separated (first :: rest) = first ++ more := by
  cases rest with
  | nil => exact ⟨[], by rw [separated_singleton, List.append_nil]⟩
  | cons second rest => exact ⟨_, separated_cons_cons first second rest⟩

/-- The tokens of a value. -/
def tokens : Json → List Token
  | .null => [.null]
  | .bool value => [.bool value]
  | .number value => [.number value]
  | .string value => [.string value]
  | .array items => .openArray :: separated (items.map fun item => tokens item) ++ [.closeArray]
  | .object fields =>
      .openObject ::
          separated (fields.map fun field => .string field.1 :: .colon :: tokens field.2) ++
        [.closeObject]
termination_by value => sizeOf value
decreasing_by
  · rename_i h
    have := List.sizeOf_lt_of_mem h
    simp only [Json.array.sizeOf_spec]
    omega
  · rename_i h
    have := sizeOf_value_lt h
    simp only [Json.object.sizeOf_spec]
    omega

/-! ## Reading tokens -/

variable {value : Json} {items : List Json} {fields : List (JsonString × Json)}

/-- Tokens are read as a value, whatever is open around it and whatever follows. -/
def Yields (sequence : List Token) (value : Json) : Prop :=
  ∀ stack rest, State.feed (.value stack) (sequence ++ rest) = State.feed (.done stack value) rest

/-- Where an array may have ended, a value is read as its first item. -/
theorem feed_firstItem (first : Json) (others : List Json) (stack : List Frame)
    (rest : List Token) :
    State.feed (.firstItem stack) (separated ((first :: others).map tokens) ++ rest) =
      State.feed (.value (.array [] :: stack))
        (separated ((first :: others).map tokens) ++ rest) := by
  obtain ⟨more, hmore⟩ := exists_separated_eq first.tokens (others.map tokens)
  rw [List.map_cons, hmore]
  cases first with
  | null => rw [tokens]; rfl
  | bool value => rw [tokens]; rfl
  | number value => rw [tokens]; rfl
  | string value => rw [tokens]; rfl
  | array items => rw [tokens]; rfl
  | object fields => rw [tokens]; rfl

/-- The items of an array are read behind those that have been read before. -/
theorem feed_items (h : ∀ item ∈ items, Yields item.tokens item) (hne : items ≠ [])
    (newest : List Json) (stack : List Frame) (rest : List Token) :
    State.feed (.value (.array newest :: stack))
        (separated (items.map tokens) ++ .closeArray :: rest) =
      State.feed (.done stack (.array (newest.reverse ++ items))) rest := by
  induction items generalizing newest with
  | nil => exact absurd rfl hne
  | cons first others ih =>
      rw [List.forall_mem_cons] at h
      cases others with
      | nil =>
          rw [List.map_singleton, separated_singleton, h.1, State.feed, State.step, endValue,
            List.reverse_cons]
      | cons second others =>
          have hrest := ih h.2 (List.cons_ne_nil _ _) (first :: newest)
          rw [List.map_cons, List.map_cons, separated_cons_cons, List.append_assoc, h.1,
            List.cons_append]
          rw [List.reverse_cons, List.append_assoc] at hrest
          exact hrest

/-- The tokens of a field. -/
def fieldTokens (field : JsonString × Json) : List Token :=
  .string field.1 :: .colon :: field.2.tokens

theorem feed_field {field : JsonString × Json} (h : Yields field.2.tokens field.2)
    (newest : List (JsonString × Json)) (stack : List Frame) (rest : List Token) :
    State.feed (.key stack newest) (fieldTokens field ++ rest) =
      State.feed (.done (.object newest field.1 :: stack) field.2) rest :=
  h (.object newest field.1 :: stack) rest

/-- Where an object may have ended, a field is read as its first one. -/
theorem feed_firstKey (first : JsonString × Json) (others : List (JsonString × Json))
    (stack : List Frame) (rest : List Token) :
    State.feed (.firstKey stack) (separated ((first :: others).map fieldTokens) ++ rest) =
      State.feed (.key stack []) (separated ((first :: others).map fieldTokens) ++ rest) := by
  obtain ⟨more, hmore⟩ := exists_separated_eq (fieldTokens first) (others.map fieldTokens)
  rw [List.map_cons, hmore]
  rfl

/-- The fields of an object are read behind those that have been read before. -/
theorem feed_fields (h : ∀ field ∈ fields, Yields field.2.tokens field.2) (hne : fields ≠ [])
    (newest : List (JsonString × Json)) (stack : List Frame) (rest : List Token) :
    State.feed (.key stack newest)
        (separated (fields.map fieldTokens) ++ .closeObject :: rest) =
      State.feed (.done stack (.object (newest.reverse ++ fields))) rest := by
  induction fields generalizing newest with
  | nil => exact absurd rfl hne
  | cons first others ih =>
      rw [List.forall_mem_cons] at h
      cases others with
      | nil =>
          rw [List.map_singleton, separated_singleton, feed_field h.1, State.feed, State.step,
            endValue, List.reverse_cons]
      | cons second others =>
          have hrest := ih h.2 (List.cons_ne_nil _ _) (first :: newest)
          rw [List.map_cons, List.map_cons, separated_cons_cons, List.append_assoc, feed_field h.1,
            List.cons_append]
          rw [List.reverse_cons, List.append_assoc] at hrest
          exact hrest

/-- The tokens of a value are read as the value. -/
theorem yields_tokens (value : Json) : Yields value.tokens value := by
  induction value using tokens.induct with
  | case1 =>
      intro stack rest
      rw [tokens]
      rfl
  | case2 value =>
      intro stack rest
      rw [tokens]
      rfl
  | case3 value =>
      intro stack rest
      rw [tokens]
      rfl
  | case4 value =>
      intro stack rest
      rw [tokens]
      rfl
  | case5 items ih =>
      intro stack rest
      rw [tokens, List.append_assoc, List.singleton_append]
      cases items with
      | nil => rfl
      | cons first others =>
          exact (feed_firstItem first others stack _).trans
            (feed_items ih (List.cons_ne_nil _ _) [] stack rest)
  | case6 fields ih =>
      intro stack rest
      rw [tokens, List.append_assoc, List.singleton_append]
      cases fields with
      | nil => rfl
      | cons first others =>
          exact (feed_firstKey first others stack _).trans
            (feed_fields ih (List.cons_ne_nil _ _) [] stack rest)

theorem ofTokens?_tokens (value : Json) : ofTokens? value.tokens = some value := by
  have hfeed := yields_tokens value [] []
  rw [List.append_nil] at hfeed
  rw [ofTokens?, hfeed]
  rfl

/-- A text that is read as the tokens of a value is read as the value. -/
theorem read?_of_reads {text : Text} (h : Reads text value.tokens) : read? text = some value := by
  rw [read?, tokens?_of_reads h]
  exact ofTokens?_tokens value

/-! ## Written texts -/

/-- Texts that are read as tokens are read as the same tokens with a comma between neighbours, up
to a mark that comes last. -/
theorem closes_join {texts : List Text} {sequences : List (List Token)} {c : Char} {token : Token}
    (h : List.Forall₂ Reads texts sequences) (hc : punctuation? c = some token) :
    Closes (join [','] texts ++ [c]) (separated sequences ++ [token]) := by
  induction h with
  | nil => exact closes_mark hc
  | @cons first sequence texts sequences hfirst hrest ih =>
      cases hrest with
      | nil =>
          rw [separated_singleton, join_singleton]
          exact hfirst.append (endsAtom_of_mark hc) (closes_mark hc)
      | cons hsecond hothers =>
          rw [join_cons_cons, separated_cons_cons, List.append_assoc, List.append_assoc,
            List.append_assoc]
          have hcomma : Closes [','] [.comma] := closes_mark rfl
          exact hfirst.append rfl (hcomma.append ih)

/-- However a value is written, its text is read as the tokens of the value. -/
theorem reads_of_writes {text : Text} (h : Writes text value) : Reads text value.tokens := by
  induction h with
  | null =>
      rw [tokens]
      exact reads_word rfl (by decide) rfl
  | true =>
      rw [tokens]
      exact reads_word rfl (by decide) rfl
  | false =>
      rw [tokens]
      exact reads_word rfl (by decide) rfl
  | number h =>
      rw [tokens]
      exact reads_number (isTail_iff.mpr h)
  | string h =>
      rw [tokens]
      exact (closes_string h).reads
  | @array blanks items hblanks hitems ih =>
      have hopen : Closes ('[' :: blanks) [.openArray] :=
        (closes_mark (c := '[') rfl).append (closes_blank hblanks)
      have hall : List.Forall₂ Reads (items.map Prod.fst) ((items.map Prod.snd).map tokens) := by
        rw [List.map_map, List.forall₂_map_left_iff, List.forall₂_map_right_iff, List.forall₂_same]
        exact ih
      rw [tokens, List.append_assoc]
      exact (hopen.append (closes_join hall rfl)).reads
  | @object blanks fields hblanks hkeys hvalues ih =>
      have hopen : Closes ('\x7b' :: blanks) [.openObject] :=
        (closes_mark (c := '\x7b') rfl).append (closes_blank hblanks)
      have hcolon : Closes [':'] [.colon] := closes_mark rfl
      have hall : List.Forall₂ Reads (fields.map WrittenField.text)
          ((fields.map WrittenField.field).map fieldTokens) := by
        rw [List.map_map, List.forall₂_map_left_iff, List.forall₂_map_right_iff, List.forall₂_same]
        intro field hfield
        obtain ⟨text, htext, hpadded⟩ := hkeys field hfield
        exact ((closes_string htext).padded hpadded).append_reads
          (hcolon.append_reads (ih field hfield))
      rw [tokens, List.append_assoc]
      exact (hopen.append (closes_join hall rfl)).reads
  | padded h hpadded ih => exact ih.padded hpadded

/-- However a value is written, it is read back. -/
theorem read?_of_writes {text : Text} (h : Writes text value) : read? text = some value :=
  read?_of_reads (reads_of_writes h)

/-! ## Compact texts -/

/-- A value whose strings, its keys among them, are texts and whose numbers are numbers. -/
inductive WellFormed : Json → Prop
  | null : WellFormed .null
  | bool (value : Bool) : WellFormed (.bool value)
  | number {value : JsonNumber} (h : JsonNumber.WellFormed value) : WellFormed (.number value)
  | string (text : Text) : WellFormed (.string (some text))
  | array {items : List Json} (h : ∀ item ∈ items, WellFormed item) : WellFormed (.array items)
  | record {fields : List (Text × Json)} (h : ∀ field ∈ fields, WellFormed field.2) :
      WellFormed (.record fields)

theorem digitValue?_lowerDigit {d : Nat} (h : d < 16) :
    Numeral.digitValue? 16 (Numeral.lowerDigit d) = some d := by
  have hall : ∀ d < 16, Numeral.digitValue? 16 (Numeral.lowerDigit d) = some d := by decide
  exact hall d h

theorem code_eq {n : Nat} (h : n < 0x100) :
    Numeral.zeroPad 4 ((Numeral.digits 16 n).map Numeral.lowerDigit) =
      ['0', '0', Numeral.lowerDigit (n / 16), Numeral.lowerDigit (n % 16)] := by
  by_cases hlow : n < 16
  · rw [Numeral.digits_of_lt hlow, Nat.div_eq_of_lt hlow, Nat.mod_eq_of_lt hlow]
    rfl
  · have hhigh : n / 16 < 16 := by omega
    rw [Numeral.digits_of_le (by decide) (Nat.le_of_not_lt hlow), Numeral.digits_of_lt hhigh]
    rfl

theorem codes_zeroPad {n : Nat} (h : n < 0x100) :
    Codes (Numeral.zeroPad 4 ((Numeral.digits 16 n).map Numeral.lowerDigit)) n := by
  have hzero : Numeral.digitValue? 16 '0' = some 0 := digitValue?_lowerDigit (d := 0) (by decide)
  have hhigh := digitValue?_lowerDigit (d := n / 16) (by omega)
  have hlow := digitValue?_lowerDigit (d := n % 16) (by omega)
  have hsum : (((0 * 16 + 0) * 16 + 0) * 16 + n / 16) * 16 + n % 16 = n := by omega
  rw [code_eq h]
  refine ⟨rfl, ?_⟩
  simp only [Numeral.read?, List.isEmpty_cons, Bool.false_eq_true, if_false, Numeral.readOnto?,
    hzero, hhigh, hlow, hsum]

/-- The printed form of a character is one of its spellings. -/
theorem spells_escape (c : Char) : Spells (escape c) c := by
  rw [escape]
  split_ifs with hquote hslash hfeed hreturn htab hback hform hcode
  · obtain rfl := beq_iff_eq.mp hquote
    exact .letter (by decide)
  · obtain rfl := beq_iff_eq.mp hslash
    exact .letter (by decide)
  · obtain rfl := beq_iff_eq.mp hfeed
    exact .letter (by decide)
  · obtain rfl := beq_iff_eq.mp hreturn
    exact .letter (by decide)
  · obtain rfl := beq_iff_eq.mp htab
    exact .letter (by decide)
  · obtain rfl := beq_iff_eq.mp hback
    exact .letter (by decide)
  · obtain rfl := beq_iff_eq.mp hform
    exact .letter (by decide)
  · have hunit := Spells.code (codes_zeroPad (by omega : c.toNat < 0x100))
      (fun hupper => absurd hupper.1 (by omega)) (fun hlower => absurd hlower.1 (by omega))
    rwa [Char.ofNat_toNat] at hunit
  · exact .plain (Nat.le_of_not_lt hcode) (by simpa using hquote) (by simpa using hslash)

/-- Characters are pieces that never join. -/
theorem spellsPieces_of_chars {parts : List Text} {text : Text}
    (h : List.Forall₂ Spells parts text) : SpellsPieces parts.flatten (text.map .char) := by
  refine ⟨?_, parts, ?_, rfl⟩
  · apply List.Pairwise.isChain
    rw [List.pairwise_map]
    exact List.pairwise_of_forall_sublist fun _ => not_false
  · rw [List.forall₂_map_right_iff]
    exact h.imp fun _ _ hspells => .char hspells

theorem stringOf_chars (text : Text) : stringOf (text.map .char) = some text := by
  induction text with
  | nil => rfl
  | cons c rest ih =>
      rw [List.map_cons, stringOf, ih]
      rfl

/-- A text whose characters are spelled in any way is a string. -/
theorem writesString_of_spells {parts : List Text} {text : Text}
    (h : List.Forall₂ Spells parts text) :
    WritesString ('"' :: parts.flatten ++ ['"']) (some text) := by
  have hstring := WritesString.mk (spellsPieces_of_chars h)
  rwa [stringOf_chars] at hstring

theorem forall₂_escape (text : Text) : List.Forall₂ Spells (text.map escape) text := by
  rw [List.forall₂_map_left_iff, List.forall₂_same]
  exact fun c _ => spells_escape c

theorem writesString_quoted (text : Text) : WritesString (quoted (some text)) (some text) := by
  have hstring := writesString_of_spells (forall₂_escape text)
  rwa [← List.flatMap_def] at hstring

theorem padded_self (text : Text) : Padded text text := by
  have hpadded : Padded text ([] ++ text ++ []) :=
    .mk (List.forall_mem_nil _) (List.forall_mem_nil _)
  rwa [List.nil_append, List.append_nil] at hpadded

/-- A field as it stands in the compact text of an object. -/
def compactField (field : Text × Json) : WrittenField :=
  ⟨quoted (some field.1), some field.1, field.2.compact, field.2⟩

/-- The compact text of a well-formed value is one of its texts. -/
theorem writes_compact (h : WellFormed value) : Writes value.compact value := by
  induction h with
  | null =>
      rw [compact]
      exact .null
  | bool value =>
      cases value with
      | true =>
          rw [compact]
          exact .true
      | false =>
          rw [compact]
          exact .false
  | number h =>
      rw [compact]
      exact .number (isTail_iff.mp h)
  | string text =>
      rw [compact]
      exact .string (writesString_quoted text)
  | @array items h ih =>
      have hitems : ∀ item ∈ items.map fun item => (item.compact, item), Writes item.1 item.2 :=
        List.forall_mem_map.mpr ih
      have hvalues : (items.map fun item => (item.compact, item)).map Prod.snd = items := by
        rw [List.map_map]
        exact List.map_id items
      have harray := Writes.array (List.forall_mem_nil _) hitems
      rw [hvalues, List.map_map] at harray
      rw [compact]
      exact harray
  | @record fields h ih =>
      have hkeys : ∀ field ∈ fields.map compactField,
          ∃ text, WritesString text field.key ∧ Padded text field.keyText :=
        List.forall_mem_map.mpr fun field _ => ⟨_, writesString_quoted field.1, padded_self _⟩
      have hvalues : ∀ field ∈ fields.map compactField, Writes field.valueText field.value :=
        List.forall_mem_map.mpr ih
      have hrecord := Writes.object (List.forall_mem_nil _) hkeys hvalues
      rw [List.map_map, List.map_map] at hrecord
      rw [record, compact, List.map_map]
      exact hrecord

/-- A well-formed value is read back from its compact text. -/
theorem read?_compact (h : WellFormed value) : read? value.compact = some value :=
  read?_of_writes (writes_compact h)

end Accumulator.Json
