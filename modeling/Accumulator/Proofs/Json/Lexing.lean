import Accumulator.Proofs.Json.Grammar
import Accumulator.Proofs.Text.Cutting
import Accumulator.Proofs.Text.Numerals
import Mathlib.Data.List.Chain

/-!
# Tokens of written texts

The reader of tokens goes through a text character by character, and a token other than a string or
a mark of punctuation is complete only when the next character shows that it has ended. So a text
may leave its last token open. Texts that are put together are read as the tokens of their parts as
long as no token runs on into the next part. Strings and numbers are read in all the ways in which
they may be written.
-/

namespace Accumulator.Json

open Text

namespace Lexer

/-- The reader between two tokens. -/
def after (tokens : List Token) : Lexer := ⟨tokens.toArray, .between⟩

theorem feed_append (lexer : Lexer) (first second : Text) :
    lexer.feed (first ++ second) = (lexer.feed first).bind fun next => next.feed second := by
  induction first generalizing lexer with
  | nil => rfl
  | cons c rest ih =>
      rw [List.cons_append, feed, feed]
      cases lexer.step c with
      | none => rfl
      | some next => exact ih next

theorem finish_after (tokens : List Token) : (after tokens).finish = some tokens := rfl

theorem start_mark {c : Char} {token : Token} (h : punctuation? c = some token)
    (tokens : List Token) : start tokens.toArray c = after (tokens ++ [token]) := by
  have hc : isSpace c = false ∧ (c == '"') = false := by
    unfold punctuation? at h
    split at h <;> first | exact ⟨rfl, rfl⟩ | cases h
  rw [start, hc.1, hc.2, h, after, ← List.push_toArray]
  rfl

theorem start_atom {c : Char} (h : endsAtom c = false) (tokens : List Token) :
    start tokens.toArray c = ⟨tokens.toArray, .atom [c]⟩ := by
  simp only [endsAtom, Bool.or_eq_false_iff, Option.isSome_eq_false_iff, Option.isNone_iff_eq_none]
    at h
  rw [start, h.1.1, h.1.2, h.2]
  rfl

/-- A character that ends a token is read as if nothing of a token were open. -/
theorem step_of_finish {lexer : Lexer} {tokens : List Token} {c : Char}
    (h : lexer.finish = some tokens) (hc : endsAtom c = true) :
    lexer.step c = (after tokens).step c := by
  obtain ⟨before, reading⟩ := lexer
  cases reading with
  | between =>
      obtain rfl := Option.some.inj h
      rfl
  | atom chars =>
      obtain ⟨token, htoken, rfl⟩ := Option.map_eq_some_iff.mp h
      simp only [step, hc, htoken, after]
      rfl
  | string pieces => cases h
  | escape pieces => cases h
  | unicode pieces digits value => cases h

end Lexer

open Lexer

/-! ## Texts and their tokens -/

/-- A text is read as tokens of which the last may still be open. -/
def Reads (text : Text) (tokens : List Token) : Prop :=
  ∀ before, ∃ lexer, (after before).feed text = some lexer ∧
    lexer.finish = some (before ++ tokens)

/-- A text is read as complete tokens. -/
def Closes (text : Text) (tokens : List Token) : Prop :=
  ∀ before, (after before).feed text = some (after (before ++ tokens))

variable {first second : Text} {tokens others : List Token}

theorem Closes.reads (h : Closes first tokens) : Reads first tokens :=
  fun before => ⟨_, h before, finish_after _⟩

theorem Closes.append (h : Closes first tokens) (hsecond : Closes second others) :
    Closes (first ++ second) (tokens ++ others) := by
  intro before
  rw [feed_append, h before, Option.bind_some, hsecond, List.append_assoc]

theorem Closes.append_reads (h : Closes first tokens) (hsecond : Reads second others) :
    Reads (first ++ second) (tokens ++ others) := by
  intro before
  rw [feed_append, h before, Option.bind_some, ← List.append_assoc]
  exact hsecond (before ++ tokens)

/-- A token that is still open ends where the next text starts with a blank, a quote or a mark. -/
theorem Reads.append {c : Char} (h : Reads first tokens) (hc : endsAtom c = true)
    (hsecond : Closes (c :: second) others) :
    Closes (first ++ c :: second) (tokens ++ others) := by
  intro before
  obtain ⟨lexer, hfeed, hfinish⟩ := h before
  have hnext := hsecond (before ++ tokens)
  rw [feed_append, hfeed, Option.bind_some, ← List.append_assoc, ← hnext, feed, feed,
    step_of_finish hfinish hc]

theorem tokens?_of_reads (h : Reads first tokens) : tokens? first = some tokens := by
  obtain ⟨lexer, hfeed, hfinish⟩ := h []
  have hstart : Lexer.feed ⟨#[], .between⟩ first = some lexer := hfeed
  rw [tokens?, hstart]
  exact hfinish

/-! ## Single tokens -/

theorem endsAtom_of_mark {c : Char} {token : Token} (h : punctuation? c = some token) :
    endsAtom c = true := by
  rw [endsAtom, h, Option.isSome_some, Bool.or_true]

theorem closes_mark {c : Char} {token : Token} (h : punctuation? c = some token) :
    Closes [c] [token] := by
  intro before
  rw [feed, after, step, start_mark h]
  rfl

theorem feed_atom {text : Text} (h : ∀ c ∈ text, endsAtom c = false) (before : Array Token)
    (chars : List Char) :
    Lexer.feed ⟨before, .atom chars⟩ text = some ⟨before, .atom (text.reverse ++ chars)⟩ := by
  induction text generalizing chars with
  | nil => rfl
  | cons c rest ih =>
      rw [List.forall_mem_cons] at h
      rw [feed, step, h.1, List.reverse_cons, List.append_assoc]
      exact ih h.2 (c :: chars)

/-- A run of other characters is one token, which stays open. -/
theorem reads_atom {text : Text} {token : Token} (h : ∀ c ∈ text, endsAtom c = false)
    (hne : text ≠ []) (htoken : Token.ofAtom? text = some token) : Reads text [token] := by
  intro before
  obtain ⟨c, rest, rfl⟩ := List.exists_cons_of_ne_nil hne
  rw [List.forall_mem_cons] at h
  refine ⟨⟨before.toArray, .atom (rest.reverse ++ [c])⟩, ?_, ?_⟩
  · rw [feed, after, step, start_atom h.1]
    exact feed_atom h.2 before.toArray [c]
  · have hreverse : (rest.reverse ++ [c]).reverse = c :: rest := by simp
    simp only [finish, hreverse, htoken, Option.map_some, Array.toList_push]

theorem reads_word {word : Text} {token : Token} (h : (word.all fun c => !endsAtom c) = true)
    (hne : word ≠ []) (htoken : Token.ofAtom? word = some token) : Reads word [token] :=
  reads_atom (by simpa using h) hne htoken

/-! ## Blanks -/

theorem closes_blank {text : Text} (h : Blank text) : Closes text [] := by
  induction text with
  | nil =>
      intro before
      rw [List.append_nil]
      rfl
  | cons c rest ih =>
      rw [Blank, List.forall_mem_cons] at h
      have hfirst : Closes [c] [] := by
        intro before
        rcases h.1 with rfl | rfl | rfl | rfl
        all_goals
          rw [List.append_nil]
          rfl
      exact hfirst.append (ih h.2)

theorem Reads.padded {text padded : Text} {tokens : List Token} (h : Reads text tokens)
    (hpadded : Padded text padded) : Reads padded tokens := by
  obtain @⟨before, after, hbefore, hafter⟩ := hpadded
  rw [List.append_assoc]
  refine (closes_blank hbefore).append_reads ?_
  cases after with
  | nil =>
      rw [List.append_nil]
      exact h
  | cons c rest =>
      have hc : endsAtom c = true := by
        rcases hafter c List.mem_cons_self with rfl | rfl | rfl | rfl
        all_goals rfl
      have hclosed := h.append hc (closes_blank hafter)
      rw [List.append_nil] at hclosed
      exact hclosed.reads

theorem Closes.padded {text padded : Text} {tokens : List Token} (h : Closes text tokens)
    (hpadded : Padded text padded) : Closes padded tokens := by
  obtain ⟨hbefore, hafter⟩ := hpadded
  have hclosed := ((closes_blank hbefore).append h).append (closes_blank hafter)
  rw [List.nil_append, List.append_nil] at hclosed
  exact hclosed

/-! ## Strings -/

theorem textOf_concat (pieces : List Piece) (c : Char) :
    textOf (pieces ++ [.char c]) = (textOf pieces).map (c :: ·) := by
  rw [textOf, List.foldl_append, ← textOf]
  cases textOf pieces with
  | none => rfl
  | some text => rfl

theorem textOf_reverse (pieces : List Piece) : textOf pieces.reverse = stringOf pieces := by
  induction pieces with
  | nil => rfl
  | cons piece rest ih =>
      rw [List.reverse_cons]
      cases piece with
      | char c =>
          rw [textOf_concat, ih]
          rfl
      | half unit =>
          rw [textOf, List.foldl_append]
          cases rest.reverse.foldl _ _ with
          | none => rfl
          | some text => rfl

/-- The last of four digits completes the unit. -/
theorem feed_digits {digits : Text} {count value unit : Nat}
    (h : Numeral.readOnto? 16 value digits = some unit) (hcount : count + digits.length = 4)
    (hne : digits ≠ []) (before : Array Token) (pieces : List Piece) :
    Lexer.feed ⟨before, .unicode pieces count value⟩ digits =
      some ⟨before, .string (pushUnit pieces unit)⟩ := by
  induction digits generalizing count value with
  | nil => exact absurd rfl hne
  | cons c rest ih =>
      rw [Numeral.readOnto?] at h
      cases hd : Numeral.digitValue? 16 c with
      | none =>
          rw [hd] at h
          cases h
      | some d =>
          simp only [hd, Nat.mul_comm value 16] at h
          rw [List.length_cons] at hcount
          rw [feed, step, hd]
          cases rest with
          | nil =>
              obtain rfl := Option.some.inj h
              obtain rfl : count = 3 := by simpa using hcount
              rfl
          | cons next rest =>
              have hlt : count ≠ 3 := by
                rw [List.length_cons] at hcount
                omega
              simp only [hlt, if_false]
              exact ih h (by omega) (List.cons_ne_nil _ _)

theorem feed_unit {digits : Text} {unit : Nat} (h : Codes digits unit) (before : Array Token)
    (pieces : List Piece) :
    Lexer.feed ⟨before, .string pieces⟩ ('\\' :: 'u' :: digits) =
      some ⟨before, .string (pushUnit pieces unit)⟩ := by
  obtain ⟨hlength, hread⟩ := h
  have hne : digits ≠ [] := by
    rintro rfl
    cases hlength
  have hopen : Lexer.feed ⟨before, .string pieces⟩ ['\\', 'u'] =
      some ⟨before, .unicode pieces 0 0⟩ := rfl
  have hcut : '\\' :: 'u' :: digits = ['\\', 'u'] ++ digits := rfl
  rw [Numeral.read?, if_neg (by simpa using hne)] at hread
  rw [hcut, feed_append, hopen, Option.bind_some]
  exact feed_digits hread (by omega) hne before pieces

theorem pushUnit_char {unit : Nat} (hupper : ¬ IsUpper unit) (hlower : ¬ IsLower unit)
    (pieces : List Piece) : pushUnit pieces unit = .char (Char.ofNat unit) :: pieces := by
  rw [IsUpper] at hupper
  rw [IsLower] at hlower
  unfold pushUnit
  rw [if_neg hlower, if_neg hupper]

theorem pushUnit_upper {unit : Nat} (h : IsUpper unit) (pieces : List Piece) :
    pushUnit pieces unit = .half unit :: pieces := by
  have hlower : ¬ (0xDC00 ≤ unit ∧ unit < 0xE000) := by
    have := h.2
    omega
  unfold pushUnit
  rw [if_neg hlower]
  exact if_pos h

/-- A lower half stays by itself unless an upper one stands before it. -/
theorem pushUnit_lower {unit : Nat} {pieces : List Piece} (h : IsLower unit)
    (halone : ∀ last ∈ pieces.head?, ¬ last.Joins (.half unit)) :
    pushUnit pieces unit = .half unit :: pieces := by
  rw [IsLower] at h
  unfold pushUnit
  rw [if_pos h]
  split
  · rename_i upper rest
    have hupper : ¬ upper < 0xDC00 := fun hlt => halone _ rfl ⟨hlt, h.1⟩
    rw [if_neg hupper]
  · rfl

theorem pushUnit_join {upper lower : Nat} (hupper : IsUpper upper) (hlower : IsLower lower)
    (pieces : List Piece) :
    pushUnit (.half upper :: pieces) lower =
      .char (Char.ofNat (0x10000 + (upper - 0xD800) * 0x400 + (lower - 0xDC00))) :: pieces := by
  rw [IsLower] at hlower
  unfold pushUnit
  rw [if_pos hlower]
  exact if_pos hupper.2

/-- A character is read from each of its spellings. -/
theorem feed_spells {text : Text} {c : Char} (h : Spells text c) (before : Array Token)
    (pieces : List Piece) :
    Lexer.feed ⟨before, .string pieces⟩ text = some ⟨before, .string (.char c :: pieces)⟩ := by
  cases h with
  | plain hcontrol hquote hslash =>
      rw [feed, step, beq_false_of_ne hquote, beq_false_of_ne hslash,
        if_neg (Nat.not_lt_of_le hcontrol)]
      rfl
  | @letter letter c h =>
      have hall : ∀ entry ∈ letters, Lexer.feed ⟨before, .string pieces⟩ ['\\', entry.1] =
          some ⟨before, .string (.char entry.2 :: pieces)⟩ := by
        simp only [letters, List.forall_mem_cons]
        exact ⟨rfl, rfl, rfl, rfl, rfl, rfl, rfl, rfl, List.forall_mem_nil _⟩
      exact hall _ h
  | code h hupper hlower => rw [feed_unit h, pushUnit_char hupper hlower]
  | halves hfirst hsecond hupper hlower =>
      rw [feed_append, feed_unit hfirst, Option.bind_some, feed_unit hsecond, pushUnit_upper hupper,
        pushUnit_join hupper hlower]

theorem feed_piece {text : Text} {piece : Piece} {pieces : List Piece} (h : SpellsPiece text piece)
    (halone : ∀ last ∈ pieces.head?, ¬ last.Joins piece) (before : Array Token) :
    Lexer.feed ⟨before, .string pieces⟩ text = some ⟨before, .string (piece :: pieces)⟩ := by
  cases h with
  | char h => exact feed_spells h before pieces
  | half h hhalf =>
      rw [feed_unit h]
      rcases hhalf with hupper | hlower
      · rw [pushUnit_upper hupper]
      · rw [pushUnit_lower hlower halone]

theorem feed_pieces {parts : List Text} {added : List Piece}
    (h : List.Forall₂ SpellsPiece parts added) (pieces : List Piece)
    (hchain : (pieces.head?.toList ++ added).IsChain fun first second => ¬ first.Joins second)
    (before : Array Token) :
    Lexer.feed ⟨before, .string pieces⟩ parts.flatten =
      some ⟨before, .string (added.reverse ++ pieces)⟩ := by
  induction h generalizing pieces with
  | nil => rfl
  | @cons part piece parts added hpart hrest ih =>
      -- a half looks back at the piece before it, so the chain starts with the newest piece read
      have halone : ∀ last ∈ pieces.head?, ¬ last.Joins piece := by
        intro last hlast
        rw [Option.mem_def.mp hlast] at hchain
        exact (List.isChain_cons_cons.mp hchain).1
      have hnext : (piece :: added).IsChain fun first second => ¬ first.Joins second :=
        hchain.right_of_append
      rw [List.flatten_cons, feed_append, feed_piece hpart halone, Option.bind_some,
        ih (piece :: pieces) hnext, List.reverse_cons, List.append_assoc]
      rfl

/-- A string between quotes is one token. -/
theorem closes_string {text : Text} {value : JsonString} (h : WritesString text value) :
    Closes text [.string value] := by
  obtain @⟨_, pieces, hchain, parts, hparts, rfl⟩ := h
  intro before
  have hopen : (after before).step '"' = some ⟨before.toArray, .string []⟩ := rfl
  have hclose : (Lexer.mk before.toArray (.string pieces.reverse)).step '"' =
      some (after (before ++ [.string (stringOf pieces)])) := by
    rw [after, ← List.push_toArray, step, textOf_reverse]
    rfl
  rw [List.cons_append, feed, hopen]
  simp only [feed_append, feed_pieces hparts [] hchain, Option.bind_some, List.append_nil, feed,
    hclose]

/-! ## Numbers -/

/-- The characters of numbers. -/
def isNumberChar (c : Char) : Bool :=
  c.isDigit || c == '+' || c == '-' || c == '.' || c == 'e' || c == 'E'

theorem isNumberChar_of_isDigit {c : Char} (h : c.isDigit = true) : isNumberChar c = true := by
  simp [isNumberChar, h]

theorem endsAtom_of_isNumberChar {c : Char} (h : isNumberChar c = true) : endsAtom c = false := by
  have hspace : isSpace c = false := by
    simp only [isSpace, Bool.or_eq_false_iff, beq_eq_false_iff_ne]
    exact ⟨⟨⟨ne_of_test h rfl, ne_of_test h rfl⟩, ne_of_test h rfl⟩, ne_of_test h rfl⟩
  have hquote : (c == '"') = false := beq_eq_false_iff_ne.mpr (ne_of_test h rfl)
  have hmark : punctuation? c = none := by
    unfold punctuation?
    split
    case h_7 => rfl
    all_goals exact absurd h (by decide)
  rw [endsAtom, hspace, hquote, hmark]
  rfl

theorem isDigits_iff {s : Text} : isDigits s = true ↔ Digits s := by
  simp [isDigits, Digits]

theorem isSignedDigits_iff {s : Text} :
    isSignedDigits s = true ↔
      ∃ sign digits, (sign = [] ∨ sign = ['+'] ∨ sign = ['-']) ∧ Digits digits ∧
        s = sign ++ digits := by
  constructor
  · intro h
    unfold isSignedDigits at h
    split at h
    · exact ⟨['+'], _, .inr (.inl rfl), isDigits_iff.mp h, rfl⟩
    · exact ⟨['-'], _, .inr (.inr rfl), isDigits_iff.mp h, rfl⟩
    · exact ⟨[], _, .inl rfl, isDigits_iff.mp h, rfl⟩
  · rintro ⟨sign, digits, hsign, hdigits, rfl⟩
    rcases hsign with rfl | rfl | rfl
    · have hdigit (c : Char) (hc : c.isDigit = false) (rest : Text) : digits ≠ c :: rest := by
        rintro rfl
        exact Bool.false_ne_true (hc.symm.trans (hdigits.2 c List.mem_cons_self))
      rw [List.nil_append]
      unfold isSignedDigits
      split
      · exact absurd rfl (hdigit _ rfl _)
      · exact absurd rfl (hdigit _ rfl _)
      · exact isDigits_iff.mpr hdigits
    · exact isDigits_iff.mpr hdigits
    · exact isDigits_iff.mpr hdigits

theorem isExponent_iff {s : Text} : isExponent s = true ↔ Exponent s := by
  constructor
  · intro h
    unfold isExponent at h
    split at h
    · exact .none
    · obtain ⟨sign, digits, hsign, hdigits, rfl⟩ := isSignedDigits_iff.mp h
      exact .digits (.inl rfl) hsign hdigits
    · obtain ⟨sign, digits, hsign, hdigits, rfl⟩ := isSignedDigits_iff.mp h
      exact .digits (.inr rfl) hsign hdigits
    · cases h
  · intro h
    cases h with
    | none => rfl
    | digits hmark hsign h =>
        have hsigned := isSignedDigits_iff.mpr ⟨_, _, hsign, h, rfl⟩
        rcases hmark with rfl | rfl
        · exact hsigned
        · exact hsigned

theorem Exponent.head_not_digit {s : Text} (h : Exponent s) :
    s.takeWhile Char.isDigit = [] ∧ s.dropWhile Char.isDigit = s := by
  cases h with
  | none => exact ⟨rfl, rfl⟩
  | digits hmark =>
      rcases hmark with rfl | rfl
      · exact ⟨rfl, rfl⟩
      · exact ⟨rfl, rfl⟩

theorem Tail.head_not_digit {s : Text} (h : Tail s) :
    s.takeWhile Char.isDigit = [] ∧ s.dropWhile Char.isDigit = s := by
  obtain ⟨hfraction, hexponent⟩ := h
  cases hfraction with
  | none => exact hexponent.head_not_digit
  | digits h => exact ⟨rfl, rfl⟩

theorem isTail_of_exponent {s : Text} (h : Exponent s) : isTail s = true := by
  have hexponent := isExponent_iff.mpr h
  cases h with
  | none => rfl
  | digits hmark =>
      rcases hmark with rfl | rfl
      · exact hexponent
      · exact hexponent

theorem cutDigits?_append {digits rest : Text} (h : Digits digits) (hrest : Exponent rest) :
    cutDigits? (digits ++ rest) = some (digits, rest) := by
  obtain ⟨htake, hdrop⟩ := hrest.head_not_digit
  have hne : digits.isEmpty = false := by simpa using h.1
  rw [cutDigits?, List.takeWhile_append_of_pos h.2, List.dropWhile_append_of_pos h.2, htake, hdrop,
    List.append_nil, hne]
  rfl

theorem isTail_iff {s : Text} : isTail s = true ↔ Tail s := by
  constructor
  · intro h
    unfold isTail at h
    split at h
    · rename_i rest
      rw [cutDigits?] at h
      by_cases hempty : (rest.takeWhile Char.isDigit).isEmpty
      · simp [hempty] at h
      · simp only [hempty, if_false, Bool.false_eq_true] at h
        have hdigits : Digits (rest.takeWhile Char.isDigit) :=
          ⟨by simpa using hempty, fun c hc => List.mem_takeWhile_imp hc⟩
        have htail := Tail.mk (.digits hdigits) (isExponent_iff.mp h)
        rw [List.cons_append, List.takeWhile_append_dropWhile] at htail
        exact htail
    · exact .mk .none (isExponent_iff.mp h)
  · rintro ⟨hfraction, hexponent⟩
    cases hfraction with
    | none => exact isTail_of_exponent hexponent
    | digits h =>
        rw [List.cons_append]
        unfold isTail
        simp only [cutDigits?_append h hexponent]
        exact isExponent_iff.mpr hexponent

theorem isNumberChar_of_digits {s : Text} (h : Digits s) : ∀ c ∈ s, isNumberChar c = true :=
  fun c hc => isNumberChar_of_isDigit (h.2 c hc)

theorem isNumberChar_of_exponent {s : Text} (h : Exponent s) : ∀ c ∈ s, isNumberChar c = true := by
  cases h with
  | none => exact List.forall_mem_nil _
  | @digits mark sign digits hmark hsign h =>
      have hsignChars : ∀ c ∈ sign, isNumberChar c = true := by
        rcases hsign with rfl | rfl | rfl
        all_goals exact List.all_eq_true.mp rfl
      rw [List.cons_append, List.forall_mem_cons, List.forall_mem_append]
      refine ⟨?_, hsignChars, isNumberChar_of_digits h⟩
      rcases hmark with rfl | rfl
      all_goals rfl

theorem isNumberChar_of_tail {s : Text} (h : Tail s) : ∀ c ∈ s, isNumberChar c = true := by
  obtain ⟨hfraction, hexponent⟩ := h
  rw [List.forall_mem_append]
  refine ⟨?_, isNumberChar_of_exponent hexponent⟩
  cases hfraction with
  | none => exact List.forall_mem_nil _
  | digits h => exact List.forall_mem_cons.mpr ⟨rfl, isNumberChar_of_digits h⟩

theorem head?_decimal {n : Nat} (h : 0 < n) : (Numeral.decimal n).head? ≠ some '0' := by
  induction n using Nat.strongRecOn with
  | ind n ih =>
      by_cases hlow : n < 10
      · have hall : ∀ d < 10, 0 < d → [Numeral.upperDigit d].head? ≠ some '0' := by decide
        rw [Numeral.decimal, Numeral.digits_of_lt hlow]
        exact hall n hlow h
      · rw [Numeral.decimal, Numeral.digits_of_le (by decide) (Nat.le_of_not_lt hlow),
          List.map_append, ← Numeral.decimal,
          List.head?_append_of_ne_nil _ (Numeral.decimal_ne_nil _)]
        exact ih (n / 10) (Nat.div_lt_self h (by decide)) (by omega)

theorem isWhole_decimal (n : Nat) : isWhole (Numeral.decimal n) = true := by
  have hdigits : isDigits (Numeral.decimal n) = true := by
    rw [isDigits, Bool.and_eq_true, List.all_eq_true]
    refine ⟨by simp [Numeral.decimal_ne_nil], ?_⟩
    intro c hc
    exact Numeral.isDigit_of_mem_decimal hc
  unfold isWhole
  split
  · rfl
  · rename_i rest hone heq
    rcases Nat.eq_zero_or_pos n with rfl | hpos
    · rw [Numeral.decimal, Numeral.digits_of_lt (by decide)] at heq
      cases heq
      exact absurd rfl hone
    · exact absurd (congrArg List.head? heq) (head?_decimal hpos)
  · exact hdigits

/-- A number is well formed if a fraction, an exponent or nothing follows its integer part. -/
def JsonNumber.WellFormed (number : JsonNumber) : Prop := isTail number.tail = true

variable {number : JsonNumber}

theorem readUnsigned?_text (h : JsonNumber.WellFormed number) :
    readUnsigned? number.negative (Numeral.decimal number.whole ++ number.tail) =
      some number := by
  have hdigits : ∀ c ∈ Numeral.decimal number.whole, c.isDigit = true := by
    intro c hc
    exact Numeral.isDigit_of_mem_decimal hc
  have htail := (isTail_iff.mp h).head_not_digit
  simp only [readUnsigned?, List.takeWhile_append_of_pos hdigits,
    List.dropWhile_append_of_pos hdigits, htail.1, htail.2, List.append_nil, isWhole_decimal]
  rw [JsonNumber.WellFormed] at h
  rw [h, Numeral.read?_decimal]
  rfl

theorem decimal_eq_cons (n : Nat) :
    ∃ c rest, Numeral.decimal n = c :: rest ∧ c.isDigit = true := by
  obtain ⟨c, rest, heq⟩ := List.exists_cons_of_ne_nil (Numeral.decimal_ne_nil n)
  exact ⟨c, rest, heq, Numeral.isDigit_of_mem_decimal (heq ▸ List.mem_cons_self)⟩

theorem readNumber?_text (h : JsonNumber.WellFormed number) :
    readNumber? (JsonNumber.text number) = some number := by
  have hread := readUnsigned?_text h
  cases hsign : number.negative with
  | true =>
      rw [hsign] at hread
      simpa [JsonNumber.text, hsign, readNumber?] using hread
  | false =>
      obtain ⟨c, rest, hdecimal, hc⟩ := decimal_eq_cons number.whole
      have htext : JsonNumber.text number = Numeral.decimal number.whole ++ number.tail := by
        simp [JsonNumber.text, hsign]
      rw [hsign] at hread
      rw [htext]
      unfold readNumber?
      split
      · rename_i heq
        rw [hdecimal] at heq
        cases heq
        cases hc
      · exact hread

theorem isNumberChar_of_mem_text (h : JsonNumber.WellFormed number) :
    ∀ c ∈ JsonNumber.text number, isNumberChar c = true := by
  simp only [JsonNumber.text, List.forall_mem_append]
  refine ⟨⟨?_, ?_⟩, isNumberChar_of_tail (isTail_iff.mp h)⟩
  · cases number.negative with
    | true => exact List.all_eq_true.mp rfl
    | false => exact List.forall_mem_nil _
  · intro c hc
    exact isNumberChar_of_isDigit (Numeral.isDigit_of_mem_decimal hc)

theorem reads_number (h : JsonNumber.WellFormed number) :
    Reads (JsonNumber.text number) [.number number] := by
  have hchars := isNumberChar_of_mem_text h
  have hne : JsonNumber.text number ≠ [] := by
    simp [JsonNumber.text, Numeral.decimal_ne_nil]
  have hword : ∀ c rest, isNumberChar c = false → JsonNumber.text number ≠ c :: rest := by
    intro c rest hc heq
    exact ne_of_test (hchars c (heq ▸ List.mem_cons_self)) hc rfl
  apply reads_atom (fun c hc => endsAtom_of_isNumberChar (hchars c hc)) hne
  rw [Token.ofAtom?, if_neg (hword _ _ rfl), if_neg (hword _ _ rfl), if_neg (hword _ _ rfl),
    readNumber?_text h]
  rfl

end Accumulator.Json
