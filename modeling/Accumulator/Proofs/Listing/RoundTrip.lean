import Accumulator.Proofs.Assembly.Sources
import Accumulator.Proofs.Listing.Lines

/-!
# A listing is assembly source for its bytes

Assembling a rendered listing at the address it was made for gives back the listed bytes. The lines
in front place nothing, each line of the listing denotes its own bytes, and these are all the bytes
in order. Only bytes that run past the end of the address space are refused.
-/

namespace Accumulator.Listing

open Assembly Text

/-- A line of a listing without the line feed at its end. -/
def lineText (line : ListingLine) : Text :=
  List.replicate 4 ' ' ++ line.text.padRight 20 ++
    ' ' :: ';' :: ' ' :: (HexBytes.word line.address ++ ": ".toList ++ HexBytes.spaced line.bytes)

/-- The origin directive for an address. -/
def originBody (base : UInt16) : Text := ['O', 'R', 'G'] ++ ' ' :: '0' :: 'x' :: HexBytes.word base

/-- The line of the origin directive. -/
def originText (base : UInt16) : Text := List.replicate 4 ' ' ++ originBody base

/-- The lines of a rendered listing. -/
def sourceLines (bytes : List UInt8) (base : UInt16) : List Text :=
  "; ACC8 Disassembly".toList :: "; -----------------".toList :: [] :: originText base ::
    (lines bytes base).map lineText

theorem assembles_of_shows {line : ListingLine} (h : Shows line) :
    Assembles line.text line.bytes := by
  cases h with
  | instruction i htext hbytes =>
      rw [htext, hbytes]
      exact assembles_text i
  | data htext hne =>
      rw [htext]
      exact assembles_data hne

theorem printed_originBody (base : UInt16) : Printed (originBody base) :=
  (isNumeral_word base).printed.cons_word (List.all_eq_true.mp rfl) (by simp)

/-! ## The lines of the text -/

/-- The printable characters of ASCII. -/
def isPrintable (c : Char) : Bool := 32 ≤ c.toNat && c.toNat ≤ 126

theorem isPrintable_of_isNameChar {c : Char} (h : isNameChar c = true) : isPrintable c = true := by
  have := toNat_bounds_of_isNameChar h
  simp [isPrintable]
  omega

theorem isPrintable_of_isCodeChar {c : Char} (h : isCodeChar c = true) : isPrintable c = true := by
  simp only [isCodeChar, Bool.or_eq_true, beq_iff_eq] at h
  rcases h with (h | rfl) | rfl
  · exact isPrintable_of_isNameChar h
  · rfl
  · rfl

theorem isPrintable_of_isAlphanum {c : Char} (h : c.isAlphanum = true) : isPrintable c = true :=
  isPrintable_of_isNameChar (isNameChar_of_isAlphanum h)

theorem isPrintable_of_mem_replicate {n : Nat} :
    ∀ c ∈ List.replicate n ' ', isPrintable c = true := by
  intro c hc
  rw [List.eq_of_mem_replicate hc]
  rfl

theorem isPrintable_of_mem_word {w : UInt16} : ∀ c ∈ HexBytes.word w, isPrintable c = true := by
  intro c hc
  exact isPrintable_of_isAlphanum (Numeral.isAlphanum_of_mem_hex hc)

theorem isPrintable_of_mem_lineText {line : ListingLine}
    (h : ∀ c ∈ line.text, isCodeChar c = true) : ∀ c ∈ lineText line, isPrintable c = true := by
  have hspaced : ∀ c ∈ HexBytes.spaced line.bytes, isPrintable c = true := by
    apply forall_mem_join (List.all_eq_true.mp rfl)
    intro item hitem c hc
    obtain ⟨b, _, rfl⟩ := List.mem_map.mp hitem
    exact isPrintable_of_isAlphanum (HexBytes.isAlphanum_of_mem_byte hc)
  have hmarks : ∀ c ∈ ": ".toList, isPrintable c = true := List.all_eq_true.mp rfl
  have htext : ∀ c ∈ line.text, isPrintable c = true := by
    intro c hc
    exact isPrintable_of_isCodeChar (h c hc)
  simp only [lineText, padRight, List.forall_mem_append, List.forall_mem_cons]
  exact ⟨⟨isPrintable_of_mem_replicate, htext, isPrintable_of_mem_replicate⟩, rfl, rfl, rfl,
    ⟨isPrintable_of_mem_word, hmarks⟩, hspaced⟩

theorem isPrintable_of_mem_sourceLines (bytes : List UInt8) (base : UInt16) :
    ∀ text ∈ sourceLines bytes base, ∀ c ∈ text, isPrintable c = true := by
  have horigin : ∀ c ∈ originText base, isPrintable c = true := by
    simp only [originText, List.forall_mem_append]
    refine ⟨isPrintable_of_mem_replicate, ?_⟩
    intro c hc
    exact isPrintable_of_isCodeChar ((printed_originBody base).chars c hc)
  simp only [sourceLines, List.forall_mem_cons]
  refine ⟨List.all_eq_true.mp rfl, List.all_eq_true.mp rfl, by simp, horigin, ?_⟩
  intro text htext
  obtain ⟨line, hline, rfl⟩ := List.mem_map.mp htext
  exact isPrintable_of_mem_lineText (assembles_of_shows (shows_of_mem_lines line hline)).chars

theorem header_eq (base : UInt16) :
    header base = "; ACC8 Disassembly".toList ++ ['\n'] ++
      ("; -----------------".toList ++ ['\n'] ++
        ([] ++ ['\n'] ++ (originText base ++ ['\n']))) := by
  have hconstant : "; ACC8 Disassembly\n; -----------------\n\n    ORG 0x".toList =
      "; ACC8 Disassembly".toList ++ ['\n'] ++
        ("; -----------------".toList ++ ['\n'] ++
          ([] ++ ['\n'] ++ (List.replicate 4 ' ' ++ ['O', 'R', 'G', ' ', '0', 'x']))) := rfl
  refine (congrArg (· ++ HexBytes.word base ++ ['\n']) hconstant).trans ?_
  simp only [originText, originBody, List.append_assoc, List.cons_append, List.nil_append]

theorem renderLine_eq (line : ListingLine) : renderLine line = lineText line ++ ['\n'] := by
  have hindent : "    ".toList = List.replicate 4 ' ' := rfl
  have hcomment : " ; ".toList = [' ', ';', ' '] := rfl
  refine (congrArg₂ (fun indent comment => indent ++ line.text.padRight 20 ++ comment ++
    HexBytes.word line.address ++ ": ".toList ++ HexBytes.spaced line.bytes ++ ['\n'])
    hindent hcomment).trans ?_
  simp only [lineText, List.append_assoc, List.cons_append, List.nil_append]

theorem render_eq (bytes : List UInt8) (base : UInt16) :
    render bytes base = (sourceLines bytes base).flatMap fun text => text ++ ['\n'] := by
  have hlines : (lines bytes base).flatMap renderLine =
      ((lines bytes base).map lineText).flatMap fun text => text ++ ['\n'] := by
    rw [List.flatMap_map, funext renderLine_eq]
  rw [render, header_eq, hlines, sourceLines]
  simp only [List.flatMap_cons, List.append_assoc]

theorem lines_render (bytes : List UInt8) (base : UInt16) :
    Text.lines (render bytes base) = sourceLines bytes base := by
  rw [render_eq]
  exact lines_flatMap_of_forall rfl rfl (isPrintable_of_mem_sourceLines bytes base)

/-! ## Assembling -/

/-- The statement of the origin directive for an address. -/
def originStatement (base : UInt16) : Statement := .origin (literal base.toNat)

/-- The draft after the lines in front of a listing. -/
def afterOrigin (base : UInt16) : Draft := extend (.start base) 4 (originStatement base) 0

theorem readLine_originText (overflow : Overflow) (base : UInt16) :
    (Draft.start base).readLine overflow 4 (originText base) = .ok (afterOrigin base) := by
  have hbody := printed_originBody base
  have hnumeral := isNumeral_word base
  have hline : SourceLine.ofText (originText base) = ⟨none, originBody base⟩ := by
    refine hbody.sourceLine (isBlank_of_mem_replicate 4) (List.forall_mem_nil _) ?_
    rw [originText, List.append_nil, stripComment_eq_self]
    exact List.forall_mem_append.mpr ⟨ne_of_mem_replicate 4, hbody.plain⟩
  have hstatement : Statement.ofText (originBody base) = .ok (originStatement base) := by
    rw [Statement.ofText, originBody, cutOperand_append (List.all_eq_true.mp rfl)
      hnumeral.printed.tight hnumeral.ne_nil]
    simp [upper, originStatement, hnumeral.expression]
  have hsize : (Draft.start base).sizeOf overflow (originStatement base) = .ok 0 := by
    have hlimit : base.toNat < Draft.addressLimit := base.toNat_lt
    rw [originStatement, Draft.sizeOf, eval_literal]
    simp [Draft.start, hlimit]
  rw [readLine_of_body hline hbody.ne_nil hstatement, place_fits hsize]
  · rfl
  · exact Nat.le_of_lt base.toNat_lt

/-- The lines in front of a listing place its origin, which takes no room. -/
theorem readLines_sourceLines (overflow : Overflow) (bytes : List UInt8) (base : UInt16) :
    (Draft.start base).readLines overflow ((sourceLines bytes base).zipIdx 1) =
      (afterOrigin base).readLines overflow (((lines bytes base).map lineText).zipIdx 5) := by
  have htitle : SourceLine.ofText "; ACC8 Disassembly".toList = ⟨none, []⟩ := rfl
  have hrule : SourceLine.ofText "; -----------------".toList = ⟨none, []⟩ := rfl
  have hempty : SourceLine.ofText [] = ⟨none, []⟩ := rfl
  rw [sourceLines, readLines_cons (readLine_of_empty htitle _ _ 1),
    readLines_cons (readLine_of_empty hrule _ _ 2), readLines_cons (readLine_of_empty hempty _ _ 3),
    readLines_cons (readLine_originText overflow base)]

/-- Assembling a listing at its own address gives back the listed bytes if they fit the address
space, and is refused if they do not. -/
theorem assemble_render (bytes : List UInt8) (base : UInt16) (overflow : Overflow) :
    (base.toNat + bytes.length ≤ Draft.addressLimit →
      assemble (render bytes base) base overflow = .ok bytes) ∧
    (Draft.addressLimit < base.toNat + bytes.length →
      ∃ line, assemble (render bytes base) base overflow = .error ⟨line, .pastLastAddress⟩) := by
  let items := (lines bytes base).map fun line => (lineText line, line.bytes)
  have hdenotes : ∀ item ∈ items, Denotes item.1 item.2 := by
    intro item hitem
    obtain ⟨line, hline, rfl⟩ := List.mem_map.mp hitem
    exact (assembles_of_shows (shows_of_mem_lines line hline)).denotes 20 _
  have htexts : items.map Prod.fst = (lines bytes base).map lineText := by
    simp [items]
  have hbytes : items.flatMap Prod.snd = bytes := by
    simpa [items, List.flatMap_map] using flatMap_bytes_lines bytes base
  have hsource : Draft.ofSource overflow (render bytes base) base =
      (afterOrigin base).readLines overflow ((items.map Prod.fst).zipIdx 5) := by
    rw [Draft.ofSource, lines_render, readLines_sourceLines, htexts]
  have hlocation : (afterOrigin base).location = base.toNat := rfl
  constructor
  · intro hfit
    obtain ⟨next, added, hread, hplaced, hemit⟩ :=
      readLines_fits hdenotes overflow (afterOrigin base) 5 (by rwa [hbytes, hlocation])
    have horigin :
        (Placed.mk 4 base.toNat 0 (originStatement base)).emit overflow next.symbols = .ok [] := rfl
    have hall : next.placed.toList = ⟨4, base.toNat, 0, originStatement base⟩ :: added := hplaced
    have hfinish : next.finish overflow = .ok bytes := by
      rw [Draft.finish, hall, emit_cons horigin (hemit next.symbols), hbytes, List.nil_append]
    rw [assemble, hsource, hread]
    exact hfinish
  · intro hover
    obtain ⟨line, hread⟩ := readLines_overflows hdenotes overflow (afterOrigin base) 5
      (Nat.le_of_lt base.toNat_lt) (by rwa [hbytes, hlocation])
    exact ⟨line, by rw [assemble, hsource, hread]⟩

/-- A call that is cut off fills the last two bytes of the address space, but not one byte more. -/
theorem assemble_render_at_end :
    (0xFFFE + 2 ≤ Draft.addressLimit ∧
      assemble (render [0x42, 0x10] 0xFFFE) 0xFFFE = .ok [0x42, 0x10]) ∧
    Draft.addressLimit < 0xFFFF + 2 ∧
      ∃ line, assemble (render [0x42, 0x10] 0xFFFF) 0xFFFF = .error ⟨line, .pastLastAddress⟩ :=
  ⟨⟨by decide, (assemble_render [0x42, 0x10] 0xFFFE .wraps).1 (by decide)⟩,
    by decide, (assemble_render [0x42, 0x10] 0xFFFF .wraps).2 (by decide)⟩

end Accumulator.Listing
