import Accumulator.Listing
import Accumulator.Proofs.Assembly.Operands

/-!
# Printed instructions as statements

The text of an instruction is read as a statement whose bytes are those of the instruction. Such a
statement has no labels in it, so its room and its bytes are the same wherever it is placed.
-/

namespace Accumulator.Assembly

open Text

/-- A statement that takes the same room and yields the same bytes wherever it is placed. -/
structure Yields (statement : Statement) (bytes : List UInt8) : Prop where
  sizeOf : ∀ overflow (draft : Draft), draft.sizeOf overflow statement = .ok bytes.length
  bytes : ∀ overflow symbols line address size,
    Placed.bytes overflow symbols ⟨line, address, size, statement⟩ = .ok bytes

/-- The characters of printed statements. -/
def isCodeChar (c : Char) : Bool := isNameChar c || c == ' ' || c == ','

/-- A text that comments, labels and blanks around it can be told from. -/
structure Printed (body : Text) : Prop where
  ne_nil : body ≠ []
  tight : Tight body
  chars : ∀ c ∈ body, isCodeChar c = true

/-- A printed text that is read as a statement with given bytes. -/
structure Assembles (body : Text) (bytes : List UInt8) : Prop extends Printed body where
  statement : ∃ statement, Statement.ofText body = .ok statement ∧ Yields statement bytes

theorem isCodeChar_of_isNameChar {c : Char} (h : isNameChar c = true) : isCodeChar c = true := by
  simp [isCodeChar, h]

theorem cutOperand_word {word : Text} (h : ∀ c ∈ word, isNameChar c = true) :
    cutOperand word = (word, none) := by
  have hblank : ∀ c ∈ word, isBlank c = false := by
    intro c hc
    exact isBlank_of_isNameChar (h c hc)
  rw [cutOperand, cutAtFirst_eq_none hblank]

theorem cutOperand_append {word operand : Text} (h : ∀ c ∈ word, isNameChar c = true)
    (ht : Tight operand) (hne : operand ≠ []) :
    cutOperand (word ++ ' ' :: operand) = (word, some operand) := by
  have hblank : ∀ c ∈ word, isBlank c = false := by
    intro c hc
    exact isBlank_of_isNameChar (h c hc)
  rw [cutOperand, cutAtFirst_append operand hblank rfl]
  simp [ht.trim_self, hne]

theorem isNameChar_of_mem_mnemonic (op : Opcode) : ∀ c ∈ op.mnemonic, isNameChar c = true := by
  have hall : op.mnemonic.all isNameChar = true := by
    cases op <;> decide
  exact List.all_eq_true.mp hall

theorem mnemonic_ne_nil (op : Opcode) : op.mnemonic ≠ [] := by
  cases op <;> decide

theorem printed_word {word : Text} (h : ∀ c ∈ word, isNameChar c = true) (hne : word ≠ []) :
    Printed word where
  ne_nil := hne
  tight := tight_of_isNameChar h
  chars := by
    intro c hc
    exact isCodeChar_of_isNameChar (h c hc)

theorem Printed.cons_word {word operand : Text} (hoperand : Printed operand)
    (h : ∀ c ∈ word, isNameChar c = true) (hne : word ≠ []) :
    Printed (word ++ ' ' :: operand) where
  ne_nil := by simp
  tight := by
    simpa using (tight_of_isNameChar h).append hoperand.tight hne hoperand.ne_nil [' ']
  chars := by
    simp only [List.forall_mem_append, List.forall_mem_cons]
    exact ⟨(printed_word h hne).chars, rfl, hoperand.chars⟩

theorem IsNumeral.printed {text : Text} {value : Nat} (h : IsNumeral text value) : Printed text :=
  printed_word h.names h.ne_nil

theorem ofText_mnemonic {op : Opcode} {body : Text} {operand : Option Text}
    (h : cutOperand body = (op.mnemonic, operand)) :
    Statement.ofText body = readInstruction op.mnemonic operand := by
  rw [Statement.ofText, h]
  cases op <;> rfl

theorem assembles_bare (op : Opcode) (hform : op.form = .none) :
    Assembles op.mnemonic [op.code] := by
  have hnames := isNameChar_of_mem_mnemonic op
  refine ⟨printed_word hnames (mnemonic_ne_nil op), .instruction op none, ?_, ?_, ?_⟩
  · rw [ofText_mnemonic (cutOperand_word hnames), readInstruction,
      Opcode.ofName?_mnemonic]
    simp [hform]
  · intro overflow draft
    simp [Draft.sizeOf, Statement.size, hform, OperandForm.size]
  · intro overflow symbols line address size
    rfl

/-- A mnemonic and a numeral are an instruction whose operand bytes are those of the number. -/
theorem assembles_operand {op : Opcode} {operand : Text} {value : Nat} {bytes : List UInt8}
    (hform : op.form ≠ .none) (hoperand : IsNumeral operand value)
    (hbytes : ∀ overflow symbols,
      operandBytes overflow symbols (literal value) op.form = .ok bytes)
    (hlength : bytes.length = op.form.size) :
    Assembles (op.mnemonic ++ ' ' :: operand) (op.code :: bytes) := by
  have hnames := isNameChar_of_mem_mnemonic op
  have hcut : cutOperand (op.mnemonic ++ ' ' :: operand) = (op.mnemonic, some operand) :=
    cutOperand_append hnames hoperand.printed.tight hoperand.ne_nil
  refine ⟨hoperand.printed.cons_word hnames (mnemonic_ne_nil op),
    .instruction op (some (literal value)), ?_, ?_, ?_⟩
  · rw [ofText_mnemonic hcut, readInstruction, Opcode.ofName?_mnemonic, ← hoperand.expression]
    cases hop : op.form <;> simp_all
  · intro overflow draft
    simp [Draft.sizeOf, Statement.size, hlength, Nat.add_comm]
  · intro overflow symbols line address size
    simp [Placed.bytes, hbytes, Except.map]

theorem assembles_immediate (op : Opcode) (hform : op.form = .immediate) (b : UInt8) :
    Assembles (op.mnemonic ++ ' ' :: Numeral.decimal b.toNat) [op.code, b] :=
  assembles_operand (by simp [hform])
    (isNumeral_decimal (Nat.lt_of_lt_of_le b.toNat_lt (by decide)))
    (fun _ _ => hform ▸ operandBytes_immediate (eval_literal _ _ _) (byteOfValue_toNat b))
    (by simp [hform, OperandForm.size])

theorem assembles_zeroPage (op : Opcode) (hform : op.form = .zeroPage) (b : UInt8) :
    Assembles (op.mnemonic ++ ' ' :: HexBytes.marked b) [op.code, b] :=
  assembles_operand (by simp [hform]) (isNumeral_marked b)
    (fun _ _ => hform ▸ operandBytes_zeroPage (eval_literal _ _ _) (zeroPageOfValue_toNat b))
    (by simp [hform, OperandForm.size])

theorem assembles_absolute (op : Opcode) (hform : op.form = .absolute) (w : UInt16) :
    Assembles (op.mnemonic ++ ' ' :: '0' :: 'x' :: HexBytes.word w)
      [op.code, lowByte w, highByte w] :=
  assembles_operand (by simp [hform]) (isNumeral_word w)
    (fun _ _ => hform ▸ operandBytes_absolute (eval_literal _ _ _) (wordOfValue_toNat w))
    (by simp [hform, OperandForm.size])

theorem listBytes_literal (overflow : Overflow) (symbols : Symbols) (bytes : List UInt8) :
    listBytes overflow symbols .immediate (bytes.map fun b => literal b.toNat) = .ok bytes := by
  have hmap : (bytes.map fun b => literal b.toNat).mapM
      (fun e => operandBytes overflow symbols e .immediate) = .ok (bytes.map fun b => [b]) := by
    induction bytes with
    | nil => rfl
    | cons b rest ih =>
        rw [List.map_cons, List.mapM_cons, ih,
          operandBytes_immediate (eval_literal _ _ _) (byteOfValue_toNat b)]
        rfl
  rw [listBytes, hmap]
  simp [Except.map, ← List.flatMap_def]

/-! ## Data directives -/

/-- The data directive for bytes that are written as given texts. -/
def dataLine (items : List Text) : Text := ['D', 'B'] ++ ' ' :: join [',', ' '] items

/-- The items that a data directive is read as: those that it is written with, cut at commas. -/
def splitItems (items : List Text) : List Text :=
  items.flatMap fun item => (pieces (· == ',') item).map trim

theorem ofText_dataLine {items : List Text} (hne : items ≠ []) (hfull : ∀ item ∈ items, item ≠ [])
    (htight : ∀ item ∈ items, Tight item) (hsplit : ∀ item ∈ splitItems items, item ≠ []) :
    Statement.ofText (dataLine items) =
      .ok (.bytes ((splitItems items).map Expression.ofText)) := by
  have hcut : cutOperand (dataLine items) = (['D', 'B'], some (join [',', ' '] items)) :=
    cutOperand_append (List.all_eq_true.mp rfl) (tight_join _ hfull htight)
      (join_ne_nil _ hne hfull)
  have hany : (splitItems items).any List.isEmpty = false := by
    simpa using hsplit
  have hread : readItems ['D', 'B'] (some (join [',', ' '] items)) =
      .ok ((splitItems items).map Expression.ofText) := by
    rw [readItems, map_trim_pieces_join hne, ← splitItems, hany]
    rfl
  rw [Statement.ofText, hcut]
  simp [upper, hread, Except.map]

/-- The items of a data directive. -/
def dataOperand (bytes : List UInt8) : Text := join [',', ' '] (bytes.map HexBytes.marked)

theorem isNameChar_of_mem_map_marked {bytes : List UInt8} :
    ∀ item ∈ bytes.map HexBytes.marked, ∀ c ∈ item, isNameChar c = true := by
  intro item hitem
  obtain ⟨b, _, rfl⟩ := List.mem_map.mp hitem
  exact (isNumeral_marked b).names

theorem marked_ne_nil {bytes : List UInt8} : ∀ item ∈ bytes.map HexBytes.marked, item ≠ [] := by
  intro item hitem
  obtain ⟨b, _, rfl⟩ := List.mem_map.mp hitem
  exact (isNumeral_marked b).ne_nil

theorem dataOperand_ne_nil {bytes : List UInt8} (hne : bytes ≠ []) : dataOperand bytes ≠ [] :=
  join_ne_nil [',', ' '] (by simpa using hne) marked_ne_nil

theorem tight_dataOperand (bytes : List UInt8) : Tight (dataOperand bytes) := by
  apply tight_join [',', ' '] marked_ne_nil
  intro item hitem
  exact tight_of_isNameChar (isNameChar_of_mem_map_marked item hitem)

theorem printed_dataOperand {bytes : List UInt8} (hne : bytes ≠ []) :
    Printed (dataOperand bytes) where
  ne_nil := dataOperand_ne_nil hne
  tight := tight_dataOperand bytes
  chars := by
    apply forall_mem_join (List.all_eq_true.mp rfl)
    intro item hitem c hc
    exact isCodeChar_of_isNameChar (isNameChar_of_mem_map_marked item hitem c hc)

theorem ofText_dataText {bytes : List UInt8} (hne : bytes ≠ []) :
    Statement.ofText (Listing.dataText bytes) =
      .ok (.bytes (bytes.map fun b => literal b.toNat)) := by
  have hitems : bytes.map HexBytes.marked ≠ [] := by simpa using hne
  have hsplit : splitItems (bytes.map HexBytes.marked) = bytes.map HexBytes.marked := by
    rw [splitItems, ← map_trim_pieces_join hitems,
      trim_pieces_join hitems isNameChar_of_mem_map_marked]
  have hread := ofText_dataLine hitems marked_ne_nil
    (fun item hitem => tight_of_isNameChar (isNameChar_of_mem_map_marked item hitem))
    (hsplit.symm ▸ marked_ne_nil)
  have hexpressions : (bytes.map HexBytes.marked).map Expression.ofText =
      bytes.map fun b => literal b.toNat := by
    rw [List.map_map]
    exact List.map_congr_left fun b _ => (isNumeral_marked b).expression
  rwa [hsplit, hexpressions] at hread

/-- A data directive yields its bytes. -/
theorem assembles_data {bytes : List UInt8} (hne : bytes ≠ []) :
    Assembles (Listing.dataText bytes) bytes := by
  have hname : ∀ c ∈ ['D', 'B'], isNameChar c = true :=
    List.all_eq_true.mp rfl
  refine ⟨(printed_dataOperand hne).cons_word hname (by simp),
    .bytes (bytes.map fun b => literal b.toNat), ofText_dataText hne, ?_, ?_⟩
  · intro overflow draft
    simp [Draft.sizeOf, Statement.size]
  · intro overflow symbols line address size
    exact listBytes_literal overflow symbols bytes

/-- The text of an instruction assembles to the bytes of the instruction. -/
theorem assembles_text (i : Instruction) : Assembles i.text i.encode := by
  cases i with
  | nop => exact assembles_bare .nop rfl
  | halt => exact assembles_bare .halt rfl
  | ret => exact assembles_bare .ret rfl
  | loadZeroPage b => exact assembles_zeroPage .loadZeroPage rfl b
  | storeZeroPage b => exact assembles_zeroPage .storeZeroPage rfl b
  | loadImmediate b => exact assembles_immediate .loadImmediate rfl b
  | addImmediate b => exact assembles_immediate .addImmediate rfl b
  | subImmediate b => exact assembles_immediate .subImmediate rfl b
  | load w => exact assembles_absolute .load rfl w
  | store w => exact assembles_absolute .store rfl w
  | add w => exact assembles_absolute .add rfl w
  | sub w => exact assembles_absolute .sub rfl w
  | jumpIfZero w => exact assembles_absolute .jumpIfZero rfl w
  | jump w => exact assembles_absolute .jump rfl w
  | call w => exact assembles_absolute .call rfl w
  | jumpIfNegative w => exact assembles_absolute .jumpIfNegative rfl w
  | unknown b => exact assembles_data (List.cons_ne_nil b [])

end Accumulator.Assembly
