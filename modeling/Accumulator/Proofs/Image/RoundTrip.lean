import Accumulator.Image.File
import Accumulator.Proofs.Results
import Accumulator.Proofs.Text.Cutting
import Accumulator.Proofs.Text.Numerals

/-!
# Images read back

The text of an image is read back as its bytes: a row gives its bytes as words, the comment with
its address is left out, and the lines in front hold nothing. Saving and loading choose the format
by the name alone, so a saved image loads as what was saved.
-/

namespace Accumulator.Image

open Text

/-! ## Rows -/

/-- The two digits of a byte are read as the byte. -/
theorem readWord_byte (b : UInt8) : readWord (HexBytes.byte b) = .ok b := by
  have hplus : ∀ rest, HexBytes.byte b ≠ '+' :: rest := by
    intro rest heq
    have hmem : '+' ∈ HexBytes.byte b := heq ▸ List.mem_cons_self
    exact absurd (HexBytes.isAlphanum_of_mem_byte hmem) (by decide)
  have hread : Numeral.readBelow? 16 256 (HexBytes.byte b) = some b.toNat := by
    rw [Numeral.readBelow?, HexBytes.read?_byte, Option.filter_some,
      if_pos (decide_eq_true b.toNat_lt)]
    exact hplus
  rw [readWord, if_neg (by simp [HexBytes.byteCount_byte]), hread]
  simp


/-- A row without the line feed at its end. -/
def rowText (row : List UInt8 × Nat) (base : Nat) : Text :=
  (HexBytes.spaced row.1).padRight 47 ++ ' ' :: ';' :: ' ' ::
    Numeral.hex 4 (base + row.2 * rowSize)

theorem renderRow_eq (row : List UInt8 × Nat) (base : Nat) :
    renderRow row base = rowText row base ++ ['\n'] := by
  simp [renderRow, rowText]

theorem lineWords_comment (before after : Text) (h : ∀ c ∈ before, c ≠ ';') :
    lineWords (before ++ ';' :: after) = words before := by
  have hpos : ∀ c ∈ before, (c != ';') = true := by
    intro c hc
    exact bne_iff_ne.mpr (h c hc)
  rw [lineWords, List.takeWhile_append_of_pos hpos]
  simp

/-- The comment of a row with its address is left out, and so is the padding in front of it. -/
theorem lineWords_rowText (row : List UInt8 × Nat) (base : Nat) :
    lineWords (rowText row base) = row.1.map HexBytes.byte := by
  have hbyte : ∀ item ∈ row.1.map HexBytes.byte, item ≠ [] ∧ ∀ c ∈ item, isBlank c = false := by
    intro item hitem
    obtain ⟨b, _, rfl⟩ := List.mem_map.mp hitem
    refine ⟨List.cons_ne_nil _ _, fun c hc => ?_⟩
    exact isBlank_of_isNameChar (isNameChar_of_isAlphanum (HexBytes.isAlphanum_of_mem_byte hc))
  have hplain : ∀ c ∈ HexBytes.spaced row.1, c ≠ ';' := by
    apply forall_mem_join (p := (· ≠ ';')) (List.forall_mem_singleton.mpr (by decide))
    intro item hitem c hc
    obtain ⟨b, _, rfl⟩ := List.mem_map.mp hitem
    exact ne_of_test (HexBytes.isAlphanum_of_mem_byte hc) rfl
  have hpadding : ∀ c ∈ List.replicate (47 - (HexBytes.spaced row.1).length) ' ' ++ [' '],
      c = ' ' := by
    intro c hc
    rw [← List.replicate_succ'] at hc
    exact List.eq_of_mem_replicate hc
  have hcut : rowText row base =
      HexBytes.spaced row.1 ++
          (List.replicate (47 - (HexBytes.spaced row.1).length) ' ' ++ [' ']) ++
        ';' :: ' ' :: Numeral.hex 4 (base + row.2 * rowSize) := by
    simp [rowText, padRight]
  rw [hcut, lineWords_comment]
  · refine words_join hbyte ?_ (by simp)
    intro c hc
    rw [hpadding c hc]
    rfl
  · rw [List.forall_mem_append]
    refine ⟨hplain, fun c hc => ?_⟩
    rw [hpadding c hc]
    decide

/-- The rows together hold the bytes, each in its place. -/
theorem flatten_rows (bytes : List UInt8) : (rows bytes).flatten = bytes := by
  induction bytes using rows.induct with
  | case1 bytes hempty => 
      rw [rows, if_pos hempty, List.isEmpty_iff.mp hempty]
      rfl
  | case2 bytes hempty ih =>
      rw [rows, if_neg hempty, List.flatten_cons, ih, List.take_append_drop]

/-! ## The lines of the text -/

/-- The line with the number of bytes. -/
def countText (count : Nat) : Text := ';' :: ' ' :: (Numeral.decimal count ++ " bytes".toList)

/-- The lines of an image in text form. -/
def imageLines (bytes : List UInt8) (base : UInt16) : List Text :=
  "; ACC8 program image".toList :: countText bytes.length :: [] ::
    (rows bytes).zipIdx.map fun row => rowText row base.toNat

theorem header_eq (count : Nat) :
    header count = "; ACC8 program image".toList ++ ['\n'] ++
      (countText count ++ ['\n'] ++ ([] ++ ['\n'])) := by
  have htitle : "; ACC8 program image\n; ".toList =
      "; ACC8 program image".toList ++ ['\n'] ++ [';', ' '] := by decide
  have hend : " bytes\n\n".toList = " bytes".toList ++ ['\n'] ++ ['\n'] := by decide
  refine (congrArg₂ (fun title unit => title ++ Numeral.decimal count ++ unit) htitle hend).trans ?_
  simp only [countText, List.append_assoc, List.cons_append, List.nil_append]

theorem renderText_eq (bytes : List UInt8) (base : UInt16) :
    renderText bytes base = (imageLines bytes base).flatMap fun text => text ++ ['\n'] := by
  have hrows : ((rows bytes).zipIdx.flatMap fun row => renderRow row base.toNat) =
      ((rows bytes).zipIdx.map fun row => rowText row base.toNat).flatMap
        fun text => text ++ ['\n'] := by
    rw [List.flatMap_map]
    simp only [renderRow_eq]
  rw [renderText, header_eq, hrows, imageLines]
  simp only [List.flatMap_cons, List.append_assoc]

/-- The characters of an image in text form, apart from line feeds. -/
def isImageChar (c : Char) : Bool := isNameChar c || c == ' ' || c == ';'

theorem isImageChar_of_isAlphanum {c : Char} (h : c.isAlphanum = true) : isImageChar c = true := by
  simp [isImageChar, isNameChar_of_isAlphanum h]

theorem isImageChar_of_mem_rowText {row : List UInt8 × Nat} {base : Nat} :
    ∀ c ∈ rowText row base, isImageChar c = true := by
  have hspaced : ∀ c ∈ HexBytes.spaced row.1, isImageChar c = true := by
    apply forall_mem_join (List.all_eq_true.mp rfl)
    intro item hitem c hc
    obtain ⟨b, _, rfl⟩ := List.mem_map.mp hitem
    exact isImageChar_of_isAlphanum (HexBytes.isAlphanum_of_mem_byte hc)
  have hpadding : ∀ c ∈ List.replicate (47 - (HexBytes.spaced row.1).length) ' ',
      isImageChar c = true := by
    intro c hc
    rw [List.eq_of_mem_replicate hc]
    rfl
  have haddress : ∀ c ∈ Numeral.hex 4 (base + row.2 * rowSize), isImageChar c = true := by
    intro c hc
    exact isImageChar_of_isAlphanum (Numeral.isAlphanum_of_mem_hex hc)
  simp only [rowText, padRight, List.forall_mem_append, List.forall_mem_cons]
  exact ⟨⟨hspaced, hpadding⟩, rfl, rfl, rfl, haddress⟩

theorem isImageChar_of_mem_imageLines (bytes : List UInt8) (base : UInt16) :
    ∀ text ∈ imageLines bytes base, ∀ c ∈ text, isImageChar c = true := by
  simp only [imageLines, List.forall_mem_cons]
  refine ⟨List.all_eq_true.mp rfl, ?_, by simp, ?_⟩
  · simp only [countText, List.forall_mem_append, List.forall_mem_cons]
    refine ⟨rfl, rfl, fun c hc => ?_, List.all_eq_true.mp rfl⟩
    simp [isImageChar, isNameChar, Char.isAlphanum, Numeral.isDigit_of_mem_decimal hc]
  · intro text htext
    obtain ⟨row, _, rfl⟩ := List.mem_map.mp htext
    exact isImageChar_of_mem_rowText

theorem lines_renderText (bytes : List UInt8) (base : UInt16) :
    Text.lines (renderText bytes base) = imageLines bytes base := by
  rw [renderText_eq]
  exact lines_flatMap_of_forall rfl rfl (isImageChar_of_mem_imageLines bytes base)

/-! ## Reading -/

/-- Lines that hold bytes as words are read as these bytes, whatever their numbers are. -/
theorem mapM_readLine {texts : List Text} {parts : List (List UInt8)}
    (h : List.Forall₂ (fun text part => lineWords text = part.map HexBytes.byte) texts parts)
    (number : Nat) : (texts.zipIdx number).mapM readLine = .ok parts := by
  induction h generalizing number with
  | nil => rfl
  | @cons text part texts parts hwords rest ih =>
      have hread : readLine (text, number) = .ok part := by
        have hpart : (part.map HexBytes.byte).mapM readWord = .ok part := by
          apply mapM_of_forall₂
          rw [List.forall₂_map_left_iff, List.forall₂_same]
          exact fun b _ => readWord_byte b
        rw [readLine, hwords, hpart]
        rfl
      rw [List.zipIdx_cons, mapM_cons_eq, hread, ih]
      rfl

theorem lineWords_imageLines (bytes : List UInt8) (base : UInt16) :
    List.Forall₂ (fun text part => lineWords text = part.map HexBytes.byte)
      (imageLines bytes base) ([] :: [] :: [] :: rows bytes) := by
  refine .cons rfl (.cons rfl (.cons rfl ?_))
  rw [List.forall₂_map_left_iff]
  have hrows : (rows bytes).zipIdx.map Prod.fst = rows bytes := List.zipIdx_map_fst 0 _
  conv => arg 3; rw [← hrows]
  rw [List.forall₂_map_right_iff, List.forall₂_same]
  exact fun row _ => lineWords_rowText row base.toNat

/-- An image in text form reads back as its bytes. -/
theorem readText_renderText (bytes : List UInt8) (base : UInt16) :
    readText (renderText bytes base) = .ok bytes := by
  rw [readText, lines_renderText, mapM_readLine (lineWords_imageLines bytes base)]
  exact congrArg Except.ok (flatten_rows bytes)

/-! ## Image files -/

theorem fromUTF8?_encodeText (text : Text) :
    String.fromUTF8? (Files.encodeText text) = some (String.ofList text) := by
  rw [Files.encodeText, String.fromUTF8?, String.toUTF8, dif_pos (String.ofList text).isValidUTF8]
  rfl

theorem readText_of_read {files : Files} {name text : Text}
    (h : files.read name = .ok (Files.encodeText text)) : files.readText name = .ok text := by
  rw [Files.readText, h]
  simp only [fromUTF8?_encodeText, String.toList_ofList]

/-- What is written under a name is read under that name, whichever format the name selects. -/
theorem decode_encode (name : Text) (bytes : List UInt8) (base : UInt16) :
    decode name (encode name bytes base) = .ok bytes := by
  cases hname : isBinary name with
  | true => simp [decode, encode, hname]
  | false =>
      simp only [decode, encode, hname, Bool.false_eq_true, if_false, fromUTF8?_encodeText,
        String.toList_ofList, readText_renderText]
      rfl

theorem load_of_read {files : Files} {name : Text} {bytes : List UInt8} {base : UInt16}
    (h : files.read name = .ok (encode name bytes base)) : load files name = .ok bytes := by
  rw [load, h]
  exact decode_encode name bytes base

theorem exists_write_of_save {files saved : Files} {name : Text} {bytes : List UInt8}
    {base : UInt16} (h : save files name bytes base = .ok saved) :
    files.write name (encode name bytes base) = .ok saved :=
  ok_of_mapError_ok h

/-- A saved image loads as the bytes that were saved. -/
theorem load_of_save {files saved : Files} {name : Text} {bytes : List UInt8} {base : UInt16}
    (h : save files name bytes base = .ok saved) : load saved name = .ok bytes :=
  load_of_read (Files.read_of_write (exists_write_of_save h))

/-- Images survive saving. Their text reads back as their bytes, what is written under any name is
read back under that name, and an image can be loaded wherever it could be saved. Only what keeps
the file from being written keeps an image from being saved. -/
theorem survives_saving (bytes : List UInt8) (base : UInt16) :
    readText (renderText bytes base) = .ok bytes ∧
    ∀ name, decode name (encode name bytes base) = .ok bytes ∧
      ∀ files, match save files name bytes base with
        | .ok saved => load saved name = .ok bytes
        | .error problem => ∃ e, files.write name (encode name bytes base) = .error e ∧
            problem = .file e := by
  refine ⟨readText_renderText bytes base, fun name => ⟨decode_encode name bytes base, ?_⟩⟩
  intro files
  cases hsave : save files name bytes base with
  | ok saved => exact load_of_save hsave
  | error problem =>
      cases hwrite : files.write name (encode name bytes base) with
      | ok saved => simp [save, hwrite, Except.mapError] at hsave
      | error e => exact ⟨e, rfl, by simpa [save, hwrite, Except.mapError, eq_comm] using hsave⟩

end Accumulator.Image
