import Accumulator.Json.Printer
import Accumulator.Machine.Snapshot
import Accumulator.Proofs.Assembly.Statements

/-!
# Trace entries are lines

Neither the text of a trace entry nor its compact JSON holds a line feed, so each takes exactly one
line where it is printed.
-/

namespace Accumulator

open Text

/-- A text that does not go on to another line. -/
def Text.IsLine (text : Text) : Prop := ∀ c ∈ text, c ≠ '\n'

instance (text : Text) : Decidable text.IsLine := List.decidableBAll (· ≠ '\n') text

theorem Text.isLine_append {first second : Text} :
    (first ++ second).IsLine ↔ first.IsLine ∧ second.IsLine := List.forall_mem_append

theorem Text.isLine_cons {c : Char} {text : Text} :
    IsLine (c :: text) ↔ c ≠ '\n' ∧ text.IsLine := List.forall_mem_cons

theorem Text.isLine_join {separator : Text} {items : List Text} (hs : separator.IsLine)
    (h : ∀ item ∈ items, item.IsLine) : (join separator items).IsLine :=
  forall_mem_join hs h

theorem Text.isLine_of_isAlphanum {text : Text} (h : ∀ c ∈ text, c.isAlphanum = true) :
    text.IsLine := by
  intro c hc
  exact ne_of_test (h c hc) rfl

theorem isLine_word (w : UInt16) : (HexBytes.word w).IsLine :=
  isLine_of_isAlphanum fun _ hc => Numeral.isAlphanum_of_mem_hex hc

theorem isLine_byte (b : UInt8) : (HexBytes.byte b).IsLine :=
  isLine_of_isAlphanum fun _ hc => HexBytes.isAlphanum_of_mem_byte hc

theorem isLine_decimal (n : Nat) : (Numeral.decimal n).IsLine := by
  intro c hc
  exact ne_of_test (Numeral.isDigit_of_mem_decimal hc) rfl

theorem isLine_padRight {text : Text} (h : text.IsLine) (width : Nat) :
    (text.padRight width).IsLine := by
  refine isLine_append.mpr ⟨h, ?_⟩
  intro c hc
  rw [List.eq_of_mem_replicate hc]
  decide

theorem Instruction.isLine_text (i : Instruction) : i.text.IsLine := by
  intro c hc
  exact ne_of_test ((Assembly.assembles_text i).chars c hc) rfl

theorem Flags.isLine_text (flags : Flags) : flags.text.IsLine := by
  obtain ⟨carry, zero, negative⟩ := flags
  cases carry <;> cases zero <;> cases negative <;> decide

theorem TraceEntry.isLine_text (entry : TraceEntry) : entry.text.IsLine := by
  simp only [TraceEntry.text, isLine_append]
  exact ⟨⟨⟨⟨⟨⟨⟨⟨isLine_word _, by decide⟩, isLine_padRight (Instruction.isLine_text _) 16⟩,
    by decide⟩, isLine_byte _⟩, by decide⟩, Flags.isLine_text _⟩, by decide⟩, isLine_word _⟩

namespace Json

theorem isLine_escape (c : Char) : IsLine (escape c) := by
  rw [escape]
  split_ifs with _ _ hfeed
  any_goals decide
  · have hdigit : ∀ d < 16, Numeral.lowerDigit d ≠ '\n' := by decide
    refine isLine_cons.mpr ⟨by decide, isLine_cons.mpr ⟨by decide, isLine_append.mpr ⟨?_, ?_⟩⟩⟩
    · intro d hd
      rw [List.eq_of_mem_replicate hd]
      decide
    · intro d hd
      obtain ⟨n, hn, rfl⟩ := List.mem_map.mp hd
      exact hdigit n (Numeral.lt_of_mem_digits (by decide) hn)
  · exact isLine_cons.mpr ⟨by simpa using hfeed, List.forall_mem_nil _⟩

theorem isLine_quoted (text : Text) : IsLine (quoted (some text)) := by
  refine isLine_cons.mpr ⟨by decide, isLine_append.mpr ⟨?_, by decide⟩⟩
  intro c hc
  obtain ⟨d, _, hd⟩ := List.mem_flatMap.mp hc
  exact isLine_escape d c hd

theorem isLine_compact_text (value : Text) : IsLine (compact (text value)) := by
  rw [text, compact]
  exact isLine_quoted value

theorem isLine_compact_nat (n : Nat) : IsLine (compact (nat n)) := by
  rw [nat, compact, JsonNumber.text, JsonNumber.ofNat]
  simpa using isLine_decimal n

/-- A record is one line if its values are. -/
theorem isLine_compact_record {fields : List (Text × Json)}
    (h : ∀ field ∈ fields, IsLine (compact field.2)) : IsLine (compact (record fields)) := by
  rw [record, compact]
  refine isLine_cons.mpr ⟨by decide, isLine_append.mpr ⟨?_, by decide⟩⟩
  apply isLine_join (by decide)
  intro piece hpiece
  simp only [List.map_map, List.mem_map] at hpiece
  obtain ⟨field, hfield, rfl⟩ := hpiece
  exact isLine_append.mpr ⟨isLine_quoted field.1,
    isLine_cons.mpr ⟨by decide, h field hfield⟩⟩

end Json

theorem TraceEntry.isLine_compact (entry : TraceEntry) : IsLine entry.toJson.compact := by
  apply Json.isLine_compact_record
  simp only [List.forall_mem_cons]
  exact ⟨Json.isLine_compact_nat _, Json.isLine_compact_text _, Json.isLine_compact_nat _,
    Json.isLine_compact_text _, Json.isLine_compact_nat _, List.forall_mem_nil _⟩

end Accumulator
