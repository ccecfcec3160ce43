import Accumulator.Layout.Document
import Accumulator.Proofs.Json.RoundTrip
import Accumulator.Proofs.Results

/-!
# Layouts in JSON as changes of the standard layout

An object may give numbers for some of the fields of a layout, in any order and among any other
fields. However it is written, its text means the standard layout with these fields replaced, and is
refused with the first problem of that layout if it is not valid. So a layout is read back from its
own text exactly if it is valid.
-/

namespace Accumulator

namespace Json

/-- Fields whose names are texts. -/
def named (fields : List (Text × Json)) : List (JsonString × Json) :=
  fields.map fun field => (some field.1, field.2)

theorem valuesOf_named (name : Text) (fields : List (Text × Json)) :
    valuesOf name (named fields) = (fields.filter fun field => field.1 == name).map Prod.snd := by
  rw [valuesOf, named, List.filter_map, List.map_map]
  rfl

theorem hasTextNames_named (fields : List (Text × Json)) : hasTextNames (named fields) = true := by
  rw [hasTextNames, named, List.all_map, List.all_eq_true]
  exact fun _ _ => rfl

end Json

namespace Layout

open Json

/-- Numbers for some of the fields of a layout. -/
structure Numbers where
  capacity : Option UInt64 := none
  heapStart : Option UInt16 := none
  stackStart : Option UInt16 := none

/-- The standard layout with the given fields replaced. -/
def Numbers.layout (numbers : Numbers) : Layout where
  capacity := (numbers.capacity.map UInt64.toNat).getD standard.capacity
  heapStart := numbers.heapStart.getD standard.heapStart
  stackStart := numbers.stackStart.getD standard.stackStart

/-- A field for a number, if there is one. -/
def numberField (key : Text) (number : Option Nat) : List (Text × Json) :=
  number.toList.map fun n => (key, .nat n)

/-- The given fields. -/
def Numbers.fields (numbers : Numbers) : List (Text × Json) :=
  numberField capacityKey (numbers.capacity.map UInt64.toNat) ++
    numberField heapStartKey (numbers.heapStart.map UInt16.toNat) ++
      numberField stackStartKey (numbers.stackStart.map UInt16.toNat)

/-- The names of the fields of a layout. -/
def keys : List Text := [capacityKey, heapStartKey, stackStartKey]

/-- Fields in any order are the given ones, as far as they have a name from a layout. -/
def Numbers.GivenBy (numbers : Numbers) (fields : List (Text × Json)) : Prop :=
  (fields.filter fun field => field.1 ∈ keys).Perm numbers.fields

variable {numbers : Numbers} {fields : List (Text × Json)} {bound fallback : Nat}

/-! ## Reading fields -/

/-- Only one value is a number, so the order of values makes no difference. -/
theorem single?_perm {values others : List Json} (h : values.Perm others) :
    single? bound fallback values = single? bound fallback others := by
  match values with
  | [] =>
      rw [List.nil_perm.mp h]
  | [value] =>
      rw [List.singleton_perm.mp h]
  | first :: second :: rest =>
      match others, h.length_eq with
      | _ :: _ :: _, _ => rfl

theorem single?_toList {number : Option Nat} (h : ∀ n ∈ number, n < bound) :
    single? bound fallback (number.toList.map .nat) = some (number.getD fallback) := by
  cases number with
  | none => rfl
  | some n =>
      have hread : (Json.nat n).natBelow? bound = some n := by
        rw [natBelow?_nat, if_pos (h n rfl)]
      exact hread

theorem Numbers.GivenBy.valuesOf_perm (h : numbers.GivenBy fields) {key : Text}
    (hkey : key ∈ keys) :
    (valuesOf key (named fields)).Perm (valuesOf key (named numbers.fields)) := by
  -- a field with this name is one of those that the numbers account for
  have hfilter : (fields.filter fun field => field.1 == key) =
      (fields.filter fun field => field.1 ∈ keys).filter fun field => field.1 == key := by
    rw [List.filter_filter]
    apply List.filter_congr
    intro field _
    by_cases heq : field.1 = key
    · simp [heq, hkey]
    · simp [heq]
  rw [valuesOf_named, valuesOf_named, hfilter]
  exact (h.filter _).map _

theorem Numbers.GivenBy.single?_eq (h : numbers.GivenBy fields) {key : Text} (hkey : key ∈ keys)
    {number : Option Nat}
    (hvalues : valuesOf key (named numbers.fields) = number.toList.map .nat)
    (hbound : ∀ n ∈ number, n < bound) :
    single? bound fallback (valuesOf key (named fields)) = some (number.getD fallback) := by
  rw [single?_perm (h.valuesOf_perm hkey), hvalues, single?_toList hbound]

theorem valuesOf_fields (numbers : Numbers) :
    valuesOf capacityKey (named numbers.fields) =
      (numbers.capacity.map UInt64.toNat).toList.map .nat ∧
    valuesOf heapStartKey (named numbers.fields) =
      (numbers.heapStart.map UInt16.toNat).toList.map .nat ∧
    valuesOf stackStartKey (named numbers.fields) =
      (numbers.stackStart.map UInt16.toNat).toList.map .nat := by
  obtain ⟨capacity, heapStart, stackStart⟩ := numbers
  cases capacity <;> cases heapStart <;> cases stackStart <;> exact ⟨rfl, rfl, rfl⟩

theorem lt_of_mem_capacity (word : Option UInt64) :
    ∀ n ∈ word.map UInt64.toNat, n < capacityBound := by
  rintro n hn
  obtain ⟨word, _, rfl⟩ := Option.map_eq_some_iff.mp hn
  exact word.toNat_lt

theorem lt_of_mem_offset (word : Option UInt16) :
    ∀ n ∈ word.map UInt16.toNat, n < offsetBound := by
  rintro n hn
  obtain ⟨word, _, rfl⟩ := Option.map_eq_some_iff.mp hn
  exact word.toNat_lt

theorem ofNat_getD (word : Option UInt16) (fallback : UInt16) :
    UInt16.ofNat ((word.map UInt16.toNat).getD fallback.toNat) = word.getD fallback := by
  cases word with
  | none => exact UInt16.ofNat_toNat
  | some word => exact UInt16.ofNat_toNat

/-- The fields of an object replace those of the standard layout. -/
theorem ofJson?_record (h : numbers.GivenBy fields) :
    ofJson? (.record fields) = some numbers.layout := by
  have hrecord : Json.record fields = .object (named fields) := rfl
  obtain ⟨hcapacity, hheap, hstack⟩ := valuesOf_fields numbers
  rw [hrecord, ofJson?, if_pos (hasTextNames_named fields), ofValues?,
    h.single?_eq (by decide) hcapacity (lt_of_mem_capacity _),
    h.single?_eq (by decide) hheap (lt_of_mem_offset _),
    h.single?_eq (by decide) hstack (lt_of_mem_offset _), ofNumbers?, ofNat_getD, ofNat_getD]
  rfl

/-! ## Texts of layouts -/

variable {text : Text} {layout : Layout}

theorem ofText_of_writes (htext : Writes text (.record fields)) (h : numbers.GivenBy fields) :
    ofText text = numbers.layout.validate.mapError .invalid := by
  rw [ofText, read?_of_writes htext, Option.bind_some, ofJson?_record h]

/-- Only valid layouts are read. -/
theorem valid_of_ofText (h : ofText text = .ok layout) : layout.Valid := by
  rw [ofText] at h
  split at h
  · cases h
  · obtain ⟨hvalid, rfl⟩ := validate_ok_iff.mp (ok_of_mapError_ok h)
    exact hvalid

/-- The numbers of all fields of a layout. -/
def Numbers.ofLayout (layout : Layout) : Numbers where
  capacity := some (UInt64.ofNat layout.capacity)
  heapStart := some layout.heapStart
  stackStart := some layout.stackStart

theorem toNat_capacity_ofLayout (h : layout.capacity < capacityBound) :
    (UInt64.ofNat layout.capacity).toNat = layout.capacity :=
  UInt64.toNat_ofNat_of_lt' h

theorem layout_ofLayout (h : layout.capacity < capacityBound) :
    (Numbers.ofLayout layout).layout = layout := by
  rw [Numbers.ofLayout, Numbers.layout, Option.map_some, toNat_capacity_ofLayout h]
  rfl

theorem toJson_eq_record (h : layout.capacity < capacityBound) :
    layout.toJson = .record (Numbers.ofLayout layout).fields := by
  rw [Numbers.ofLayout, Numbers.fields, Option.map_some, toNat_capacity_ofLayout h]
  rfl

theorem givenBy_fields (numbers : Numbers) : numbers.GivenBy numbers.fields := by
  have hkeys : ∀ field ∈ numbers.fields, field.1 ∈ keys := by
    obtain ⟨capacity, heapStart, stackStart⟩ := numbers
    cases capacity <;> cases heapStart <;> cases stackStart <;>
      simp [Numbers.fields, numberField, keys]
  rw [Numbers.GivenBy, List.filter_eq_self.mpr]
  intro field hfield
  exact decide_eq_true (hkeys field hfield)

theorem ofText_toJson_iff (htext : Writes text layout.toJson) :
    ofText text = .ok layout ↔ layout.Valid := by
  constructor
  · exact valid_of_ofText
  · intro hvalid
    -- a longer buffer than the addresses reach is not valid, so the capacity is a 64-bit number
    have hbound : layout.capacity < capacityBound :=
      Nat.lt_of_le_of_lt hvalid.capacity_le (by decide)
    rw [toJson_eq_record hbound] at htext
    rw [ofText_of_writes htext (givenBy_fields _), layout_ofLayout hbound,
      validate_ok_iff.mpr ⟨hvalid, rfl⟩]
    rfl

theorem wellFormed_toJson (layout : Layout) : WellFormed layout.toJson := by
  apply WellFormed.record
  simp only [List.forall_mem_cons]
  exact ⟨.number rfl, .number rfl, .number rfl, List.forall_mem_nil _⟩

/-- Whatever fields an object gives, and however it is written, it stands for the standard layout
with these fields replaced if that layout is valid, and for its first problem otherwise. So a layout
is read back from its texts exactly if it is valid. -/
theorem fields_override_standard :
    (∀ {text : Text} {fields : List (Text × Json)} {numbers : Numbers},
      Writes text (.record fields) → numbers.GivenBy fields →
        ofText text = numbers.layout.validate.mapError .invalid) ∧
    (∀ {text : Text} {layout : Layout}, Writes text layout.toJson →
      (ofText text = .ok layout ↔ layout.Valid)) ∧
    ∀ layout : Layout, ofText layout.toJson.compact = .ok layout ↔ layout.Valid :=
  ⟨ofText_of_writes, ofText_toJson_iff,
    fun layout => ofText_toJson_iff (writes_compact layout.wellFormed_toJson)⟩

/-- A field of no layout. Its value has a field with the name of one, and a brace in a string. -/
def strayField : Text × Json := ("x".toList, .record [(capacityKey, .text "\x7d".toList)])

/-- An object with blanks, an escape in a key, and a stray field in front. -/
def strayFields : List WrittenField :=
  [⟨"\"x\" ".toList, some "x".toList, "\x7b\"capacity\":\"\x7d\"\x7d".toList, strayField.2⟩,
    ⟨"\n\"\\u0063apacity\"".toList, some capacityKey, "9 ".toList, .nat 9⟩,
    ⟨"\"stack_start\"".toList, some stackStartKey, "7".toList, .nat 7⟩]

/-- The text of these fields. -/
def strayText : Text :=
  "\x7b\"x\" :\x7b\"capacity\":\"\x7d\"\x7d,\n\"\\u0063apacity\":9 ,\"stack_start\":7\x7d".toList

theorem writes_strayField : Writes "\x7b\"capacity\":\"\x7d\"\x7d".toList strayField.2 := by
  have hfield : WellFormed strayField.2 := .record (List.forall_mem_singleton.mpr (.string _))
  have hwrites := writes_compact hfield
  simp only [strayField, compact, record, Json.text, List.map_cons, List.map_nil] at hwrites
  exact hwrites

theorem writesString_escapedKey : WritesString "\"\\u0063apacity\"".toList (some capacityKey) := by
  have hspells : Spells "\\u0063".toList 'c' :=
    .code ⟨rfl, rfl⟩ (fun hupper => absurd hupper.1 (by decide))
      (fun hlower => absurd hlower.1 (by decide))
  exact writesString_of_spells (.cons hspells (forall₂_escape "apacity".toList))

theorem writes_digit (digit : Nat) (h : digit < 10) :
    Writes [Numeral.upperDigit digit] (.nat digit) := by
  have hnumber : Writes (JsonNumber.text (.ofNat digit)) (.nat digit) := .number (.mk .none .none)
  rwa [JsonNumber.text, JsonNumber.ofNat, Numeral.decimal, Numeral.digits_of_lt h] at hnumber

theorem writes_strayText :
    Writes strayText (.record [strayField, (capacityKey, .nat 9), (stackStartKey, .nat 7)]) := by
  have hnone : Blank [] := List.forall_mem_nil _
  have hspace : Blank [' '] := List.forall_mem_singleton.mpr (.inl rfl)
  have hline : Blank ['\n'] := List.forall_mem_singleton.mpr (.inr (.inr (.inl rfl)))
  have hkeys : ∀ field ∈ strayFields,
      ∃ text, WritesString text field.key ∧ Padded text field.keyText := by
    simp only [strayFields, List.forall_mem_cons]
    exact ⟨⟨_, writesString_quoted "x".toList, .mk hnone hspace⟩,
      ⟨_, writesString_escapedKey, .mk hline hnone⟩,
      ⟨_, writesString_quoted stackStartKey, padded_self _⟩, List.forall_mem_nil _⟩
  have hvalues : ∀ field ∈ strayFields, Writes field.valueText field.value := by
    simp only [strayFields, List.forall_mem_cons]
    exact ⟨writes_strayField, .padded (writes_digit 9 (by decide)) (.mk hnone hspace),
      writes_digit 7 (by decide), List.forall_mem_nil _⟩
  exact .object hnone hkeys hvalues

/-- Two fields are given, with another one in front of them. -/
theorem fields_override_standard_stray :
    Writes strayText (.record [strayField, (capacityKey, .nat 9), (stackStartKey, .nat 7)]) ∧
    Numbers.GivenBy ⟨some 9, none, some 7⟩
      [strayField, (capacityKey, .nat 9), (stackStartKey, .nat 7)] ∧
    ofText strayText = .ok ⟨9, 0, 7⟩ ∧
    Writes standard.toJson.compact standard.toJson ∧
    ofText standard.toJson.compact = .ok standard := by
  have hgiven : Numbers.GivenBy ⟨some 9, none, some 7⟩
      [strayField, (capacityKey, .nat 9), (stackStartKey, .nat 7)] := .refl _
  have hread := fields_override_standard.1 writes_strayText hgiven
  have hstandard := writes_compact standard.wellFormed_toJson
  have hvalid : standard.Valid := (problem?_eq_none_iff standard).mp rfl
  exact ⟨writes_strayText, hgiven, hread, hstandard,
    (fields_override_standard.2.1 hstandard).mpr hvalid⟩

end Layout
end Accumulator
