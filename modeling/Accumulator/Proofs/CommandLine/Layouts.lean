import Accumulator.CommandLine.Dispatch
import Accumulator.Proofs.Image.RoundTrip
import Accumulator.Proofs.Machine.Loading

/-!
# The layout of a run

The layout of a run is the standard one, changed by the fields of a layout file and then by options.
Two layouts have to be valid for it: the one that the options lead to, and before them the one in
the file, with the standard values in place of missing fields. So options cannot repair a layout
that a file leaves invalid.
-/

namespace Accumulator.CommandLine

/-! ## The layout in a file -/

/-- The changes to a layout that are written in JSON: fields by their names, items by their places.
-/
def changesOf : Json → LayoutOptions
  | .object fields =>
      { capacity := (Json.valuesOf Layout.capacityKey fields).head?.bind Json.nat?
        heapStart := (Json.valuesOf Layout.heapStartKey fields).head?.bind Json.word?
        stackStart := (Json.valuesOf Layout.stackStartKey fields).head?.bind Json.word? }
  | .array items =>
      { capacity := items[0]?.bind Json.nat?
        heapStart := items[1]?.bind Json.word?
        stackStart := items[2]?.bind Json.word? }
  | _ => {}

theorem eq_of_single? {bound standard n : Nat} {values : List Json}
    (h : Layout.single? bound standard values = some n) :
    n = (values.head?.bind Json.nat?).getD standard := by
  unfold Layout.single? at h
  split at h
  · exact (Option.some.inj h).symm
  · obtain ⟨hnumber, _⟩ := Option.filter_eq_some_iff.mp h
    rw [List.head?_cons, Option.bind_some, hnumber]
    rfl
  · cases h

theorem ofNat_of_single? {standard : UInt16} {n : Nat} {values : List Json}
    (h : Layout.single? Layout.offsetBound standard.toNat values = some n) :
    UInt16.ofNat n = (values.head?.bind Json.word?).getD standard := by
  unfold Layout.single? at h
  split at h
  · obtain rfl := Option.some.inj h
    exact UInt16.ofNat_toNat
  · rw [List.head?_cons, Option.bind_some, Json.word?]
    rw [Layout.offsetBound] at h
    rw [h]
    rfl
  · cases h

theorem eq_of_ofValues? {capacity heapStart stackStart : List Json} {own : Layout}
    (h : Layout.ofValues? capacity heapStart stackStart = some own) :
    own = overrideLayout .standard
      { capacity := capacity.head?.bind Json.nat?
        heapStart := heapStart.head?.bind Json.word?
        stackStart := stackStart.head?.bind Json.word? } := by
  unfold Layout.ofValues? Layout.ofNumbers? at h
  split at h
  · rename_i hcapacity hheap hstack
    obtain rfl := Option.some.inj h
    rw [overrideLayout, eq_of_single? hcapacity, ofNat_of_single? hheap, ofNat_of_single? hstack]
  · cases h

/-- The layout in a file is the standard one, changed by what is written there. -/
theorem eq_of_ofJson? {json : Json} {own : Layout} (h : Layout.ofJson? json = some own) :
    own = overrideLayout .standard (changesOf json) := by
  cases json with
  | object fields =>
      rw [Layout.ofJson?] at h
      split at h
      · exact eq_of_ofValues? h
      · cases h
  | array items =>
      rw [Layout.ofJson?] at h
      split at h
      · have hown := eq_of_ofValues? h
        simp only [List.head?_eq_getElem?, List.getElem?_take, List.getElem?_drop] at hown
        exact hown
      · cases h
  | null | bool _ | number _ | string _ => cases h

/-! ## Loading -/

/-- Load the program in a file into a machine. -/
def loadOnto (files : Files) (program : Text) (m : Machine) :
    Except Failure (Machine × List UInt8) :=
  match readProgram files program m.layout.heapStart with
  | .error failure => .error failure
  | .ok bytes =>
      match m.loadProgram bytes with
      | .error e => .error (.load e)
      | .ok loaded => .ok (loaded, bytes)

/-- A failure to settle on a layout. -/
def Failure.IsLayout : Failure → Prop
  | .layoutFile _ _ | .layout _ => True
  | _ => False

/-- Loading a program gets past the layout: if it fails, then for another reason. -/
def SettlesLayout (files : Files) (program : Text) (options : LayoutOptions) : Prop :=
  ∀ failure, loadMachine files program options = .error failure → ¬ failure.IsLayout

variable {files : Files} {program : Text} {m loaded : Machine} {bytes : List UInt8}
  {failure : Failure}

theorem not_isLayout_of_readBytes {base : UInt16}
    (h : readBytes files program base = .error failure) : ¬ failure.IsLayout := by
  rw [readBytes] at h
  split at h
  · rw [readSource] at h
    split at h
    · cases h
      exact id
    · obtain ⟨e, _, rfl⟩ := exists_of_mapError_error h
      exact id
  · obtain ⟨e, _, rfl⟩ := exists_of_mapError_error h
    exact id

theorem not_isLayout_of_readProgram {base : UInt16}
    (h : readProgram files program base = .error failure) : ¬ failure.IsLayout := by
  rw [readProgram] at h
  split at h
  · rename_i hread
    cases h
    exact not_isLayout_of_readBytes hread
  · split at h
    · cases h
      exact id
    · cases h

theorem not_isLayout_of_loadOnto (h : loadOnto files program m = .error failure) :
    ¬ failure.IsLayout := by
  rw [loadOnto] at h
  split at h
  · rename_i hread
    cases h
    exact not_isLayout_of_readProgram hread
  · split at h
    · cases h
      exact id
    · cases h

theorem layout_of_loadOnto (h : loadOnto files program m = .ok (loaded, bytes)) :
    loaded.layout = m.layout := by
  rw [loadOnto] at h
  split at h
  · cases h
  · split at h
    · cases h
    · rename_i hload
      cases h
      obtain ⟨memory, _, rfl⟩ := exists_of_map_ok hload
      rfl

/-! ## A run with a layout file -/

variable {arguments : List Text} {options : RunOptions} {name content : Text} {json : Json}
  {own : Layout}

theorem baseLayout_file (hread : files.readText name = .ok content)
    (hjson : Json.read? content = some json) (hown : Layout.ofJson? json = some own) :
    baseLayout files (some name) =
      own.validate.mapError fun e => .layoutFile name (.text (.invalid e)) := by
  have htext : Layout.ofText content = own.validate.mapError .invalid := by
    rw [Layout.ofText, hjson, Option.bind_some, hown]
  rw [baseLayout, readLayoutFile, hread]
  simp only [htext]
  cases own.validate with
  | error e => rfl
  | ok layout => rfl

/-- The layout in the file is checked first, then the one that the options make of it. -/
theorem loadMachine_layoutFile (program : Text) (hfile : options.layout.file = some name)
    (hread : files.readText name = .ok content) (hjson : Json.read? content = some json)
    (hown : Layout.ofJson? json = some own) :
    loadMachine files program options.layout =
      match own.problem? with
      | some e => .error (.layoutFile name (.text (.invalid e)))
      | none =>
          match (overrideLayout own options.layout).problem? with
          | some e => .error (.layout e)
          | none => loadOnto files program (.blank (overrideLayout own options.layout)) := by
  have hbase := baseLayout_file hread hjson hown
  rw [loadMachine, resolveLayout, hfile, hbase, Layout.validate]
  cases own.problem? with
  | some e => rfl
  | none =>
      simp only [Except.mapError, Except.map, Machine.ofLayout, Layout.validate]
      cases (overrideLayout own options.layout).problem? with
      | some e => rfl
      | none => rfl

/-- How a run goes about its layout, given the layout in the file and the one that the options make
of it. -/
structure LayoutUse (files : Files) (arguments : List Text) (program : Text) (options : RunOptions)
    (name : Text) (own merged : Layout) : Prop where
  /-- The run gets past its layout exactly if both are valid. -/
  settles : SettlesLayout files program options.layout ↔ own.Valid ∧ merged.Valid
  /-- The program is then loaded into a machine that is made for the merged layout. -/
  loads : own.Valid → merged.Valid →
    loadMachine files program options.layout = loadOnto files program (.blank merged)
  /-- The loaded machine keeps this layout. -/
  keeps : ∀ m bytes, loadMachine files program options.layout = .ok (m, bytes) → m.layout = merged
  /-- The arguments ask for a run of what is loaded. -/
  runs : perform files arguments = runCommand files program options
  /-- A file with an invalid layout is refused whatever the options say. -/
  refusesOwn : ∀ e, own.problem? = some e →
    perform files arguments = fail files "" (.layoutFile name (.text (.invalid e)))
  /-- So is an invalid layout that the options make of a valid one. -/
  refusesMerged : ∀ e, own.Valid → merged.problem? = some e →
    perform files arguments = fail files "" (.layout e)

/-- A run gets past its layout exactly if the layout in the file and the one that the options make
of it are both valid, and uses the latter. -/
theorem run_layoutFile (hcommand : Command.ofArguments? arguments = some (.run program options))
    (hfile : options.layout.file = some name) (hread : files.readText name = .ok content)
    (hjson : Json.read? content = some json) (hown : Layout.ofJson? json = some own) :
    own = overrideLayout .standard (changesOf json) ∧
    LayoutUse files arguments program options name own (overrideLayout own options.layout) := by
  have hload := loadMachine_layoutFile program hfile hread hjson hown
  refine ⟨eq_of_ofJson? hown, ?_⟩
  generalize overrideLayout own options.layout = merged at hload
  have hruns : perform files arguments = runCommand files program options := by
    rw [perform, hcommand]
    rfl
  have hloads : own.Valid → merged.Valid →
      loadMachine files program options.layout = loadOnto files program (.blank merged) := by
    intro hvalid hmerged
    rw [hload, (Layout.problem?_eq_none_iff own).mpr hvalid,
      (Layout.problem?_eq_none_iff merged).mpr hmerged]
  have hrefusesOwn : ∀ e, own.problem? = some e → loadMachine files program options.layout =
      .error (.layoutFile name (.text (.invalid e))) := by
    intro e he
    rw [hload, he]
  have hrefusesMerged : ∀ e, own.Valid → merged.problem? = some e →
      loadMachine files program options.layout = .error (.layout e) := by
    intro e hvalid he
    rw [hload, (Layout.problem?_eq_none_iff own).mpr hvalid, he]
  refine ⟨?settles, hloads, ?keeps, hruns, ?own, ?merged⟩
  case settles =>
    constructor
    · intro hsettles
      cases hown : own.problem? with
      | some e => exact absurd trivial (hsettles _ (hrefusesOwn e hown))
      | none =>
          have hvalid := (Layout.problem?_eq_none_iff own).mp hown
          cases hmerged : merged.problem? with
          | some e => exact absurd trivial (hsettles _ (hrefusesMerged e hvalid hmerged))
          | none => exact ⟨hvalid, (Layout.problem?_eq_none_iff merged).mp hmerged⟩
    · rintro ⟨hvalid, hmerged⟩ failure hfailure
      rw [hloads hvalid hmerged] at hfailure
      exact not_isLayout_of_loadOnto hfailure
  case keeps =>
    intro m bytes hloaded
    rw [hload] at hloaded
    split at hloaded
    · cases hloaded
    · split at hloaded
      · cases hloaded
      · exact layout_of_loadOnto hloaded
  case own =>
    intro e he
    rw [hruns, runCommand, hrefusesOwn e he]
  case merged =>
    intro e hvalid he
    rw [hruns, runCommand, hrefusesMerged e hvalid he]

/-- A directory with a program, a layout that is valid by itself, and one that needs a lower stack.
-/
def layoutFiles : Files :=
  { entries :=
      [(["p.hex".toList], Files.encodeText "01".toList),
        (["good.json".toList],
          Files.encodeText "\x7b\"capacity\": 64, \"stack_start\": 32\x7d".toList),
        (["small.json".toList], Files.encodeText "\x7b\"capacity\": 16\x7d".toList)] }

/-- A run with a layout file and another start of the stack. -/
def stackArguments (file : Text) : List Text :=
  ["run".toList, "p.hex".toList, "--config".toList, file, "--stack-start".toList, "8".toList]

/-- The options of such a run. -/
def stackOptions (file : Text) : RunOptions where
  layout := { file := some file, stackStart := some 8 }

theorem run_layoutFile_good :
    (Layout.mk 64 0 32).Valid ∧ (Layout.mk 64 0 8).Valid ∧
    LayoutUse layoutFiles (stackArguments "good.json".toList) "p.hex".toList
      (stackOptions "good.json".toList) "good.json".toList ⟨64, 0, 32⟩ ⟨64, 0, 8⟩ := by
  have hcommand : Command.ofArguments? (stackArguments "good.json".toList) =
      some (.run "p.hex".toList (stackOptions "good.json".toList)) := by decide
  have hread : layoutFiles.readText "good.json".toList =
      .ok "\x7b\"capacity\": 64, \"stack_start\": 32\x7d".toList :=
    Image.readText_of_read rfl
  have hjson : Json.read? "\x7b\"capacity\": 64, \"stack_start\": 32\x7d".toList =
      some
        (.object [(some Layout.capacityKey, .nat 64), (some Layout.stackStartKey, .nat 32)]) := by
    rfl
  have hown : Layout.ofJson?
      (.object [(some Layout.capacityKey, .nat 64), (some Layout.stackStartKey, .nat 32)]) =
      some ⟨64, 0, 32⟩ := by decide
  have huse := (run_layoutFile hcommand rfl hread hjson hown).2
  exact ⟨⟨by decide, by decide, by decide, by decide⟩, ⟨by decide, by decide, by decide, by decide⟩,
    huse⟩

/-- A layout file that is invalid by itself is refused, although the options make a valid layout of
it. -/
theorem small_layoutFile_refused :
    Layout.ofJson? (.object [(some Layout.capacityKey, .nat 16)]) = some ⟨16, 0, 3072⟩ ∧
    overrideLayout ⟨16, 0, 3072⟩ (stackOptions "small.json".toList).layout = ⟨16, 0, 8⟩ ∧
    (Layout.mk 16 0 8).Valid ∧
    perform layoutFiles (stackArguments "small.json".toList) =
      fail layoutFiles "" (.layoutFile "small.json".toList
        (.text (.invalid (.regionOutOfRange .stack 3072 16)))) := by
  have hcommand : Command.ofArguments? (stackArguments "small.json".toList) =
      some (.run "p.hex".toList (stackOptions "small.json".toList)) := by decide
  have hread : layoutFiles.readText "small.json".toList =
      .ok "\x7b\"capacity\": 16\x7d".toList :=
    Image.readText_of_read rfl
  have hjson : Json.read? "\x7b\"capacity\": 16\x7d".toList =
      some (.object [(some Layout.capacityKey, .nat 16)]) := by
    rfl
  have hown : Layout.ofJson? (.object [(some Layout.capacityKey, .nat 16)]) =
      some ⟨16, 0, 3072⟩ := by decide
  have hload : loadMachine layoutFiles "p.hex".toList (stackOptions "small.json".toList).layout =
      .error (.layoutFile "small.json".toList
        (.text (.invalid (.regionOutOfRange .stack 3072 16)))) := by
    rw [loadMachine_layoutFile "p.hex".toList rfl hread hjson hown]
    rfl
  have hrun : perform layoutFiles (stackArguments "small.json".toList) =
      runCommand layoutFiles "p.hex".toList (stackOptions "small.json".toList) := by
    rw [perform, hcommand]
    rfl
  refine ⟨hown, rfl, ⟨by decide, by decide, by decide, by decide⟩, ?_⟩
  rw [hrun, runCommand, hload]

end Accumulator.CommandLine
