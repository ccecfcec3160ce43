import Accumulator.Path

/-!
# Files

A tree of directories holds files at places. A path is followed name by name, each of which has to
be that of a directory that is there, up to its last name, where a file is read or written. The
main statement says that a file that has been written reads back as it was written.

## Implementation notes

The places above a directory are directories by definition, so writing a file does not change which
directories there are. A file may have further names in other places; which ones does not change
either.
-/

namespace Accumulator

/-- The files in a tree of directories. -/
structure Files where
  /-- The directory that a path starts at unless it starts at the root. -/
  working : Location := []
  /-- Further directories. Those above a directory are there with it. -/
  directories : List Location := []
  /-- Places that are further names of files, with the places that the files are kept at. -/
  links : List (Location × Location) := []
  /-- What the files hold, by their places. -/
  entries : List (Location × ByteArray)

namespace Files

/-- No files. -/
def empty : Files := { entries := [] }

/-- The place that the file at a place is kept at. -/
def home (files : Files) (place : Location) : Location := (files.links.lookup place).getD place

/-- The content of the file at a place. -/
def content? (files : Files) (place : Location) : Option ByteArray :=
  files.entries.lookup (files.home place)

/-- Whether a directory is at a place. -/
def hasDirectory (files : Files) (place : Location) : Bool :=
  (files.working :: files.directories).any fun directory => place.isPrefixOf directory

/-- The directory that a path starts at. -/
def origin (files : Files) (path : Path) : Location := if path.absolute then [] else files.working

/-- The place that a path leads to, whether or not anything is there. -/
def reach (files : Files) (path : Path) : Location :=
  path.names.foldl Location.next (files.origin path)

/-- Replace or add the file at a place. -/
def set (files : Files) (place : Location) (content : ByteArray) : Files :=
  { files with
    entries := (files.home place, content) ::
      files.entries.filter fun entry => entry.1 != files.home place }

/-- Have a directory with a name. -/
def addDirectory (files : Files) (name : Text) : Files :=
  { files with directories := files.reach (Path.ofText name) :: files.directories }

/-- Have a file with a name, and the directory it is in. -/
def add (files : Files) (name : Text) (content : ByteArray) : Files :=
  let place := files.reach (Path.ofText name)
  { files.set place content with directories := place.dropLast :: files.directories }

/-- What a name in a directory stands for. -/
inductive Finding
  | directory
  | file (content : ByteArray)
  | nothing

/-- Look up a name in a directory. -/
def find (files : Files) (here : Location) (name : Text) : Except FileError Finding :=
  if name.byteCount > Path.nameLimit then .error .nameTooLong
  else if files.hasDirectory (here.next name) then .ok .directory
  else
    match files.content? (here.next name) with
    | some content => .ok (.file content)
    | none => .ok .nothing

/-- Go on from a directory to another one. -/
def enter (files : Files) (here : Location) (name : Text) : Except FileError Location :=
  match files.find here name with
  | .error e => .error e
  | .ok .directory => .ok (here.next name)
  | .ok (.file _) => .error .notDirectory
  | .ok .nothing => .error .notFound

/-- Go on from a directory through a sequence of others. -/
def walk (files : Files) (here : Location) : List Text → Except FileError Location
  | [] => .ok here
  | name :: names =>
      match files.enter here name with
      | .error e => .error e
      | .ok next => files.walk next names

/-- The last name of a path, after the directory that it is looked up in. The root directory is in
no other one. -/
def locate (files : Files) (path : Path) : Except FileError (Location × Text) :=
  match path.names.getLast? with
  | none => .error .isDirectory
  | some name =>
      match files.walk (files.origin path) path.names.dropLast with
      | .error e => .error e
      | .ok here => .ok (here, name)

/-- The last name of a path that is given as a text, after the directory that it is looked up in. -/
def locateText (files : Files) (text : Text) : Except FileError (Location × Text) :=
  match Path.problem? text with
  | some e => .error e
  | none => files.locate (Path.ofText text)

/-- Read a file. -/
def read (files : Files) (text : Text) : Except FileError ByteArray :=
  match files.locateText text with
  | .error e => .error e
  | .ok (here, name) =>
      match files.find here name with
      | .error e => .error e
      | .ok .directory => .error .isDirectory
      | .ok (.file content) =>
          if (Path.ofText text).closed then .error .notDirectory else .ok content
      | .ok .nothing => .error .notFound

/-- Read a file as text. -/
def readText (files : Files) (name : Text) : Except FileError Text :=
  match files.read name with
  | .error e => .error e
  | .ok content =>
      match String.fromUTF8? content with
      | some text => .ok text.toList
      | none => .error .notText

/-- Write a file, which need not be there before. A path that ends with a slash is refused before
its last name is looked up. -/
def write (files : Files) (text : Text) (content : ByteArray) : Except FileError Files :=
  match files.locateText text with
  | .error e => .error e
  | .ok (here, name) =>
      if (Path.ofText text).closed then .error .isDirectory
      else
        match files.find here name with
        | .error e => .error e
        | .ok .directory => .error .isDirectory
        | .ok _ => .ok (files.set (here.next name) content)

/-- The bytes of a text in UTF-8. -/
def encodeText (text : Text) : ByteArray := (String.ofList text).toUTF8

@[simp] theorem hasDirectory_set (files : Files) (place : Location) (content : ByteArray)
    (other : Location) : (files.set place content).hasDirectory other = files.hasDirectory other :=
  rfl

@[simp] theorem origin_set (files : Files) (place : Location) (content : ByteArray) (path : Path) :
    (files.set place content).origin path = files.origin path := rfl

@[simp] theorem home_set (files : Files) (place : Location) (content : ByteArray)
    (other : Location) : (files.set place content).home other = files.home other := rfl

@[simp] theorem content?_set_self (files : Files) (place : Location) (content : ByteArray) :
    (files.set place content).content? place = some content := by
  rw [content?, home_set]
  simp [set]

/-- A directory that could be entered can be entered after any file has been written. -/
theorem enter_set {files : Files} {here next : Location} {name : Text}
    (entered : files.enter here name = .ok next) (place : Location) (content : ByteArray) :
    (files.set place content).enter here name = .ok next := by
  unfold enter find at entered ⊢
  rw [hasDirectory_set]
  by_cases long : name.byteCount > Path.nameLimit
  · simp [long] at entered
  · by_cases known : files.hasDirectory (here.next name) = true
    · simpa [long, known] using entered
    · cases found : files.content? (here.next name) <;> simp [long, known, found] at entered

/-- A path that could be followed can be followed after any file has been written. -/
theorem walk_set {files : Files} {here target : Location} {names : List Text}
    (walked : files.walk here names = .ok target) (place : Location) (content : ByteArray) :
    (files.set place content).walk here names = .ok target := by
  induction names generalizing here with
  | nil => exact walked
  | cons name names ih =>
      unfold walk at walked ⊢
      cases entered : files.enter here name with
      | error e => simp [entered] at walked
      | ok next =>
          rw [enter_set entered place content]
          simp only [entered] at walked
          exact ih walked

theorem locate_set {files : Files} {path : Path} {target : Location × Text}
    (located : files.locate path = .ok target) (place : Location) (content : ByteArray) :
    (files.set place content).locate path = .ok target := by
  unfold locate at located ⊢
  cases last : path.names.getLast? with
  | none => simp [last] at located
  | some name =>
      cases walked : files.walk (files.origin path) path.names.dropLast with
      | error e => simp [last, walked] at located
      | ok here =>
          simp only [last, walked] at located
          simp only [origin_set, walk_set walked place content]
          exact located

theorem locateText_set {files : Files} {text : Text} {target : Location × Text}
    (located : files.locateText text = .ok target) (place : Location) (content : ByteArray) :
    (files.set place content).locateText text = .ok target := by
  unfold locateText at located ⊢
  cases problem : Path.problem? text with
  | some e => simp [problem] at located
  | none =>
      simp only [problem] at located
      exact locate_set located place content

/-- A path means a file: it leads to a name in a directory, and no directory has this name. -/
structure Places (files : Files) (text : Text) (here : Location) (name : Text) : Prop where
  located : files.locateText text = .ok (here, name)
  open_path : (Path.ofText text).closed = false
  short : ¬ name.byteCount > Path.nameLimit
  not_directory : files.hasDirectory (here.next name) = false

theorem Places.set {files : Files} {text name : Text} {here : Location}
    (h : files.Places text here name) (place : Location) (content : ByteArray) :
    (files.set place content).Places text here name where
  located := locateText_set h.located place content
  open_path := h.open_path
  short := h.short
  not_directory := h.not_directory

theorem read_ok_iff {files : Files} {text : Text} {content : ByteArray} :
    files.read text = .ok content ↔ ∃ here name, files.Places text here name ∧
      files.content? (here.next name) = some content := by
  constructor
  · intro h
    unfold read at h
    cases located : files.locateText text with
    | error e => simp [located] at h
    | ok target =>
        obtain ⟨here, name⟩ := target
        by_cases long : name.byteCount > Path.nameLimit
        · simp [located, find, long] at h
        · cases known : files.hasDirectory (here.next name) with
          | true => simp [located, find, long, known] at h
          | false =>
              cases found : files.content? (here.next name) with
              | none => simp [located, find, long, known, found] at h
              | some other =>
                  cases closed : (Path.ofText text).closed with
                  | true => simp [located, find, long, known, found, closed] at h
                  | false =>
                      have content_eq : other = content := by
                        simpa [located, find, long, known, found, closed] using h
                      rw [content_eq] at found
                      exact ⟨here, name, ⟨located, closed, long, known⟩, found⟩
  · rintro ⟨here, name, place, found⟩
    simp [read, place.located, place.open_path, find, place.short, place.not_directory, found]

theorem write_ok_iff {files after : Files} {text : Text} {content : ByteArray} :
    files.write text content = .ok after ↔ ∃ here name, files.Places text here name ∧
      after = files.set (here.next name) content := by
  constructor
  · intro h
    unfold write at h
    cases located : files.locateText text with
    | error e => simp [located] at h
    | ok target =>
        obtain ⟨here, name⟩ := target
        cases closed : (Path.ofText text).closed with
        | true => simp [located, closed] at h
        | false =>
            by_cases long : name.byteCount > Path.nameLimit
            · simp [located, closed, find, long] at h
            · cases known : files.hasDirectory (here.next name) with
              | true => simp [located, closed, find, long, known] at h
              | false =>
                  refine ⟨here, name, ⟨located, closed, long, known⟩, ?_⟩
                  cases found : files.content? (here.next name) <;>
                    simpa [located, closed, find, long, known, found, eq_comm] using h
  · rintro ⟨here, name, place, rfl⟩
    cases found : files.content? (here.next name) <;>
      simp [write, place.located, place.open_path, find, place.short, place.not_directory, found]

/-- A file that has been written reads back as it was written. -/
theorem read_of_write {files after : Files} {text : Text} {content : ByteArray}
    (written : files.write text content = .ok after) : after.read text = .ok content := by
  obtain ⟨here, name, place, rfl⟩ := write_ok_iff.mp written
  exact read_ok_iff.mpr ⟨here, name, place.set _ _, content?_set_self _ _ _⟩

end Files
end Accumulator
