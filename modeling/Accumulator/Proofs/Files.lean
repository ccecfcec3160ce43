import Accumulator.Files
import Accumulator.Proofs.Text.Cutting

/-!
# Files beside a file that is written

Writing a file leaves every other file as it was. Two paths lead to different places if the names
that they end with are different, apart from paths that end with periods. So they lead to different
files, unless a file has several names.
-/

namespace Accumulator

namespace Path

/-- A path ends with a name: it is that name, or the name follows its last slash. -/
inductive EndsIn : Text → Text → Prop
  | whole {name : Text} (plain : '/' ∉ name) : EndsIn name name
  | last (above : Text) {name : Text} (plain : '/' ∉ name) : EndsIn (above ++ '/' :: name) name

theorem exists_endsIn (text : Text) : ∃ name, EndsIn text name := by
  by_cases hslash : '/' ∈ text
  · obtain ⟨name, above, hreverse, hplain⟩ :=
      List.eq_append_cons_of_mem (List.mem_reverse.mpr hslash)
    have htext : text = above.reverse ++ '/' :: name.reverse := by
      rw [← text.reverse_reverse, hreverse]
      simp
    rw [htext]
    exact ⟨name.reverse, .last above.reverse (by simpa using hplain)⟩
  · exact ⟨text, .whole hslash⟩

variable {text name suffix : Text}

theorem EndsIn.getLast?_pieces (h : EndsIn text name) :
    (text.pieces (· == '/')).getLast? = some name := by
  have hsingle : ∀ {name : Text}, '/' ∉ name → name.pieces (· == '/') = [name] := by
    intro name hplain
    apply Text.pieces_eq_singleton
    intro c hc
    exact beq_eq_false_iff_ne.mpr fun heq => hplain (heq ▸ hc)
  cases h with
  | whole plain => rw [hsingle plain, List.getLast?_singleton]
  | last above plain =>
      rw [Text.pieces_append_cons above name rfl, hsingle plain, List.getLast?_concat]

/-- A path without a slash at its end has the name that it ends with as its last name. -/
theorem EndsIn.getLast?_names (h : EndsIn text name) (hne : text ≠ [])
    (hopen : (ofText text).closed = false) : (ofText text).names.getLast? = some name := by
  have hname : name ≠ [] := by
    cases h with
    | whole plain => exact hne
    | last above plain =>
        rintro rfl
        simp [ofText] at hopen
  obtain ⟨before, hpieces⟩ := List.getLast?_eq_some_iff.mp h.getLast?_pieces
  rw [ofText, hpieces, List.filter_append, List.filter_cons_of_pos (by simpa using hname),
    List.filter_nil, List.getLast?_concat]

/-- A path ends like the name that it ends with. -/
theorem EndsIn.suffix_iff (h : EndsIn text name) (hsuffix : '/' ∉ suffix) :
    suffix <:+ text ↔ suffix <:+ name := by
  cases h with
  | whole plain => exact Iff.rfl
  | last above plain =>
      constructor
      · intro hends
        have hlast : name <:+ above ++ '/' :: name := ⟨above ++ ['/'], by simp⟩
        obtain hshort | hlong := List.suffix_or_suffix_of_suffix hends hlast
        · exact hshort
        · obtain ⟨start, rfl⟩ := hlong
          obtain ⟨before, htext⟩ := hends
          have hcut : before ++ start = above ++ ['/'] := by
            have hsame : before ++ start ++ name = above ++ ['/'] ++ name := by simpa using htext
            exact List.append_cancel_right hsame
          obtain rfl | ⟨first, c, rfl⟩ := List.eq_nil_or_concat' start
          · exact List.suffix_rfl
          · rw [← List.append_assoc] at hcut
            have hc : c = '/' := (List.append_singleton_inj.mp hcut).2
            exact absurd (by simp [hc]) hsuffix
      · intro hends
        exact hends.trans ⟨above ++ ['/'], by simp⟩

end Path

namespace Files

variable {files after : Files} {here target : Location} {text other : Text}

/-! ## Directories -/

theorem hasDirectory_dropLast (h : files.hasDirectory here = true) :
    files.hasDirectory here.dropLast = true := by
  obtain ⟨directory, hmem, hprefix⟩ := List.any_eq_true.mp h
  refine List.any_eq_true.mpr ⟨directory, hmem, ?_⟩
  rw [List.isPrefixOf_iff_prefix] at hprefix ⊢
  exact (List.dropLast_prefix here).trans hprefix

theorem hasDirectory_origin (files : Files) (path : Path) :
    files.hasDirectory (files.origin path) = true := by
  rw [hasDirectory, List.any_cons, origin]
  split <;> simp

/-- What can be entered is a directory. -/
theorem hasDirectory_of_enter {name : Text} (h : files.enter here name = .ok target) :
    files.hasDirectory target = true := by
  unfold enter find at h
  by_cases hlong : name.byteCount > Path.nameLimit
  · simp [hlong] at h
  · by_cases hknown : files.hasDirectory (here.next name) = true
    · simp only [hlong, hknown, if_true, if_false, Except.ok.injEq] at h
      rwa [← h]
    · cases hcontent : files.content? (here.next name) <;>
        simp [hlong, hknown, hcontent] at h

/-- A path is followed from directory to directory. -/
theorem hasDirectory_of_walk {names : List Text} (hhere : files.hasDirectory here = true)
    (h : files.walk here names = .ok target) : files.hasDirectory target = true := by
  induction names generalizing here with
  | nil =>
      obtain rfl := Except.ok.inj h
      exact hhere
  | cons name rest ih =>
      rw [walk] at h
      cases hname : files.enter here name with
      | error e => simp [hname] at h
      | ok next =>
          simp only [hname] at h
          exact ih (hasDirectory_of_enter hname) h

/-! ## Places of files -/

/-- A path is looked up in a directory, under its last name. -/
theorem of_locateText {name : Text} (h : files.locateText text = .ok (here, name)) :
    text ≠ [] ∧ (Path.ofText text).names.getLast? = some name ∧ files.hasDirectory here = true := by
  rw [locateText] at h
  cases hproblem : Path.problem? text with
  | some e => simp [hproblem] at h
  | none =>
      have hne : text ≠ [] := by
        rintro rfl
        exact absurd hproblem (by decide)
      simp only [hproblem, locate] at h
      cases hlast : (Path.ofText text).names.getLast? with
      | none => simp [hlast] at h
      | some last =>
          simp only [hlast] at h
          cases hwalk : files.walk (files.origin (Path.ofText text))
              (Path.ofText text).names.dropLast with
          | error e => simp [hwalk] at h
          | ok target =>
              simp only [hwalk, Except.ok.injEq, Prod.mk.injEq] at h
              obtain ⟨rfl, rfl⟩ := h
              exact ⟨hne, rfl, hasDirectory_of_walk (files.hasDirectory_origin _) hwalk⟩

/-- No directory has the place of a file, so the last name of its path is not made of periods. -/
theorem Places.next_eq {name : Text} (h : files.Places text here name) :
    here.next name = here ++ [name] := by
  have hhere := (of_locateText h.located).2.2
  have hplace := h.not_directory
  unfold Location.next at hplace ⊢
  split
  · rename_i hdot
    rw [if_pos hdot, hhere] at hplace
    exact Bool.noConfusion hplace
  · rename_i hdot
    split
    · rename_i hdots
      rw [if_neg hdot, if_pos hdots, hasDirectory_dropLast hhere] at hplace
      exact Bool.noConfusion hplace
    · rfl

/-- A path ends like the name of its file. -/
theorem Places.suffix_iff {suffix name : Text} (h : files.Places text here name)
    (hsuffix : '/' ∉ suffix) : suffix <:+ text ↔ suffix <:+ name := by
  obtain ⟨hne, hlast, _⟩ := of_locateText h.located
  obtain ⟨last, hends⟩ := Path.exists_endsIn text
  obtain rfl := Option.some.inj ((hends.getLast?_names hne h.open_path).symm.trans hlast)
  exact hends.suffix_iff hsuffix

theorem lookup_filter_of_ne {place : Location} (h : here ≠ place)
    (entries : List (Location × ByteArray)) :
    (entries.filter fun entry => entry.1 != place).lookup here = entries.lookup here := by
  induction entries with
  | nil => rfl
  | cons entry rest ih =>
      obtain ⟨key, content⟩ := entry
      by_cases hplace : key = place
      · have hother : (here == key) = false := beq_eq_false_iff_ne.mpr (hplace ▸ h)
        rw [List.filter_cons_of_neg (by simpa using hplace), ih, List.lookup_cons, hother]
      · rw [List.filter_cons_of_pos (by simpa using hplace), List.lookup_cons, List.lookup_cons, ih]

theorem content?_set_of_ne {place : Location} (h : files.home here ≠ files.home place)
    (content : ByteArray) : (files.set place content).content? here = files.content? here := by
  rw [content?, content?, home_set, set, List.lookup_cons, beq_eq_false_iff_ne.mpr h]
  exact lookup_filter_of_ne h files.entries

/-! ## Different files -/

/-- Two paths mean one file, by the same name or by two of its names. -/
def SameFile (files : Files) (text other : Text) : Prop :=
  ∃ here name there last, files.Places text here name ∧ files.Places other there last ∧
    files.home (here.next name) = files.home (there.next last)

/-- A file reads as before after another one has been written. -/
theorem read_write_of_separate {kept content : ByteArray} (hseparate : ¬ files.SameFile other text)
    (hread : files.read other = .ok kept) (hwrite : files.write text content = .ok after) :
    after.read other = .ok kept := by
  obtain ⟨here, name, hplace, hcontent⟩ := read_ok_iff.mp hread
  obtain ⟨there, written, hwritten, rfl⟩ := write_ok_iff.mp hwrite
  have hne : files.home (here.next name) ≠ files.home (there.next written) :=
    fun heq => hseparate ⟨here, name, there, written, hplace, hwritten, heq⟩
  refine read_ok_iff.mpr ⟨here, name, hplace.set _ _, ?_⟩
  rw [content?_set_of_ne hne, hcontent]

/-- Where no file has a further name, paths that end differently mean different files. -/
theorem not_sameFile_of_suffix {suffix : Text} (hlinks : files.links = []) (hsuffix : '/' ∉ suffix)
    (hother : suffix <:+ other) (htext : ¬ suffix <:+ text) : ¬ files.SameFile other text := by
  rintro ⟨here, name, there, last, hplace, hplace', heq⟩
  have hhome : ∀ place, files.home place = place := by
    intro place
    rw [home, hlinks]
    rfl
  rw [hhome, hhome, hplace.next_eq, hplace'.next_eq] at heq
  have hname : name = last := (List.append_singleton_inj.mp heq).2
  rw [hplace'.suffix_iff hsuffix, ← hname, ← hplace.suffix_iff hsuffix] at htext
  exact htext hother

end Files
end Accumulator
