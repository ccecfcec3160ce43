import Accumulator.Proofs.CommandLine.Arguments
import Accumulator.Proofs.CommandLine.Slicing
import Accumulator.Proofs.Files
import Accumulator.Proofs.Image.RoundTrip

/-!
# Running an assembled image

Assembling a source file to an image and running the image is the same as running the source at the
address that it was assembled for. The two runs use the same options and differ only in the name
that they print.
-/

namespace Accumulator.CommandLine

variable {files : Files} {source image name other : Text} {base : UInt16}

/-! ## The two files -/

/-- An assembly that succeeds has read a source and saved its bytes. -/
theorem exists_of_assembleCommand
    (h : (assembleCommand files source (some image) base).exitCode = 0) :
    ∃ text bytes, files.readText source = .ok text ∧ assemble text base = .ok bytes ∧
      Image.save files image bytes base =
        .ok (assembleCommand files source (some image) base).files := by
  unfold assembleCommand readSource at h ⊢
  cases htext : files.readText source with
  | error e => simp [htext, fail] at h
  | ok text =>
      cases hassemble : assemble text base with
      | error e => simp [htext, hassemble, fail, Except.mapError] at h
      | ok bytes =>
          cases hsave : Image.save files image bytes base with
          | error e => simp [htext, hassemble, hsave, fail, Except.mapError] at h
          | ok saved =>
              refine ⟨text, bytes, rfl, hassemble, ?_⟩
              simp [hsave, hassemble, Except.mapError, succeed]

theorem not_mem_sourceSuffix : '/' ∉ sourceSuffix := by decide

theorem isSource_iff : isSource name = true ↔ sourceSuffix <:+ name := List.isSuffixOf_iff_suffix

/-- Where no file has a further name, a source and an image are different files. -/
theorem not_sameFile (hlinks : files.links = []) (hsource : isSource source = true)
    (himage : isSource image = false) : ¬ files.SameFile source image := by
  apply Files.not_sameFile_of_suffix hlinks not_mem_sourceSuffix (isSource_iff.mp hsource)
  rw [← isSource_iff, himage]
  exact Bool.false_ne_true

/-- Assembling leaves its source as it was. -/
theorem readText_of_save {saved : Files} {bytes : List UInt8} {text : Text}
    (hseparate : ¬ files.SameFile source image) (htext : files.readText source = .ok text)
    (h : Image.save files image bytes base = .ok saved) : saved.readText source = .ok text := by
  rw [Files.readText] at htext ⊢
  cases hread : files.read source with
  | error e => simp [hread] at htext
  | ok content =>
      rw [hread] at htext
      rw [Files.read_write_of_separate hseparate hread (Image.exists_write_of_save h)]
      exact htext

/-- After an assembly the source and the image hold the same program. -/
theorem readProgram_assembled (hsource : isSource source = true) (himage : isSource image = false)
    (hseparate : ¬ files.SameFile source image)
    (h : (assembleCommand files source (some image) base).exitCode = 0) :
    readProgram (assembleCommand files source (some image) base).files image base =
      readProgram (assembleCommand files source (some image) base).files source base := by
  obtain ⟨text, bytes, htext, hassemble, hsave⟩ := exists_of_assembleCommand h
  have hfromImage : readBytes (assembleCommand files source (some image) base).files image base =
      .ok bytes := by
    rw [readBytes, himage, Image.load_of_save hsave]
    rfl
  have hfromSource : readBytes (assembleCommand files source (some image) base).files source base =
      .ok bytes := by
    rw [readBytes, hsource, if_pos rfl, readSource, readText_of_save hseparate htext hsave]
    simp only [hassemble]
    rfl
  rw [readProgram, readProgram, hfromImage, hfromSource]

/-! ## The two runs -/

theorem heapStart_of_resolveLayout {options : LayoutOptions} {layout : Layout}
    (hbase : options.heapStart = some base) (h : resolveLayout files options = .ok layout) :
    layout.heapStart = base := by
  obtain ⟨start, _, rfl⟩ := exists_of_map_ok h
  simp [overrideLayout, hbase]

/-- Files with the same program at the start of the heap make the same machine. -/
theorem loadMachine_congr {options : LayoutOptions} (hbase : options.heapStart = some base)
    (h : readProgram files name base = readProgram files other base) :
    loadMachine files name options = loadMachine files other options := by
  unfold loadMachine
  cases hlayout : resolveLayout files options with
  | error failure => rfl
  | ok layout => simp only [heapStart_of_resolveLayout hbase hlayout, h]

/-- Two outputs are the same, up to the name of the program in the first line. -/
def SameOutput (name other : Text) (output output' : String) : Prop :=
  output = output' ∨ ∃ rest, output = "🔧 Running: " ++ String.ofList name ++ rest ∧
    output' = "🔧 Running: " ++ String.ofList other ++ rest

/-- Two outcomes are the same, up to the name of the program in the first line of the output. -/
structure SameButName (name other : Text) (outcome outcome' : Outcome) : Prop where
  exitCode : outcome.exitCode = outcome'.exitCode
  errors : outcome.errors = outcome'.errors
  files : outcome.files = outcome'.files
  output : SameOutput name other outcome.output outcome'.output

theorem SameButName.refl (name other : Text) (outcome : Outcome) :
    SameButName name other outcome outcome := ⟨rfl, rfl, rfl, .inl rfl⟩

theorem SameOutput.fail {output output' : String} (h : SameOutput name other output output')
    (files : Files) (failure : Failure) :
    SameButName name other (fail files output failure) (fail files output' failure) :=
  ⟨rfl, rfl, rfl, h⟩

theorem SameOutput.succeed {output output' : String} (h : SameOutput name other output output')
    (files : Files) : SameButName name other (succeed files output) (succeed files output') :=
  ⟨rfl, rfl, rfl, h⟩

theorem exists_startText (size : Nat) (heapStart : UInt16) :
    ∃ rest, ∀ name, startText name size heapStart =
      "🔧 Running: " ++ String.ofList name ++ rest := by
  refine ⟨" (" ++ toString size ++ " bytes at " ++ String.ofList (HexBytes.word heapStart) ++ ")" ++
    "\n" ++ (line "" ++ line "━━━ Execution ━━━"), fun name => ?_⟩
  simp only [startText, line, String.append_assoc]

theorem sameOutput_report (name other : Text) (size : Nat) (options : RunOptions) (e : Execution) :
    SameOutput name other (report name size options e) (report other size options e) := by
  rw [report_eq, report_eq]
  cases options.json with
  | true =>
      have hhead : ∀ name, reportHead name size e.machine.layout.heapStart true = "" := fun _ => rfl
      rw [hhead, hhead]
      exact .inl rfl
  | false =>
      obtain ⟨rest, hstart⟩ := exists_startText size e.machine.layout.heapStart
      have hhead : ∀ name, reportHead name size e.machine.layout.heapStart false =
          "🔧 Running: " ++ String.ofList name ++ rest := hstart
      simp only [hhead, String.append_assoc]
      exact .inr ⟨_, (String.append_assoc ..).symm, (String.append_assoc ..).symm⟩

/-- Running two files with the same program gives the same outcome. -/
theorem runCommand_congr {options : RunOptions} (hbase : options.layout.heapStart = some base)
    (h : readProgram files name base = readProgram files other base) :
    SameButName name other (runCommand files name options) (runCommand files other options) := by
  have hload := loadMachine_congr hbase h
  cases hother : loadMachine files other options.layout with
  | error failure =>
      rw [hother] at hload
      simp only [runCommand, hload, hother]
      exact .refl name other _
  | ok loaded =>
      obtain ⟨m, program⟩ := loaded
      rw [hother] at hload
      rw [runCommand_eq hload, runCommand_eq hother]
      have hreport := sameOutput_report name other program.length options (execute options m)
      cases (execute options m).fault with
      | some fault => exact hreport.fail files (.fault fault)
      | none => exact hreport.succeed files

/-! ## The command lines -/

/-- The arguments that assemble a source to an image for an address. -/
def assembleArguments (source image address : Text) : List Text :=
  ["asm".toList, source, "-o".toList, image, "--base".toList, address]

/-- The arguments that run a program at an address, with further arguments. -/
def runArguments (program address : Text) (rest : List Text) : List Text :=
  "run".toList :: program :: "--heap-start".toList :: address :: rest

variable {address : Text} {given last : Given}

/-- The options of an assembly do not hide its operand, and the name of the image is one. -/
theorem of_readArguments_assemble
    (h : readArguments assembleSpec given ["-o".toList, image, "--base".toList, address] =
      .given last) : isPlain image = true ∧ last.operand = given.operand := by
  rw [readArguments_of_awaiting (by decide) rfl] at h
  split at h
  · rename_i hplain
    refine ⟨hplain, ?_⟩
    split at h
    · rename_i next hnext
      rw [readArguments_of_awaiting (by decide) rfl] at h
      split at h
      · split at h
        · rename_i final hfinal
          obtain rfl := Option.some.inj (eq_some_of_conclude h)
          exact (Given.operand_of_addValue? hfinal).trans (Given.operand_of_addValue? hnext)
        · cases h
      · cases h
    · cases h
  · cases h

theorem ofArguments?_assemble (source image address : Text) :
    Command.ofArguments? (assembleArguments source image address) =
      match readArguments assembleSpec {}
        [source, "-o".toList, image, "--base".toList, address] with
      | .misuse => none
      | .help => some .help
      | .given given =>
          some (.assemble (given.operand.getD []) (given.value? "output".toList) given.base) :=
  rfl

theorem ofArguments?_run (program address : Text) (rest : List Text) :
    Command.ofArguments? (runArguments program address rest) =
      match readArguments runSpec {} (program :: "--heap-start".toList :: address :: rest) with
      | .misuse => none
      | .help => some .help
      | .given given => some (.run (given.operand.getD []) given.runOptions) :=
  rfl

/-- With names and an address that do not look like options, these arguments always assemble. -/
theorem ofArguments?_assemble_of_plain (hsource : isPlain source = true)
    (himage : isPlain image = true) (haddress : isPlain address = true)
    (hbase : readAddress? address = some base) :
    Command.ofArguments? (assembleArguments source image address) =
      some (.assemble source (some image) base) := by
  have houtput : ({ operand := some source } : Given).addValue?
      { name := "output".toList, letter := some 'o', accepts := some fun _ => true } image =
      some { values := [("output".toList, image)], operand := some source } := by
    simp [Given.addValue?_eq, Given.has, Given.value?]
  have hlast : ({ values := [("output".toList, image)], operand := some source } : Given).addValue?
      baseSpec address = some
        { values := [("base".toList, address), ("output".toList, image)]
          operand := some source } := by
    simp [Given.addValue?_eq, Given.has, Given.value?, baseSpec, hbase]
  rw [ofArguments?_assemble, readArguments_of_next (ne_dashes_of_isPlain hsource)
    (readArgument_of_isPlain hsource rfl rfl), readArguments_of_awaiting (by decide) rfl,
    if_pos himage, houtput]
  dsimp only
  rw [readArguments_of_awaiting (by decide) rfl, if_pos haddress, hlast]
  have hgiven : Given.base
      { values := [("base".toList, address), ("output".toList, image)], operand := some source } =
      base := by
    simp [Given.base, Given.read?, Given.value?, hbase]
  exact congrArg (fun b => some (Command.assemble source (some image) b)) hgiven

/-- Arguments that assemble a source to an image have both names as plain arguments. -/
theorem plain_of_ofArguments? (hsource : isSource source = true)
    (h : Command.ofArguments? (assembleArguments source image address) =
      some (.assemble source (some image) base)) :
    isPlain source = true ∧ isPlain image = true := by
  rw [ofArguments?_assemble] at h
  cases hread : readArguments assembleSpec {}
      [source, "-o".toList, image, "--base".toList, address] with
  | misuse | help =>
      rw [hread] at h
      cases h
  | given last =>
      simp only [hread, Option.some.injEq, Command.assemble.injEq] at h
      have hoperand : last.operand ≠ none := by
        intro hnone
        rw [hnone, Option.getD_none] at h
        rw [← h.1] at hsource
        exact absurd hsource (by decide)
      cases hplain : isPlain source with
      | true =>
          rw [readArguments_of_next (ne_dashes_of_isPlain hplain)
            (readArgument_of_isPlain hplain rfl rfl)] at hread
          exact ⟨rfl, (of_readArguments_assemble hread).1⟩
      | false =>
          exfalso
          have hdashes : source ≠ ['-', '-'] := by
            rintro rfl
            exact absurd hsource (by decide)
          cases hstep : readArgument assembleSpec {} source with
          | misuse | help =>
              rw [readArguments_cons, if_neg hdashes, hstep] at hread
              cases hread
          | next next =>
              have hnext := operand_of_not_isPlain hplain (congrArg ArgumentStep.given? hstep)
              rw [readArguments_of_next hdashes hstep] at hread
              exact hoperand ((of_readArguments_assemble hread).2.trans hnext)
          | awaiting named o =>
              rw [readArguments_of_awaiting hdashes hstep, if_neg (by decide)] at hread
              cases hread

/-- What a run has been given before its further arguments. -/
def runGiven (program address : Text) : Given :=
  { values := [("heap-start".toList, address)], operand := some program }

theorem readArguments_run {program : Text} (hprogram : isPlain program = true)
    (haddress : readAddress? address = some base) (rest : List Text) :
    readArguments runSpec {} (program :: "--heap-start".toList :: address :: rest) =
      if isPlain address then readArguments runSpec (runGiven program address) rest
      else .misuse := by
  have hadd : ({ operand := some program } : Given).addValue?
      { name := "heap-start".toList, accepts := some fun v => (readAddress? v).isSome } address =
      some (runGiven program address) := by
    simp [Given.addValue?_eq, haddress, Given.has, Given.value?, runGiven]
  rw [readArguments_of_next (ne_dashes_of_isPlain hprogram)
    (readArgument_of_isPlain hprogram rfl rfl), readArguments_of_awaiting (by decide) rfl, hadd]

/-- The runs of two programs with the same further arguments are understood alike: neither is
understood, both ask for help, or both run with the same options and the given address. -/
theorem ofArguments?_run_cases {program other : Text} (hprogram : isPlain program = true)
    (hother : isPlain other = true) (haddress : readAddress? address = some base)
    (rest : List Text) :
    Command.ofArguments? (runArguments program address rest) =
        Command.ofArguments? (runArguments other address rest) ∨
      ∃ options : RunOptions, options.layout.heapStart = some base ∧
        Command.ofArguments? (runArguments program address rest) = some (.run program options) ∧
        Command.ofArguments? (runArguments other address rest) = some (.run other options) := by
  have hsame : readArguments runSpec (runGiven other address) rest =
      (readArguments runSpec (runGiven program address) rest).withOperand (some other) := by
    have hoperand : (runGiven program address).operand = some program := rfl
    exact readArguments_withOperand hoperand other rest
  rw [ofArguments?_run, ofArguments?_run, readArguments_run hprogram haddress,
    readArguments_run hother haddress, hsame]
  cases isPlain address with
  | false => exact .inl rfl
  | true =>
      cases hread : readArguments runSpec (runGiven program address) rest with
      | misuse | help => exact .inl rfl
      | given last =>
          have hextends := extends_of_readArguments hread
          have hoperand : last.operand = some program := hextends.operand rfl
          have hvalue : last.value? "heap-start".toList = some address := hextends.value rfl
          refine .inr ⟨last.runOptions, ?_, ?_, rfl⟩
          · simp only [Given.runOptions, Given.layoutOptions, Given.read?, hvalue, Option.bind_some,
              haddress]
          · simp only [if_true, hoperand, Option.getD_some]

/-- Assembling a source to an image and running the image is running the source, for all further
options that leave the start of the heap where the source was assembled for. The two runs have the
same exit code, the same errors and the same output, up to the name of the program in its first
line. The image must not be another name of the file of the source, which would then be
overwritten. -/
theorem run_assembled (hsource : isSource source = true) (himage : isSource image = false)
    (hseparate : ¬ files.SameFile source image)
    (hcommand : Command.ofArguments? (assembleArguments source image address) =
      some (.assemble source (some image) base))
    (hdone : (perform files (assembleArguments source image address)).exitCode = 0) :
    let after := (perform files (assembleArguments source image address)).files
    (∀ options : RunOptions, options.layout.heapStart = some base →
      SameButName image source (runCommand after image options) (runCommand after source options)) ∧
    ∀ start rest, readAddress? start = some base →
      SameButName image source (perform after (runArguments image start rest))
        (perform after (runArguments source start rest)) := by
  have hperform : perform files (assembleArguments source image address) =
      assembleCommand files source (some image) base := by
    rw [perform, hcommand]
    rfl
  rw [hperform] at hdone ⊢
  intro after
  have hprogram := readProgram_assembled hsource himage hseparate hdone
  have hruns : ∀ options : RunOptions, options.layout.heapStart = some base →
      SameButName image source (runCommand after image options)
        (runCommand after source options) :=
    fun options hbase => runCommand_congr hbase hprogram
  refine ⟨hruns, fun start rest hstart => ?_⟩
  obtain ⟨hplain, himagePlain⟩ := plain_of_ofArguments? hsource hcommand
  obtain hsame | ⟨options, hbase, himageRun, hsourceRun⟩ :=
    ofArguments?_run_cases himagePlain hplain hstart rest
  · rw [perform, perform, hsame]
    exact .refl image source _
  · rw [perform, perform, himageRun, hsourceRun]
    exact hruns options hbase

/-- A directory with one source, which jumps to its own start. -/
def loopFiles : Files :=
  { entries := [(["s.asm".toList], Files.encodeText "X: JMP X".toList)] }

theorem run_assembled_loop :
    ¬ loopFiles.SameFile "s.asm".toList "i.bin".toList ∧
    (perform loopFiles (assembleArguments "s.asm".toList "i.bin".toList "16".toList)).exitCode = 0 ∧
    SameButName "i.bin".toList "s.asm".toList
      (perform (perform loopFiles
          (assembleArguments "s.asm".toList "i.bin".toList "16".toList)).files
        (runArguments "i.bin".toList "0x10".toList ["--max-steps=2".toList]))
      (perform (perform loopFiles
          (assembleArguments "s.asm".toList "i.bin".toList "16".toList)).files
        (runArguments "s.asm".toList "0x10".toList ["--max-steps=2".toList])) := by
  have hcommand : Command.ofArguments?
      (assembleArguments "s.asm".toList "i.bin".toList "16".toList) =
      some (.assemble "s.asm".toList (some "i.bin".toList) 16) :=
    ofArguments?_assemble_of_plain (by decide) (by decide) (by decide) (by decide)
  have hread : loopFiles.readText "s.asm".toList = .ok "X: JMP X".toList := by
    have hcontent : loopFiles.read "s.asm".toList = .ok (Files.encodeText "X: JMP X".toList) := rfl
    rw [Files.readText, hcontent]
    simp only [Image.fromUTF8?_encodeText, String.toList_ofList]
  have hdone : (perform loopFiles
      (assembleArguments "s.asm".toList "i.bin".toList "16".toList)).exitCode = 0 := by
    have hassemble : assemble "X: JMP X".toList 16 = .ok [0x41, 0x10, 0x00] := by
      apply ok_of_toOption
      decide +kernel
    rw [perform, hcommand]
    simp only [Command.perform, assembleCommand, readSource, hread, hassemble]
    rfl
  have hseparate : ¬ loopFiles.SameFile "s.asm".toList "i.bin".toList :=
    not_sameFile rfl (by decide) (by decide)
  exact ⟨hseparate, hdone,
    (run_assembled (by decide) (by decide) hseparate hcommand hdone).2 _ _ (by decide)⟩

end Accumulator.CommandLine
