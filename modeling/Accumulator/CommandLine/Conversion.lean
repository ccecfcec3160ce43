import Accumulator.CommandLine.Loading
import Accumulator.Listing

/-!
# Assembling and disassembling files

The assembler reads a source file and saves an image; without a name for the image it takes that of
the source. The disassembler reads an image and prints its listing.
-/

namespace Accumulator.CommandLine

/-- The name of the image of a source, where none is given. -/
def imageName (source : Text) : Text :=
  let stem := if isSource source then source.take (source.length - sourceSuffix.length) else source
  stem ++ ".hex".toList

/-- Assemble a source file to an image file. -/
def assembleCommand (files : Files) (source : Text) (output : Option Text) (base : UInt16) :
    Outcome :=
  let target := output.getD (imageName source)
  let started := line ("📝 Assembling: " ++ String.ofList source ++ " → " ++ String.ofList target)
  match readSource files source base with
  | .error failure => fail files started failure
  | .ok bytes =>
      let assembled := started ++ line ("✓ Assembled " ++ toString bytes.length ++ " bytes")
      match Image.save files target bytes base with
      | .error e => fail files assembled (.save e)
      | .ok saved => succeed saved (assembled ++ line ("✓ Saved to " ++ String.ofList target))

/-- Print the listing of an image file. -/
def disassembleCommand (files : Files) (image : Text) (base : UInt16) : Outcome :=
  match Image.load files image with
  | .error e => fail files "" (.image e)
  | .ok bytes => succeed files (line (String.ofList (Listing.render bytes base)))

end Accumulator.CommandLine
