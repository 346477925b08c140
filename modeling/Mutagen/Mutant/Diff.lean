import Mutagen.Diff.Lines
import Mutagen.Mutant.Basic

/-!
# What a mutant changes

The lines that differ between a text and the text with the mutant in it.
-/

namespace Mutagen.Mutant

def diff? (m : Mutant) (text : String) : Option String := do
  let mutated ← m.inject? text
  return Diff.render (Diff.ofTexts text mutated)

end Mutagen.Mutant
