import Mutagen.Text.Position
import Mutagen.Text.Slice
import Mutagen.Tree.Site

/-!
# Mutants

A mutant is one small defect that could be put into a file: the range it replaces, the text that
stands there and the text to put in its place.
-/

namespace Mutagen

structure Mutant where
  file : String
  span : Span
  start : Nat
  stop : Nat
  operator : String
  removed : String
  replacement : String
  deriving BEq, DecidableEq, Repr

namespace Mutant

def ofSite? (file operator text : String) (site : Site) (replacement : String) : Option Mutant := do
  let removed ← Text.slice? text site.start site.stop
  return {
    file, operator, removed, replacement
    span := .ofOffsets text site.start site.stop
    start := site.start
    stop := site.stop }

/-- The text with the mutant in it, if its range begins and ends between characters. -/
def inject? (m : Mutant) (text : String) : Option String := do
  let before ← Text.before? text m.start
  let after ← Text.from? text m.stop
  return before ++ m.replacement ++ after

end Mutant

end Mutagen
