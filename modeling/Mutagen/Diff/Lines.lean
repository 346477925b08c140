import Mutagen.Diff.Shift
import Mutagen.Diff.Snake
import Mutagen.Text.Line

/-!
# Line diffs

The difference of two texts, line by line, and how it is shown.
-/

namespace Mutagen.Diff

def ofTexts (old new : String) : List (Mark × List Char) :=
  Script.marked [] [] (tidy (shortest (Text.lines old.toList) (Text.lines new.toList)))

def shownLine (line : List Char) : List Char :=
  match line.getLast? with
  | some '\n' | some '\r' => line
  | _ => line ++ ['\n']

def shown : Mark × List Char → List Char
  | (.kept, _) => []
  | (.deleted, line) => '-' :: ' ' :: shownLine line
  | (.inserted, line) => '+' :: ' ' :: shownLine line

def render (marked : List (Mark × List Char)) : String := String.ofList (marked.flatMap shown)

end Mutagen.Diff

