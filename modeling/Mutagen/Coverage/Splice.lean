import Mutagen.Text.Slice

/-!
# Splicing

Insertions into a text, each at a byte offset of the text as it was before.
-/

namespace Mutagen

structure Insertion where
  offset : Nat
  closing : Bool
  text : String
  deriving BEq, DecidableEq, Repr

namespace Insertion

/-- The order of insertions: by offset, and at one offset the closing ones first. -/
def precedes (a b : Insertion) : Bool :=
  a.offset < b.offset || (a.offset == b.offset && (a.closing || !b.closing))

def sort (insertions : List Insertion) : List Insertion := insertions.mergeSort precedes

/-- Splices insertions that are in order into the characters that follow `cursor`. -/
def splice? (cursor : Nat) (cs : List Char) : List Insertion → Option (List Char)
  | [] => some cs
  | insertion :: rest =>
    match Text.splitAt? cs (insertion.offset - cursor) with
    | none => none
    | some (before, after) =>
      (splice? insertion.offset after rest).map fun spliced =>
        before ++ insertion.text.toList ++ spliced

/-- The text with all insertions in it, if each offset lies between characters. -/
def render? (text : String) (insertions : List Insertion) : Option String :=
  (splice? 0 text.toList (sort insertions)).map String.ofList

end Insertion

end Mutagen
