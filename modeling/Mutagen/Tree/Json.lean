import Mutagen.Json.Field
import Mutagen.Json.Reader
import Mutagen.SyntaxError
import Mutagen.Tree.Listing

/-!
# Recorded trees

A parser can be given as a record of the trees of known texts: an array of objects with a dialect,
a text and the listing of its tree. An entry of a listing is the kind of a node, its marks, its
first byte, the byte after its last one, its role or null, and the number of its children. Marks
add up from 1 for a named node, 2 for an error, 4 for a missing token and 8 for a faulty subtree.
-/

namespace Mutagen

namespace Label

def hasMark (marks mark : Nat) : Bool := marks / mark % 2 == 1

def entryOfJson? : Json → Option (Label × Nat)
  | .array [kind, marks, start, stop, role, count] => do
    let marks ← marks.toNat?
    let label : Label := {
      kind := ← kind.toText?
      isNamed := hasMark marks 1
      isError := hasMark marks 2
      isMissing := hasMark marks 4
      faulty := hasMark marks 8
      start := ← start.toNat?
      stop := ← stop.toNat?
      field := role.toText? }
    return (label, ← count.toNat?)
  | _ => none

end Label

def Node.ofJson? : Json → Option Node
  | .array entries => (entries.mapM Label.entryOfJson?).bind Node.ofListing?
  | _ => none

structure RecordedTree where
  dialect : Dialect
  text : String
  root : Node

namespace RecordedTree

def ofJson? (value : Json) : Option RecordedTree := do
  match ← value.fields? ["dialect", "text", "tree"] with
  | [dialect, text, tree] =>
    return ⟨← dialect.toText?.bind Dialect.ofName?, ← text.toText?, ← Node.ofJson? tree⟩
  | _ => none

def decodeAll? (text : String) : Option (List RecordedTree) :=
  match Json.parse? text with
  | some (.array items) => items.mapM ofJson?
  | _ => none

def unknown (text : String) : Node :=
  .mk ⟨"program", true, false, false, true, 0, text.utf8ByteSize, none⟩ []

/-- The parser that knows the recorded trees. Any other text has the tree that `otherwise` gives. -/
def parser (trees : List RecordedTree) (otherwise : String → Node) : Parser :=
  .ofRecovery fun dialect text =>
    match trees.find? (fun known => known.dialect == dialect && known.text == text) with
    | some known => known.root
    | none => otherwise text

end RecordedTree

end Mutagen
