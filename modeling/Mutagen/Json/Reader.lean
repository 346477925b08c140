import Mutagen.Json.Basic
import Mutagen.Json.Token

/-!
# Reading JSON

A reader goes through the tokens of a text and keeps the values around the place where it stands.
No text is read in part: what is left over after a value makes the text unreadable.
-/

namespace Mutagen.Json

/-- A container in which a value is due; what it holds so far is in reverse. -/
inductive Hole
  | item (items : List Json)
  | member (members : List (List Char × Json)) (name : List Char)
  deriving BEq, Repr

/-- What a reader expects next; `around` are the holes from the innermost one outwards. -/
inductive Reading
  | due (around : List Hole)
  | firstItem (around : List Hole)
  | afterItem (around : List Hole) (items : List Json)
  | firstName (around : List Hole)
  | dueName (around : List Hole) (members : List (List Char × Json))
  | dueColon (around : List Hole) (members : List (List Char × Json)) (name : List Char)
  | afterMember (around : List Hole) (members : List (List Char × Json))
  | done (value : Json)
  deriving BEq, Repr

namespace Reading

def fill (value : Json) : List Hole → Reading
  | [] => .done value
  | .item items :: around => .afterItem around (value :: items)
  | .member members name :: around => .afterMember around ((name, value) :: members)

def start? (around : List Hole) : Token → Option Reading
  | .null => some (fill .null around)
  | .bool value => some (fill (.bool value) around)
  | .number spelling => some (fill (.number spelling) around)
  | .string spelling => some (fill (.string spelling) around)
  | .openArray => some (.firstItem around)
  | .openObject => some (.firstName around)
  | _ => none

def step? : Reading → Token → Option Reading
  | .due around, token => start? around token
  | .firstItem around, .closeArray => some (fill (.array []) around)
  | .firstItem around, token => start? (.item [] :: around) token
  | .afterItem around items, .comma => some (.due (.item items :: around))
  | .afterItem around items, .closeArray => some (fill (.array items.reverse) around)
  | .firstName around, .closeObject => some (fill (.object []) around)
  | .firstName around, .string name => some (.dueColon around [] name)
  | .dueName around members, .string name => some (.dueColon around members name)
  | .dueColon around members name, .colon => some (.due (.member members name :: around))
  | .afterMember around members, .comma => some (.dueName around members)
  | .afterMember around members, .closeObject => some (fill (.object members.reverse) around)
  | _, _ => none

def run? : Reading → List Token → Option Reading
  | reading, [] => some reading
  | reading, token :: rest => (step? reading token).bind (run? · rest)

end Reading

def parse? (text : String) : Option Json := do
  let tokens ← tokens? text.toList
  match ← Reading.run? (.due []) tokens with
  | .done value => some value
  | _ => none

end Mutagen.Json
