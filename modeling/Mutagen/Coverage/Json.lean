import Mutagen.Coverage.StatementMap
import Mutagen.Json.Reader
import Mutagen.Text.Json

/-!
# Statement maps in JSON

An object with the ids as names, in plain decimal without escapes.
-/

namespace Mutagen.StatementMap

def idBound : Nat := Nat.pow 2 32

def toJson (m : StatementMap) : Json :=
  .object (m.entries.map fun e => (Json.Decimal.encode e.1, e.2.toJson))

def entryOfJson? (member : List Char × Json) : Option (Nat × Span) := do
  return (← Json.Decimal.below? idBound member.1, ← Span.ofJson? member.2)

def ofJson? : Json → Option StatementMap
  | .object members => (members.mapM entryOfJson?).map ofEntries
  | _ => none

def encode (m : StatementMap) : String := m.toJson.compact

def encodePretty (m : StatementMap) : String := m.toJson.pretty

def decode? (text : String) : Option StatementMap := (Json.parse? text).bind ofJson?

end Mutagen.StatementMap
