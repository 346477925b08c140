import Mutagen.Json.Reader
import Mutagen.Mutant.Basic
import Mutagen.Text.Json

/-!
# Mutants in JSON
-/

namespace Mutagen.Mutant

def fieldNames : List String :=
  ["source_file", "span", "start_byte", "end_byte", "operator", "original", "replacement"]

def toJson (m : Mutant) : Json :=
  .object (List.zip (fieldNames.map Json.nameOf)
    [.ofText m.file, m.span.toJson, .ofNat m.start, .ofNat m.stop, .ofText m.operator,
      .ofText m.removed, .ofText m.replacement])

def ofJson? (value : Json) : Option Mutant := do
  match ← value.fields? fieldNames with
  | [file, span, start, stop, operator, removed, replacement] =>
    return {
      file := ← file.toText?
      span := ← Span.ofJson? span
      start := ← start.toNat?
      stop := ← stop.toNat?
      operator := ← operator.toText?
      removed := ← removed.toText?
      replacement := ← replacement.toText? }
  | _ => none

def encode (m : Mutant) : String := m.toJson.compact

def encodeAll (mutants : List Mutant) : String := (Json.array (mutants.map toJson)).compact

def decode? (text : String) : Option Mutant := (Json.parse? text).bind ofJson?

def decodeAll? (text : String) : Option (List Mutant) :=
  match Json.parse? text with
  | some (.array items) => items.mapM ofJson?
  | _ => none

end Mutagen.Mutant
