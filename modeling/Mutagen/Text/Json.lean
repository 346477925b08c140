import Mutagen.Json.Field
import Mutagen.Json.Writer
import Mutagen.Text.Position

/-!
# Positions and spans in JSON
-/

namespace Mutagen

def Position.toJson (p : Position) : Json :=
  .object [(Json.nameOf "line", .ofNat p.line), (Json.nameOf "column", .ofNat p.column)]

def Position.ofJson? (value : Json) : Option Position := do
  match ← value.fields? ["line", "column"] with
  | [line, column] => return ⟨← line.toNat?, ← column.toNat?⟩
  | _ => none

def Span.toJson (s : Span) : Json :=
  .object [(Json.nameOf "start", s.start.toJson), (Json.nameOf "end", s.stop.toJson)]

def Span.ofJson? (value : Json) : Option Span := do
  match ← value.fields? ["start", "end"] with
  | [start, stop] => return ⟨← Position.ofJson? start, ← Position.ofJson? stop⟩
  | _ => none

end Mutagen
