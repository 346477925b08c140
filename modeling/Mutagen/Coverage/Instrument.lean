import Mutagen.Coverage.Plan
import Mutagen.SyntaxError
import Mutagen.Text.Encoding

/-!
# Instrumenting a text

The instrumented text is only handed out if it can be parsed again.
-/

namespace Mutagen.Coverage

inductive InstrumentError
  | encoding (cause : EncodingError)
  | unparsable (cause : SyntaxError)
  | misplaced
  | broken (cause : SyntaxError)
  deriving BEq, DecidableEq, Repr

def InstrumentError.message : InstrumentError → String
  | .encoding cause => "Invalid UTF-8: " ++ cause.message
  | .unparsable cause => "Error: " ++ cause.message
  | .misplaced => "Error: a counter is no part of the text"
  | .broken cause => "Instrumented output no longer parses: " ++ cause.message

structure Setting where
  file : String
  object : String
  parser : Parser

def Setting.dialect (setting : Setting) : Dialect := .ofPath setting.file

def instrumentText (setting : Setting) (text : String) :
    Except InstrumentError (String × StatementMap) :=
  match setting.parser setting.dialect text with
  | .error cause => .error (.unparsable cause)
  | .ok root =>
    let plan := Plan.ofTree setting.object text root
    match plan.render? text with
    | none => .error .misplaced
    | some code =>
      match setting.parser setting.dialect code with
      | .error cause => .error (.broken cause)
      | .ok _ => .ok (code, plan.map)

def instrumentBytes (setting : Setting) (bytes : Bytes) :
    Except InstrumentError (String × StatementMap) :=
  match bytes.toText with
  | .error cause => .error (.encoding cause)
  | .ok text => instrumentText setting text

end Mutagen.Coverage
