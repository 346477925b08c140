import Mutagen.Notice
import Mutagen.Operator.Registry
import Mutagen.SyntaxError

/-!
# Surveys

A survey finds every place in a list of files where the operators of a registry apply. Its order
is fixed: files as given, nodes in document order, operators in registry order. A missing file is
reported in the log and left out; anything else that fails ends the survey.
-/

namespace Mutagen

/-- Why a file cannot be read. A failure is about the path that was asked for, unless it names
another one. -/
inductive ReadFailure
  | missing (named : Option String := none)
  | other (message : String) (named : Option String := none)
  deriving BEq, DecidableEq, Repr

/-- A reader gives the same answer whenever it is asked for the same path. -/
abbrev Reader := String → Except ReadFailure String

inductive SurveyError
  | emptyPath (index : Nat)
  | unreadable (path message : String)
  | unparsable (path : String) (cause : SyntaxError)
  | failed (path operator : String) (cause : OperatorError)
  deriving BEq, DecidableEq, Repr

def SurveyError.message : SurveyError → String
  | .emptyPath index => s!"Invalid argument: source file at position {index} is an empty path"
  | .unreadable path message => s!"Failed to read '{path}': {message}"
  | .unparsable path cause => s!"Failed to parse '{path}': {cause.message}"
  | .failed path operator cause => s!"Operator '{operator}' failed on '{path}': {cause.message}"

inductive Finding
  | missing (path : String)
  | mutants (found : List Mutant)
  deriving BEq, DecidableEq, Repr

namespace Finding

def found : Finding → List Mutant
  | .missing _ => []
  | .mutants found => found

def notices : Finding → Log
  | .missing path => [⟨.info, s!"Skipping file {path} because it does not exist"⟩]
  | .mutants _ => []

end Finding

structure Report where
  result : Except SurveyError (List Mutant)
  log : Log
  reads : List String

namespace Report

def blank : Report := ⟨.ok [], [], []⟩

def fail (e : SurveyError) : Report := ⟨.error e, [], []⟩

def follow (finding : Finding) (rest : Report) : Report :=
  { rest with
    result := rest.result.map (finding.found ++ ·)
    log := finding.notices ++ rest.log }

def reading (path : String) (rest : Report) : Report := { rest with reads := path :: rest.reads }

end Report

/-- The lists that `f` gives for the elements, joined; the first failure is the result. -/
def gather {α β ε : Type} (f : α → Except ε (List β)) : List α → Except ε (List β)
  | [] => .ok []
  | a :: rest => do
    let first ← f a
    let more ← gather f rest
    return first ++ more

structure Survey where
  registry : Registry
  reader : Reader
  parser : Parser

namespace Survey

def consult (path text : String) (site : Site) (operator : Operator) :
    Except SurveyError (List Mutant) :=
  if operator.applies site then
    match operator.mutants path text site with
    | .ok found => .ok found
    | .error cause => .error (.failed path operator.name cause)
  else .ok []

def mutantsOf (s : Survey) (path text : String) (root : Node) : Except SurveyError (List Mutant) :=
  gather (fun site => gather (consult path text site) s.registry.operators)
    (root.sitesOfKind s.registry.kinds)

def scan (s : Survey) (path : String) : Except SurveyError Finding :=
  match s.reader path with
  | .error (.missing named) => .ok (.missing (named.getD path))
  | .error (.other message named) => .error (.unreadable (named.getD path) message)
  | .ok text =>
    match s.parser (.ofPath path) text with
    | .error cause => .error (.unparsable path cause)
    | .ok root => (s.mutantsOf path text root).map .mutants

def visit (s : Survey) : List String → Report
  | [] => .blank
  | path :: rest =>
    match s.scan path with
    | .error e => (Report.fail e).reading path
    | .ok finding => ((s.visit rest).follow finding).reading path

def checked (paths : List String) (report : Report) : Report :=
  match paths.findIdx? (· == "") with
  | some index => .fail (.emptyPath index)
  | none => report

def run (s : Survey) (paths : List String) : Report := checked paths (s.visit paths)

end Survey

end Mutagen
