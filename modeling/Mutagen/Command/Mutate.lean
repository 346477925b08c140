import Mutagen.Command.Arguments
import Mutagen.Command.World
import Mutagen.Mutant.Diff
import Mutagen.Mutant.Json

/-!
# Listing mutants

The command that surveys files and lists the mutants, for readers or in JSON.
-/

namespace Mutagen.Command

def unknownOperator (name : String) : String :=
  "Unknown operator '" ++ name ++ "'. Available: " ++ ", ".intercalate Registry.standard.names

def registryFor (names : List String) : Except String Registry :=
  if names = [] then .ok .standard else Registry.select names

def summary (mutants : List Mutant) (fileCount : Nat) : String :=
  if mutants = [] then successLine "No mutable code found."
  else line ("! " ++ toString mutants.length ++ " mutants in " ++ toString fileCount ++ " file" ++
    if fileCount = 1 then "" else "s") ++ line ""

def mutantLine (number : Nat) (m : Mutant) : String :=
  line ("  @m" ++ toString number ++ " " ++ m.file ++ ":" ++ toString (m.span.start.line + 1) ++
    ":" ++ toString (m.span.start.column + 1) ++ " [" ++ m.operator ++ "] " ++ m.removed ++ " → " ++
    m.replacement)

def diffLine (shown : List Char) : String :=
  match shown.head? with
  | some '-' | some '+' => line ("      " ++ String.ofList shown)
  | _ => ""

def diffLines (diff : String) : String :=
  String.join ((Text.shownLines diff.toList).map diffLine)

/-- What changes in the file of a mutant, as far as the file can still be read. -/
def World.diffOf (w : World) (m : Mutant) : String :=
  match w.reader m.file with
  | .error _ => ""
  | .ok text => ((m.diff? text).map diffLines).getD ""

def World.listing (w : World) (options : MutateOptions) (mutants : List Mutant) : String :=
  if options.json then line (Mutant.encodeAll mutants)
  else summary mutants options.files.length ++
    String.join ((mutants.zipIdx 1).map fun numbered =>
      mutantLine numbered.2 numbered.1 ++ if options.diff then w.diffOf numbered.1 else "")

def World.survey (w : World) (registry : Registry) : Survey := ⟨registry, w.reader, w.parser⟩

def World.report (w : World) (options : MutateOptions) (registry : Registry) : Report :=
  if options.parallel then (w.survey registry).runParallel w.schedule options.files
  else (w.survey registry).run options.files

def exitCodeOf : SurveyError → Nat
  | .emptyPath _ => 2
  | .unreadable .. | .unparsable .. | .failed .. => 3

def World.mutate (w : World) (options : MutateOptions) : Outcome :=
  match registryFor options.operators with
  | .error unknown => w.answer 2 "" (errorLine (unknownOperator unknown))
  | .ok registry =>
    let report := w.report options registry
    match report.result with
    | .error e => w.answer (exitCodeOf e) "" (logLines report.log ++ errorLine e.message)
    | .ok mutants => w.answer 0 (w.listing options mutants) (logLines report.log)

end Mutagen.Command
