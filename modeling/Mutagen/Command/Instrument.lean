import Mutagen.Command.Arguments
import Mutagen.Command.World
import Mutagen.Coverage.Json
import Mutagen.Coverage.Stage

/-!
# Instrumenting a file

The command that runs a file through a stage. The code goes to a file or to the standard output,
the statement map to a file if one is named.
-/

namespace Mutagen.Command

/-- A device that is full takes nothing; any other file and the standard output take everything. -/
def sinkFor (isFull : Bool) : Sink Unit where
  accept _ offered := ((), if isFull then .error FileError.noSpace.message else .ok offered.length)
  flush _ := ((), .ok ())

def World.setting (w : World) (options : InstrumentOptions) : Coverage.Setting where
  file := options.file
  object := options.object.getD (w.object.getD "__coverage__")
  parser := w.parser

def feed (setting : Coverage.Setting) (isFull : Bool) (text : String) :
    Coverage.Stage Unit × Except String Unit :=
  match (Coverage.Stage.start setting (sinkFor isFull) ()).writeAll (.ofText text) with
  | (stage, .error message) => (stage, .error message)
  | (stage, .ok ()) => stage.finish

/-- Writes the map where it is wanted, or its size to the standard error. `outcome` is the run so
far. -/
def reportMap (options : InstrumentOptions) (map : StatementMap) (outcome : Outcome) : Outcome :=
  match options.map with
  | none =>
    { outcome with stderr := outcome.stderr ++
        successLine (options.file ++ ": " ++ toString map.size ++ " statements instrumented") }
  | some path =>
    match outcome.files.write path (.ofText map.encodePretty) with
    | .ok files => { outcome with files }
    | .error e =>
      { outcome with
        exitCode := 3
        stderr := outcome.stderr ++
          errorLine ("Failed to write statement map to " ++ path ++ ": " ++ e.message) }

def World.instrumentTo (w : World) (options : InstrumentOptions) (text : String)
    (files : FileSystem) (place : Option Place) : Outcome :=
  let isFull := place.any files.isFull
  let (stage, result) := feed (w.setting options) isFull text
  let received := stage.outlet.received
  let outcome : Outcome := {
    exitCode := 0
    stdout := if place.isNone then received else []
    stderr := logLines stage.log
    files := match place with
      | some place => if isFull then files else files.put place (.file received)
      | none => files }
  match result with
  | .error message =>
    { outcome with
      exitCode := 3
      stderr := outcome.stderr ++ errorLine ("Failed to write instrumented code: " ++ message) }
  | .ok () => reportMap options (stage.statementMap?.getD .empty) outcome

def World.instrument (w : World) (options : InstrumentOptions) : Outcome :=
  match w.reader options.file with
  | .error (.missing named) =>
    w.answer 2 "" (errorLine ("File not found: " ++ named.getD options.file ++
      ". Check the path and try again."))
  | .error (.other message named) =>
    w.answer 3 "" (errorLine ("Failed to read '" ++ named.getD options.file ++ "': " ++ message))
  | .ok text =>
    match options.output with
    | none => w.instrumentTo options text w.files none
    | some path =>
      match w.files.create path with
      | .error e =>
        w.answer 3 "" (errorLine ("Failed to create " ++ path ++ ": " ++ e.message))
      | .ok (files, place) => w.instrumentTo options text files (some place)

end Mutagen.Command
