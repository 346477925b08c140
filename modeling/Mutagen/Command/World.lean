import Mutagen.Command.FileSystem
import Mutagen.Notice
import Mutagen.Survey.Parallel

/-!
# The world of a run

What a run of the program starts from and what it leaves behind, and the lines that it writes.
-/

namespace Mutagen.Command

/-- What the program finds when it starts. `object` is the name of the coverage object that the
environment gives, and `schedule` is how the tasks of a parallel survey will be interleaved. -/
structure World where
  parser : Parser
  files : FileSystem
  object : Option String
  schedule : Survey.Schedule := []

structure Outcome where
  exitCode : Nat
  stdout : Bytes
  stderr : String
  files : FileSystem
  deriving BEq, DecidableEq, Repr

def line (text : String) : String := text ++ "\n"

def errorLine (message : String) : String := line ("✗ " ++ message)

def successLine (message : String) : String := line ("✓ " ++ message)

def logLine (entry : Notice) : String :=
  match entry.level with
  | .info => line ("· " ++ entry.message)
  | .error => errorLine entry.message

def logLines (log : Log) : String := String.join (log.map logLine)

def World.answer (w : World) (exitCode : Nat) (stdout stderr : String) : Outcome :=
  ⟨exitCode, .ofText stdout, stderr, w.files⟩

def World.reader (w : World) : Reader := fun path =>
  match w.files.read path with
  | .error .notFound => .error .missing
  | .error e => .error (.other e.message)
  | .ok content =>
    match content.toText with
    | .error _ => .error (.other "stream did not contain valid UTF-8")
    | .ok text => .ok text

end Mutagen.Command
