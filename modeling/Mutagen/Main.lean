import Mutagen.Command.Run
import Mutagen.Tree.Json

/-!
# The program

Looks up what a command line is about on the disk, lets the run be computed, and carries out what
it says. The trees of the texts come from the file that the environment names.
-/

namespace Mutagen.Command

def stops (path : String) : List String :=
  let parts := FileSystem.components path
  (List.range parts.length).map fun n => "/".intercalate (parts.take (n + 1))

/-- What is on the disk at a path. Reading a directory fails with the error code 21. -/
def look (path : String) : IO (Option (Place × Entry)) := do
  let place := FileSystem.spelledPlace path
  if path = "" ∨ path = "/dev/full" then return none
  match ← (IO.FS.readBinFile path).toBaseIO with
  | .ok content => return some (place, .file content.data.toList)
  | .error (.inappropriateType _ 21 _) => return some (place, .directory)
  | .error _ => return none

def snapshot (paths : List String) : IO FileSystem := do
  let found ← (paths.flatMap stops).mapM look
  return ⟨(["/", "dev", "full"], .fullDevice) :: found.filterMap id⟩

def commit (before after : FileSystem) (path : String) : IO Unit := do
  match before.read path, after.read path with
  | old, .ok content =>
    unless old.toOption == some content do
      IO.FS.writeBinFile path content.toByteArray
  | _, .error _ => pure ()

def recordedParser : IO Parser := do
  let trees ← match ← IO.getEnv "MUTAGEN_TREES" with
    | none => pure none
    | some path => RecordedTree.decodeAll? <$> IO.FS.readFile path
  return RecordedTree.parser (trees.getD []) RecordedTree.unknown

def runOnDisk (arguments : List String) : IO UInt32 := do
  let (inputs, outputs) := match request arguments with
    | .ok r => (r.inputs, r.outputs)
    | .error _ => ([], [])
  let files ← snapshot (inputs ++ outputs)
  let w : World := {
    parser := ← recordedParser
    files
    object := ← IO.getEnv "JSMUTATE_COVERAGE_VARIABLE" }
  let outcome := w.run arguments
  outputs.forM (commit files outcome.files)
  IO.eprint outcome.stderr
  let stdout ← IO.getStdout
  stdout.write outcome.stdout.toByteArray
  stdout.flush
  return UInt32.ofNat outcome.exitCode

end Mutagen.Command

def main (arguments : List String) : IO UInt32 := Mutagen.Command.runOnDisk arguments
