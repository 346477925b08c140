/-!
# Dialects

The grammar that a file is read with follows from the extension of its path.
-/

namespace Mutagen

inductive Dialect
  | javaScript
  | typeScript
  | tsx
  deriving BEq, DecidableEq, Repr

namespace Path

/-- The last component of a path. Empty components and `.` do not count; `..` names no file. -/
def fileName? (path : String) : Option (List Char) :=
  let counting := (path.toList.splitOn '/').filter fun part => part != [] && part != ['.']
  counting.getLast?.filter (· != ['.', '.'])

/-- What follows the last dot of the file name, unless that dot is its first character. -/
def extension? (path : String) : Option String := do
  let name ← fileName? path
  let dot ← name.reverse.findIdx? (· == '.')
  if dot + 1 = name.length then none
  else return String.ofList (name.drop (name.length - dot))

end Path

namespace Dialect

def ofPath (path : String) : Dialect :=
  match Path.extension? path with
  | some "ts" | some "mts" | some "cts" => .typeScript
  | some "tsx" | some "jsx" => .tsx
  | _ => .javaScript

def name : Dialect → String
  | .javaScript => "JavaScript"
  | .typeScript => "TypeScript"
  | .tsx => "Tsx"

def ofName? (name : String) : Option Dialect :=
  [.javaScript, .typeScript, .tsx].find? (fun d : Dialect => d.name == name)

theorem ofName?_name (d : Dialect) : ofName? d.name = some d := by cases d <;> decide

end Dialect

end Mutagen
