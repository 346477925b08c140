import Mutagen.Text.Encoding

/-!
# File systems

The files that a run of the program sees, as a value. A place is the list of the components that
lead to it from the working directory; the place of an absolute path begins with `/`.
-/

namespace Mutagen

inductive FileError
  | notFound
  | notDirectory
  | isDirectory
  | noSpace
  deriving BEq, DecidableEq, Repr

def FileError.message : FileError → String
  | .notFound => "No such file or directory (os error 2)"
  | .notDirectory => "Not a directory (os error 20)"
  | .isDirectory => "Is a directory (os error 21)"
  | .noSpace => "No space left on device (os error 28)"

/-- A full device refuses every byte that is written to it. -/
inductive Entry
  | file (content : Bytes)
  | directory
  | fullDevice
  deriving BEq, DecidableEq, Repr

abbrev Place := List String

structure FileSystem where
  entries : List (Place × Entry)
  deriving BEq, DecidableEq, Repr

namespace FileSystem

/-- The directories that need no entry: the working directory with those above it, and the root. -/
def isGiven (place : Place) : Bool := place.all (· == "..") || place == ["/"]

/-- What is at a place. What lies between the working directory and an entry is a directory. -/
def entry? (fs : FileSystem) (place : Place) : Option Entry :=
  match fs.entries.find? (·.1 == place) with
  | some found => some found.2
  | none =>
    if isGiven place || fs.entries.any (place.isPrefixOf ·.1) then some .directory else none

def up (place : Place) : Place :=
  if place = ["/"] then place
  else if place.all (· == "..") then place ++ [".."]
  else place.dropLast

def walk (fs : FileSystem) (here : Place) : List String → Except FileError Place
  | [] => .ok here
  | component :: rest =>
    match fs.entry? here with
    | none => .error .notFound
    | some .directory =>
      if component = "" ∨ component = "." then fs.walk here rest
      else if component = ".." then fs.walk (up here) rest
      else fs.walk (here ++ [component]) rest
    | some _ => .error .notDirectory

def components (path : String) : List String := (path.toList.splitOn '/').map String.ofList

def origin (path : String) : Place := if path.startsWith "/" then ["/"] else []

def spelledPlace (path : String) : Place :=
  (components path).foldl
    (fun here component =>
      if component = "" ∨ component = "." then here
      else if component = ".." then up here
      else here ++ [component])
    (origin path)

/-- The place of a path. The empty path leads nowhere. -/
def locate (fs : FileSystem) (path : String) : Except FileError Place :=
  if path = "" then .error .notFound else fs.walk (origin path) (components path)

def read (fs : FileSystem) (path : String) : Except FileError Bytes := do
  match fs.entry? (← fs.locate path) with
  | none => .error .notFound
  | some .directory => .error .isDirectory
  | some (.file content) => .ok content
  | some .fullDevice => .ok []

/-- The place of a file that is to be written. Its directory has to be there, and neither the file
nor the form of the path may be that of a directory. -/
def destination (fs : FileSystem) (path : String) : Except FileError Place := do
  if path = "" then .error .notFound
  let parts := components path
  let named := (parts.reverse.dropWhile (· == "")).reverse
  let name := named.getLast?.getD "."
  let parent ← fs.walk (origin path) named.dropLast
  match fs.entry? parent with
  | none => .error .notFound
  | some .directory =>
    if named.length < parts.length ∨ name = "." ∨ name = ".." then .error .isDirectory
    else match fs.entry? (parent ++ [name]) with
      | some .directory => .error .isDirectory
      | _ => .ok (parent ++ [name])
  | some _ => .error .notDirectory

def put (fs : FileSystem) (place : Place) (entry : Entry) : FileSystem :=
  ⟨(place, entry) :: fs.entries.filter (·.1 != place)⟩

def isFull (fs : FileSystem) (place : Place) : Bool := fs.entry? place == some .fullDevice

/-- Empties a file, which is made if it is not there. A device stays what it is. -/
def create (fs : FileSystem) (path : String) : Except FileError (FileSystem × Place) := do
  let place ← fs.destination path
  return (if fs.isFull place then fs else fs.put place (.file []), place)

def write (fs : FileSystem) (path : String) (content : Bytes) :
    Except FileError FileSystem := do
  let (fs, place) ← fs.create path
  if fs.isFull place then
    if content = [] then return fs else .error .noSpace
  else return fs.put place (.file content)

end FileSystem

end Mutagen
