import Mutagen.Json.Basic
import Mutagen.Json.Decimal
import Mutagen.Json.Token

/-!
# Writing JSON

A form says where white space goes. The compact form has none at all. The pretty form has a line
for every item and member, two spaces for every level, and no line break at the end.
-/

namespace Mutagen.Json

def ofNat (n : Nat) : Json := .number (Decimal.encode n)

def ofText (text : String) : Json := .string (Quoted.encode text.toList)

def nameOf (name : String) : List Char := Quoted.encode name.toList

def quoted (spelling : List Char) : List Char := '"' :: spelling ++ ['"']

/-- The gaps stand before every item and member that is `level` deep, and before the end of its
container; `afterColon` stands between a name and a value. All of it is white space. -/
structure Form where
  gap : Nat → List Char
  afterColon : List Char
  isSpace_gap : ∀ level, ∀ c ∈ gap level, isSpace c = true
  isSpace_afterColon : ∀ c ∈ afterColon, isSpace c = true

mutual
def write (form : Form) (level : Nat) : Json → List Char
  | .null => "null".toList
  | .bool true => "true".toList
  | .bool false => "false".toList
  | .number spelling => spelling
  | .string spelling => quoted spelling
  | .array [] => ['[', ']']
  | .array (item :: rest) =>
    '[' :: writeItems form (level + 1) (item :: rest) ++ form.gap level ++ [']']
  | .object [] => ['\x7b', '\x7d']
  | .object (member :: rest) =>
    '\x7b' :: writeMembers form (level + 1) (member :: rest) ++ form.gap level ++ ['\x7d']

def writeItems (form : Form) (level : Nat) : List Json → List Char
  | [] => []
  | [item] => form.gap level ++ write form level item
  | item :: rest => form.gap level ++ write form level item ++ ',' :: writeItems form level rest

def writeMembers (form : Form) (level : Nat) : List (List Char × Json) → List Char
  | [] => []
  | [(name, value)] =>
    form.gap level ++ quoted name ++ ':' :: form.afterColon ++ write form level value
  | (name, value) :: rest =>
    form.gap level ++ quoted name ++ ':' :: form.afterColon ++ write form level value ++
      ',' :: writeMembers form level rest
end

-- ---------------------------------------------------------------------------
-- The two forms
-- ---------------------------------------------------------------------------

def compactForm : Form where
  gap _ := []
  afterColon := []
  isSpace_gap := by simp
  isSpace_afterColon := by simp

def newLine (level : Nat) : List Char := '\n' :: List.replicate (2 * level) ' '

def prettyForm : Form where
  gap := newLine
  afterColon := [' ']
  isSpace_gap level c h := by
    rcases List.mem_cons.mp h with rfl | h
    · rfl
    · rw [List.eq_of_mem_replicate h]
      rfl
  isSpace_afterColon := by simp [isSpace]

def compact (value : Json) : String := String.ofList (value.write compactForm 0)

def pretty (value : Json) : String := String.ofList (value.write prettyForm 0)

end Mutagen.Json
