/-!
# JSON values

A value keeps the spelling of its strings and numbers, because what a spelling is worth depends on
who asks: most numbers here have to be plain natural numbers, and the strings of a value that
nobody asks for are never decoded. The members of an object keep their order and may repeat.
-/

namespace Mutagen

/-- A string is spelled as between its quotes. -/
inductive Json
  | null
  | bool (value : Bool)
  | number (spelling : List Char)
  | string (spelling : List Char)
  | array (items : List Json)
  | object (members : List (List Char × Json))
  deriving BEq, Repr

end Mutagen
