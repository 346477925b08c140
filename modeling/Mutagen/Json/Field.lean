import Mutagen.Json.Basic
import Mutagen.Json.Decimal
import Mutagen.Json.Quoted

/-!
# Reading records out of JSON

A record is written as an object with the names of its fields, in any order and with others in
between, or as an array with the values of its fields in their own order.
-/

namespace Mutagen.Json

def decodeName? (member : List Char × Json) : Option (List Char × Json) :=
  (Quoted.decode? member.1).map (·, member.2)

def lone? (members : List (List Char × Json)) (name : String) : Option Json :=
  match members.filter (·.1 == name.toList) with
  | [member] => some member.2
  | _ => none

/-- The values of the named fields. Each of them has to be there, and once only. -/
def fields? (names : List String) : Json → Option (List Json)
  | .object members => do
    let named ← members.mapM decodeName?
    names.mapM (lone? named)
  | .array items => if items.length = names.length then some items else none
  | _ => none

/-- Numbers in records fit into 64 bits. -/
def wordBound : Nat := Nat.pow 2 64

def toNat? : Json → Option Nat
  | .number spelling => Decimal.below? wordBound spelling
  | _ => none

def toText? : Json → Option String
  | .string spelling => (Quoted.decode? spelling).map String.ofList
  | _ => none

end Mutagen.Json
