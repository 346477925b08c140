import Mutagen.Operator.Basic

/-!
# Operators on binary expressions

Each swaps the operator token by a table.
-/

namespace Mutagen.Operator

def arithmeticSwap : String → Option String
  | "+" => some "-"
  | "-" => some "+"
  | "*" => some "/"
  | "/" => some "*"
  | "%" => some "*"
  | _ => none

def boundarySwap : String → Option String
  | "<" => some "<="
  | "<=" => some "<"
  | ">" => some ">="
  | ">=" => some ">"
  | _ => none

def comparisonSwap : String → Option String
  | "<" => some ">="
  | "<=" => some ">"
  | ">" => some "<="
  | ">=" => some "<"
  | "==" => some "!="
  | "!=" => some "=="
  | "===" => some "!=="
  | "!==" => some "==="
  | _ => none

def logicSwap : String → Option String
  | "&&" => some "||"
  | "||" => some "&&"
  | "??" => some "&&"
  | _ => none

def isText (site : Site) (role : String) : Bool :=
  match site.child? role with
  | some child => child.kind == "string" || child.kind == "template_string"
  | none => false

def binary (name : String) (table : String → Option String) : Operator where
  name
  kinds := ["binary_expression"]
  applies site := site.kind == "binary_expression" && hasSwap table site
  mutants := swapToken table name

/-- A `+` next to a string joins texts and is left alone. -/
def arithmetic : Operator :=
  { binary "arithmetic" arithmeticSwap with
    applies := fun site =>
      site.kind == "binary_expression" && hasSwap arithmeticSwap site &&
        !(tokenKind? site == some "+" && (isText site "left" || isText site "right")) }

def boundary : Operator := binary "boundary" boundarySwap

def negateComparison : Operator := binary "negate_cmp" comparisonSwap

def flipLogic : Operator := binary "logic_flip" logicSwap

end Mutagen.Operator
