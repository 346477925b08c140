import Mutagen.Operator.Basic

/-!
# Operators on literals
-/

namespace Mutagen.Operator

def flipBoolean : Operator where
  name := "bool_flip"
  kinds := ["true", "false"]
  applies site := site.kind == "true" || site.kind == "false"
  mutants file text site :=
    match site.kind with
    | "true" => do return [← replace "bool_flip" file text site "false"]
    | "false" => do return [← replace "bool_flip" file text site "true"]
    | kind => .error (.notBoolean kind)

def isSigned (site : Site) : Bool := tokenKind? site == some "-" || tokenKind? site == some "+"

/-- A bare sign must not stand in the base of a power, nor right behind another sign. -/
def mustEnclose (site : Site) : Bool :=
  let isBase := match site.parent? with
    | some parent =>
      parent.kind == "binary_expression" && tokenKind? parent == some "**" && site.fills "left"
    | none => false
  let isGlued := match site.previous? with
    | some previous => (previous.kind == "-" || previous.kind == "+") && previous.stop == site.start
    | none => false
  isBase || isGlued

/-- Keys and names cannot carry a sign, and a literal that has one already is left alone. -/
def negateNumber : Operator where
  name := "numeric_negation"
  kinds := ["number"]
  applies site :=
    site.kind == "number" && match site.parent? with
      | none => true
      | some parent =>
        !site.fills "key" && !site.fills "name" &&
          !(parent.kind == "unary_expression" && isSigned parent)
  mutants file text site :=
    match Text.slice? text site.start site.stop with
    | none => .error (.outsideText site.kind)
    | some literal => do
      let negated := "-" ++ literal
      let replacement := if mustEnclose site then "(" ++ negated ++ ")" else negated
      return [← replace "numeric_negation" file text site replacement]

end Mutagen.Operator
