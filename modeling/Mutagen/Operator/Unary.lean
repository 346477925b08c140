import Mutagen.Operator.Basic

/-!
# Operators on unary and update expressions
-/

namespace Mutagen.Operator

def signSwap : String → Option String
  | "-" => some "+"
  | "+" => some "-"
  | _ => none

def updateSwap : String → Option String
  | "++" => some "--"
  | "--" => some "++"
  | _ => none

def dropNegation (name file text : String) (site : Site) : Except OperatorError (List Mutant) :=
  match site.child? "argument" with
  | none => .error .noArgument
  | some argument =>
    match Text.slice? text argument.start argument.stop with
    | none => .error (.outsideText argument.kind)
    | some uncovered => do return [← replace name file text site uncovered]

def unary : Operator where
  name := "unary"
  kinds := ["unary_expression"]
  applies site :=
    site.kind == "unary_expression" && (hasSwap signSwap site || tokenKind? site == some "!") &&
      (site.child? "argument").isSome
  mutants file text site :=
    if tokenKind? site = some "!" then dropNegation "unary" file text site
    else swapToken signSwap "unary" file text site

def update : Operator where
  name := "update"
  kinds := ["update_expression"]
  applies site := site.kind == "update_expression" && hasSwap updateSwap site
  mutants := swapToken updateSwap "update"

end Mutagen.Operator
