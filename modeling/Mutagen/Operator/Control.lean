import Mutagen.Operator.Basic

/-!
# Operators on control flow
-/

namespace Mutagen.Operator

def condition? (site : Site) : Option Site :=
  match site.child? "condition" with
  | none => none
  | some condition =>
    match condition.kind with
    | "parenthesized_expression" | "expression_statement" =>
      condition.namedChildren.find? (·.kind != "comment")
    | "empty_statement" | ";" => none
    | _ => some condition

def conditionals : List String :=
  ["if_statement", "while_statement", "do_statement", "for_statement"]

/-- Forces a condition: never for every statement, and always for `if` as well. -/
def forceCondition : Operator where
  name := "remove_conditional"
  kinds := conditionals
  applies site := conditionals.contains site.kind && (condition? site).isSome
  mutants file text site :=
    match condition? site with
    | none => .error (.noCondition site.kind)
    | some condition => do
      let never ← replace "remove_conditional" file text condition "false"
      if site.kind = "if_statement" then
        return [never, ← replace "remove_conditional" file text condition "true"]
      else return [never]

def emptyBlock : Operator where
  name := "block_remove"
  kinds := ["statement_block"]
  applies site :=
    site.kind == "statement_block" && site.namedChildren.any (·.kind != "comment")
  mutants file text site := do return [← replace "block_remove" file text site "\x7b\x7d"]

end Mutagen.Operator
