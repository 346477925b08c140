import Mutagen.Tree.Site

/-!
# Where counters go

A function declaration is counted at the start of its body, a statement in a list right before
it, and a statement that is alone under a control structure in braces of its own. Directives, the
statements of nothing but a string that lead a program or a function body, are not counted.
-/

namespace Mutagen.Coverage

def declarations : List String := ["function_declaration", "generator_function_declaration"]

def statements : List String := [
  "expression_statement",
  "variable_declaration",
  "lexical_declaration",
  "return_statement",
  "if_statement",
  "for_statement",
  "for_in_statement",
  "while_statement",
  "do_statement",
  "try_statement",
  "throw_statement",
  "switch_statement",
  "break_statement",
  "continue_statement",
  "debugger_statement",
  "labeled_statement",
  "with_statement",
  "class_declaration",
  "import_statement",
  "export_statement"]

def listOwners : List String := ["program", "statement_block", "switch_case", "switch_default"]

def functions : List String := [
  "function_declaration",
  "generator_function_declaration",
  "function_expression",
  "generator_function",
  "arrow_function",
  "method_definition"]

-- ---------------------------------------------------------------------------
-- Directives
-- ---------------------------------------------------------------------------

def isBareString (n : Node) : Bool :=
  n.kind == "expression_statement" && match n.children.filter (·.isNamed) with
    | [child] => child.kind == "string"
    | _ => false

def isTrivia (n : Node) : Bool := !n.isNamed || n.kind == "comment" || n.kind == "hash_bang_line"

def ownsPrologue (s : Site) : Bool :=
  s.kind == "program" || (s.kind == "statement_block" && s.fills "body" &&
    s.parent?.any fun owner => functions.contains owner.kind)

def inPrologue (s : Site) : Bool :=
  s.node.isNamed && isBareString s.node && s.parent?.any ownsPrologue && match s.above with
    | [] => false
    | around :: _ => around.before.all fun n => isTrivia n || isBareString n

-- ---------------------------------------------------------------------------
-- Slots
-- ---------------------------------------------------------------------------

/-- Whether a statement is alone under the control structure above it. -/
def standsAlone (parent s : Site) : Bool :=
  match parent.kind with
  | "if_statement" => s.fills "consequence"
  | "else_clause" => true
  | "for_statement" | "for_in_statement" | "while_statement" | "do_statement"
  | "with_statement" => s.fills "body"
  | _ => false

inductive Slot
  | inside (body : Site)
  | before
  | around
  | nowhere
  deriving BEq, Repr

def Slot.ofSite (s : Site) : Slot :=
  if declarations.contains s.kind then
    match s.child? "body" with
    | some body => .inside body
    | none => .nowhere
  else if !statements.contains s.kind || inPrologue s then .nowhere
  else match s.parent? with
    | none => .nowhere
    | some parent =>
      if listOwners.contains parent.kind then .before
      else if standsAlone parent s then .around
      else .nowhere

def isCounted (s : Site) : Bool :=
  match Slot.ofSite s with
  | .nowhere => false
  | _ => true

end Mutagen.Coverage
