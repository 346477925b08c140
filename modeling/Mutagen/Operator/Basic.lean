import Mutagen.Mutant.Basic

/-!
# Mutation operators

An operator is one category of defects. It names the kinds of nodes it is about, tells whether it
has something to say on a node, and turns a node into mutants.
-/

namespace Mutagen

inductive OperatorError
  | noToken (kind : String)
  | noReplacement (token : String)
  | noArgument
  | notBoolean (kind : String)
  | noCondition (kind : String)
  | outsideText (kind : String)
  | custom (message : String)
  deriving BEq, DecidableEq, Repr

def OperatorError.message : OperatorError → String
  | .noToken kind => s!"{kind} has no operator token"
  | .noReplacement token => s!"no replacement for operator '{token}'"
  | .noArgument => "negation without an argument"
  | .notBoolean kind => s!"'{kind}' is not a boolean literal"
  | .noCondition kind => s!"{kind} has no condition"
  | .outsideText kind => s!"{kind} is no part of the text"
  | .custom message => message

/-- `mutants file text site` may be asked of any site, also where `applies` says no. -/
structure Operator where
  name : String
  kinds : List String
  applies : Site → Bool
  mutants : String → String → Site → Except OperatorError (List Mutant)

namespace Operator

def replace (name file text : String) (site : Site) (replacement : String) :
    Except OperatorError Mutant :=
  match Mutant.ofSite? file name text site replacement with
  | some m => .ok m
  | none => .error (.outsideText site.kind)

def token? (site : Site) : Option Site := site.child? "operator"

def tokenKind? (site : Site) : Option String := (token? site).map (·.kind)

def swapToken (table : String → Option String) (name file text : String) (site : Site) :
    Except OperatorError (List Mutant) :=
  match token? site with
  | none => .error (.noToken site.kind)
  | some token =>
    match table token.kind with
    | none => .error (.noReplacement token.kind)
    | some replacement => do return [← replace name file text token replacement]

def hasSwap (table : String → Option String) (site : Site) : Bool :=
  ((tokenKind? site).bind table).isSome

end Operator

end Mutagen
