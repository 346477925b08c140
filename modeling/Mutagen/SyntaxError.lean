import Mutagen.Dialect
import Mutagen.Text.Blank
import Mutagen.Text.Position
import Mutagen.Text.Slice
import Mutagen.Tree.Token

/-!
# Syntax errors

A recovering parser answers every text with a tree and marks what is broken. Here the first fault
of such a tree becomes an error with a line and a cause, and a parser is made that accepts clean
trees only.
-/

namespace Mutagen

/-- `unclear` is for a tree that is marked as faulty and shows no fault. -/
inductive SyntaxCause
  | missing (kind : String)
  | unexpectedToken (token : String)
  | unexpectedEnd
  | unclear
  deriving BEq, DecidableEq, Repr

structure SyntaxError where
  line : Nat
  cause : SyntaxCause
  deriving BEq, DecidableEq, Repr

def SyntaxCause.message : SyntaxCause → String
  | .missing kind => s!"Missing {kind}"
  | .unexpectedToken token => s!"Unexpected token {token}"
  | .unexpectedEnd => "Unexpected end of input"
  | .unclear => "Invalid syntax"

namespace SyntaxError

def message (e : SyntaxError) : String := s!"Line {e.line}: {e.cause.message}"

/-- The token to blame for a fault. A fault with a named child is a stretch that was understood
and then given up, so the token right after it is to blame. Any other fault is itself what had to
be skipped. -/
def culprit? (root fault : Node) : Option Node :=
  if fault.children.any (·.isNamed) then root.tokens.find? (fun token => fault.stop ≤ token.start)
  else fault.tokens.head?

def lineOf (text : String) (offset : Nat) : Nat := (Position.ofOffset text offset).line + 1

def ofTree (text : String) (root : Node) : SyntaxError :=
  match root.firstFault? with
  | none => ⟨1, .unclear⟩
  | some fault =>
    if fault.label.isMissing then ⟨lineOf text fault.start, .missing fault.kind⟩
    else match culprit? root fault with
      | none => ⟨lineOf text root.stop, .unexpectedEnd⟩
      | some token =>
        let found := (Text.slice? text token.start token.stop).getD ""
        ⟨lineOf text token.start, .unexpectedToken (Text.trim found)⟩

end SyntaxError

abbrev Parser := Dialect → String → Except SyntaxError Node

def Parser.ofRecovery (recover : Dialect → String → Node) : Parser := fun dialect text =>
  let root := recover dialect text
  if root.label.faulty then .error (.ofTree text root) else .ok root

end Mutagen
