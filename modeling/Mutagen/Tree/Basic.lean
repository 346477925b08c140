/-!
# Syntax trees

A tree is what a recovering parser makes of a text: nodes with a kind, a byte range and, where the
text was broken, marks. Named nodes are the constructs of the grammar; the others are bare tokens,
whose kind is their text.
-/

namespace Mutagen

/-- What a node says of itself. `faulty` tells that something in its subtree is broken, `field` is
the role it has in its parent, and `stop` is exclusive. -/
structure Label where
  kind : String
  isNamed : Bool
  isError : Bool
  isMissing : Bool
  faulty : Bool
  start : Nat
  stop : Nat
  field : Option String
  deriving BEq, DecidableEq, Repr

inductive Node
  | mk (label : Label) (children : List Node)
  deriving BEq, Repr

namespace Node

def label : Node → Label
  | .mk label _ => label

def children : Node → List Node
  | .mk _ children => children

abbrev kind (n : Node) : String := n.label.kind

abbrev isNamed (n : Node) : Bool := n.label.isNamed

abbrev start (n : Node) : Nat := n.label.start

abbrev stop (n : Node) : Nat := n.label.stop

abbrev field (n : Node) : Option String := n.label.field

/-- Where the text is broken: an unreadable stretch, or a token that is not there. -/
abbrev isFault (n : Node) : Bool := n.label.isError || n.label.isMissing

mutual
def size : Node → Nat
  | .mk _ children => sizeAll children + 1

def sizeAll : List Node → Nat
  | [] => 0
  | child :: rest => child.size + sizeAll rest
end

theorem size_pos (n : Node) : 0 < n.size := by
  cases n
  simp [size]

theorem ind {motive : Node → Prop}
    (mk : ∀ label children, (∀ child ∈ children, motive child) → motive (.mk label children))
    (n : Node) : motive n :=
  @Node.rec motive (fun children => ∀ child ∈ children, motive child) mk (by simp)
    (by simp +contextual) n

end Node

end Mutagen
