import Mutagen.Coverage.Slot
import Mutagen.Coverage.Splice
import Mutagen.Coverage.StatementMap

/-!
# Coverage plans

What is inserted into a program so that it counts its statements, and the map from the ids of the
counters to the statements. Ids are given in document order, starting with one.
-/

namespace Mutagen.Coverage

structure Plan where
  map : StatementMap
  insertions : List Insertion
  deriving DecidableEq, Repr

inductive Table
  | functions
  | statements
  deriving BEq, DecidableEq, Repr

def Table.name : Table → String
  | .functions => "f"
  | .statements => "s"

def counter (object : String) (table : Table) (id : Nat) : String :=
  object ++ "." ++ table.name ++ "['" ++ toString id ++ "']++;"

def insertionsAt (object : String) (s : Site) (id : Nat) : List Insertion :=
  match Slot.ofSite s with
  | .inside body => [⟨body.start + 1, false, counter object .functions id⟩]
  | .before => [⟨s.start, false, counter object .statements id⟩]
  | .around => [
      ⟨s.start, false, "\x7b" ++ counter object .statements id⟩,
      ⟨s.stop, true, "\x7d"⟩]
  | .nowhere => []

namespace Plan

def blank : Plan := ⟨.empty, []⟩

def count (object text : String) (plan : Plan) (s : Site) : Plan :=
  if isCounted s then
    let (map, id) := plan.map.push (.ofOffsets text s.start s.stop)
    ⟨map, plan.insertions ++ insertionsAt object s id⟩
  else plan

mutual
def visit (object text : String) (above : List Surround) (plan : Plan) : Node → Plan
  | .mk label children =>
    visitFrom object text above label [] (plan.count object text ⟨.mk label children, above⟩)
      children

def visitFrom (object text : String) (above : List Surround) (label : Label)
    (before : List Node) (plan : Plan) : List Node → Plan
  | [] => plan
  | child :: rest =>
    visitFrom object text above label (child :: before)
      (if child.isNamed then visit object text (⟨label, before, rest⟩ :: above) plan child
      else plan)
      rest
end

def ofTree (object text : String) (root : Node) : Plan := visit object text [] blank root

def render? (plan : Plan) (text : String) : Option String := Insertion.render? text plan.insertions

end Plan

end Mutagen.Coverage
