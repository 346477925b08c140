import Mutagen.Operator.Binary
import Mutagen.Operator.Control
import Mutagen.Operator.Literal
import Mutagen.Operator.Unary

/-!
# Registries

The operators of one run, in the order in which their mutants are listed.
-/

namespace Mutagen

structure Registry where
  operators : List Operator

namespace Registry

def standard : Registry where
  operators := [
    .arithmetic,
    .boundary,
    .negateComparison,
    .flipLogic,
    .unary,
    .update,
    .flipBoolean,
    .negateNumber,
    .forceCondition,
    .emptyBlock]

def names (r : Registry) : List String := r.operators.map (·.name)

def kinds (r : Registry) : List String :=
  ((r.operators.flatMap (·.kinds)).mergeSort (fun a b => decide (a ≤ b))).eraseDups

/-- The standard operators with the given names, in standard order. The first name that is not
standard is the error. -/
def select (names : List String) : Except String Registry :=
  match names.find? (fun name => !standard.names.contains name) with
  | some unknown => .error unknown
  | none => .ok ⟨standard.operators.filter (fun operator => names.contains operator.name)⟩

end Registry

end Mutagen
