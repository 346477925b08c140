import Mutagen.Diff.Script

/-!
# Shortest ways through the edit grid

A point `(x, y)` of the grid stands for `x` items of the old list and `y` of the new one. A step
right deletes, a step down inserts, and where the items agree a diagonal run, a snake, is free.
After `d` paid steps a way is on one of the diagonals `x - y = d, d - 2, …, -d`, and a stage holds
for each of them, in this order, how far `x` can get. The search grows stages from both ends until
they meet, which gives a point on a shortest way.
-/

namespace Mutagen.Diff

variable {α : Type} [DecidableEq α]

/-- Where the ways of the next stage start: one paid step away from the neighbour that got further.
`above` is the reach on the diagonal above the first one given. -/
def nextStarts : Option Nat → List Nat → List Nat
  | above, [] => above.toList
  | none, x :: rest => (x + 1) :: nextStarts (some x) rest
  | some above, x :: rest => (if x < above then above else x + 1) :: nextStarts (some x) rest

def reach (d : Nat) (stage : List Nat) (k : Int) : Nat := (stage[((d - k) / 2).toNat]?).getD 0

structure Snake where
  x : Nat
  y : Nat
  length : Nat
  deriving BEq, DecidableEq, Repr

/-- Follows the snakes of a stage from diagonal `k` downwards. The first whose end meets a way from
the other side is thrown; otherwise the reaches are the result. -/
def follow (old new : List α) (meets : Int → Nat → Bool) : Int → List Nat → Except Snake (List Nat)
  | _, [] => .ok []
  | k, x :: rest =>
    let y := (x - k).toNat
    let length := shared (old.drop x) (new.drop y)
    if meets k (x + length) then .error ⟨x, y, length⟩
    else (follow old new meets (k - 2) rest).map ((x + length) :: ·)

/-- Tries `d` paid steps from either end, then one more, as long as `budget` lasts. `back` is the
last stage from the far end. -/
def meeting? (old new : List α) : (budget d : Nat) → (starts farStarts back : List Nat) →
    Option (Nat × Nat)
  | 0, _, _, _, _ => none
  | budget + 1, d, starts, farStarts, back =>
    let n := old.length
    let delta : Int := n - new.length
    let odd := delta % 2 == 1
    let meetsBack (k : Int) (x : Nat) : Bool :=
      odd && (k - delta).natAbs < d && n ≤ x + reach (d - 1) back (delta - k)
    match follow old new meetsBack d starts with
    | .error snake => some (snake.x, snake.y)
    | .ok forth =>
      let meetsForth (k : Int) (x : Nat) : Bool :=
        !odd && (k - delta).natAbs ≤ d && n ≤ x + reach d forth (delta - k)
      match follow old.reverse new.reverse meetsForth d farStarts with
      | .error snake => some (n - (snake.x + snake.length), new.length - (snake.y + snake.length))
      | .ok back => meeting? old new budget (d + 1) (nextStarts none forth) (nextStarts none back) back

def middle? (old new : List α) : Option (Nat × Nat) :=
  meeting? old new ((old.length + new.length + 1) / 2 + 1) 0 [0] [0] []

def inner (head tail : Nat) (items : List α) : List α :=
  (items.drop head).take (items.length - head - tail)

omit [DecidableEq α] in
theorem length_inner_le (head tail : Nat) (items : List α) :
    (inner head tail items).length ≤ items.length := by
  simp only [inner, List.length_take, List.length_drop]
  omega

def Divides (n m x y : Nat) : Prop := x ≤ n ∧ y ≤ m ∧ 0 < x + y ∧ x + y < n + m

instance (n m x y : Nat) : Decidable (Divides n m x y) := by unfold Divides; infer_instance

omit [DecidableEq α] in
theorem Divides.length_take_lt {old new : List α} {x y : Nat}
    (h : Divides old.length new.length x y) :
    (old.take x).length + (new.take y).length < old.length + new.length := by
  obtain ⟨_, _, _, _⟩ := h
  simp only [List.length_take]
  omega

omit [DecidableEq α] in
theorem Divides.length_drop_lt {old new : List α} {x y : Nat}
    (h : Divides old.length new.length x y) :
    (old.drop x).length + (new.drop y).length < old.length + new.length := by
  obtain ⟨_, _, _, _⟩ := h
  simp only [List.length_drop]
  omega

/-- The script of a shortest way. Common ends are kept, and the rest is cut at its middle. -/
def shortest (old new : List α) : Script α :=
  let head := shared old new
  let tail := sharedEnd (old.drop head) (new.drop head)
  let oldCore := inner head tail old
  let newCore := inner head tail new
  let core : Script α :=
    if oldCore = [] ∧ newCore = [] then []
    else if newCore = [] then [⟨.deleted, oldCore⟩]
    else if oldCore = [] then [⟨.inserted, newCore⟩]
    else match middle? oldCore newCore with
      | none => [⟨.deleted, oldCore⟩, ⟨.inserted, newCore⟩]
      | some (x, y) =>
        if Divides oldCore.length newCore.length x y then
          shortest (oldCore.take x) (newCore.take y) ++ shortest (oldCore.drop x) (newCore.drop y)
        else [⟨.deleted, oldCore⟩, ⟨.inserted, newCore⟩]
  (if head = 0 then [] else [⟨.kept, old.take head⟩]) ++ core ++
    (if tail = 0 then [] else [⟨.kept, old.drop (old.length - tail)⟩])
termination_by old.length + new.length
decreasing_by
  all_goals
    rename_i divides
    refine Nat.lt_of_lt_of_le ?_
      (Nat.add_le_add (length_inner_le head tail old) (length_inner_le head tail new))
  · exact divides.length_take_lt
  · exact divides.length_drop_lt

end Mutagen.Diff
