import Mutagen.Tree.Site

/-!
# Tokens and faults of a tree

Both are found by going through a tree in document order. A search for tokens keeps inside one
subtree, and the search for the first fault enters only subtrees that are marked as faulty.
-/

namespace Mutagen

def Node.isToken (n : Node) : Bool :=
  n.children.isEmpty && n.start < n.stop && n.kind != "comment"

-- ---------------------------------------------------------------------------
-- Tokens
-- ---------------------------------------------------------------------------

namespace Site

def climbWithin? (top s : Site) : Option Site :=
  if s.path = top.path then none
  else match s.nextSibling? with
    | some next => some next
    | none =>
      match _ : s.parent? with
      | none => none
      | some parent => climbWithin? top parent
termination_by s.above.length
decreasing_by exact length_above_parent ‹_›

theorem sizeAhead_climbWithin {top s next : Site} (h : climbWithin? top s = some next) :
    next.sizeAhead ≤ sizeAfter s.above := by
  fun_induction climbWithin? top s with
  | case1 => cases h
  | case2 s _ sibling hs =>
    cases h
    exact Nat.le_of_eq (sizeAhead_nextSibling hs)
  | case3 => cases h
  | case4 s _ _ parent hp ih => exact Nat.le_trans (ih h) (sizeAfter_parent hp)

theorem sizeAhead_lt_of_climbWithin {top s next : Site} (h : climbWithin? top s = some next) :
    next.sizeAhead < s.sizeAhead := by
  have hle := sizeAhead_climbWithin h
  have hpos := s.node.size_pos
  unfold sizeAhead at hle ⊢
  omega

/-- The tokens from a site to the end of the subtree at `top`, behind those found already, the
latest of which comes first. -/
def gatherTokens (top : Site) (found : List Site) (s : Site) : List Site :=
  match _ : s.firstChild? with
  | some child => gatherTokens top found child
  | none =>
    let found := if s.node.isToken then s :: found else found
    match _ : climbWithin? top s with
    | none => found.reverse
    | some next => gatherTokens top found next
termination_by s.sizeAhead
decreasing_by
  · exact sizeAhead_firstChild ‹_›
  · exact sizeAhead_lt_of_climbWithin ‹_›

def tokens (top : Site) : List Site := gatherTokens top [] top

end Site

def Node.tokens (n : Node) : List Node := (Site.tokens (.ofRoot n)).map (·.node)

-- ---------------------------------------------------------------------------
-- Faults
-- ---------------------------------------------------------------------------

namespace Site

/-- The next site for a search that passes over the subtrees that are not marked. -/
def nextMarked? (s : Site) : Option Site := if s.node.label.faulty then s.next? else s.climb?

theorem sizeAhead_nextMarked {s next : Site} (h : s.nextMarked? = some next) :
    next.sizeAhead < s.sizeAhead := by
  unfold nextMarked? at h
  split at h
  · exact sizeAhead_next h
  · exact sizeAhead_lt_of_climb h

def findFault? (s : Site) : Option Site :=
  if s.node.isFault then some s
  else match _ : s.nextMarked? with
    | none => none
    | some next => findFault? next
termination_by s.sizeAhead
decreasing_by exact sizeAhead_nextMarked ‹_›

end Site

def Node.firstFault? (root : Node) : Option Node := (Site.findFault? (.ofRoot root)).map (·.node)

end Mutagen
