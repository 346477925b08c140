import Mutagen.Tree.Basic

/-!
# Sites

A site is a node together with its surroundings: the labels of its ancestors and all their other
children. So a site knows the tree it belongs to, and its parent and siblings can be asked for.
-/

namespace Mutagen

/-- An ancestor, seen from one of its children: its label and the siblings of that child, those
before it with the nearest first. -/
structure Surround where
  label : Label
  before : List Node
  after : List Node
  deriving BEq, Repr

structure Site where
  node : Node
  above : List Surround
  deriving BEq, Repr

namespace Site

def ofRoot (root : Node) : Site := ⟨root, []⟩

abbrev kind (s : Site) : String := s.node.kind

abbrev start (s : Site) : Nat := s.node.start

abbrev stop (s : Site) : Nat := s.node.stop

def parent? (s : Site) : Option Site :=
  match s.above with
  | [] => none
  | around :: above =>
    some ⟨.mk around.label (around.before.reverse ++ s.node :: around.after), above⟩

/-- Where the node stands: on the way from the root down to it, the number of siblings before each
node. Sites of one tree are the same if they agree in this. -/
def path (s : Site) : List Nat := (s.above.map (·.before.length)).reverse

def previous? (s : Site) : Option Node :=
  match s.above with
  | [] => none
  | around :: _ => around.before.head?

def fills (s : Site) (role : String) : Bool :=
  match s.above with
  | [] => false
  | around :: _ => s.node.field == some role && around.before.all (·.field != some role)

def siblings (above : List Surround) (label : Label) (before : List Node) : List Node → List Site
  | [] => []
  | child :: rest =>
    ⟨child, ⟨label, before, rest⟩ :: above⟩ :: siblings above label (child :: before) rest

def children (s : Site) : List Site := siblings s.above s.node.label [] s.node.children

def namedChildren (s : Site) : List Site := s.children.filter (·.node.isNamed)

def child? (s : Site) (role : String) : Option Site :=
  s.children.find? (·.node.field == some role)

-- ---------------------------------------------------------------------------
-- Moving about
-- ---------------------------------------------------------------------------

def firstChild? (s : Site) : Option Site :=
  match s.node with
  | .mk _ [] => none
  | .mk label (child :: rest) => some ⟨child, ⟨label, [], rest⟩ :: s.above⟩

def nextSibling? (s : Site) : Option Site :=
  match s.above with
  | ⟨label, before, next :: rest⟩ :: above =>
    some ⟨next, ⟨label, s.node :: before, rest⟩ :: above⟩
  | _ => none

theorem length_above_parent {s parent : Site} (h : s.parent? = some parent) :
    parent.above.length < s.above.length := by
  obtain ⟨node, _ | ⟨around, above⟩⟩ := s
  · simp [parent?] at h
  · cases h
    simp

/-- The next sibling of the nearest node that has one, from this one upwards. -/
def climb? (s : Site) : Option Site :=
  match s.nextSibling? with
  | some next => some next
  | none =>
    match _ : s.parent? with
    | none => none
    | some parent => climb? parent
termination_by s.above.length
decreasing_by exact length_above_parent ‹_›

def next? (s : Site) : Option Site :=
  match s.firstChild? with
  | some child => some child
  | none => s.climb?

-- ---------------------------------------------------------------------------
-- What is still to come
-- ---------------------------------------------------------------------------

def sizeAfter : List Surround → Nat
  | [] => 0
  | around :: above => Node.sizeAll around.after + sizeAfter above

def sizeAhead (s : Site) : Nat := s.node.size + sizeAfter s.above

theorem sizeAhead_firstChild {s child : Site} (h : s.firstChild? = some child) :
    child.sizeAhead < s.sizeAhead := by
  obtain ⟨⟨label, _ | ⟨first, rest⟩⟩, above⟩ := s
  · simp [firstChild?] at h
  · cases h
    simp only [sizeAhead, sizeAfter, Node.size, Node.sizeAll]
    omega

theorem sizeAhead_nextSibling {s next : Site} (h : s.nextSibling? = some next) :
    next.sizeAhead = sizeAfter s.above := by
  obtain ⟨node, _ | ⟨⟨label, before, _ | ⟨first, rest⟩⟩, above⟩⟩ := s
  · simp [nextSibling?] at h
  · simp [nextSibling?] at h
  · cases h
    simp [sizeAhead, sizeAfter, Node.sizeAll, Nat.add_assoc]

theorem sizeAfter_parent {s parent : Site} (h : s.parent? = some parent) :
    sizeAfter parent.above ≤ sizeAfter s.above := by
  obtain ⟨node, _ | ⟨around, above⟩⟩ := s
  · simp [parent?] at h
  · cases h
    simp [sizeAfter]

theorem sizeAhead_climb {s next : Site} (h : s.climb? = some next) :
    next.sizeAhead ≤ sizeAfter s.above := by
  fun_induction climb? s with
  | case1 s sibling hs =>
    cases h
    exact Nat.le_of_eq (sizeAhead_nextSibling hs)
  | case2 s hs hp => cases h
  | case3 s hs parent hp ih => exact Nat.le_trans (ih h) (sizeAfter_parent hp)

theorem sizeAhead_lt_of_climb {s next : Site} (h : s.climb? = some next) :
    next.sizeAhead < s.sizeAhead := by
  have hle := sizeAhead_climb h
  have hpos := s.node.size_pos
  unfold sizeAhead at hle ⊢
  omega

theorem sizeAhead_next {s next : Site} (h : s.next? = some next) :
    next.sizeAhead < s.sizeAhead := by
  unfold next? at h
  split at h
  · rename_i hc
    cases h
    exact sizeAhead_firstChild hc
  · exact sizeAhead_lt_of_climb h

-- ---------------------------------------------------------------------------
-- Going through a tree
-- ---------------------------------------------------------------------------

/-- The sites that `keep` accepts from a site to the end of the tree, behind those found already,
the latest of which comes first. -/
def walk (keep : Site → Bool) (found : List Site) (s : Site) : List Site :=
  let found := if keep s then s :: found else found
  match _ : s.next? with
  | none => found.reverse
  | some next => walk keep found next
termination_by s.sizeAhead
decreasing_by exact sizeAhead_next ‹_›

end Site

def Node.sitesOfKind (root : Node) (kinds : List String) : List Site :=
  if kinds.isEmpty then []
  else Site.walk (fun s => s.node.isNamed && kinds.contains s.kind) [] (.ofRoot root)

end Mutagen
