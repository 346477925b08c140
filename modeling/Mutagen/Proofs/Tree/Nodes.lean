import Mutagen.Proofs.Text.Between
import Mutagen.Tree.Basic

/-!
# The nodes of a tree and their ranges

In a well-formed tree the range of a node holds the ranges of its children, one after the other.
Then, in document order, no node starts before an earlier one, and of two nodes the later one lies
inside the earlier one or behind it (`Ordered.pairwise_nodes`).
-/

namespace Mutagen.Node

mutual
def nodes : Node → List Node
  | .mk label children => .mk label children :: nodesOf children

def nodesOf : List Node → List Node
  | [] => []
  | child :: rest => child.nodes ++ nodesOf rest
end

theorem nodes_eq (n : Node) : n.nodes = n :: nodesOf n.children := by
  cases n
  rfl

theorem mem_nodesOf {m : Node} {children : List Node} :
    m ∈ nodesOf children ↔ ∃ child ∈ children, m ∈ child.nodes := by
  induction children with
  | nil => simp [nodesOf]
  | cons child rest ih => simp [nodesOf, ih]

theorem mem_nodes {m n : Node} : m ∈ n.nodes ↔ m = n ∨ ∃ child ∈ n.children, m ∈ child.nodes := by
  rw [nodes_eq, List.mem_cons, mem_nodesOf]

@[simp] theorem mem_nodes_self (n : Node) : n ∈ n.nodes := mem_nodes.mpr (.inl rfl)

theorem mem_nodes_of_child {m n child : Node} (hc : child ∈ n.children) (h : m ∈ child.nodes) :
    m ∈ n.nodes := mem_nodes.mpr (.inr ⟨child, hc, h⟩)

theorem mem_nodes_child {n child : Node} (hc : child ∈ n.children) : child ∈ n.nodes :=
  mem_nodes_of_child hc child.mem_nodes_self

theorem mem_nodes_trans {k m n : Node} (hm : m ∈ n.nodes) (h : k ∈ m.nodes) : k ∈ n.nodes := by
  induction n using Node.ind with
  | mk label children ih =>
    rcases mem_nodes.mp hm with rfl | ⟨child, hc, hm⟩
    · exact h
    · exact mem_nodes_of_child hc (ih child hc hm)

-- ---------------------------------------------------------------------------
-- Well-formed trees
-- ---------------------------------------------------------------------------

structure InOrder (n : Node) : Prop where
  le : n.start ≤ n.stop
  inside : ∀ child ∈ n.children, n.start ≤ child.start ∧ child.stop ≤ n.stop
  apart : n.children.Pairwise fun a b => a.stop ≤ b.start

instance (n : Node) : Decidable n.InOrder :=
  decidable_of_iff
    (n.start ≤ n.stop ∧ (∀ child ∈ n.children, n.start ≤ child.start ∧ child.stop ≤ n.stop) ∧
      n.children.Pairwise fun a b => a.stop ≤ b.start)
    ⟨fun ⟨le, inside, apart⟩ => ⟨le, inside, apart⟩, fun h => ⟨h.le, h.inside, h.apart⟩⟩

def Ordered (root : Node) : Prop := ∀ n ∈ root.nodes, n.InOrder

instance (root : Node) : Decidable root.Ordered :=
  inferInstanceAs (Decidable (∀ n ∈ root.nodes, n.InOrder))

theorem Ordered.self {n : Node} (h : n.Ordered) : n.InOrder := h n n.mem_nodes_self

theorem Ordered.of_mem {n m : Node} (h : n.Ordered) (hm : m ∈ n.nodes) : m.Ordered :=
  fun k hk => h k (mem_nodes_trans hm hk)

theorem Ordered.child {n child : Node} (h : n.Ordered) (hc : child ∈ n.children) :
    child.Ordered := h.of_mem (mem_nodes_child hc)

/-- Ranges are in order at every node, and only named nodes have children. -/
structure WellFormed (root : Node) : Prop where
  inOrder : ∀ n ∈ root.nodes, n.InOrder
  leaf : ∀ n ∈ root.nodes, n.isNamed = false → n.children = []

instance (root : Node) : Decidable root.WellFormed :=
  decidable_of_iff
    ((∀ n ∈ root.nodes, n.InOrder) ∧ ∀ n ∈ root.nodes, n.isNamed = false → n.children.isEmpty)
    ⟨fun ⟨inOrder, leaf⟩ => ⟨inOrder, fun n hn hu => List.isEmpty_iff.mp (leaf n hn hu)⟩,
      fun h => ⟨h.inOrder, fun n hn hu => List.isEmpty_iff.mpr (h.leaf n hn hu)⟩⟩

theorem WellFormed.ordered {n : Node} (h : n.WellFormed) : n.Ordered := h.inOrder

theorem WellFormed.self {n : Node} (h : n.WellFormed) : n.InOrder := h.ordered.self

theorem WellFormed.of_mem {n m : Node} (h : n.WellFormed) (hm : m ∈ n.nodes) : m.WellFormed where
  inOrder k hk := h.inOrder k (mem_nodes_trans hm hk)
  leaf k hk := h.leaf k (mem_nodes_trans hm hk)

theorem WellFormed.child {n child : Node} (h : n.WellFormed) (hc : child ∈ n.children) :
    child.WellFormed := h.of_mem (mem_nodes_child hc)

theorem WellFormed.isNamed_of_child {n child : Node} (h : n.WellFormed) (hc : child ∈ n.children) :
    n.isNamed = true := by
  cases hn : n.isNamed with
  | true => rfl
  | false =>
    rw [h.leaf n n.mem_nodes_self hn] at hc
    cases hc

-- ---------------------------------------------------------------------------
-- Nested or apart
-- ---------------------------------------------------------------------------

theorem Ordered.range_of_mem {n m : Node} (h : n.Ordered) (hm : m ∈ n.nodes) :
    n.start ≤ m.start ∧ m.start ≤ m.stop ∧ m.stop ≤ n.stop := by
  induction n using Node.ind with
  | mk label children ih =>
    rcases mem_nodes.mp hm with rfl | ⟨child, hc, hm⟩
    · exact ⟨Nat.le_refl _, h.self.le, Nat.le_refl _⟩
    · obtain ⟨hstart, hle, hstop⟩ := ih child hc (h.child hc) hm
      obtain ⟨hleft, hright⟩ := h.self.inside child hc
      exact ⟨Nat.le_trans hleft hstart, hle, Nat.le_trans hstop hright⟩

theorem WellFormed.range_of_mem {n m : Node} (h : n.WellFormed) (hm : m ∈ n.nodes) :
    n.start ≤ m.start ∧ m.start ≤ m.stop ∧ m.stop ≤ n.stop := h.ordered.range_of_mem hm

theorem pairwise_apartOf {children : List Node} (hordered : ∀ child ∈ children, child.Ordered)
    (hnodes : ∀ child ∈ children,
      child.nodes.Pairwise fun a b => b ∈ nodesOf a.children ∨ a.stop ≤ b.start)
    (hapart : children.Pairwise fun a b => a.stop ≤ b.start) :
    (nodesOf children).Pairwise fun a b => b ∈ nodesOf a.children ∨ a.stop ≤ b.start := by
  induction children with
  | nil => exact .nil
  | cons child rest ih =>
    obtain ⟨hfirst, hrest⟩ := List.pairwise_cons.mp hapart
    refine List.pairwise_append.mpr ⟨hnodes child (by simp), ?_, ?_⟩
    · exact ih (fun c hc => hordered c (List.mem_cons_of_mem _ hc))
        (fun c hc => hnodes c (List.mem_cons_of_mem _ hc)) hrest
    · intro a ha b hb
      obtain ⟨other, ho, hb⟩ := mem_nodesOf.mp hb
      obtain ⟨-, -, hstop⟩ := (hordered child (by simp)).range_of_mem ha
      obtain ⟨hstart, -, -⟩ := (hordered other (List.mem_cons_of_mem _ ho)).range_of_mem hb
      exact .inr (Nat.le_trans hstop (Nat.le_trans (hfirst other ho) hstart))

/-- What comes later in document order is below a node or behind it. -/
theorem Ordered.pairwise_apart {root : Node} (h : root.Ordered) :
    root.nodes.Pairwise fun a b => b ∈ nodesOf a.children ∨ a.stop ≤ b.start := by
  induction root using Node.ind with
  | mk label children ih =>
    exact List.pairwise_cons.mpr ⟨fun m hm => .inl hm,
      pairwise_apartOf (fun c hc => h.child hc) (fun c hc => ih c hc (h.child hc)) h.self.apart⟩

theorem Ordered.pairwise_leaf {root : Node} (h : root.Ordered) :
    root.nodes.Pairwise fun a b => a.children = [] → a.stop ≤ b.start := by
  refine h.pairwise_apart.imp fun {a b} hab ha => ?_
  rw [ha] at hab
  exact hab.resolve_left List.not_mem_nil

/-- How a node lies to one that comes later in document order. -/
def Leads (a b : Node) : Prop := a.start ≤ b.start ∧ (b.stop ≤ a.stop ∨ a.stop ≤ b.start)

theorem Ordered.pairwise_nodes {root : Node} (h : root.Ordered) : root.nodes.Pairwise Leads := by
  refine h.pairwise_apart.imp_of_mem fun {a b} ha _ hab => ?_
  rcases hab with hbelow | hbehind
  · have hmem : b ∈ a.nodes := by
      rw [nodes_eq]
      exact List.mem_cons_of_mem _ hbelow
    obtain ⟨hstart, -, hstop⟩ := (h.of_mem ha).range_of_mem hmem
    exact ⟨hstart, .inl hstop⟩
  · exact ⟨Nat.le_trans (h a ha).le hbehind, .inr hbehind⟩

-- ---------------------------------------------------------------------------
-- Trees of a text
-- ---------------------------------------------------------------------------

def Cuts (text : String) (root : Node) : Prop :=
  ∀ n ∈ root.nodes, Text.IsCut text n.start ∧ Text.IsCut text n.stop

instance (text : String) (root : Node) : Decidable (root.Cuts text) :=
  inferInstanceAs (Decidable (∀ n ∈ root.nodes, _ ∧ _))

/-- The tree can belong to the text: it is well-formed and cuts it only between characters. -/
structure Fits (text : String) (root : Node) : Prop extends root.WellFormed where
  cut : ∀ n ∈ root.nodes, Text.IsCut text n.start ∧ Text.IsCut text n.stop

instance (text : String) (root : Node) : Decidable (root.Fits text) :=
  decidable_of_iff
    (root.WellFormed ∧ ∀ n ∈ root.nodes, Text.IsCut text n.start ∧ Text.IsCut text n.stop)
    ⟨fun ⟨h, cut⟩ => ⟨h, cut⟩, fun h => ⟨h.toWellFormed, h.cut⟩⟩

variable {text : String}

theorem Fits.cut_self {n : Node} (h : n.Fits text) :
    Text.IsCut text n.start ∧ Text.IsCut text n.stop := h.cut n n.mem_nodes_self

theorem Fits.of_mem {n m : Node} (h : n.Fits text) (hm : m ∈ n.nodes) : m.Fits text where
  toWellFormed := h.toWellFormed.of_mem hm
  cut k hk := h.cut k (mem_nodes_trans hm hk)

-- ---------------------------------------------------------------------------
-- Weaker notions
-- ---------------------------------------------------------------------------

/-- The ranges of the children lie inside the one of their parent, in any order. -/
def Nested (root : Node) : Prop :=
  ∀ n ∈ root.nodes, ∀ child ∈ n.children, n.start ≤ child.start ∧ child.stop ≤ n.stop

instance (root : Node) : Decidable root.Nested :=
  inferInstanceAs (Decidable (∀ n ∈ root.nodes, ∀ child ∈ n.children, _ ∧ _))

theorem Nested.of_mem {n m : Node} (h : n.Nested) (hm : m ∈ n.nodes) : m.Nested :=
  fun k hk => h k (mem_nodes_trans hm hk)

theorem Nested.range_of_mem {n m : Node} (h : n.Nested) (hm : m ∈ n.nodes) :
    n.start ≤ m.start ∧ m.stop ≤ n.stop := by
  induction n using Node.ind with
  | mk label children ih =>
    rcases mem_nodes.mp hm with rfl | ⟨child, hc, hm⟩
    · exact ⟨Nat.le_refl _, Nat.le_refl _⟩
    · obtain ⟨hstart, hstop⟩ := ih child hc (h.of_mem (mem_nodes_child hc)) hm
      obtain ⟨hleft, hright⟩ := h _ (mem_nodes_self _) child hc
      exact ⟨Nat.le_trans hleft hstart, Nat.le_trans hstop hright⟩

def Sliced (text : String) (root : Node) : Prop :=
  ∀ n ∈ root.nodes, (Text.slice? text n.start n.stop).isSome = true

instance (text : String) (root : Node) : Decidable (root.Sliced text) :=
  inferInstanceAs (Decidable (∀ n ∈ root.nodes, _ = true))

theorem Sliced.slice {n m : Node} (h : n.Sliced text) (hm : m ∈ n.nodes) :
    ∃ piece, Text.slice? text m.start m.stop = some piece := Option.isSome_iff_exists.mp (h m hm)

theorem Sliced.of_mem {n m : Node} (h : n.Sliced text) (hm : m ∈ n.nodes) : m.Sliced text :=
  fun k hk => h k (mem_nodes_trans hm hk)

end Mutagen.Node
