import Mutagen.Proofs.Tree.Nodes
import Mutagen.Tree.Site

/-!
# The sites of a tree

`sites` and `constructs` list the sites of a subtree by recursion, all of them or those that named
nodes alone lead to. Walking through a tree with a cursor visits its sites in that order
(`walk_ofRoot`), and where only named nodes have children, both ways meet the same named nodes
(`constructs_eq_filter`).
-/

namespace Mutagen

namespace Site

mutual
def sites (above : List Surround) : Node → List Site
  | .mk label children => ⟨.mk label children, above⟩ :: sitesFrom above label [] children

def sitesFrom (above : List Surround) (label : Label) (before : List Node) : List Node → List Site
  | [] => []
  | child :: rest =>
    sites (⟨label, before, rest⟩ :: above) child ++ sitesFrom above label (child :: before) rest
end

mutual
/-- A subtree with what named children alone lead to, in document order. -/
def constructs (above : List Surround) : Node → List Site
  | .mk label children =>
    ⟨.mk label children, above⟩ :: constructsFrom above label [] children

def constructsFrom (above : List Surround) (label : Label) (before : List Node) :
    List Node → List Site
  | [] => []
  | child :: rest =>
    (if child.isNamed then constructs (⟨label, before, rest⟩ :: above) child else []) ++
      constructsFrom above label (child :: before) rest
end

-- ---------------------------------------------------------------------------
-- Walking
-- ---------------------------------------------------------------------------

theorem climb?_ofRoot (root : Node) : climb? (ofRoot root) = none := by
  rw [climb?]
  rfl

theorem climb?_cons (label : Label) (before : List Node) (child next : Node) (rest : List Node)
    (above : List Surround) :
    climb? ⟨child, ⟨label, before, next :: rest⟩ :: above⟩ =
      some ⟨next, ⟨label, child :: before, rest⟩ :: above⟩ := by
  rw [climb?]
  rfl

theorem climb?_last (label : Label) (before : List Node) (child : Node) (above : List Surround) :
    climb? ⟨child, ⟨label, before, []⟩ :: above⟩ =
      climb? ⟨.mk label (before.reverse ++ [child]), above⟩ := by
  rw [climb?]
  rfl

/-- The rest of a walk that has found some sites and goes on at a site, or is over. -/
def resume (keep : Site → Bool) (found : List Site) : Option Site → List Site
  | none => found.reverse
  | some next => walk keep found next

theorem walk_eq_resume (keep : Site → Bool) (found : List Site) (s : Site) :
    walk keep found s = resume keep (if keep s then s :: found else found) s.next? := by
  rw [walk]
  split
  · rename_i h
    rw [h]
    rfl
  · rename_i next h
    rw [h]
    rfl

variable {keep : Site → Bool}

/-- From one child a walk goes through the later ones, and on from the next site after all. -/
theorem walk_children {label : Label} {above : List Surround} {child : Node} {rest : List Node}
    (ih : ∀ c ∈ child :: rest, ∀ (above : List Surround) (found : List Site),
      walk keep found ⟨c, above⟩ =
        resume keep (((sites above c).filter keep).reverse ++ found) (climb? ⟨c, above⟩))
    (before : List Node) (found : List Site) :
    walk keep found ⟨child, ⟨label, before, rest⟩ :: above⟩ =
      resume keep (((sitesFrom above label before (child :: rest)).filter keep).reverse ++ found)
        (climb? ⟨.mk label (before.reverse ++ child :: rest), above⟩) := by
  rw [ih child (by simp)]
  induction rest generalizing child before found with
  | nil => simp [sitesFrom, climb?_last]
  | cons next rest ihRest =>
    have hrest := fun c hc => ih c (List.mem_cons_of_mem child hc)
    rw [climb?_cons, resume, hrest next (by simp), ihRest hrest]
    simp [sitesFrom]

/-- A walk goes through the subtree where it starts, and then on from the next site after it. -/
theorem walk_eq (n : Node) : ∀ (above : List Surround) (found : List Site),
    walk keep found ⟨n, above⟩ =
      resume keep (((sites above n).filter keep).reverse ++ found) (climb? ⟨n, above⟩) := by
  induction n using Node.ind with
  | mk label children ih =>
    intro above found
    rw [walk_eq_resume]
    cases children with
    | nil =>
      simp only [next?, firstChild?, sites, sitesFrom, List.filter_cons]
      split <;> rfl
    | cons child rest =>
      show walk keep _ ⟨child, ⟨label, [], rest⟩ :: above⟩ = _
      rw [walk_children ih]
      simp only [sites, List.filter_cons]
      split <;> simp

theorem walk_ofRoot (root : Node) : walk keep [] (ofRoot root) = (sites [] root).filter keep := by
  have hclimb := climb?_ofRoot root
  unfold ofRoot at hclimb ⊢
  simp [walk_eq, hclimb, resume]

-- ---------------------------------------------------------------------------
-- Children in a role
-- ---------------------------------------------------------------------------

theorem map_node_siblings (above : List Surround) (label : Label) (before children : List Node) :
    (siblings above label before children).map node = children := by
  induction children generalizing before with
  | nil => rfl
  | cons child rest ih => simp [siblings, ih]

theorem node_child? (s : Site) (role : String) :
    (s.child? role).map node = s.node.children.find? (·.field == some role) := by
  rw [← map_node_siblings s.above s.node.label [] s.node.children, List.find?_map]
  rfl

theorem child?_mem {s child : Site} {role : String} (h : s.child? role = some child) :
    child.node ∈ s.node.children := by
  have hfind := node_child? s role
  rw [h] at hfind
  exact List.mem_of_find?_eq_some hfind.symm

theorem find?_siblings {above : List Surround} {label : Label} {before first rest : List Node}
    {child : Node} {role : String} (hchild : child.field = some role)
    (hfirst : ∀ n ∈ first, n.field ≠ some role) :
    (siblings above label before (first ++ child :: rest)).find? (·.node.field == some role) =
      some ⟨child, ⟨label, first.reverse ++ before, rest⟩ :: above⟩ := by
  induction first generalizing before with
  | nil => simp [siblings, hchild]
  | cons n first ih =>
    obtain ⟨hn, hfirst⟩ := List.forall_mem_cons.mp hfirst
    simp [siblings, hn, ih hfirst]

theorem child?_of_fills {s parent : Site} {role : String} (h : s.fills role = true)
    (hparent : s.parent? = some parent) : parent.child? role = some s := by
  obtain ⟨node, _ | ⟨⟨label, before, after⟩, above⟩⟩ := s
  · cases h
  cases hparent
  obtain ⟨hfield, hbefore⟩ := Bool.and_eq_true_iff.mp h
  have hfirst : ∀ n ∈ before.reverse, n.field ≠ some role := fun n hn =>
    bne_iff_ne.mp (List.all_eq_true.mp hbefore n (List.mem_reverse.mp hn))
  have hfind : (siblings above label [] (before.reverse ++ node :: after)).find?
      (·.node.field == some role) = _ := find?_siblings (beq_iff_eq.mp hfield) hfirst
  rwa [List.reverse_reverse, List.append_nil] at hfind

-- ---------------------------------------------------------------------------
-- What the lists hold
-- ---------------------------------------------------------------------------

mutual
theorem map_node_sites (above : List Surround) : (n : Node) → (sites above n).map node = n.nodes
  | .mk label children => by simp [sites, Node.nodes, map_node_sitesFrom above label [] children]

theorem map_node_sitesFrom (above : List Surround) (label : Label) (before : List Node) :
    (children : List Node) → (sitesFrom above label before children).map node =
      Node.nodesOf children
  | [] => rfl
  | child :: rest => by
    simp [sitesFrom, Node.nodesOf, map_node_sites _ child, map_node_sitesFrom above label _ rest]
end

mutual
theorem node_mem_constructs {above : List Surround} {s : Site} :
    {n : Node} → s ∈ constructs above n → s.node ∈ n.nodes
  | .mk label children, h => by
    rcases List.mem_cons.mp h with rfl | h
    · exact Node.mem_nodes_self _
    · obtain ⟨child, hc, -, hs⟩ := node_mem_constructsFrom h
      exact Node.mem_nodes_of_child hc hs

theorem node_mem_constructsFrom {above : List Surround} {label : Label} {before : List Node}
    {s : Site} : {children : List Node} → s ∈ constructsFrom above label before children →
    ∃ child ∈ children, child.isNamed = true ∧ s.node ∈ child.nodes
  | child :: rest, h => by
    rcases List.mem_append.mp h with h | h
    · split at h
      · rename_i hn
        exact ⟨child, List.mem_cons_self, hn, node_mem_constructs h⟩
      · cases h
    · obtain ⟨later, hl, hs⟩ := node_mem_constructsFrom h
      exact ⟨later, List.mem_cons_of_mem _ hl, hs⟩
end

mutual
/-- Where only named nodes have children, nothing that is named is out of reach. -/
theorem constructs_eq_filter (above : List Surround) : (n : Node) → n.isNamed →
    (∀ m ∈ n.nodes, m.isNamed = false → m.children = []) →
    constructs above n = (sites above n).filter fun s => s.node.isNamed
  | .mk label children, hn, h => by
    have hfrom := constructsFrom_eq_filter above label [] children fun m hm =>
      h m (by rw [Node.nodes_eq]; exact List.mem_cons_of_mem _ hm)
    simp [constructs, sites, hfrom, hn]

theorem constructsFrom_eq_filter (above : List Surround) (label : Label) (before : List Node) :
    (children : List Node) → (∀ m ∈ Node.nodesOf children, m.isNamed = false → m.children = []) →
    constructsFrom above label before children =
      (sitesFrom above label before children).filter fun s => s.node.isNamed
  | [], _ => rfl
  | child :: rest, h => by
    simp only [Node.nodesOf, List.mem_append] at h
    have hrest := constructsFrom_eq_filter above label (child :: before) rest fun m hm =>
      h m (.inr hm)
    simp only [constructsFrom, sitesFrom, List.filter_append, hrest]
    congr 1
    split
    · rename_i hn
      exact constructs_eq_filter _ child hn fun m hm => h m (.inl hm)
    · rename_i hn
      obtain ⟨label, children⟩ := child
      have hleaf : children = [] := h _ (.inl (Node.mem_nodes_self _)) (by simpa using hn)
      subst hleaf
      simpa [sites, sitesFrom] using hn
end

end Site

namespace Node

theorem sitesOfKind_eq_filter (root : Node) (kinds : List String) :
    root.sitesOfKind kinds =
      (Site.sites [] root).filter fun s => s.node.isNamed && kinds.contains s.kind := by
  unfold sitesOfKind
  split
  · rename_i h
    simp [List.isEmpty_iff.mp h]
  · exact Site.walk_ofRoot root

theorem mem_sitesOfKind {root : Node} {kinds : List String} {s : Site} :
    s ∈ root.sitesOfKind kinds ↔
      s ∈ Site.sites [] root ∧ s.node.isNamed = true ∧ s.kind ∈ kinds := by
  simp [sitesOfKind_eq_filter]

theorem node_mem_of_sitesOfKind {root : Node} {kinds : List String} {s : Site}
    (h : s ∈ root.sitesOfKind kinds) : s.node ∈ root.nodes := by
  rw [← Site.map_node_sites [] root]
  exact List.mem_map_of_mem (mem_sitesOfKind.mp h).1

theorem Ordered.pairwise_sitesOfKind {root : Node} (h : root.Ordered) (kinds : List String) :
    (root.sitesOfKind kinds).Pairwise fun a b => Leads a.node b.node := by
  have hnodes : ((Site.sites [] root).map Site.node).Pairwise Leads :=
    Site.map_node_sites [] root ▸ h.pairwise_nodes
  rw [sitesOfKind_eq_filter]
  exact (List.pairwise_map.mp hnodes).sublist List.filter_sublist

theorem WellFormed.pairwise_sitesOfKind {root : Node} (h : root.WellFormed) (kinds : List String) :
    (root.sitesOfKind kinds).Pairwise fun a b => Leads a.node b.node :=
  h.ordered.pairwise_sitesOfKind kinds

end Node

end Mutagen
