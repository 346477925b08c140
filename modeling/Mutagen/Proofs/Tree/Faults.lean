import Mutagen.Proofs.Tree.Sites
import Mutagen.Tree.Token

/-!
# The first fault of a tree

The search for a fault passes over the subtrees that are not marked. Where all that leads to a fault
is marked, it finds what a search of the whole tree in document order finds first
(`findFault?_ofRoot`).
-/

namespace Mutagen

namespace Node

/-- Every node above a fault is marked as faulty. A fault itself need not be. -/
def Traced (root : Node) : Prop :=
  ∀ n ∈ root.nodes, ∀ fault ∈ nodesOf n.children, fault.isFault = true → n.label.faulty = true

instance (root : Node) : Decidable root.Traced :=
  inferInstanceAs (Decidable (∀ n ∈ root.nodes, ∀ fault ∈ nodesOf n.children, _ → _))

theorem Traced.of_mem {n m : Node} (h : n.Traced) (hm : m ∈ n.nodes) : m.Traced :=
  fun k hk => h k (mem_nodes_trans hm hk)

/-- What a recovering parser promises of its marks: all that leads to a fault is marked, and the
root is marked only if there is a fault. -/
structure Marked (root : Node) : Prop where
  traced : root.Traced
  root : root.label.faulty = true ↔ ∃ n ∈ root.nodes, n.isFault = true

instance (root : Node) : Decidable root.Marked :=
  decidable_of_iff
    (root.Traced ∧ (root.label.faulty = true ↔ ∃ n ∈ root.nodes, n.isFault = true))
    ⟨fun ⟨traced, root⟩ => ⟨traced, root⟩, fun h => ⟨h.traced, h.root⟩⟩

end Node

namespace Site

theorem findFault?_of_fault {s : Site} (h : s.node.isFault = true) : findFault? s = some s := by
  rw [findFault?, if_pos h]

theorem findFault?_of_sound {s : Site} (h : s.node.isFault = false) :
    findFault? s = s.nextMarked?.bind findFault? := by
  rw [findFault?, h]
  simp only [Bool.false_eq_true, if_false]
  split <;> simp_all

theorem findFault?_children {label : Label} {above : List Surround} {child : Node}
    {rest : List Node}
    (ih : ∀ c ∈ child :: rest, ∀ above : List Surround, findFault? ⟨c, above⟩ =
      ((sites above c).find? (·.node.isFault)).or ((climb? ⟨c, above⟩).bind findFault?))
    (before : List Node) :
    findFault? ⟨child, ⟨label, before, rest⟩ :: above⟩ =
      ((sitesFrom above label before (child :: rest)).find? (·.node.isFault)).or
        ((climb? ⟨.mk label (before.reverse ++ child :: rest), above⟩).bind findFault?) := by
  rw [ih child (by simp)]
  induction rest generalizing child before with
  | nil => simp [sitesFrom, climb?_last]
  | cons next rest ihRest =>
    have hrest := fun c hc => ih c (List.mem_cons_of_mem child hc)
    rw [climb?_cons, Option.bind_some, hrest next (by simp), ihRest hrest]
    simp [sitesFrom, Option.or_assoc]

theorem find?_sitesFrom_eq_none {above : List Surround} {label : Label} {before children : List Node}
    (h : ∀ n ∈ Node.nodesOf children, n.isFault = false) :
    (sitesFrom above label before children).find? (·.node.isFault) = none := by
  refine List.find?_eq_none.mpr fun s hs => ?_
  have hnode : s.node ∈ Node.nodesOf children := by
    rw [← map_node_sitesFrom above label before children]
    exact List.mem_map_of_mem hs
  simp [h _ hnode]

/-- A search finds the first fault of the subtree where it starts, and goes on from the next site
after it if there is none. -/
theorem findFault?_eq (n : Node) : n.Traced → ∀ above : List Surround, findFault? ⟨n, above⟩ =
    ((sites above n).find? (·.node.isFault)).or ((climb? ⟨n, above⟩).bind findFault?) := by
  induction n using Node.ind with
  | mk label children ih =>
    intro h above
    cases hfault : Node.isFault (.mk label children) with
    | true => simp [findFault?_of_fault, sites, hfault]
    | false =>
      rw [findFault?_of_sound hfault, sites, List.find?_cons_of_neg (by simp [hfault])]
      cases hmarked : label.faulty with
      -- what is passed over holds no fault
      | false =>
        have hnone : ∀ n ∈ Node.nodesOf children, n.isFault = false := by
          intro n hn
          cases hn' : n.isFault with
          | false => rfl
          | true => exact absurd (h _ (Node.mem_nodes_self _) n hn hn') (by simp [Node.label, hmarked])
        simp [find?_sitesFrom_eq_none hnone, nextMarked?, Node.label, hmarked]
      | true =>
        have hnext : nextMarked? ⟨.mk label children, above⟩ = next? ⟨.mk label children, above⟩ :=
          if_pos hmarked
        rw [hnext]
        cases children with
        | nil => simp [next?, firstChild?, sitesFrom]
        | cons child rest =>
          have hchild := fun c hc => ih c hc (h.of_mem (Node.mem_nodes_child hc))
          exact findFault?_children hchild []

theorem findFault?_ofRoot {root : Node} (h : root.Traced) :
    findFault? (ofRoot root) = (sites [] root).find? (·.node.isFault) := by
  have hclimb := climb?_ofRoot root
  unfold ofRoot at hclimb ⊢
  simp [findFault?_eq root h, hclimb]

end Site

namespace Node

theorem Traced.firstFault?_eq {root : Node} (h : root.Traced) :
    root.firstFault? = root.nodes.find? (·.isFault) := by
  rw [firstFault?, Site.findFault?_ofRoot h, ← Site.map_node_sites [] root, List.find?_map]
  rfl

end Node

end Mutagen
