import Mutagen.Proofs.Tree.Order
import Mutagen.Tree.Token

/-!
# The tokens of a tree

The search for tokens goes through the subtree where it starts and no further
(`Site.tokens_eq_filter`). In an ordered tree tokens stand one behind the other
(`Ordered.pairwise_tokens`). So a search finds exactly the tokens of its subtree, in the order of the
tree and of the text (`Site.tokens_inOrder`).
-/

namespace Mutagen

namespace Site

variable {top s : Site} {found : List Site}

-- ---------------------------------------------------------------------------
-- Climbing within a subtree
-- ---------------------------------------------------------------------------

theorem length_path (s : Site) : s.path.length = s.above.length := by
  simp [path]

theorem path_ne_of_deeper (h : top.above.length < s.above.length) : s.path ≠ top.path := by
  intro heq
  have hlength := congrArg List.length heq
  rw [length_path, length_path] at hlength
  omega

theorem climbWithin?_self (top : Site) : climbWithin? top top = none := by
  rw [climbWithin?, if_pos rfl]

section
variable {label : Label} {above : List Surround} (h : top.above.length ≤ above.length)
include h

theorem climbWithin?_cons (before : List Node) (child next : Node) (rest : List Node) :
    climbWithin? top ⟨child, ⟨label, before, next :: rest⟩ :: above⟩ =
      some ⟨next, ⟨label, child :: before, rest⟩ :: above⟩ := by
  rw [climbWithin?, if_neg (path_ne_of_deeper (Nat.lt_succ_of_le h))]
  rfl

theorem climbWithin?_last (before : List Node) (child : Node) :
    climbWithin? top ⟨child, ⟨label, before, []⟩ :: above⟩ =
      climbWithin? top ⟨.mk label (before.reverse ++ [child]), above⟩ := by
  rw [climbWithin?, if_neg (path_ne_of_deeper (Nat.lt_succ_of_le h))]
  rfl

end

-- ---------------------------------------------------------------------------
-- The search
-- ---------------------------------------------------------------------------

def resumeTokens (top : Site) (found : List Site) : Option Site → List Site
  | none => found.reverse
  | some next => gatherTokens top found next

theorem gatherTokens_leaf (h : s.firstChild? = none) : gatherTokens top found s =
    resumeTokens top (if s.node.isToken then s :: found else found) (climbWithin? top s) := by
  rw [gatherTokens]
  split
  · rename_i hc
    rw [h] at hc
    cases hc
  · dsimp only
    split
    · rename_i hnext
      rw [hnext]
      rfl
    · rename_i hnext
      rw [hnext]
      rfl

theorem gatherTokens_node {child : Site} (h : s.firstChild? = some child) :
    gatherTokens top found s = gatherTokens top found child := by
  rw [gatherTokens]
  split
  · rename_i hc
    rw [h] at hc
    cases hc
    rfl
  · rename_i hc
    rw [h] at hc
    cases hc

theorem gatherTokens_children {label : Label} {above : List Surround} {child : Node}
    {rest : List Node} (h : top.above.length ≤ above.length)
    (ih : ∀ c ∈ child :: rest, ∀ (above : List Surround) (found : List Site),
      top.above.length ≤ above.length → gatherTokens top found ⟨c, above⟩ =
        resumeTokens top (((sites above c).filter (·.node.isToken)).reverse ++ found)
          (climbWithin? top ⟨c, above⟩))
    (before : List Node) (found : List Site) :
    gatherTokens top found ⟨child, ⟨label, before, rest⟩ :: above⟩ =
      resumeTokens top
        (((sitesFrom above label before (child :: rest)).filter (·.node.isToken)).reverse ++ found)
        (climbWithin? top ⟨.mk label (before.reverse ++ child :: rest), above⟩) := by
  have hdeeper : ∀ around : Surround, top.above.length ≤ (around :: above).length :=
    fun _ => Nat.le_succ_of_le h
  rw [ih child (by simp) _ _ (hdeeper _)]
  induction rest generalizing child before found with
  | nil => simp [sitesFrom, climbWithin?_last h]
  | cons next rest ihRest =>
    have hrest := fun c hc => ih c (List.mem_cons_of_mem child hc)
    rw [climbWithin?_cons h, resumeTokens, hrest next (by simp) _ _ (hdeeper _), ihRest hrest]
    simp [sitesFrom]

/-- A search goes through the subtree that it comes to, and then on from the next site after it. -/
theorem gatherTokens_eq (n : Node) : ∀ (above : List Surround) (found : List Site),
    top.above.length ≤ above.length → gatherTokens top found ⟨n, above⟩ =
      resumeTokens top (((sites above n).filter (·.node.isToken)).reverse ++ found)
        (climbWithin? top ⟨n, above⟩) := by
  induction n using Node.ind with
  | mk label children ih =>
    intro above found h
    cases children with
    | nil =>
      rw [gatherTokens_leaf rfl]
      simp only [sites, sitesFrom, List.filter_cons]
      split <;> rfl
    | cons child rest =>
      have hnode : Node.isToken (.mk label (child :: rest)) = false := rfl
      rw [gatherTokens_node rfl, gatherTokens_children h ih, sites,
        List.filter_cons_of_neg (by simp [hnode])]
      rfl

theorem tokens_eq_filter (top : Site) :
    top.tokens = (sites top.above top.node).filter (·.node.isToken) := by
  have heq : gatherTokens top [] ⟨top.node, top.above⟩ = _ :=
    gatherTokens_eq top.node top.above [] (Nat.le_refl _)
  rw [climbWithin?_self] at heq
  rw [tokens, heq]
  simp [resumeTokens]

end Site

-- ---------------------------------------------------------------------------
-- Where tokens are
-- ---------------------------------------------------------------------------

namespace Node

theorem tokens_eq_filter (n : Node) : n.tokens = n.nodes.filter (·.isToken) := by
  rw [tokens, Site.tokens_eq_filter, ← Site.map_node_sites [] n, List.filter_map]
  rfl

theorem isToken_iff {n : Node} :
    n.isToken = true ↔ n.children = [] ∧ n.start < n.stop ∧ n.kind ≠ "comment" := by
  simp [isToken, and_assoc]

theorem Ordered.pairwise_tokens {n : Node} (h : n.Ordered) :
    n.tokens.Pairwise fun a b => a.stop ≤ b.start := by
  rw [tokens_eq_filter, List.pairwise_filter]
  exact h.pairwise_leaf.imp fun hab ha _ => hab (isToken_iff.mp ha).1

end Node

-- ---------------------------------------------------------------------------
-- The order of tokens
-- ---------------------------------------------------------------------------

namespace Site

variable {top s : Site}

theorem mem_tokens : s ∈ top.tokens ↔ s ∈ sites top.above top.node ∧ s.node.isToken = true := by
  rw [tokens_eq_filter, List.mem_filter]

theorem mem_tokens_iff {n : Node} {way : List Nat} :
    (∃ s ∈ top.tokens, s.path = way ∧ s.node = n) ↔
      (top.path <+: way ∧ top.whole.at? way = some n) ∧ n.isToken = true := by
  rw [← mem_sites_below]
  simp only [mem_tokens]
  constructor
  · rintro ⟨s, ⟨hs, htoken⟩, rfl, rfl⟩
    exact ⟨⟨s, hs, rfl, rfl⟩, htoken⟩
  · rintro ⟨⟨s, hs, rfl, rfl⟩, htoken⟩
    exact ⟨s, ⟨hs, htoken⟩, rfl, rfl⟩

theorem pairwise_tokens (top : Site) : top.tokens.Pairwise Before := by
  rw [tokens_eq_filter]
  exact (pairwise_sites top.above top.node).sublist List.filter_sublist

/-- What surrounds a subtree does not matter to a search in it. -/
theorem map_node_tokens (top : Site) : top.tokens.map node = top.node.tokens := by
  rw [tokens_eq_filter, Node.tokens_eq_filter, ← map_node_sites top.above top.node, List.filter_map]
  rfl

theorem pairwise_start_tokens (h : top.node.Ordered) :
    top.tokens.Pairwise fun a b => a.stop ≤ b.start ∧ a.start < b.start := by
  have hapart : top.tokens.Pairwise fun a b => a.stop ≤ b.start := by
    have hnodes := h.pairwise_tokens
    rwa [← map_node_tokens, List.pairwise_map] at hnodes
  refine hapart.imp_of_mem fun {a b} ha _ hab => ⟨hab, ?_⟩
  obtain ⟨-, hnonempty, -⟩ := Node.isToken_iff.mp (mem_tokens.mp ha).2
  exact Nat.lt_of_lt_of_le hnonempty hab

/-- A search for tokens ends, from whatever site of a tree it starts, with every node of the subtree
there that has no children, is not empty and is no comment. It finds each of them once, in document
order, and nothing outside the subtree. Where ranges are in order, what it finds does not overlap. -/
theorem tokens_inOrder (top : Site) :
    let found := top.tokens
    (∀ way n, (∃ s ∈ found, s.path = way ∧ s.node = n) ↔
      (top.path <+: way ∧ top.whole.at? way = some n) ∧
        n.children = [] ∧ n.start < n.stop ∧ n.kind ≠ "comment") ∧
    (∀ s ∈ found, s.whole = top.whole ∧ top.path <+: s.path) ∧
    (found.map path).Nodup ∧
    found.Pairwise Before ∧
    found.map node = top.node.tokens ∧
    (top.node.Ordered → found.Pairwise fun a b => a.stop ≤ b.start ∧ a.start < b.start) := by
  intro found
  have hbefore : found.Pairwise Before := pairwise_tokens top
  refine ⟨fun way n => ?_, fun s hs => ⟨?_, ?_⟩, ?_, hbefore, map_node_tokens top,
    pairwise_start_tokens⟩
  · rw [← Node.isToken_iff]
    exact mem_tokens_iff
  · exact whole_of_mem_sites (mem_tokens.mp hs).1
  · exact (mem_tokens_iff.mp ⟨s, hs, rfl, rfl⟩).1.1
  · exact List.pairwise_map.mpr (hbefore.imp Before.path_ne)

/-- The type in `let n: number = 1;`, with more of the declaration behind it. -/
def typePart : Site := (sites [] Node.annotated).get ⟨5, by decide⟩

theorem tokens_inOrder_typePart :
    typePart.path = [0, 1, 1] ∧ typePart.node.Ordered ∧
      typePart.tokens.map path = [[0, 1, 1, 0], [0, 1, 1, 1, 0]] ∧
      (typePart.tokens.map path).Nodup ∧
      typePart.tokens.Pairwise (fun a b => a.stop ≤ b.start ∧ a.start < b.start) := by
  have hordered : typePart.node.Ordered := by decide
  have hpaths : typePart.tokens.map path = [[0, 1, 1, 0], [0, 1, 1, 1, 0]] := by
    rw [tokens_eq_filter]
    rfl
  obtain ⟨-, -, honce, -, -, hstarts⟩ := tokens_inOrder typePart
  exact ⟨rfl, hordered, hpaths, honce, hstarts hordered⟩

end Site

end Mutagen
