import Mutagen.Tree.Basic

/-!
# Flat listings

A tree as the list of its nodes in document order, each with the number of its children. A listing
is read back from its end: a node takes its children from the trees that follow it.
-/

namespace Mutagen.Node

mutual
def listing : Node → List (Label × Nat)
  | .mk label children => (label, children.length) :: listingOf children

def listingOf : List Node → List (Label × Nat)
  | [] => []
  | child :: rest => child.listing ++ listingOf rest
end

/-- Puts a node in front of the trees that follow it, the first of which are its children. -/
def adopt (entry : Label × Nat) (following : List Node) : List Node :=
  .mk entry.1 (following.take entry.2) :: following.drop entry.2

def ofListing? (entries : List (Label × Nat)) : Option Node := (entries.foldr adopt []).head?

theorem foldr_listing (n : Node) : ∀ following, n.listing.foldr adopt following = n :: following := by
  induction n using Node.ind with
  | mk label children ih =>
    have all : ∀ (nodes following : List Node), (∀ n ∈ nodes, n ∈ children) →
        (listingOf nodes).foldr adopt following = nodes ++ following := by
      intro nodes
      induction nodes with
      | nil => simp [listingOf]
      | cons n rest ihRest =>
        intro following h
        simp only [listingOf, List.foldr_append, ihRest following (fun m hm => h m (by simp [hm])),
          ih n (h n (by simp)), List.cons_append]
    intro following
    simp [listing, all children following (fun _ h => h), adopt]

theorem ofListing?_listing (n : Node) : ofListing? n.listing = some n := by
  simp [ofListing?, foldr_listing]

end Mutagen.Node
