import Mutagen.Proofs.Tree.Sites

/-!
# Document order

A node of a tree is told by the way down to it. Going through a tree comes to each way that leads
to a node exactly once: to a node before what is below it, and to all that is below it before its
later siblings (`sitesOfKind_inOrder`).
-/

namespace Mutagen

/-- The node at the end of a way down, whose numbers tell which child to go to. -/
def Node.at? : Node → List Nat → Option Node
  | n, [] => some n
  | n, i :: way => n.children[i]?.bind (·.at? way)

namespace Site

-- ---------------------------------------------------------------------------
-- The tree of a site
-- ---------------------------------------------------------------------------

def putBack (n : Node) : List Surround → Node
  | [] => n
  | around :: above =>
    putBack (.mk around.label (around.before.reverse ++ n :: around.after)) above

def whole (s : Site) : Node := putBack s.node s.above

mutual
theorem whole_of_mem_sites {above : List Surround} {s : Site} :
    {n : Node} → s ∈ sites above n → s.whole = putBack n above
  | .mk label children, h => by
    rcases List.mem_cons.mp h with rfl | h
    · rfl
    · exact whole_of_mem_sitesFrom h

theorem whole_of_mem_sitesFrom {above : List Surround} {label : Label} {before : List Node}
    {s : Site} : {children : List Node} → s ∈ sitesFrom above label before children →
    s.whole = putBack (.mk label (before.reverse ++ children)) above
  | child :: rest, h => by
    rcases List.mem_append.mp h with h | h
    · have hchild : s.whole = putBack child (⟨label, before, rest⟩ :: above) := whole_of_mem_sites h
      exact hchild
    · simpa using whole_of_mem_sitesFrom h
end

mutual
theorem mem_sites_of_constructs {above : List Surround} {s : Site} :
    {n : Node} → s ∈ constructs above n → s ∈ sites above n
  | .mk label children, h => by
    rcases List.mem_cons.mp h with rfl | h
    · exact List.mem_cons_self
    · exact List.mem_cons_of_mem _ (mem_sitesFrom_of_constructsFrom h)

theorem mem_sitesFrom_of_constructsFrom {above : List Surround} {label : Label}
    {before : List Node} {s : Site} : {children : List Node} →
    s ∈ constructsFrom above label before children → s ∈ sitesFrom above label before children
  | child :: rest, h => by
    rcases List.mem_append.mp h with h | h
    · split at h
      · exact List.mem_append_left _ (mem_sites_of_constructs h)
      · cases h
    · exact List.mem_append_right _ (mem_sitesFrom_of_constructsFrom h)
end

theorem whole_of_mem_constructs {root : Node} {s : Site} (h : s ∈ constructs [] root) :
    s.whole = root := whole_of_mem_sites (mem_sites_of_constructs h)

theorem whole_of_mem_sitesOfKind {root : Node} {kinds : List String} {s : Site}
    (h : s ∈ root.sitesOfKind kinds) : s.whole = root :=
  whole_of_mem_sites (Node.mem_sitesOfKind.mp h).1

theorem mem_children_parent? {s parent : Site} (h : s.parent? = some parent) :
    s.node ∈ parent.node.children := by
  obtain ⟨node, _ | ⟨around, above⟩⟩ := s
  · cases h
  · cases h
    simp [Node.children]

mutual
theorem parent_mem_sites {above : List Surround} {s parent : Site} :
    {n : Node} → s ∈ sites above n → s.parent? = some parent →
    s = ⟨n, above⟩ ∨ parent ∈ sites above n
  | .mk label children, h, hparent => by
    rcases List.mem_cons.mp h with rfl | h
    · exact .inl rfl
    · rcases parent_mem_sitesFrom h hparent with rfl | hmem
      · exact .inr List.mem_cons_self
      · exact .inr (List.mem_cons_of_mem _ hmem)

theorem parent_mem_sitesFrom {above : List Surround} {label : Label} {before : List Node}
    {s parent : Site} : {children : List Node} → s ∈ sitesFrom above label before children →
    s.parent? = some parent →
    parent = ⟨.mk label (before.reverse ++ children), above⟩ ∨
      parent ∈ sitesFrom above label before children
  | child :: rest, h, hparent => by
    rcases List.mem_append.mp h with h | h
    · rcases parent_mem_sites h hparent with rfl | hmem
      · cases hparent
        exact .inl rfl
      · exact .inr (List.mem_append_left _ hmem)
    · rcases parent_mem_sitesFrom h hparent with heq | hmem
      · exact .inl (by simpa using heq)
      · exact .inr (List.mem_append_right _ hmem)
end

theorem parent?_mem {root : Node} {s parent : Site} (h : s ∈ sites [] root)
    (hparent : s.parent? = some parent) : parent ∈ sites [] root := by
  rcases parent_mem_sites h hparent with rfl | hmem
  · cases hparent
  · exact hmem

theorem mem_nodes_putBack {m : Node} {above : List Surround} {n : Node} (h : m ∈ n.nodes) :
    m ∈ (putBack n above).nodes := by
  induction above generalizing n with
  | nil => exact h
  | cons around above ih => exact ih (Node.mem_nodes_of_child (by simp [Node.children]) h)

theorem previous?_mem {root p : Node} {s : Site} (hs : s ∈ sites [] root)
    (h : s.previous? = some p) : p ∈ root.nodes := by
  obtain ⟨node, _ | ⟨around, above⟩⟩ := s
  · cases h
  · let parent := Node.mk around.label (around.before.reverse ++ node :: around.after)
    have hroot : putBack parent above = root := whole_of_mem_sites hs
    have hp : p ∈ around.before := List.mem_of_head? h
    have hparent : p ∈ parent.children := by simp [parent, Node.children, hp]
    rw [← hroot]
    exact mem_nodes_putBack (Node.mem_nodes_child hparent)

-- ---------------------------------------------------------------------------
-- Ways down
-- ---------------------------------------------------------------------------

/-- The way from the root to the node with these surroundings. -/
def pathTo (above : List Surround) : List Nat := (above.map (·.before.length)).reverse

@[simp] theorem path_mk (n : Node) (above : List Surround) :
    (Site.mk n above).path = pathTo above := rfl

@[simp] theorem pathTo_cons (around : Surround) (above : List Surround) :
    pathTo (around :: above) = pathTo above ++ [around.before.length] := by
  simp [pathTo]

mutual
/-- Each site of a subtree has a way down to it, at whose end its node is found. -/
theorem exists_way {above : List Surround} {s : Site} : {n : Node} → s ∈ sites above n →
    ∃ way, s.path = pathTo above ++ way ∧ n.at? way = some s.node
  | .mk label children, h => by
    rcases List.mem_cons.mp h with rfl | h
    · exact ⟨[], by simp, rfl⟩
    · obtain ⟨i, way, hpath, hnode⟩ := exists_wayFrom h
      exact ⟨i :: way, by simpa using hpath, hnode⟩

theorem exists_wayFrom {above : List Surround} {label : Label} {before : List Node} {s : Site} :
    {children : List Node} → s ∈ sitesFrom above label before children →
    ∃ i way, s.path = pathTo above ++ (before.length + i) :: way ∧
      children[i]?.bind (·.at? way) = some s.node
  | child :: rest, h => by
    rcases List.mem_append.mp h with h | h
    · obtain ⟨way, hpath, hnode⟩ := exists_way h
      exact ⟨0, way, by simpa using hpath, by simpa using hnode⟩
    · obtain ⟨i, way, hpath, hnode⟩ := exists_wayFrom h
      refine ⟨i + 1, way, ?_, by simpa using hnode⟩
      rw [hpath, List.length_cons, Nat.add_right_comm, Nat.add_assoc]
end

mutual
theorem exists_site (above : List Surround) {m : Node} : (n : Node) → {way : List Nat} →
    n.at? way = some m → ∃ s ∈ sites above n, s.path = pathTo above ++ way ∧ s.node = m
  | .mk label children, [], h => by
    cases h
    exact ⟨⟨.mk label children, above⟩, List.mem_cons_self, by simp, rfl⟩
  | .mk label children, i :: way, h => by
    obtain ⟨s, hs, hpath, hnode⟩ := exists_siteFrom above label [] children h
    exact ⟨s, List.mem_cons_of_mem _ hs, by simpa using hpath, hnode⟩

theorem exists_siteFrom (above : List Surround) (label : Label) (before : List Node) {m : Node} :
    (children : List Node) → {i : Nat} → {way : List Nat} →
    children[i]?.bind (·.at? way) = some m → ∃ s ∈ sitesFrom above label before children,
      s.path = pathTo above ++ (before.length + i) :: way ∧ s.node = m
  | child :: rest, 0, way, h => by
    obtain ⟨s, hs, hpath, hnode⟩ := exists_site (⟨label, before, rest⟩ :: above) child h
    exact ⟨s, List.mem_append_left _ hs, by simpa using hpath, hnode⟩
  | child :: rest, i + 1, way, h => by
    obtain ⟨s, hs, hpath, hnode⟩ := exists_siteFrom above label (child :: before) rest h
    refine ⟨s, List.mem_append_right _ hs, ?_, hnode⟩
    rw [hpath, List.length_cons, Nat.add_right_comm, Nat.add_assoc]
end

theorem at?_putBack (above : List Surround) (n : Node) (way : List Nat) :
    (putBack n above).at? (pathTo above ++ way) = n.at? way := by
  induction above generalizing n way with
  | nil => rfl
  | cons around above ih => simp [putBack, ih, Node.at?, Node.children]

/-- The sites of a subtree are where the ways lead that go through its top. -/
theorem mem_sites_below {top : Site} {n : Node} {way : List Nat} :
    (∃ s ∈ sites top.above top.node, s.path = way ∧ s.node = n) ↔
      top.path <+: way ∧ top.whole.at? way = some n := by
  constructor
  · rintro ⟨s, hs, rfl, rfl⟩
    obtain ⟨way, hpath, hnode⟩ := exists_way hs
    refine ⟨⟨way, hpath.symm⟩, ?_⟩
    rw [hpath, whole, at?_putBack]
    exact hnode
  · rintro ⟨⟨way, rfl⟩, h⟩
    exact exists_site top.above top.node ((at?_putBack top.above top.node way).symm.trans h)

theorem mem_sites_iff {root n : Node} {way : List Nat} :
    (∃ s ∈ sites [] root, s.path = way ∧ s.node = n) ↔ root.at? way = some n := by
  have hbelow := @mem_sites_below (ofRoot root) n way
  simpa [ofRoot, pathTo, whole, putBack] using hbelow

-- ---------------------------------------------------------------------------
-- The order
-- ---------------------------------------------------------------------------

def Above (a b : Site) : Prop := ∃ i way, b.path = a.path ++ i :: way

/-- Where the ways part, the one to `a` takes the earlier child. -/
def LeftOf (a b : Site) : Prop :=
  ∃ common i j way way', i < j ∧ a.path = common ++ i :: way ∧ b.path = common ++ j :: way'

def Before (a b : Site) : Prop := a.Above b ∨ a.LeftOf b

theorem Before.path_ne {a b : Site} (h : a.Before b) : a.path ≠ b.path := by
  intro heq
  rcases h with ⟨i, way, hb⟩ | ⟨common, i, j, way, way', hlt, ha, hb⟩
  · rw [heq] at hb
    simp at hb
  · rw [ha, hb, List.append_cancel_left_eq, List.cons.injEq] at heq
    omega

mutual
theorem pairwise_sites (above : List Surround) : (n : Node) → (sites above n).Pairwise Before
  | .mk label children => by
    refine List.pairwise_cons.mpr ⟨fun s hs => .inl ?_, pairwise_sitesFrom above label [] children⟩
    obtain ⟨i, way, hpath, -⟩ := exists_wayFrom hs
    exact ⟨0 + i, way, hpath⟩

theorem pairwise_sitesFrom (above : List Surround) (label : Label) (before : List Node) :
    (children : List Node) → (sitesFrom above label before children).Pairwise Before
  | [] => .nil
  | child :: rest => by
    refine List.pairwise_append.mpr ⟨pairwise_sites _ child, pairwise_sitesFrom above label _ rest,
      fun a ha b hb => .inr ?_⟩
    -- one is in the subtree of `child`, the other in that of a later sibling
    obtain ⟨way, ha, -⟩ := exists_way ha
    obtain ⟨j, way', hb, -⟩ := exists_wayFrom hb
    refine ⟨pathTo above, before.length, _, way, way', ?_, by simpa using ha, hb⟩
    rw [List.length_cons]
    omega
end

end Site

namespace Node

open Site

theorem pairwise_before (root : Node) (kinds : List String) :
    (root.sitesOfKind kinds).Pairwise Before := by
  rw [sitesOfKind_eq_filter]
  exact (pairwise_sites [] root).sublist List.filter_sublist

theorem mem_sitesOfKind_iff {root n : Node} {kinds : List String} {way : List Nat} :
    (∃ s ∈ root.sitesOfKind kinds, s.path = way ∧ s.node = n) ↔
      root.at? way = some n ∧ n.isNamed = true ∧ n.kind ∈ kinds := by
  rw [← mem_sites_iff]
  simp only [mem_sitesOfKind]
  constructor
  · rintro ⟨s, ⟨hs, hnamed, hkind⟩, rfl, rfl⟩
    exact ⟨⟨s, hs, rfl, rfl⟩, hnamed, hkind⟩
  · rintro ⟨⟨s, hs, rfl, rfl⟩, hnamed, hkind⟩
    exact ⟨s, ⟨hs, hnamed, hkind⟩, rfl, rfl⟩

theorem sitesOfKind_of_union (root : Node) {kinds more union : List String}
    (h : ∀ kind, kind ∈ union ↔ kind ∈ kinds ∨ kind ∈ more) :
    root.sitesOfKind kinds = (root.sitesOfKind union).filter fun s => kinds.contains s.kind := by
  rw [sitesOfKind_eq_filter, sitesOfKind_eq_filter, List.filter_filter]
  refine List.filter_congr fun s _ => ?_
  rw [Bool.eq_iff_iff]
  simp only [Bool.and_eq_true, List.contains_iff_mem, h]
  exact ⟨fun ⟨hnamed, hkind⟩ => ⟨hkind, hnamed, .inl hkind⟩,
    fun ⟨hkind, hnamed, _⟩ => ⟨hnamed, hkind⟩⟩

/-- Looking for nodes of some kinds finds every named node of these kinds exactly once, in document
order. -/
theorem sitesOfKind_inOrder (root : Node) (kinds : List String) :
    let found := root.sitesOfKind kinds
    (∀ way n, (∃ s ∈ found, s.path = way ∧ s.node = n) ↔
      root.at? way = some n ∧ n.isNamed = true ∧ n.kind ∈ kinds) ∧
    (∀ s ∈ found, s.whole = root) ∧
    (found.map path).Nodup ∧
    found.Pairwise Before ∧
    (root.Ordered → found.Pairwise fun a b => a.start ≤ b.start) ∧
    ∀ more union : List String, (∀ kind, kind ∈ union ↔ kind ∈ kinds ∨ kind ∈ more) →
      found = (root.sitesOfKind union).filter fun s => kinds.contains s.kind := by
  intro found
  have hbefore : found.Pairwise Before := pairwise_before root kinds
  refine ⟨fun way n => mem_sitesOfKind_iff, fun s hs => whole_of_mem_sitesOfKind hs, ?_, hbefore,
    fun hroot => ?_, fun more union h => sitesOfKind_of_union root h⟩
  · exact List.pairwise_map.mpr (hbefore.imp Before.path_ne)
  · exact (hroot.pairwise_sitesOfKind kinds).imp And.left

/-- The tree of `let n: number = 1;`, in which the type is a bare token of the kind of a literal. -/
def annotated : Node :=
  let bare (kind : String) (start stop : Nat) : Node :=
    .mk ⟨kind, false, false, false, false, start, stop, none⟩ []
  .mk ⟨"program", true, false, false, false, 0, 18, none⟩ [
    .mk ⟨"lexical_declaration", true, false, false, false, 0, 18, none⟩ [
      bare "let" 0 3,
      .mk ⟨"variable_declarator", true, false, false, false, 4, 17, none⟩ [
        .mk ⟨"identifier", true, false, false, false, 4, 5, some "name"⟩ [],
        .mk ⟨"type_annotation", true, false, false, false, 5, 13, some "type"⟩ [
          bare ":" 5 6,
          .mk ⟨"predefined_type", true, false, false, false, 7, 13, none⟩ [bare "number" 7 13]],
        bare "=" 14 15,
        .mk ⟨"number", true, false, false, false, 16, 17, some "value"⟩ []],
      bare ";" 17 18]]

theorem sitesOfKind_inOrder_annotated :
    annotated.Ordered ∧ annotated.at? [0, 1, 1, 1, 0] = annotated.nodes[8]? ∧
      (annotated.sitesOfKind ["number", "identifier"]).map path = [[0, 1, 0], [0, 1, 3]] ∧
      (annotated.sitesOfKind ["number", "identifier"]).Pairwise (fun a b => a.start ≤ b.start) ∧
      (annotated.sitesOfKind ["number"]).map path = [[0, 1, 3]] := by
  have hroot : annotated.Ordered := by decide
  obtain ⟨-, -, -, -, hstarts, -⟩ := sitesOfKind_inOrder annotated ["number", "identifier"]
  obtain ⟨-, -, -, -, -, hunion⟩ := sitesOfKind_inOrder annotated ["number"]
  have hlonger := hunion ["identifier"] ["number", "identifier"] (by simp)
  have hpaths : (annotated.sitesOfKind ["number", "identifier"]).map path =
      [[0, 1, 0], [0, 1, 3]] := by
    rw [sitesOfKind_eq_filter]
    rfl
  refine ⟨hroot, rfl, hpaths, hstarts hroot, ?_⟩
  rw [hlonger, sitesOfKind_eq_filter]
  rfl

end Node

end Mutagen
