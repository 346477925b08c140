import Mutagen.Proofs.Coverage.Offsets
import Mutagen.Proofs.Tree.Order

/-!
# Clear of a node

In a text as the grammar makes it, what is inserted for one part of the tree stays out of the other
parts. Only the counter of a declaration stands in a part that it is not inserted for: at the brace
of the body (`clear_of_counted`).
-/

namespace Mutagen.Coverage

open Text Insertion Site

/-- The tree of a text as the grammar makes it: blocks are in braces, declarations have blocks for
their bodies, and there are no statements inside strings and comments. -/
structure Grammatical (text : String) (root : Node) : Prop extends root.Fits text where
  block : ∀ n ∈ root.nodes, n.kind = "statement_block" → Braced text n
  body : ∀ n ∈ root.nodes, declarations.contains n.kind = true →
    ∀ body ∈ n.children.find? (·.field == some "body"), body.kind = "statement_block"
  inert : ∀ n ∈ root.nodes, n.kind = "string" ∨ n.kind = "comment" ∨ n.kind = "hash_bang_line" →
    ∀ m ∈ n.nodes, (statements ++ declarations).contains m.kind = false

instance (text : String) (root : Node) : Decidable (Grammatical text root) :=
  decidable_of_iff
    (root.Fits text ∧ (∀ n ∈ root.nodes, n.kind = "statement_block" → Braced text n) ∧
      (∀ n ∈ root.nodes, declarations.contains n.kind = true →
        ∀ body ∈ n.children.find? (·.field == some "body"), body.kind = "statement_block") ∧
      ∀ n ∈ root.nodes, n.kind = "string" ∨ n.kind = "comment" ∨ n.kind = "hash_bang_line" →
        ∀ m ∈ n.nodes, (statements ++ declarations).contains m.kind = false)
    ⟨fun ⟨fits, block, body, inert⟩ => ⟨fits, block, body, inert⟩,
      fun h => ⟨h.toFits, h.block, h.body, h.inert⟩⟩

variable {object text : String} {root n : Node} {s : Site} {id : Nat} {i : Insertion}

theorem Grammatical.of_mem (h : Grammatical text root) (hn : n ∈ root.nodes) :
    Grammatical text n where
  toFits := h.toFits.of_mem hn
  block m hm := h.block m (Node.mem_nodes_trans hn hm)
  body m hm := h.body m (Node.mem_nodes_trans hn hm)
  inert m hm := h.inert m (Node.mem_nodes_trans hn hm)

theorem find?_of_child? {child : Site} {role : String} (h : s.child? role = some child) :
    s.node.children.find? (·.field == some role) = some child.node := by
  rw [← node_child?, h]
  rfl

theorem Grammatical.braced {body : Site} (h : Grammatical text s.node)
    (hd : declarations.contains s.kind = true) (hb : s.child? "body" = some body) :
    Braced text body.node :=
  h.block _ (Node.mem_nodes_child (child?_mem hb))
    (h.body _ s.node.mem_nodes_self hd _ (find?_of_child? hb))

theorem Grammatical.placeable (h : Grammatical text root) : Placeable text root where
  cut := h.cut
  opens s hs hd body hb := by
    have hmem : s.node ∈ root.nodes := node_mem_constructs (List.mem_filter.mp hs).1
    exact ((h.of_mem hmem).braced hd hb).opens

theorem range_insertionsAt (h : Grammatical text s.node) (hi : i ∈ insertionsAt object s id) :
    s.start ≤ i.offset ∧ i.offset ≤ s.stop := by
  have hle : s.start ≤ s.stop := h.self.le
  unfold insertionsAt at hi
  split at hi
  · rename_i body hslot
    obtain rfl := List.mem_singleton.mp hi
    obtain ⟨hd, hb⟩ := Slot.ofSite_inside hslot
    obtain ⟨hstart, hstop⟩ : s.start ≤ body.start ∧ body.stop ≤ s.stop :=
      h.self.inside _ (child?_mem hb)
    have hlt : body.start + 1 < body.stop := (h.braced hd hb).lt
    exact ⟨Nat.le_succ_of_le hstart, Nat.le_trans (Nat.le_of_lt hlt) hstop⟩
  · obtain rfl := List.mem_singleton.mp hi
    exact ⟨Nat.le_refl _, hle⟩
  · rcases List.mem_cons.mp hi with rfl | hi
    · exact ⟨Nat.le_refl _, hle⟩
    · obtain rfl := List.mem_singleton.mp hi
      exact ⟨hle, Nat.le_refl _⟩
  · cases hi

-- ---------------------------------------------------------------------------
-- Children
-- ---------------------------------------------------------------------------

theorem exists_child_of_countedFrom {above : List Surround} {label : Label}
    {before children : List Node} (h : s ∈ countedFrom above label before children) :
    ∃ first child rest, children = first ++ child :: rest ∧ child.isNamed = true ∧
      s ∈ counted (⟨label, first.reverse ++ before, rest⟩ :: above) child := by
  induction children generalizing before with
  | nil => cases h
  | cons child rest ih =>
    rw [countedFrom_cons] at h
    rcases List.mem_append.mp h with h | h
    · split at h
      · rename_i hnamed
        exact ⟨[], child, rest, rfl, hnamed, h⟩
      · cases h
    · obtain ⟨first, other, later, rfl, hnamed, hs⟩ := ih h
      exact ⟨child :: first, other, later, rfl, hnamed, by simpa using hs⟩

/-- Of two places in a list one comes first, or they are the same. -/
theorem split_cases {α : Type} {first rest before after : List α} {a b : α}
    (h : before ++ b :: after = first ++ a :: rest) :
    (∃ middle, before = first ++ a :: middle) ∨ (before = first ∧ b = a ∧ after = rest) ∨
      ∃ middle, after = middle ++ a :: rest := by
  rcases List.append_eq_append_iff.mp h with ⟨middle, hfirst, hrest⟩ | ⟨middle, hbefore, hrest⟩
  · cases middle with
    | nil =>
      obtain ⟨rfl, rfl⟩ := List.cons.inj hrest
      exact .inr (.inl ⟨by simpa using hfirst.symm, rfl, rfl⟩)
    | cons c middle =>
      obtain ⟨rfl, rfl⟩ := List.cons.inj hrest
      exact .inr (.inr ⟨middle, rfl⟩)
  · cases middle with
    | nil =>
      obtain ⟨rfl, rfl⟩ := List.cons.inj hrest
      exact .inr (.inl ⟨by simpa using hbefore, rfl, rfl⟩)
    | cons c middle =>
      obtain ⟨rfl, rfl⟩ := List.cons.inj hrest
      exact .inl ⟨middle, hbefore⟩

-- ---------------------------------------------------------------------------
-- Around a node
-- ---------------------------------------------------------------------------

/-- The insertion does not stand behind the start of the node and before its end. -/
def Clear (n : Node) (i : Insertion) : Prop := i.offset ≤ n.start ∨ n.stop ≤ i.offset

/-- The counter of a declaration at the brace of its body. -/
structure Lead (object : String) (body owner : Site) (id : Nat) (i : Insertion) : Prop where
  parent : body.parent? = some owner
  declaration : declarations.contains owner.kind = true
  child : owner.node.children.find? (·.field == some "body") = some body.node
  eq : i = ⟨body.start + 1, false, increment object .functions id⟩

section Around

variable {above : List Surround} {label : Label} {before after : List Node}

theorem siblings_apart (h : Node.InOrder (.mk label (before.reverse ++ n :: after))) :
    (∀ sibling ∈ before, sibling.stop ≤ n.start) ∧ ∀ sibling ∈ after, n.stop ≤ sibling.start := by
  obtain ⟨-, hrest, hacross⟩ := List.pairwise_append.mp h.apart
  obtain ⟨hafter, -⟩ := List.pairwise_cons.mp hrest
  exact ⟨fun sibling hs => hacross sibling (List.mem_reverse.mpr hs) n List.mem_cons_self, hafter⟩

theorem clear_of_parent (h : Grammatical text (.mk label (before.reverse ++ n :: after)))
    (hi : i ∈ insertionsAt object ⟨.mk label (before.reverse ++ n :: after), above⟩ id) :
    Clear n i ∨ Lead object ⟨n, ⟨label, before, after⟩ :: above⟩
      ⟨.mk label (before.reverse ++ n :: after), above⟩ id i := by
  let parent : Site := ⟨.mk label (before.reverse ++ n :: after), above⟩
  obtain ⟨hbefore, hafter⟩ := siblings_apart h.self
  obtain ⟨hstart, hstop⟩ : parent.start ≤ n.start ∧ n.stop ≤ parent.stop :=
    h.self.inside n (by simp [Node.children])
  unfold insertionsAt at hi
  split at hi
  · rename_i body hslot
    obtain rfl := List.mem_singleton.mp hi
    obtain ⟨hd, hb⟩ : declarations.contains parent.kind = true ∧ parent.child? "body" = some body :=
      Slot.ofSite_inside hslot
    have hlt : body.node.start + 1 < body.node.stop := (h.braced (s := parent) hd hb).lt
    have hmem : body.node ∈ before.reverse ++ n :: after := child?_mem hb
    rcases List.mem_append.mp hmem with hmem | hmem
    · exact .inl (.inl (Nat.le_trans (Nat.le_of_lt hlt) (hbefore _ (List.mem_reverse.mp hmem))))
    rcases List.mem_cons.mp hmem with hbody | hmem
    · have hfind := find?_of_child? hb
      obtain rfl : body.node = n := hbody
      exact .inr ⟨rfl, hd, hfind, by rw [counter_eq]⟩
    · exact .inl (.inr (Nat.le_succ_of_le (hafter _ hmem)))
  · obtain rfl := List.mem_singleton.mp hi
    exact .inl (.inl hstart)
  · rcases List.mem_cons.mp hi with rfl | hi
    · exact .inl (.inl hstart)
    · obtain rfl := List.mem_singleton.mp hi
      exact .inl (.inr hstop)
  · cases hi

theorem clear_of_child (h : Grammatical text (.mk label (before.reverse ++ n :: after)))
    (hs : s ∈ counted above (.mk label (before.reverse ++ n :: after)))
    (hi : i ∈ insertionsAt object s id) :
    s ∈ counted (⟨label, before, after⟩ :: above) n ∨ Clear n i ∨
      Lead object ⟨n, ⟨label, before, after⟩ :: above⟩ s id i := by
  obtain ⟨hbefore, hafter⟩ := siblings_apart h.self
  rw [counted_mk] at hs
  rcases List.mem_append.mp hs with hs | hs
  · split at hs
    · obtain rfl := List.mem_singleton.mp hs
      exact .inr (clear_of_parent h hi)
    · cases hs
  · obtain ⟨first, child, rest, hchildren, -, hs⟩ := exists_child_of_countedFrom hs
    have hmem : s.node ∈ child.nodes := node_mem_constructs (List.mem_filter.mp hs).1
    have hchild : child ∈ before.reverse ++ n :: after := by simp [hchildren]
    have hgrammar := h.of_mem (Node.mem_nodes_child hchild)
    obtain ⟨hstart, -, hstop⟩ := hgrammar.range_of_mem hmem
    obtain ⟨hle, hge⟩ := range_insertionsAt (hgrammar.of_mem hmem) hi
    rcases split_cases hchildren with ⟨middle, heq⟩ | ⟨rfl, rfl, rfl⟩ | ⟨middle, rfl⟩
    · have hearlier : child ∈ before := by
        rw [← List.mem_reverse, heq]
        simp
      exact .inr (.inl (.inl (Nat.le_trans hge (Nat.le_trans hstop (hbefore _ hearlier)))))
    · rw [List.reverse_reverse, List.append_nil] at hs
      exact .inl hs
    · have hlater : n.stop ≤ child.start := hafter _ (by simp)
      exact .inr (.inl (.inr (Nat.le_trans hlater (Nat.le_trans hstart hle))))

end Around

/-- What is counted elsewhere gets nothing inside a node but for the counter of a declaration whose
body the node is. -/
theorem clear_of_counted {above : List Surround} (h : Grammatical text root)
    (hnamed : n.isNamed = true) (hroot : putBack n above = root) (hs : s ∈ counted [] root)
    (hi : i ∈ insertionsAt object s id) :
    s ∈ counted above n ∨ Clear n i ∨ Lead object ⟨n, above⟩ s id i := by
  induction above generalizing n with
  | nil =>
    cases hroot
    exact .inl hs
  | cons around above ih =>
    obtain ⟨label, before, after⟩ := around
    let parent := Node.mk label (before.reverse ++ n :: after)
    have hmem : parent ∈ root.nodes := by
      rw [← hroot]
      exact mem_nodes_putBack (n := parent) parent.mem_nodes_self
    have hparent := h.of_mem hmem
    have hchild : n ∈ parent.children := by simp [parent, Node.children]
    obtain ⟨hstart, hstop⟩ := hparent.self.inside n hchild
    have hparentNamed : parent.isNamed = true := hparent.isNamed_of_child hchild
    rcases ih (n := parent) hparentNamed hroot with hs | hclear | hlead
    · exact clear_of_child hparent hs hi
    · exact .inr (.inl (hclear.imp (Nat.le_trans · hstart) (Nat.le_trans hstop ·)))
    · -- the counter at the brace of the parent comes before all named children of it
      obtain ⟨hgrand, hd, hfind, rfl⟩ := hlead
      have hs : s.node ∈ root.nodes := node_mem_constructs (List.mem_filter.mp hs).1
      have hbraced : Braced text parent := h.block parent hmem (h.body _ hs hd parent hfind)
      exact .inr (.inl (.inl (hbraced.behind n hchild hnamed)))

end Mutagen.Coverage
