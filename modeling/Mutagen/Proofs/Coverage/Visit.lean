import Mutagen.Coverage.Plan
import Mutagen.Proofs.Tree.Sites

/-!
# What a visit leaves behind

A visit gives consecutive ids to the counted sites that it meets, so its map and its insertions
are those sites, numbered (`Plan.ofTree_eq`). In a well-formed tree
these are the sites that a search for all statements and declarations finds
(`counted_eq_sitesOfKind`).
-/

namespace Mutagen

namespace StatementMap

def Dense (m : StatementMap) : Prop := m.ids = List.range' 1 m.size

theorem dense_empty : empty.Dense := rfl

theorem Dense.lt_of_mem {m : StatementMap} (h : m.Dense) {e : Nat × Span} (he : e ∈ m.entries) :
    e.1 < m.size + 1 := by
  have hid : e.1 ∈ List.range' 1 m.size := h ▸ List.mem_map_of_mem he
  obtain ⟨-, hlt⟩ := List.mem_range'_1.mp hid
  omega

theorem place_append {entries : List (Nat × Span)} {entry : Nat × Span}
    (h : ∀ e ∈ entries, e.1 < entry.1) : place entry entries = entries ++ [entry] := by
  induction entries with
  | nil => rfl
  | cons e rest ih =>
    have hlt := h e (by simp)
    rw [place, if_neg (by omega), if_neg (by omega), ih fun e' he => h e' (by simp [he])]
    rfl

theorem Dense.entries_push {m : StatementMap} (h : m.Dense) (span : Span) :
    (m.push span).1.entries = m.entries ++ [(m.size + 1, span)] :=
  place_append fun _ he => h.lt_of_mem he

theorem Dense.size_push {m : StatementMap} (h : m.Dense) (span : Span) :
    (m.push span).1.size = m.size + 1 := by
  simp [size, h.entries_push span]

theorem Dense.push {m : StatementMap} (h : m.Dense) (span : Span) : (m.push span).1.Dense := by
  have hids : m.entries.map (·.1) = List.range' 1 m.entries.length := h
  simp [Dense, ids, size, h.entries_push span, hids, List.range'_concat, Nat.add_comm]

end StatementMap

namespace Coverage

-- ---------------------------------------------------------------------------
-- Counters
-- ---------------------------------------------------------------------------

def increment (object : String) : Table → Nat → String
  | .functions, id => object ++ ".f['" ++ toString id ++ "']++;"
  | .statements, id => object ++ ".s['" ++ toString id ++ "']++;"

theorem counter_eq (object : String) (table : Table) (id : Nat) :
    counter object table id = increment object table id := by
  cases table <;> simp [counter, increment, Table.name, ← String.toList_inj]

-- ---------------------------------------------------------------------------
-- Slots
-- ---------------------------------------------------------------------------

theorem Slot.ofSite_inside {s body : Site} (h : Slot.ofSite s = .inside body) :
    declarations.contains s.kind = true ∧ s.child? "body" = some body := by
  unfold Slot.ofSite at h
  split at h
  · rename_i hd
    split at h
    · rename_i hb
      cases h
      exact ⟨hd, hb⟩
    · cases h
  · repeat' split at h
    all_goals cases h

theorem Slot.ofSite_statement {s : Site} (h : Slot.ofSite s = .before ∨ Slot.ofSite s = .around) :
    declarations.contains s.kind = false ∧ statements.contains s.kind = true ∧ s.above ≠ [] := by
  unfold Slot.ofSite at h
  split at h
  · split at h <;> simp at h
  · rename_i hd
    split at h
    · simp at h
    · rename_i hs
      split at h
      · simp at h
      · rename_i hp
        have habove : s.above ≠ [] := by
          intro ha
          simp [Site.parent?, ha] at hp
        obtain ⟨hs, -⟩ : s.kind ∈ statements ∧ inPrologue s = false := by simpa using hs
        exact ⟨by simpa using hd, by simpa using hs, habove⟩

theorem isCounted_cases {s : Site} (h : isCounted s = true) :
    (∃ body, Slot.ofSite s = .inside body) ∨
      Slot.ofSite s = .before ∨ Slot.ofSite s = .around := by
  unfold isCounted at h
  cases hslot : Slot.ofSite s with
  | inside body => exact .inl ⟨body, rfl⟩
  | before => exact .inr (.inl rfl)
  | around => exact .inr (.inr rfl)
  | nowhere => simp [hslot] at h

theorem isCounted_kind {s : Site} (h : isCounted s = true) :
    (statements ++ declarations).contains s.kind = true := by
  rw [List.contains_eq_mem, decide_eq_true_eq, List.mem_append]
  rcases isCounted_cases h with ⟨body, hslot⟩ | hslot
  · exact .inr (by simpa using (Slot.ofSite_inside hslot).1)
  · exact .inl (by simpa using (Slot.ofSite_statement hslot).2.1)

theorem isCounted_leaf (label : Label) : isCounted (.ofRoot (.mk label [])) = false := by
  rw [Bool.eq_false_iff]
  intro h
  rcases isCounted_cases h with ⟨body, hslot⟩ | hslot
  · obtain ⟨-, hbody⟩ := Slot.ofSite_inside hslot
    simp [Site.child?, Site.children, Site.ofRoot, Site.siblings, Node.children] at hbody
  · exact (Slot.ofSite_statement hslot).2.2 rfl

-- ---------------------------------------------------------------------------
-- Numbered sites
-- ---------------------------------------------------------------------------

def counted (above : List Surround) (n : Node) : List Site :=
  (Site.constructs above n).filter isCounted

def spanOf (text : String) (s : Site) : Span := .ofOffsets text s.start s.stop

def entriesOf (text : String) (next : Nat) (sites : List Site) : List (Nat × Span) :=
  (sites.zipIdx next).map fun p => (p.2, spanOf text p.1)

def insertionsOf (object : String) (next : Nat) (sites : List Site) : List Insertion :=
  (sites.zipIdx next).flatMap fun p => insertionsAt object p.1 p.2

theorem entriesOf_cons (text : String) (next : Nat) (s : Site) (rest : List Site) :
    entriesOf text next (s :: rest) = (next, spanOf text s) :: entriesOf text (next + 1) rest := by
  simp [entriesOf, List.zipIdx_cons]

theorem insertionsOf_cons (object : String) (next : Nat) (s : Site) (rest : List Site) :
    insertionsOf object next (s :: rest) =
      insertionsAt object s next ++ insertionsOf object (next + 1) rest := by
  simp [insertionsOf, List.zipIdx_cons]

theorem insertionsOf_append (object : String) (next : Nat) (first rest : List Site) :
    insertionsOf object next (first ++ rest) =
      insertionsOf object next first ++ insertionsOf object (next + first.length) rest := by
  simp [insertionsOf, List.zipIdx_append]

theorem mem_insertionsOf {object : String} {next : Nat} {sites : List Site} {i : Insertion}
    (h : i ∈ insertionsOf object next sites) :
    ∃ s ∈ sites, ∃ id, next ≤ id ∧ id < next + sites.length ∧ i ∈ insertionsAt object s id := by
  obtain ⟨⟨s, id⟩, hp, hi⟩ := List.mem_flatMap.mp h
  obtain ⟨hle, hlt, hs⟩ := List.mem_zipIdx hp
  exact ⟨s, hs ▸ List.getElem_mem _, id, hle, hlt, hi⟩

namespace Plan

mutual
theorem visit_eq_foldl (object text : String) (above : List Surround) (plan : Plan) :
    (n : Node) → visit object text above plan n =
      (Site.constructs above n).foldl (count object text) plan
  | .mk label children => by
    rw [visit, visitFrom_eq_foldl object text above label [] _ children]
    rfl

theorem visitFrom_eq_foldl (object text : String) (above : List Surround) (label : Label)
    (before : List Node) (plan : Plan) : (children : List Node) →
    visitFrom object text above label before plan children =
      (Site.constructsFrom above label before children).foldl (count object text) plan
  | [] => rfl
  | child :: rest => by
    rw [visitFrom, visitFrom_eq_foldl object text above label _ _ rest, Site.constructsFrom,
      List.foldl_append]
    congr 1
    split
    · exact visit_eq_foldl object text _ plan child
    · rfl
end

theorem count_of_counted (object text : String) (plan : Plan) {s : Site} (h : isCounted s = true) :
    plan.count object text s =
      ⟨(plan.map.push (spanOf text s)).1,
        plan.insertions ++ insertionsAt object s (plan.map.size + 1)⟩ := by
  rw [count, if_pos h]
  rfl

theorem foldl_count (object text : String) {plan : Plan} (hd : plan.map.Dense)
    (sites : List Site) :
    let next := plan.map.size + 1
    let result := sites.foldl (count object text) plan
    result.map.entries = plan.map.entries ++ entriesOf text next (sites.filter isCounted) ∧
      result.insertions = plan.insertions ++ insertionsOf object next (sites.filter isCounted) := by
  induction sites generalizing plan with
  | nil => simp [entriesOf, insertionsOf]
  | cons s rest ih =>
    cases hs : isCounted s with
    | false =>
      have hcount : plan.count object text s = plan := by simp [count, hs]
      simpa [hcount, hs] using ih hd
    | true =>
      have hcount := count_of_counted object text plan hs
      have hd' : (plan.count object text s).map.Dense := by
        rw [hcount]
        exact hd.push _
      obtain ⟨hentries, hinsertions⟩ := ih hd'
      intro next result
      rw [List.filter_cons_of_pos hs, entriesOf_cons, insertionsOf_cons]
      refine ⟨hentries.trans ?_, hinsertions.trans ?_⟩
      · simp [hcount, hd.size_push, hd.entries_push, next]
      · simp [hcount, hd.size_push, next]

theorem ofTree_eq (object text : String) (root : Node) :
    (ofTree object text root).map.entries = entriesOf text 1 (counted [] root) ∧
      (ofTree object text root).insertions = insertionsOf object 1 (counted [] root) := by
  have hd : blank.map.Dense := StatementMap.dense_empty
  have hfold := foldl_count object text hd (Site.constructs [] root)
  rw [← visit_eq_foldl] at hfold
  exact hfold

end Plan

-- ---------------------------------------------------------------------------
-- Counted sites among all sites
-- ---------------------------------------------------------------------------

/-- A visit counts what a search for all statements and declarations finds. -/
theorem counted_eq_sitesOfKind {root : Node} (h : root.WellFormed) :
    counted [] root = (root.sitesOfKind (statements ++ declarations)).filter isCounted := by
  have hkind : (root.sitesOfKind (statements ++ declarations)).filter isCounted =
      ((Site.sites [] root).filter fun s => s.node.isNamed).filter isCounted := by
    rw [Node.sitesOfKind_eq_filter, List.filter_filter, List.filter_filter]
    refine List.filter_congr fun s _ => ?_
    cases hs : isCounted s with
    | false => rfl
    | true => rw [isCounted_kind hs, Bool.and_true]
  rw [hkind, counted]
  cases hn : root.isNamed with
  | true => rw [Site.constructs_eq_filter [] root hn h.leaf]
  | false =>
    obtain ⟨label, children⟩ := root
    obtain rfl : children = [] := h.leaf _ (Node.mem_nodes_self _) hn
    have hroot := isCounted_leaf label
    simp only [Site.ofRoot] at hroot
    simp [Site.constructs, Site.constructsFrom, Site.sites, Site.sitesFrom, hroot]

/-- The tree of `function f(){if(a)b();}`. -/
def guardedCall : Node :=
  let leaf (kind : String) (start stop : Nat) : Node :=
    .mk ⟨kind, false, false, false, false, start, stop, none⟩ []
  let node (kind : String) (start stop : Nat) (field : Option String) (children : List Node) :
      Node := .mk ⟨kind, true, false, false, false, start, stop, field⟩ children
  node "program" 0 23 none [
    node "function_declaration" 0 23 none [
      leaf "function" 0 8,
      node "identifier" 9 10 (some "name") [],
      node "formal_parameters" 10 12 (some "parameters") [leaf "(" 10 11, leaf ")" 11 12],
      node "statement_block" 12 23 (some "body") [
        leaf "\x7b" 12 13,
        node "if_statement" 13 22 none [
          leaf "if" 13 15,
          node "parenthesized_expression" 15 18 (some "condition") [
            leaf "(" 15 16,
            node "identifier" 16 17 none [],
            leaf ")" 17 18],
          node "expression_statement" 18 22 (some "consequence") [
            node "call_expression" 18 21 none [
              node "identifier" 18 19 (some "function") [],
              node "arguments" 19 21 (some "arguments") [leaf "(" 19 20, leaf ")" 20 21]],
            leaf ";" 21 22]],
        leaf "\x7d" 22 23]]]

end Coverage

end Mutagen
