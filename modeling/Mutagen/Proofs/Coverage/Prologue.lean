import Mutagen.Proofs.Coverage.Clear
import Mutagen.Proofs.SyntaxError.Clean

/-!
# What stands before a directive

The statements of nothing but a string that lead a program or the body of a function are
directives, as long as nothing else comes before them. A plan puts nothing between the beginning
and the end of such a statement, but for the counter of a declaration, which stands right behind the
brace of its body (`Plan.clear_of_leading`).
-/

namespace Mutagen.Coverage

open Text Insertion Site

variable {object text : String} {root n : Node} {s : Site} {id : Nat} {i : Insertion}

-- ---------------------------------------------------------------------------
-- Directives
-- ---------------------------------------------------------------------------

/-- A statement of nothing but a string. One with a comment in it is left out: the comment passes for
a second part of the statement, which is counted then although it is a directive. -/
structure StringOnly (n : Node) : Prop where
  named : n.isNamed = true
  kind : n.kind = "expression_statement"
  only : ∃ child, child.kind = "string" ∧ n.children.filter (·.isNamed) = [child]

theorem StringOnly.isBareString (h : StringOnly n) : isBareString n = true := by
  obtain ⟨child, hchild, hfilter⟩ := h.only
  rw [Coverage.isBareString, h.kind, hfilter]
  simp [hchild]

theorem stringOnly_iff : StringOnly n ↔ n.isNamed = true ∧ isBareString n = true := by
  refine ⟨fun h => ⟨h.named, h.isBareString⟩, fun ⟨hnamed, hbare⟩ => ?_⟩
  obtain ⟨hkind, hchildren⟩ := Bool.and_eq_true_iff.mp hbare
  split at hchildren
  · rename_i child hfilter
    exact ⟨hnamed, beq_iff_eq.mp hkind, child, beq_iff_eq.mp hchildren, hfilter⟩
  · cases hchildren

instance (n : Node) : Decidable (StringOnly n) := decidable_of_iff _ stringOnly_iff.symm

def Precedes (n : Node) : Prop :=
  n.isNamed = true → n.kind = "comment" ∨ n.kind = "hash_bang_line" ∨ StringOnly n

instance (n : Node) : Decidable (Precedes n) := inferInstanceAs (Decidable (_ → _))

/-- A statement of nothing but a string, and nothing but such statements, comments and a hash-bang
line comes before it. -/
structure Leading (d : Site) : Prop where
  string : StringOnly d.node
  run : ∀ around ∈ d.above.head?, ∀ n ∈ around.before, Precedes n

instance (d : Site) : Decidable (Leading d) :=
  decidable_of_iff (StringOnly d.node ∧ ∀ around ∈ d.above.head?, ∀ n ∈ around.before, Precedes n)
    ⟨fun ⟨string, run⟩ => ⟨string, run⟩, fun h => ⟨h.string, h.run⟩⟩

theorem Leading.inPrologue {d parent : Site} (h : Leading d) (hparent : d.parent? = some parent)
    (howns : ownsPrologue parent = true) : inPrologue d = true := by
  obtain ⟨node, _ | ⟨around, above⟩⟩ := d
  · cases hparent
  · have hrun : ∀ n ∈ around.before, (isTrivia n || Coverage.isBareString n) = true := by
      intro n hn
      cases hnamed : n.isNamed with
      | false => simp [isTrivia, hnamed]
      | true =>
        rcases h.run around rfl n hn hnamed with hkind | hkind | hstring
        · simp [isTrivia, hkind]
        · simp [isTrivia, hkind]
        · simp [hstring.isBareString]
    have hall := List.all_eq_true.mpr hrun
    simp only [Coverage.inPrologue, h.string.named, h.string.isBareString, hparent, howns, hall,
      Option.any_some, Bool.and_self]

theorem not_counted_inert {above : List Surround} (h : Grammatical text n)
    (hkind : n.kind = "string" ∨ n.kind = "comment" ∨ n.kind = "hash_bang_line") :
    s ∉ counted above n := by
  intro hs
  obtain ⟨hs, hcounted⟩ := List.mem_filter.mp hs
  have hinert := h.inert n n.mem_nodes_self hkind s.node (node_mem_constructs hs)
  rw [isCounted_kind hcounted] at hinert
  cases hinert

/-- Nothing is counted at a directive, and nothing inside it. -/
theorem not_counted_directive {above : List Surround} (h : Grammatical text n)
    (hstring : StringOnly n) (hprologue : inPrologue ⟨n, above⟩ = true) : s ∉ counted above n := by
  obtain ⟨label, children⟩ := n
  intro hs
  rw [counted_mk] at hs
  rcases List.mem_append.mp hs with hs | hs
  · split at hs
    · rename_i hcounted
      have hnowhere : Slot.ofSite ⟨.mk label children, above⟩ = .nowhere := by
        have hd : declarations.contains (Node.mk label children).kind = false := by
          rw [hstring.kind]
          rfl
        simp only [Slot.ofSite, Site.kind, hd, hprologue, Bool.or_true, if_true, Bool.false_eq_true,
          if_false]
      rw [isCounted, hnowhere] at hcounted
      cases hcounted
    · cases hs
  · obtain ⟨first, child, rest, rfl, hnamed, hs⟩ := exists_child_of_countedFrom hs
    have hmem : child ∈ first ++ child :: rest := by simp
    obtain ⟨only, hkind, hfilter⟩ := hstring.only
    have honly : child ∈ [only] := hfilter ▸ List.mem_filter.mpr ⟨hmem, hnamed⟩
    obtain rfl := List.mem_singleton.mp honly
    exact not_counted_inert (h.of_mem (Node.mem_nodes_child hmem)) (.inl hkind) hs

theorem not_counted_run {above : List Surround} {label : Label} {before rest : List Node}
    (h : Grammatical text n) (hnamed : n.isNamed = true) (hn : Precedes n)
    (hrun : ∀ earlier ∈ before, Precedes earlier)
    (howns : ownsPrologue ⟨.mk label (before.reverse ++ n :: rest), above⟩ = true) :
    s ∉ counted (⟨label, before, rest⟩ :: above) n := by
  rcases hn hnamed with hkind | hkind | hstring
  · exact not_counted_inert h (.inr (.inl hkind))
  · exact not_counted_inert h (.inr (.inr hkind))
  · have hleading : Leading ⟨n, ⟨label, before, rest⟩ :: above⟩ := by
      refine ⟨hstring, fun around haround => ?_⟩
      cases haround
      exact hrun
    exact not_counted_directive h hstring (hleading.inPrologue rfl howns)

theorem not_isCounted_of_ownsPrologue (h : ownsPrologue s = true) : isCounted s = false := by
  have hkind : s.kind = "program" ∨ s.kind = "statement_block" := by
    simp only [ownsPrologue, Bool.or_eq_true, Bool.and_eq_true, beq_iff_eq] at h
    exact h.imp_right fun hblock => hblock.1.1
  rw [Bool.eq_false_iff]
  intro hcounted
  have hcontains := isCounted_kind hcounted
  rcases hkind with hkind | hkind
  · rw [hkind] at hcontains
    exact absurd hcontains (by decide)
  · rw [hkind] at hcontains
    exact absurd hcontains (by decide)

/-- What is counted below the owner of a directive gets something behind the directive only. -/
theorem behind_of_leading {d parent : Site} (h : Grammatical text parent.node) (hd : Leading d)
    (hparent : d.parent? = some parent) (howns : ownsPrologue parent = true)
    (hs : s ∈ counted parent.above parent.node) (hi : i ∈ insertionsAt object s id) :
    d.stop ≤ i.offset := by
  obtain ⟨n, _ | ⟨⟨label, before, after⟩, above⟩⟩ := d
  · cases hparent
  cases hparent
  have hrun : ∀ earlier ∈ before, Precedes earlier := hd.run ⟨label, before, after⟩ rfl
  rw [counted_mk, if_neg (by rw [not_isCounted_of_ownsPrologue howns]; exact Bool.false_ne_true),
    List.nil_append] at hs
  obtain ⟨first, child, rest, hchildren, hnamed, hs⟩ := exists_child_of_countedFrom hs
  have hmem : s.node ∈ child.nodes := node_mem_constructs (List.mem_filter.mp hs).1
  have hchild : child ∈ before.reverse ++ n :: after := by simp [hchildren]
  have hgrammar := h.of_mem (Node.mem_nodes_child hchild)
  rw [List.append_nil] at hs
  rw [hchildren, ← List.reverse_reverse first] at howns
  -- the run goes up to the directive, and nothing is counted there
  have hcounted (hfirst : ∀ earlier ∈ first, Precedes earlier) (hlast : Precedes child) : False :=
    not_counted_run hgrammar hnamed hlast
      (fun earlier he => hfirst earlier (List.mem_reverse.mp he)) howns hs
  rcases split_cases hchildren with ⟨middle, heq⟩ | ⟨rfl, rfl, rfl⟩ | ⟨middle, rfl⟩
  · have hearlier : ∀ earlier ∈ first ++ child :: middle, Precedes earlier := fun earlier he =>
      hrun earlier (List.mem_reverse.mp (heq ▸ he))
    refine (hcounted (fun earlier he => ?_) (hearlier child (by simp))).elim
    exact hearlier earlier (List.mem_append_left _ he)
  · refine (hcounted (fun earlier he => ?_) fun _ => .inr (.inr hd.string)).elim
    exact hrun earlier (List.mem_reverse.mp he)
  · obtain ⟨-, hafter⟩ := siblings_apart h.self
    obtain ⟨hstart, -, -⟩ := hgrammar.range_of_mem hmem
    obtain ⟨hle, -⟩ := range_insertionsAt (hgrammar.of_mem hmem) hi
    have hlater : n.stop ≤ child.start := hafter _ (by simp)
    exact Nat.le_trans hlater (Nat.le_trans hstart hle)

-- ---------------------------------------------------------------------------
-- Plans
-- ---------------------------------------------------------------------------

theorem exists_counted_of_insertion (hi : i ∈ (Plan.ofTree object text root).insertions) :
    ∃ s ∈ counted [] root, ∃ id, (id, spanOf text s) ∈ (Plan.ofTree object text root).map.entries ∧
      i ∈ insertionsAt object s id := by
  obtain ⟨hentries, hinsertions⟩ := Plan.ofTree_eq object text root
  rw [hinsertions] at hi
  obtain ⟨⟨s, id⟩, hp, hi⟩ := List.mem_flatMap.mp hi
  obtain ⟨-, -, hs⟩ := List.mem_zipIdx hp
  refine ⟨s, hs ▸ List.getElem_mem _, id, ?_, hi⟩
  rw [hentries]
  exact List.mem_map_of_mem hp

theorem exists_entry_of_counted (object text : String) (hs : s ∈ counted [] root) :
    ∃ id, (id, spanOf text s) ∈ (Plan.ofTree object text root).map.entries ∧
      ∀ i ∈ insertionsAt object s id, i ∈ (Plan.ofTree object text root).insertions := by
  obtain ⟨hentries, hinsertions⟩ := Plan.ofTree_eq object text root
  obtain ⟨k, hk, rfl⟩ := List.getElem_of_mem hs
  have hp : ((counted [] root)[k], 1 + k) ∈ (counted [] root).zipIdx 1 :=
    List.mem_zipIdx_iff_le_and_getElem?_sub.mpr ⟨by omega, by simp [hk]⟩
  refine ⟨1 + k, ?_, fun i hi => ?_⟩
  · rw [hentries]
    exact List.mem_map_of_mem hp
  · rw [hinsertions]
    exact List.mem_flatMap.mpr ⟨_, hp, hi⟩

structure IsBody (body owner : Site) : Prop where
  block : body.kind = "statement_block"
  role : body.fills "body" = true
  parent : body.parent? = some owner
  function : functions.contains owner.kind = true

theorem IsBody.ownsPrologue {body owner : Site} (h : IsBody body owner) :
    ownsPrologue body = true := by
  simp only [Coverage.ownsPrologue, h.block, h.role, h.parent, h.function, Option.any_some,
    BEq.rfl, Bool.and_self, Bool.or_true]

/-- Where the directives of a body begin: in a declaration, behind its counter. -/
def prologueStart (body owner : Site) : Nat :=
  if declarations.contains owner.kind then body.start + 1 else body.start

section Leading

variable {d parent owner : Site}

theorem putBack_parent (hd : d ∈ sites [] root) (hparent : d.parent? = some parent) :
    putBack parent.node parent.above = root := whole_of_mem_sites (parent?_mem hd hparent)

theorem parent_mem (hd : d ∈ sites [] root) (hparent : d.parent? = some parent) :
    parent.node ∈ root.nodes :=
  putBack_parent hd hparent ▸ mem_nodes_putBack parent.node.mem_nodes_self

theorem behind_of_program (h : Grammatical text root) (hd : d ∈ sites [] root)
    (hleading : Leading d) (hparent : d.parent? = some parent) (hkind : parent.kind = "program")
    (htop : parent.above = []) (hi : i ∈ (Plan.ofTree object text root).insertions) :
    d.stop ≤ i.offset := by
  have howns : Coverage.ownsPrologue parent = true := by simp [Coverage.ownsPrologue, hkind]
  have hroot : putBack parent.node parent.above = root := putBack_parent hd hparent
  rw [htop] at hroot
  obtain rfl : parent.node = root := hroot
  obtain ⟨s, hs, id, -, hi⟩ := exists_counted_of_insertion hi
  exact behind_of_leading h hleading hparent howns (htop ▸ hs) hi

theorem clear_of_body (h : Grammatical text root) (hd : d ∈ sites [] root)
    (hleading : Leading d) (hparent : d.parent? = some parent) (hbody : IsBody parent owner)
    (hi : i ∈ (Plan.ofTree object text root).insertions) :
    i.offset ≤ parent.start ∨ d.stop ≤ i.offset ∨
      ∃ id, (id, spanOf text owner) ∈ (Plan.ofTree object text root).map.entries ∧
        Lead object parent owner id i := by
  have hgrammar := h.of_mem (parent_mem hd hparent)
  have hchild : d.node ∈ parent.node.children := mem_children_parent? hparent
  obtain ⟨-, hstop⟩ := hgrammar.self.inside d.node hchild
  obtain ⟨s, hs, id, hentry, hi⟩ := exists_counted_of_insertion hi
  rcases clear_of_counted h (hgrammar.isNamed_of_child hchild) (putBack_parent hd hparent) hs hi with
    hs | (hbefore | hbehind) | hlead
  · exact .inr (.inl (behind_of_leading hgrammar hleading hparent hbody.ownsPrologue hs hi))
  · exact .inl hbefore
  · exact .inr (.inl (Nat.le_trans hstop hbehind))
  · obtain rfl : s = owner := Option.some.inj (hlead.parent.symm.trans hbody.parent)
    exact .inr (.inr ⟨id, hentry, hlead⟩)

theorem exists_lead (object : String) (h : Grammatical text root) (hd : d ∈ sites [] root)
    (hparent : d.parent? = some parent) (hbody : IsBody parent owner)
    (hdeclaration : declarations.contains owner.kind = true) :
    ∃ i ∈ (Plan.ofTree object text root).insertions,
      ∃ id, (id, spanOf text owner) ∈ (Plan.ofTree object text root).map.entries ∧
        Lead object parent owner id i := by
  have hchild : owner.child? "body" = some parent := child?_of_fills hbody.role hbody.parent
  have hslot : Slot.ofSite owner = .inside parent := by
    rw [Slot.ofSite, if_pos hdeclaration, hchild]
  have howner : owner ∈ sites [] root := parent?_mem (parent?_mem hd hparent) hbody.parent
  have hmem : owner.node ∈ root.nodes := parent_mem (parent?_mem hd hparent) hbody.parent
  have hnamed := (h.of_mem hmem).isNamed_of_child (mem_children_parent? hbody.parent)
  have hcounted : owner ∈ counted [] root := by
    rw [counted_eq_sitesOfKind h.toWellFormed]
    refine List.mem_filter.mpr ⟨Node.mem_sitesOfKind.mpr ⟨howner, hnamed, ?_⟩, ?_⟩
    · exact List.mem_append_right _ (List.contains_iff_mem.mp hdeclaration)
    · rw [isCounted, hslot]
  obtain ⟨id, hentry, hinsertions⟩ := exists_entry_of_counted object text hcounted
  refine ⟨⟨parent.start + 1, false, counter object .functions id⟩, hinsertions _ ?_, id, hentry, ?_⟩
  · rw [insertionsAt, hslot]
    exact List.mem_singleton_self _
  · exact ⟨hbody.parent, hdeclaration, find?_of_child? hchild, by rw [counter_eq]⟩

/-- Directives begin behind all that comes before them in their body. -/
theorem prologueStart_spec (h : Grammatical text root) (hd : d ∈ sites [] root)
    (hleading : Leading d) (hparent : d.parent? = some parent) (hbody : IsBody parent owner) :
    IsCut text (prologueStart parent owner) ∧ prologueStart parent owner ≤ d.stop ∧
      ∀ i ∈ (Plan.ofTree object text root).insertions,
        i.offset ≤ prologueStart parent owner ∨ d.stop ≤ i.offset := by
  have hmem := parent_mem hd hparent
  have hchild : d.node ∈ parent.node.children := mem_children_parent? hparent
  have hbraced : Braced text parent.node := h.block parent.node hmem hbody.block
  have hle : parent.start + 1 ≤ d.stop :=
    Nat.le_trans (hbraced.behind d.node hchild hleading.string.named)
      ((h.of_mem hmem).of_mem (Node.mem_nodes_child hchild)).self.le
  have hclear := fun i (hi : i ∈ (Plan.ofTree object text root).insertions) =>
    clear_of_body h hd hleading hparent hbody hi
  unfold prologueStart
  split
  · refine ⟨hbraced.opens.isCut, hle, fun i hi => ?_⟩
    rcases hclear i hi with hbefore | hbehind | ⟨id, -, hlead⟩
    · exact .inl (Nat.le_succ_of_le hbefore)
    · exact .inr hbehind
    · rw [hlead.eq]
      exact .inl (Nat.le_refl _)
  · rename_i hdeclaration
    refine ⟨(h.cut _ hmem).1, Nat.le_of_succ_le hle, fun i hi => ?_⟩
    rcases hclear i hi with hbefore | hbehind | ⟨id, -, hlead⟩
    · exact .inl hbefore
    · exact .inr hbehind
    · exact absurd hlead.declaration hdeclaration

/-- A statement among the leading ones of nothing but a string stays in one piece with the beginning
of its program, or of its body: nothing is put in between. Only in a declaration the counter of the
declaration is, at the brace of the body. -/
theorem Plan.clear_of_leading (object : String) (h : Grammatical text root)
    (hd : d ∈ sites [] root) (hleading : Leading d) (hparent : d.parent? = some parent) :
    (parent.kind = "program" → parent.above = [] →
      (∀ i ∈ (ofTree object text root).insertions, d.stop ≤ i.offset) ∧
      ∃ rest, (ofTree object text root).render? text =
        some (String.ofList (between text 0 d.stop ++ rest))) ∧
    ∀ owner, IsBody parent owner →
      (∀ i ∈ (ofTree object text root).insertions, i.offset ≤ parent.start ∨ d.stop ≤ i.offset ∨
        ∃ id, (id, spanOf text owner) ∈ (ofTree object text root).map.entries ∧
          Lead object parent owner id i) ∧
      (declarations.contains owner.kind = true → ∃ i ∈ (ofTree object text root).insertions,
        ∃ id, (id, spanOf text owner) ∈ (ofTree object text root).map.entries ∧
          Lead object parent owner id i) ∧
      ∃ before rest, (ofTree object text root).render? text = some (String.ofList
        (before ++ between text (prologueStart parent owner) d.stop ++ rest)) := by
  have hcut := h.placeable.isCut object
  have hmem := Node.mem_nodes_child (mem_children_parent? hparent)
  have hstop : IsCut text d.stop := ((h.of_mem (parent_mem hd hparent)).cut d.node hmem).2
  constructor
  · intro hkind htop
    let sorted := sort (ofTree object text root).insertions
    have hbehind : ∀ i ∈ (ofTree object text root).insertions, d.stop ≤ i.offset := fun i hi =>
      behind_of_program h hd hleading hparent hkind htop hi
    refine ⟨hbehind, spliced text d.stop (width text.toList) sorted, ?_⟩
    rw [render?, Insertion.render?_eq hcut, spliced_gap (isCut_zero text) hstop (isCut_width text)
      (Nat.zero_le _) hstop.le_width fun i hi =>
        ⟨hcut i (mem_sort.mp hi), hbehind i (mem_sort.mp hi)⟩]
  · intro owner hbody
    obtain ⟨hstart, hle, hgap⟩ := prologueStart_spec h hd hleading hparent hbody
    refine ⟨fun i hi => clear_of_body h hd hleading hparent hbody hi,
      exists_lead object h hd hparent hbody, ?_⟩
    exact Insertion.render?_gap hcut hstart hstop hle hgap

end Leading

/-- The tree of `'x';function f(){'use strict';a=()=>{'y';b();};}`. -/
def strictHandler : Node :=
  let leaf (kind : String) (start stop : Nat) : Node :=
    .mk ⟨kind, false, false, false, false, start, stop, none⟩ []
  let node (kind : String) (start stop : Nat) (field : Option String) (children : List Node) :
      Node := .mk ⟨kind, true, false, false, false, start, stop, field⟩ children
  let directive (start stop : Nat) : Node :=
    node "expression_statement" start (stop + 1) none [
      node "string" start stop none [
        leaf "'" start (start + 1),
        node "string_fragment" (start + 1) (stop - 1) none [],
        leaf "'" (stop - 1) stop],
      leaf ";" stop (stop + 1)]
  node "program" 0 48 none [
    directive 0 3,
    node "function_declaration" 4 48 none [
      leaf "function" 4 12,
      node "identifier" 13 14 (some "name") [],
      node "formal_parameters" 14 16 (some "parameters") [leaf "(" 14 15, leaf ")" 15 16],
      node "statement_block" 16 48 (some "body") [
        leaf "\x7b" 16 17,
        directive 17 29,
        node "expression_statement" 30 47 none [
          node "assignment_expression" 30 46 none [
            node "identifier" 30 31 (some "left") [],
            leaf "=" 31 32,
            node "arrow_function" 32 46 (some "right") [
              node "formal_parameters" 32 34 (some "parameters") [leaf "(" 32 33, leaf ")" 33 34],
              leaf "=>" 34 36,
              node "statement_block" 36 46 (some "body") [
                leaf "\x7b" 36 37,
                directive 37 40,
                node "expression_statement" 41 45 none [
                  node "call_expression" 41 44 none [
                    node "identifier" 41 42 (some "function") [],
                    node "arguments" 42 44 (some "arguments") [leaf "(" 42 43, leaf ")" 43 44]],
                  leaf ";" 44 45],
                leaf "\x7d" 45 46]]],
          leaf ";" 46 47],
        leaf "\x7d" 47 48]]]

theorem grammatical_strictHandler :
    Grammatical "'x';function f()\x7b'use strict';a=()=>\x7b'y';b();\x7d;\x7d" strictHandler := by
  decide +kernel

/-- The directive that ends there, in the body of a function of that kind. -/
structure Stands (kind : String) (start stop : Nat) (d body owner : Site) : Prop where
  mem : d ∈ sites [] strictHandler
  leading : Leading d
  parent : d.parent? = some body
  isBody : IsBody body owner
  kind : owner.kind = kind
  start : body.start = start
  stop : d.stop = stop

theorem exists_stands {kind : String} {start stop : Nat}
    (h : ∃ d ∈ sites [] strictHandler, ∃ body ∈ d.parent?, ∃ owner ∈ body.parent?, Leading d ∧
      (body.kind = "statement_block" ∧ body.fills "body" = true ∧
        functions.contains owner.kind = true) ∧
      owner.kind = kind ∧ body.start = start ∧ d.stop = stop) :
    ∃ d body owner, Stands kind start stop d body owner := by
  obtain ⟨d, hd, body, hparent, owner, howner, hleading, ⟨hblock, hrole, hfunction⟩, hrest⟩ := h
  obtain ⟨hkind, hstart, hstop⟩ := hrest
  have hbody : IsBody body owner := ⟨hblock, hrole, howner, hfunction⟩
  exact ⟨d, body, owner, hd, hleading, hparent, hbody, hkind, hstart, hstop⟩

theorem exists_strict : ∃ d body owner, Stands "function_declaration" 16 30 d body owner :=
  exists_stands (by decide +kernel)

theorem exists_nested : ∃ d body owner, Stands "arrow_function" 36 41 d body owner :=
  exists_stands (by decide +kernel)

theorem clear_of_leading_strictHandler :
    let text := "'x';function f()\x7b'use strict';a=()=>\x7b'y';b();\x7d;\x7d"
    let plan := Plan.ofTree "V" text strictHandler
    Grammatical text strictHandler ∧
      (∃ d ∈ sites [] strictHandler, ∃ parent, Leading d ∧ d.parent? = some parent ∧
        (parent.kind = "program" ∧ parent.above = []) ∧ d.stop = 4 ∧
        ∀ i ∈ plan.insertions, 4 ≤ i.offset) ∧
      (∃ d body owner, Stands "function_declaration" 16 30 d body owner ∧
        (∀ i ∈ plan.insertions, i.offset ≤ 16 ∨ 30 ≤ i.offset ∨
          ∃ id, i = ⟨17, false, "V.f['" ++ toString (id : Nat) ++ "']++;"⟩) ∧
        ∃ i ∈ plan.insertions, i.offset = 17) ∧
      (∃ d body owner, Stands "arrow_function" 36 41 d body owner ∧
        ∀ i ∈ plan.insertions, i.offset ≤ 36 ∨ 41 ≤ i.offset) := by
  have h := grammatical_strictHandler
  refine ⟨h, ?_, ?_, ?_⟩
  · obtain ⟨d, hd, parent, hparent, hleading, hkind, htop, hstop⟩ :
        ∃ d ∈ sites [] strictHandler, ∃ parent ∈ d.parent?, Leading d ∧ parent.kind = "program" ∧
          parent.above.isEmpty = true ∧ d.stop = 4 := by decide +kernel
    obtain ⟨hprogram, -⟩ := Plan.clear_of_leading "V" h hd hleading hparent
    have htop : parent.above = [] := List.isEmpty_iff.mp htop
    obtain ⟨hbehind, -⟩ := hprogram hkind htop
    exact ⟨d, hd, parent, hleading, hparent, ⟨hkind, htop⟩, hstop, fun i hi => hstop ▸ hbehind i hi⟩
  · obtain ⟨d, body, owner, hs⟩ := exists_strict
    obtain ⟨-, hbody⟩ := Plan.clear_of_leading "V" h hs.mem hs.leading hs.parent
    obtain ⟨hclear, hcounter, -⟩ := hbody owner hs.isBody
    refine ⟨d, body, owner, hs, fun i hi => ?_, ?_⟩
    · rcases hclear i hi with hbefore | hbehind | ⟨id, -, hlead⟩
      · exact .inl (hs.start ▸ hbefore)
      · exact .inr (.inl (hs.stop ▸ hbehind))
      · have heq := hlead.eq
        rw [hs.start] at heq
        exact .inr (.inr ⟨id, heq⟩)
    · have hdeclaration : declarations.contains owner.kind = true := by
        rw [hs.kind]
        decide
      obtain ⟨i, hi, id, -, hlead⟩ := hcounter hdeclaration
      refine ⟨i, hi, ?_⟩
      rw [hlead.eq, hs.start]
  · obtain ⟨d, body, owner, hs⟩ := exists_nested
    obtain ⟨-, hbody⟩ := Plan.clear_of_leading "V" h hs.mem hs.leading hs.parent
    obtain ⟨hclear, -⟩ := hbody owner hs.isBody
    refine ⟨d, body, owner, hs, fun i hi => ?_⟩
    rcases hclear i hi with hbefore | hbehind | ⟨id, -, hlead⟩
    · exact .inl (hs.start ▸ hbefore)
    · exact .inr (hs.stop ▸ hbehind)
    · exact absurd (hs.kind ▸ hlead.declaration) (by decide)

/-- The counter of a declaration stands before the directives of its body. -/
theorem not_clear_of_leading : ¬∀ (object text : String) (root : Node) (d parent : Site),
    Grammatical text root → root.Clean → d ∈ sites [] root → Leading d → d.parent? = some parent →
    (parent.kind = "program" ∧ parent.above = [] ∨ ∃ owner, IsBody parent owner) →
    ∀ i ∈ (Plan.ofTree object text root).insertions, i.offset ≤ parent.start ∨ d.stop ≤ i.offset := by
  intro h
  obtain ⟨d, body, owner, hs⟩ := exists_strict
  have hclean : strictHandler.Clean := by decide +kernel
  obtain ⟨i, hi, hoffset⟩ : ∃ i ∈ (Plan.ofTree "V"
      "'x';function f()\x7b'use strict';a=()=>\x7b'y';b();\x7d;\x7d" strictHandler).insertions,
      i.offset = 17 := by decide +kernel
  have hclear := h "V" _ _ d body grammatical_strictHandler hclean hs.mem hs.leading hs.parent
    (.inr ⟨owner, hs.isBody⟩) i hi
  rw [hs.start, hs.stop, hoffset] at hclear
  exact absurd hclear (by decide)

end Mutagen.Coverage
