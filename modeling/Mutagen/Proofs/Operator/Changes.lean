import Mutagen.Proofs.Mutant.Seam
import Mutagen.Proofs.Survey.Answers

/-!
# Which mutants change something

A mutant that puts back what it removes changes nothing. In a tree whose tokens spell their kinds
nine of the standard operators make no such mutant (`changes_of_mem_standard`). The tenth forces
conditions without a look at them, and changes nothing where a condition is already the literal that
it is forced to be (`idle_iff`).
-/

namespace Mutagen

namespace Mutant

open Text

def Changes (m : Mutant) : Prop := m.replacement ≠ m.removed

instance (m : Mutant) : Decidable m.Changes := inferInstanceAs (Decidable (_ ≠ _))

variable {m : Mutant} {text : String}

theorem Fits.width_removed (h : m.Fits text) : m.start + width m.removed.toList = m.stop := by
  obtain ⟨-, -, -, -, hstop⟩ := slice?_eq_some_iff.mp h.removed
  exact hstop

/-- A mutant that fits leaves the text as it is only if it changes nothing. -/
theorem Fits.inject?_eq_self_iff (h : m.Fits text) : m.inject? text = some text ↔ ¬m.Changes := by
  obtain ⟨first, rest, htext, hstart, hstop⟩ := slice?_eq_some_iff.mp h.removed
  rw [inject?_eq htext hstart hstop, Option.some_inj, Changes, not_ne_iff]
  constructor
  · intro hsame
    have hlist := congrArg String.toList hsame
    rw [String.toList_ofList, htext] at hlist
    exact String.toList_inj.mp (List.append_cancel_left (List.append_cancel_right hlist))
  · intro hsame
    rw [hsame, ← htext, String.ofList_toList]

theorem Fits.changes_of_width (h : m.Fits text)
    (hwidth : m.start + width m.replacement.toList ≠ m.stop) : m.Changes := by
  intro hsame
  rw [hsame] at hwidth
  exact hwidth h.width_removed

end Mutant

namespace Operator

open Text

variable {file text name : String} {root : Node} {s : Site} {o : Operator} {m : Mutant}
  {found : List Mutant}

/-- The tree belongs to the text: bare tokens, those of operators among them, and the two boolean
literals spell their kinds, and what stands in a block is not empty and inside the braces. -/
structure Spelled (text : String) (root : Node) : Prop extends root.Fits text where
  token : ∀ n ∈ root.nodes, n.isNamed = false → n.Spells text
  operator : ∀ n ∈ root.nodes, n.field = some "operator" → n.isNamed = false
  boolean : ∀ n ∈ root.nodes, n.kind = "true" ∨ n.kind = "false" → n.Spells text
  enclosed : ∀ n ∈ root.nodes, n.kind = "statement_block" → ∀ child ∈ n.children,
    child.isNamed = true → n.start < child.start ∧ child.start < child.stop ∧ child.stop < n.stop

instance (text : String) (root : Node) : Decidable (Spelled text root) :=
  decidable_of_iff
    (root.Fits text ∧ (∀ n ∈ root.nodes, n.isNamed = false → n.Spells text) ∧
      (∀ n ∈ root.nodes, n.field = some "operator" → n.isNamed = false) ∧
      (∀ n ∈ root.nodes, n.kind = "true" ∨ n.kind = "false" → n.Spells text) ∧
      ∀ n ∈ root.nodes, n.kind = "statement_block" → ∀ child ∈ n.children,
        child.isNamed = true →
          n.start < child.start ∧ child.start < child.stop ∧ child.stop < n.stop)
    ⟨fun ⟨fits, token, operator, boolean, enclosed⟩ => ⟨fits, token, operator, boolean, enclosed⟩,
      fun h => ⟨h.toFits, h.token, h.operator, h.boolean, h.enclosed⟩⟩

theorem Spelled.of_mem {n : Node} (h : Spelled text root) (hn : n ∈ root.nodes) :
    Spelled text n where
  toFits := h.toFits.of_mem hn
  token k hk := h.token k (Node.mem_nodes_trans hn hk)
  operator k hk := h.operator k (Node.mem_nodes_trans hn hk)
  boolean k hk := h.boolean k (Node.mem_nodes_trans hn hk)
  enclosed k hk := h.enclosed k (Node.mem_nodes_trans hn hk)

theorem field_of_child? {child : Site} {role : String} (h : s.child? role = some child) :
    child.node.field = some role := by
  unfold Site.child? at h
  have hfield := List.find?_some h
  exact eq_of_beq hfield

theorem Spelled.operator_spells {token : Site} (h : Spelled text s.node)
    (ht : token? s = some token) : token.node.Spells text := by
  have hmem := node_mem_of_child ht
  exact h.token _ hmem (h.operator _ hmem (field_of_child? ht))

-- ---------------------------------------------------------------------------
-- Swapped tokens
-- ---------------------------------------------------------------------------

def Moves (table : String → Option String) : Prop :=
  ∀ kind swapped, table kind = some swapped → swapped ≠ kind

def swapTables : List (String → Option String) :=
  [arithmeticSwap, boundarySwap, comparisonSwap, logicSwap, signSwap, updateSwap]

theorem moves_of_mem_swapTables {table : String → Option String} (h : table ∈ swapTables) :
    Moves table := by
  intro kind swapped hswap
  simp only [swapTables, List.mem_cons, List.not_mem_nil, or_false] at h
  rcases h with rfl | rfl | rfl | rfl | rfl | rfl
  all_goals
    simp only [arithmeticSwap, boundarySwap, comparisonSwap, logicSwap, signSwap, updateSwap]
      at hswap
    split at hswap <;> cases hswap <;> decide

/-- A mutant at a node that spells its kind takes out that kind. -/
theorem removed_of_spells {replacement : String} (hs : s.node.Spells text)
    (h : Mutant.ofSite? file name text s replacement = some m) : m.removed = s.kind := by
  obtain ⟨-, -, hstart, hstop, -, hfits⟩ := Mutant.fits_of_ofSite? h
  have hremoved := hfits.removed
  rw [hstart, hstop, hs.piece] at hremoved
  exact (Option.some.inj hremoved).symm

theorem changes_of_spells {replacement : String} (hs : s.node.Spells text)
    (h : Mutant.ofSite? file name text s replacement = some m) (hne : replacement ≠ s.kind) :
    m.Changes := by
  obtain ⟨-, -, -, -, hreplacement, -⟩ := Mutant.fits_of_ofSite? h
  rw [Mutant.Changes, hreplacement, removed_of_spells hs h]
  exact hne

theorem changes_of_swapToken {table : String → Option String} (hs : Spelled text s.node)
    (htable : table ∈ swapTables) (h : swapToken table name file text s = .ok found)
    (hm : m ∈ found) : m.Changes := by
  obtain ⟨token, swapped, ht, hswap, hof⟩ := ofSite?_of_swapToken h hm
  exact changes_of_spells (hs.operator_spells ht) hof (moves_of_mem_swapTables htable _ _ hswap)

-- ---------------------------------------------------------------------------
-- Operands
-- ---------------------------------------------------------------------------

theorem apart_of_roles {a b : Site} {role role' : String} (hs : s.node.Ordered)
    (ha : s.child? role = some a) (hb : s.child? role' = some b) (hne : role ≠ role') :
    a.stop ≤ b.start ∨ b.stop ≤ a.start := by
  have hroles : a.node ≠ b.node := by
    intro heq
    have hfield := field_of_child? ha
    rw [heq, field_of_child? hb] at hfield
    exact hne (Option.some.inj hfield).symm
  have hapart : s.node.children.Pairwise Node.Apart := hs.self.apart.imp Or.inl
  exact hapart.forall (Site.child?_mem ha) (Site.child?_mem hb) hroles

theorem changes_of_dropNegation (hs : Spelled text s.node) (hbang : tokenKind? s = some "!")
    (h : dropNegation name file text s = .ok found) (hm : m ∈ found) : m.Changes := by
  obtain ⟨argument, uncovered, ha, hu, hof⟩ := ofSite?_of_dropNegation h hm
  obtain ⟨-, -, hstart, hstop, rfl, hfits⟩ := Mutant.fits_of_ofSite? hof
  obtain ⟨token, ht, -⟩ := Option.map_eq_some_iff.mp hbang
  obtain ⟨htstart, htstop⟩ : s.start ≤ token.start ∧ token.stop ≤ s.stop :=
    hs.self.inside _ (Site.child?_mem ht)
  obtain ⟨hastart, hastop⟩ : s.start ≤ argument.start ∧ argument.stop ≤ s.stop :=
    hs.self.inside _ (Site.child?_mem ha)
  have htoken : token.start < token.stop := (hs.operator_spells ht).start_lt_stop
  have hwidth : argument.start + width m.replacement.toList = argument.stop := by
    obtain ⟨-, -, -, -, hstop⟩ := slice?_eq_some_iff.mp hu
    exact hstop
  refine hfits.changes_of_width ?_
  rw [hstart, hstop]
  rcases apart_of_roles hs.ordered ht ha (by decide) with hbefore | hbehind <;> omega

theorem changes_of_unary (hs : Spelled text s.node) (h : unary.mutants file text s = .ok found)
    (hm : m ∈ found) : m.Changes := by
  simp only [unary] at h
  split at h
  · rename_i hbang
    exact changes_of_dropNegation hs hbang h hm
  · exact changes_of_swapToken hs (by simp [swapTables]) h hm

-- ---------------------------------------------------------------------------
-- Literals and blocks
-- ---------------------------------------------------------------------------

theorem changes_of_flipBoolean (hs : Spelled text s.node)
    (h : flipBoolean.mutants file text s = .ok found) (hm : m ∈ found) : m.Changes := by
  simp only [flipBoolean] at h
  split at h
  · rename_i hkind
    have hspells := hs.boolean _ (Node.mem_nodes_self _) (.inl hkind)
    exact changes_of_spells hspells (ofSite?_of_single h hm) (by rw [hkind]; decide)
  · rename_i hkind
    have hspells := hs.boolean _ (Node.mem_nodes_self _) (.inr hkind)
    exact changes_of_spells hspells (ofSite?_of_single h hm) (by rw [hkind]; decide)
  · cases h

theorem changes_of_negateNumber (h : negateNumber.mutants file text s = .ok found)
    (hm : m ∈ found) : m.Changes := by
  simp only [negateNumber] at h
  split at h
  · cases h
  · rename_i literal hl
    obtain ⟨-, -, hstart, hstop, hreplacement, hfits⟩ :=
      Mutant.fits_of_ofSite? (ofSite?_of_single h hm)
    obtain ⟨-, -, -, -, hwidth⟩ := slice?_eq_some_iff.mp hl
    have hsize : '-'.utf8Size = 1 := rfl
    refine hfits.changes_of_width ?_
    rw [hreplacement, hstart, hstop, ← hwidth]
    have hclose : ')'.utf8Size = 1 := rfl
    split
    · simp [hsize]
      omega
    · simp [hsize]

theorem changes_of_emptyBlock (hs : Spelled text s.node) (happlies : emptyBlock.applies s = true)
    (h : emptyBlock.mutants file text s = .ok found) (hm : m ∈ found) : m.Changes := by
  obtain ⟨hkind, child, hchild, -⟩ :
      s.kind = "statement_block" ∧ ∃ child ∈ s.namedChildren, _ := by
    simpa [emptyBlock] using happlies
  obtain ⟨hmem, hnamed⟩ := List.mem_filter.mp hchild
  have hinside : child.node ∈ s.node.children := by
    rw [← Site.map_node_siblings s.above s.node.label [] s.node.children]
    exact List.mem_map_of_mem hmem
  obtain ⟨hopen, hlt, hclose⟩ := hs.enclosed _ (Node.mem_nodes_self _) hkind _ hinside hnamed
  obtain ⟨-, -, hstart, hstop, hreplacement, hfits⟩ :=
    Mutant.fits_of_ofSite? (ofSite?_of_single h hm)
  refine hfits.changes_of_width ?_
  have hwidth : width "\x7b\x7d".toList = 2 := rfl
  rw [hreplacement, hwidth, hstart, hstop]
  show s.node.start + 2 ≠ s.node.stop
  omega

/-- Every standard operator but one changes something wherever it applies. -/
theorem changes_of_mem_standard (ho : o ∈ Registry.standard.operators)
    (hname : o.name ≠ "remove_conditional") (hs : Spelled text s.node)
    (happlies : o.applies s = true) (h : o.mutants file text s = .ok found) (hm : m ∈ found) :
    m.Changes := by
  simp only [Registry.standard, List.mem_cons, List.not_mem_nil, or_false] at ho
  rcases ho with rfl | rfl | rfl | rfl | rfl | rfl | rfl | rfl | rfl | rfl
  · exact changes_of_swapToken hs (by simp [swapTables]) h hm
  · exact changes_of_swapToken hs (by simp [swapTables]) h hm
  · exact changes_of_swapToken hs (by simp [swapTables]) h hm
  · exact changes_of_swapToken hs (by simp [swapTables]) h hm
  · exact changes_of_unary hs h hm
  · exact changes_of_swapToken hs (by simp [swapTables]) h hm
  · exact changes_of_flipBoolean hs h hm
  · exact changes_of_negateNumber h hm
  · exact absurd rfl hname
  · exact changes_of_emptyBlock hs happlies h hm

-- ---------------------------------------------------------------------------
-- Forced conditions
-- ---------------------------------------------------------------------------

def forcedValues (s : Site) : List String :=
  if s.kind = "if_statement" then ["false", "true"] else ["false"]

def IsCondition (text : String) (s : Site) (value : String) : Prop :=
  ∃ condition, condition? s = some condition ∧
    slice? text condition.start condition.stop = some value

theorem forces_forceCondition (h : forceCondition.mutants file text s = .ok found) :
    ∃ condition, condition? s = some condition ∧
      (∀ m ∈ found, m.replacement ∈ forcedValues s ∧
        replace "remove_conditional" file text condition m.replacement = .ok m) ∧
      ∀ value ∈ forcedValues s, ∃ m ∈ found, m.replacement = value := by
  simp only [forceCondition] at h
  split at h
  · cases h
  · rename_i condition hc
    refine ⟨condition, hc, ?_⟩
    obtain ⟨never, hnever, h⟩ := bind_eq_ok.mp h
    have hfalse := replacement_of_replace hnever
    unfold forcedValues
    split at h
    · rename_i hif
      obtain ⟨always, halways, h⟩ := bind_eq_ok.mp h
      have htrue := replacement_of_replace halways
      cases h
      rw [if_pos hif]
      simp [hfalse, htrue, hnever, halways]
    · rename_i hloop
      cases h
      rw [if_neg hloop]
      simp [hfalse, hnever]

/-- A forced condition that is the literal already stays as it is. -/
theorem idle_iff (h : forceCondition.mutants file text s = .ok found) :
    (∃ m ∈ found, ¬m.Changes) ↔ ∃ value ∈ forcedValues s, IsCondition text s value := by
  obtain ⟨condition, hc, hforces, hvalues⟩ := forces_forceCondition h
  have hidle : ∀ m ∈ found,
      (¬m.Changes ↔ slice? text condition.start condition.stop = some m.replacement) := by
    intro m hm
    obtain ⟨-, -, hstart, hstop, -, hfits⟩ :=
      Mutant.fits_of_ofSite? (replace_eq_ok.mp (hforces m hm).2)
    rw [← hstart, ← hstop, hfits.removed, Option.some_inj, Mutant.Changes, not_ne_iff, eq_comm]
  constructor
  · rintro ⟨m, hm, hsame⟩
    exact ⟨m.replacement, (hforces m hm).1, condition, hc, (hidle m hm).mp hsame⟩
  · rintro ⟨value, hvalue, other, hother, hslice⟩
    obtain rfl : condition = other := Option.some.inj (hc.symm.trans hother)
    obtain ⟨m, hm, rfl⟩ := hvalues value hvalue
    exact ⟨m, hm, (hidle m hm).mpr hslice⟩

end Operator

end Mutagen
