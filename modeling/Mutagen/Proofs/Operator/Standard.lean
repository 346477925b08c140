import Mutagen.Operator.Registry
import Mutagen.Proofs.Except
import Mutagen.Proofs.Tree.Sites

/-!
# What the standard operators keep to

An operator is about the kinds that it names, its mutants carry its name and replace nodes of the
subtree it is asked about, and where it applies it does not fail, as long as that subtree is cut
from the text (`sound_of_mem_standard`).
-/

namespace Mutagen.Operator

def Works (o : Operator) (file text : String) (site : Site) : Prop :=
  o.applies site = true → ∃ found, o.mutants file text site = .ok found

def Replaces (name file text : String) (site : Site) (found : List Mutant) : Prop :=
  ∀ m ∈ found, ∃ target : Site, target.node ∈ site.node.nodes ∧
    ∃ replacement, Mutant.ofSite? file name text target replacement = some m

/-- What a survey can rely on, whatever the tree is like. -/
structure Sound (o : Operator) : Prop where
  kinds : ∀ {site}, o.applies site = true → site.kind ∈ o.kinds
  replaces : ∀ {file text site found}, o.mutants file text site = .ok found →
    Replaces o.name file text site found
  works : ∀ {file text site}, site.node.Sliced text → o.Works file text site

variable {name file text replacement : String} {table : String → Option String}
  {site target : Site} {found : List Mutant}

theorem kind_of_guard {kind : String} {rest : Bool}
    (h : (site.kind == kind && rest) = true) : site.kind ∈ [kind] :=
  List.mem_singleton.mpr (eq_of_beq (Bool.and_eq_true_iff.mp h).1)

-- ---------------------------------------------------------------------------
-- Single replacements
-- ---------------------------------------------------------------------------

theorem replace_eq_ok {m : Mutant} : replace name file text target replacement = .ok m ↔
    Mutant.ofSite? file name text target replacement = some m := by
  unfold replace
  split <;> simp_all

theorem exists_replace (h : site.node.Sliced text) (ht : target.node ∈ site.node.nodes)
    (name file replacement : String) : ∃ m, replace name file text target replacement = .ok m := by
  obtain ⟨removed, hr⟩ := h.slice ht
  exact ⟨_, replace_eq_ok.mpr (by rw [Mutant.ofSite?, hr]; rfl)⟩

theorem replaces_replace {m : Mutant} (ht : target.node ∈ site.node.nodes)
    (h : replace name file text target replacement = .ok m) :
    Replaces name file text site [m] := by
  intro m' hm
  obtain rfl := List.mem_singleton.mp hm
  exact ⟨target, ht, replacement, replace_eq_ok.mp h⟩

theorem ofSite?_of_single {m : Mutant}
    (h : (do return [← replace name file text target replacement]) = .ok found) (hm : m ∈ found) :
    Mutant.ofSite? file name text target replacement = some m := by
  obtain ⟨m', hm', hfound⟩ := bind_eq_ok.mp h
  cases hfound
  obtain rfl := List.mem_singleton.mp hm
  exact replace_eq_ok.mp hm'

theorem replaces_single (ht : target.node ∈ site.node.nodes)
    (h : (do return [← replace name file text target replacement]) = .ok found) :
    Replaces name file text site found :=
  fun _ hm => ⟨target, ht, replacement, ofSite?_of_single h hm⟩

theorem Replaces.append {more : List Mutant} (h : Replaces name file text site found)
    (h' : Replaces name file text site more) : Replaces name file text site (found ++ more) := by
  intro m hm
  rcases List.mem_append.mp hm with hm | hm
  · exact h m hm
  · exact h' m hm

theorem exists_single (h : site.node.Sliced text) (ht : target.node ∈ site.node.nodes)
    (name file replacement : String) :
    ∃ found, (do return [← replace name file text target replacement]) = .ok found := by
  obtain ⟨m, hm⟩ := exists_replace h ht name file replacement
  exact ⟨[m], bind_eq_ok.mpr ⟨m, hm, rfl⟩⟩

-- ---------------------------------------------------------------------------
-- Nodes below a site
-- ---------------------------------------------------------------------------

theorem node_mem_of_child {role : String} (h : site.child? role = some target) :
    target.node ∈ site.node.nodes := Node.mem_nodes_child (Site.child?_mem h)

theorem condition?_mem (h : condition? site = some target) : target.node ∈ site.node.nodes := by
  unfold condition? at h
  split at h
  · cases h
  · rename_i condition hc
    have hin := node_mem_of_child hc
    have hdeeper : ∀ p, condition.namedChildren.find? p = some target →
        target.node ∈ site.node.nodes := by
      intro p hp
      obtain ⟨hmem, -⟩ := List.mem_filter.mp (List.mem_of_find?_eq_some hp)
      have hchild : target.node ∈ condition.node.children := by
        rw [← Site.map_node_siblings condition.above condition.node.label [] condition.node.children]
        exact List.mem_map_of_mem hmem
      exact Node.mem_nodes_trans hin (Node.mem_nodes_child hchild)
    split at h
    · exact hdeeper _ h
    · exact hdeeper _ h
    · cases h
    · cases h
    · cases h
      exact hin

-- ---------------------------------------------------------------------------
-- Swapped tokens
-- ---------------------------------------------------------------------------

theorem hasSwap_iff : hasSwap table site = true ↔
    ∃ token swapped, token? site = some token ∧ table token.kind = some swapped := by
  simp only [hasSwap, tokenKind?, Option.isSome_iff_exists, Option.bind_eq_some_iff,
    Option.map_eq_some_iff]
  constructor
  · rintro ⟨swapped, _, ⟨token, ht, rfl⟩, hs⟩
    exact ⟨token, swapped, ht, hs⟩
  · rintro ⟨token, swapped, ht, hs⟩
    exact ⟨swapped, token.kind, ⟨token, ht, rfl⟩, hs⟩

theorem ofSite?_of_swapToken {m : Mutant} (h : swapToken table name file text site = .ok found)
    (hm : m ∈ found) : ∃ token swapped, token? site = some token ∧ table token.kind = some swapped ∧
      Mutant.ofSite? file name text token swapped = some m := by
  unfold swapToken at h
  split at h
  · cases h
  · rename_i token ht
    split at h
    · cases h
    · rename_i swapped hswap
      exact ⟨token, swapped, ht, hswap, ofSite?_of_single h hm⟩

theorem replaces_swapToken (h : swapToken table name file text site = .ok found) :
    Replaces name file text site found := by
  intro m hm
  obtain ⟨token, swapped, ht, -, hm⟩ := ofSite?_of_swapToken h hm
  exact ⟨token, node_mem_of_child ht, swapped, hm⟩

theorem exists_swapToken (h : site.node.Sliced text) (hs : hasSwap table site = true)
    (name file : String) : ∃ found, swapToken table name file text site = .ok found := by
  obtain ⟨token, swapped, ht, hswap⟩ := hasSwap_iff.mp hs
  simp only [swapToken, ht, hswap]
  exact exists_single h (node_mem_of_child ht) name file swapped

/-- An operator that swaps the tokens of the nodes of one kind and does nothing else. -/
theorem sound_swap {o : Operator} {kind : String} (hkinds : o.kinds = [kind])
    (hguard : ∀ site, o.applies site = (site.kind == kind && hasSwap table site))
    (hmutants : o.mutants = swapToken table o.name) : o.Sound where
  kinds happlies := by
    rw [hguard] at happlies
    rw [hkinds]
    exact kind_of_guard happlies
  replaces h := by
    rw [hmutants] at h
    exact replaces_swapToken h
  works h happlies := by
    obtain ⟨-, hs⟩ : _ ∧ _ := by simpa [hguard] using happlies
    rw [hmutants]
    exact exists_swapToken h hs _ _

-- ---------------------------------------------------------------------------
-- Binary expressions
-- ---------------------------------------------------------------------------

theorem sound_binary (name : String) (table : String → Option String) :
    (binary name table).Sound := sound_swap rfl (fun _ => rfl) rfl

theorem Sound.restrict {o : Operator} (ho : o.Sound) {applies : Site → Bool}
    (hless : ∀ {site}, applies site = true → o.applies site = true) :
    Sound { o with applies } where
  kinds happlies := ho.kinds (hless happlies)
  replaces := ho.replaces
  works h happlies := ho.works h (hless happlies)

theorem sound_arithmetic : arithmetic.Sound :=
  (sound_binary "arithmetic" arithmeticSwap).restrict fun happlies =>
    (Bool.and_eq_true_iff.mp happlies).1

-- ---------------------------------------------------------------------------
-- Unary and update expressions
-- ---------------------------------------------------------------------------

theorem ofSite?_of_dropNegation {m : Mutant}
    (h : dropNegation name file text site = .ok found) (hm : m ∈ found) :
    ∃ argument uncovered, site.child? "argument" = some argument ∧
      Text.slice? text argument.start argument.stop = some uncovered ∧
      Mutant.ofSite? file name text site uncovered = some m := by
  unfold dropNegation at h
  split at h
  · cases h
  · rename_i argument ha
    split at h
    · cases h
    · rename_i uncovered hu
      exact ⟨argument, uncovered, ha, hu, ofSite?_of_single h hm⟩

theorem replaces_dropNegation (h : dropNegation name file text site = .ok found) :
    Replaces name file text site found := by
  intro m hm
  obtain ⟨argument, uncovered, -, -, hm⟩ := ofSite?_of_dropNegation h hm
  exact ⟨site, site.node.mem_nodes_self, uncovered, hm⟩

theorem exists_dropNegation (h : site.node.Sliced text) (ha : site.child? "argument" = some target)
    (name file : String) : ∃ found, dropNegation name file text site = .ok found := by
  obtain ⟨uncovered, hu⟩ := h.slice (node_mem_of_child ha)
  simp only [dropNegation, ha, hu]
  exact exists_single h site.node.mem_nodes_self name file uncovered

theorem sound_unary : unary.Sound where
  kinds happlies := kind_of_guard (Bool.and_eq_true_iff.mp happlies).1
  replaces h := by
    simp only [unary] at h
    split at h
    · exact replaces_dropNegation h
    · exact replaces_swapToken h
  works h happlies := by
    obtain ⟨⟨-, htoken⟩, harg⟩ : (_ ∧ _) ∧ _ := by simpa [unary] using happlies
    simp only [unary]
    split
    · obtain ⟨argument, ha⟩ := Option.isSome_iff_exists.mp harg
      exact exists_dropNegation h ha _ _
    · rename_i hnot
      rcases htoken with hs | hbang
      · exact exists_swapToken h hs _ _
      · exact absurd hbang hnot

theorem sound_update : update.Sound := sound_swap rfl (fun _ => rfl) rfl

-- ---------------------------------------------------------------------------
-- Literals
-- ---------------------------------------------------------------------------

theorem sound_flipBoolean : flipBoolean.Sound where
  kinds happlies := by simpa [flipBoolean] using happlies
  replaces h := by
    simp only [flipBoolean] at h
    split at h
    · exact replaces_single (Node.mem_nodes_self _) h
    · exact replaces_single (Node.mem_nodes_self _) h
    · cases h
  works {file text site} h happlies := by
    have hkind : site.kind = "true" ∨ site.kind = "false" := by simpa [flipBoolean] using happlies
    rcases hkind with hkind | hkind
    · simp only [flipBoolean, hkind]
      exact exists_single h site.node.mem_nodes_self _ _ _
    · simp only [flipBoolean, hkind]
      exact exists_single h site.node.mem_nodes_self _ _ _

theorem sound_negateNumber : negateNumber.Sound where
  kinds := kind_of_guard
  replaces h := by
    simp only [negateNumber] at h
    split at h
    · cases h
    · exact replaces_single (Node.mem_nodes_self _) h
  works {file text site} h _ := by
    obtain ⟨literal, hl⟩ := h.slice site.node.mem_nodes_self
    simp only [negateNumber, hl]
    exact exists_single h site.node.mem_nodes_self _ _ _

-- ---------------------------------------------------------------------------
-- Control flow
-- ---------------------------------------------------------------------------

theorem sound_forceCondition : forceCondition.Sound where
  kinds happlies := List.contains_iff_mem.mp (Bool.and_eq_true_iff.mp happlies).1
  replaces h := by
    simp only [forceCondition] at h
    split at h
    · cases h
    · rename_i condition hc
      obtain ⟨never, hnever, h⟩ := bind_eq_ok.mp h
      have hfirst := replaces_replace (condition?_mem hc) hnever
      -- The condition of an `if` is forced both ways, that of a loop is only made false.
      split at h
      · obtain ⟨always, halways, hfound⟩ := bind_eq_ok.mp h
        cases hfound
        exact hfirst.append (replaces_replace (condition?_mem hc) halways)
      · cases h
        exact hfirst
  works {file text site} h happlies := by
    obtain ⟨-, hsome⟩ : _ ∧ _ := by simpa [forceCondition] using happlies
    obtain ⟨condition, hc⟩ := Option.isSome_iff_exists.mp hsome
    have hplace := condition?_mem hc
    obtain ⟨never, hnever⟩ := exists_replace h hplace "remove_conditional" file "false"
    obtain ⟨always, halways⟩ := exists_replace h hplace "remove_conditional" file "true"
    simp only [forceCondition, hc, hnever, halways]
    split
    · exact ⟨[never, always], rfl⟩
    · exact ⟨[never], rfl⟩

theorem sound_emptyBlock : emptyBlock.Sound where
  kinds := kind_of_guard
  replaces h := replaces_single (Node.mem_nodes_self _) h
  works h _ := exists_single h (Node.mem_nodes_self _) _ _ _

theorem sound_of_mem_standard {o : Operator} (h : o ∈ Registry.standard.operators) : o.Sound := by
  simp only [Registry.standard, List.mem_cons, List.not_mem_nil, or_false] at h
  rcases h with rfl | rfl | rfl | rfl | rfl | rfl | rfl | rfl | rfl | rfl
  · exact sound_arithmetic
  · exact sound_binary ..
  · exact sound_binary ..
  · exact sound_binary ..
  · exact sound_unary
  · exact sound_update
  · exact sound_flipBoolean
  · exact sound_negateNumber
  · exact sound_forceCondition
  · exact sound_emptyBlock

end Mutagen.Operator

namespace Mutagen.Registry

theorem mem_kinds {r : Registry} {kind : String} :
    kind ∈ r.kinds ↔ ∃ o ∈ r.operators, kind ∈ o.kinds := by
  simp [kinds, List.mem_eraseDups]

theorem sitesOfKind_kinds (r : Registry) (root : Node) : root.sitesOfKind r.kinds =
    (Site.sites [] root).filter fun s =>
      s.node.isNamed && r.operators.any (·.kinds.contains s.kind) := by
  rw [Node.sitesOfKind_eq_filter]
  refine List.filter_congr fun s _ => ?_
  congr 1
  rw [Bool.eq_iff_iff]
  simp [mem_kinds]

end Mutagen.Registry
