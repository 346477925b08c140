import Mutagen.Proofs.Mutant.Inject
import Mutagen.Proofs.Survey.Sequential

/-!
# What operators answer

Where a standard operator applies, it makes one mutant, or two of the condition of an `if`
(`answer_of_mem_standard`). It never fails there, so no survey by standard operators ends with the
failure of an operator (`answer_of_applies`).
-/

namespace Mutagen

namespace Operator

variable {o : Operator} {name file text replacement : String} {table : String → Option String}
  {site target : Site} {m : Mutant} {found : List Mutant}

-- ---------------------------------------------------------------------------
-- Single answers
-- ---------------------------------------------------------------------------

/-- Whatever else is to stand at a node differs in nothing but the replacement. -/
theorem replace_again (h : replace name file text target replacement = .ok m) (other : String) :
    replace name file text target other = .ok { m with replacement := other } := by
  obtain ⟨removed, hr, hm⟩ := Option.bind_eq_some_iff.mp (replace_eq_ok.mp h)
  cases hm
  exact replace_eq_ok.mpr (by rw [Mutant.ofSite?, hr]; rfl)

theorem replacement_of_replace (h : replace name file text target replacement = .ok m) :
    m.replacement = replacement := by
  obtain ⟨-, -, -, -, hreplacement, -⟩ := Mutant.fits_of_ofSite? (replace_eq_ok.mp h)
  exact hreplacement

theorem single_of_ok (h : (do return [← replace name file text target replacement]) = .ok found) :
    ∃ m, found = [m] := by
  obtain ⟨m, -, hfound⟩ := bind_eq_ok.mp h
  cases hfound
  exact ⟨m, rfl⟩

theorem single_swapToken (h : swapToken table name file text site = .ok found) :
    ∃ m, found = [m] := by
  unfold swapToken at h
  split at h
  · cases h
  · split at h
    · cases h
    · exact single_of_ok h

theorem single_dropNegation (h : dropNegation name file text site = .ok found) :
    ∃ m, found = [m] := by
  unfold dropNegation at h
  split at h
  · cases h
  · split at h
    · cases h
    · exact single_of_ok h

theorem single_unary (h : unary.mutants file text site = .ok found) : ∃ m, found = [m] := by
  simp only [unary] at h
  split at h
  · exact single_dropNegation h
  · exact single_swapToken h

theorem single_flipBoolean (h : flipBoolean.mutants file text site = .ok found) :
    ∃ m, found = [m] := by
  simp only [flipBoolean] at h
  split at h
  · exact single_of_ok h
  · exact single_of_ok h
  · cases h

theorem single_negateNumber (h : negateNumber.mutants file text site = .ok found) :
    ∃ m, found = [m] := by
  simp only [negateNumber] at h
  split at h
  · cases h
  · exact single_of_ok h

-- ---------------------------------------------------------------------------
-- Forced conditions
-- ---------------------------------------------------------------------------

theorem forced_forceCondition (h : forceCondition.mutants file text site = .ok found) :
    ∃ never : Mutant, never.replacement = "false" ∧
      found = if site.kind = "if_statement" then [never, { never with replacement := "true" }]
        else [never] := by
  simp only [forceCondition] at h
  split at h
  · cases h
  · rename_i condition hc
    obtain ⟨never, hnever, h⟩ := bind_eq_ok.mp h
    refine ⟨never, replacement_of_replace hnever, ?_⟩
    split at h
    · rename_i hif
      rw [replace_again hnever "true"] at h
      cases h
      rw [if_pos hif]
    · rename_i hloop
      cases h
      rw [if_neg hloop]

-- ---------------------------------------------------------------------------
-- Answers
-- ---------------------------------------------------------------------------

def Doubles (o : Operator) (site : Site) : Prop :=
  o.name = "remove_conditional" ∧ site.kind = "if_statement"

/-- What an operator that is not at a loss makes of a site. -/
structure Answer (o : Operator) (site : Site) (found : List Mutant) : Prop where
  named : ∀ m ∈ found, m.operator = o.name
  double : o.Doubles site → ∃ never : Mutant, never.replacement = "false" ∧
    found = [never, { never with replacement := "true" }]
  single : ¬o.Doubles site → ∃ m, found = [m]

theorem named_of_replaces (h : Replaces name file text site found) :
    ∀ m ∈ found, m.operator = name := by
  intro m hm
  obtain ⟨target, -, replacement, hof⟩ := h m hm
  obtain ⟨-, hname, -⟩ := Mutant.fits_of_ofSite? hof
  exact hname

theorem answer_of_single (ho : o.Sound) (h : o.mutants file text site = .ok found)
    (hname : o.name ≠ "remove_conditional") (hsingle : ∃ m, found = [m]) :
    o.Answer site found where
  named := named_of_replaces (ho.replaces h)
  double hdouble := absurd hdouble.1 hname
  single _ := hsingle

theorem answer_forceCondition (h : forceCondition.mutants file text site = .ok found) :
    forceCondition.Answer site found := by
  obtain ⟨never, hnever, hfound⟩ := forced_forceCondition h
  refine ⟨named_of_replaces (sound_forceCondition.replaces h), fun hdouble => ?_, fun hsingle => ?_⟩
  · rw [if_pos hdouble.2] at hfound
    exact ⟨never, hnever, hfound⟩
  · rw [if_neg fun hif => hsingle ⟨rfl, hif⟩] at hfound
    exact ⟨never, hfound⟩

theorem answer_of_mem_standard (ho : o ∈ Registry.standard.operators)
    (h : o.mutants file text site = .ok found) : o.Answer site found := by
  have hsound := sound_of_mem_standard ho
  simp only [Registry.standard, List.mem_cons, List.not_mem_nil, or_false] at ho
  rcases ho with rfl | rfl | rfl | rfl | rfl | rfl | rfl | rfl | rfl | rfl
  · exact answer_of_single hsound h (by decide) (single_swapToken h)
  · exact answer_of_single hsound h (by decide) (single_swapToken h)
  · exact answer_of_single hsound h (by decide) (single_swapToken h)
  · exact answer_of_single hsound h (by decide) (single_swapToken h)
  · exact answer_of_single hsound h (by decide) (single_unary h)
  · exact answer_of_single hsound h (by decide) (single_swapToken h)
  · exact answer_of_single hsound h (by decide) (single_flipBoolean h)
  · exact answer_of_single hsound h (by decide) (single_negateNumber h)
  · exact answer_forceCondition h
  · exact answer_of_single hsound h (by decide) (single_of_ok h)

end Operator

namespace Survey

variable {s : Survey} {paths : List String} {path : String} {e : SurveyError}

-- ---------------------------------------------------------------------------
-- Failures
-- ---------------------------------------------------------------------------

theorem visit_eq_error (h : (s.visit paths).result = .error e) : ∃ path ∈ paths, s.Trouble path e := by
  induction paths with
  | nil => cases h
  | cons path rest ih =>
    rcases visit_cons_eq_error.mp h with hscan | ⟨-, hrest⟩
    · exact ⟨path, List.mem_cons_self, scan_eq_error_iff.mp hscan⟩
    · obtain ⟨other, ho, hother⟩ := ih hrest
      exact ⟨other, List.mem_cons_of_mem _ ho, hother⟩

theorem run_eq_error (h : (s.run paths).result = .error e) :
    (∃ index, e = .emptyPath index) ∨ ∃ path ∈ paths, s.Trouble path e := by
  unfold run checked at h
  split at h
  · rename_i index _
    cases h
    exact .inl ⟨index, rfl⟩
  · exact .inr (visit_eq_error h)

/-- Sound operators are no trouble in trees that are cut from their texts. -/
theorem not_failed_of_sound (hs : ∀ o ∈ s.registry.operators, o.Sound)
    (hp : ∀ dialect text root, s.parser dialect text = .ok root → root.Sliced text)
    (named name : String) (cause : OperatorError) : ¬s.Trouble path (.failed named name cause) := by
  intro h
  cases h with
  | @failed text root before after site o cause hread hparse hplaces hbefore happlies hfails =>
    obtain ⟨hsite, ho⟩ := mem_places.mp (show (site, o) ∈ s.places root by simp [hplaces])
    have hpart := (hp _ _ _ hparse).of_mem (Node.node_mem_of_sitesOfKind hsite)
    obtain ⟨found, hfound⟩ := (hs o ho).works hpart happlies
    rw [hfound] at hfails
    cases hfails

/-- A standard operator that applies to a node of a tree cut from a text is about the kind of that
node and answers, so a survey by standard operators never ends because of one. -/
theorem answer_of_applies :
    (∀ o ∈ Registry.standard.operators, ∀ file text root, Node.Sliced text root →
      ∀ site ∈ Site.sites [] root, o.applies site = true →
        site.kind ∈ o.kinds ∧ ∃ found, o.mutants file text site = .ok found ∧ o.Answer site found) ∧
    ∀ (s : Survey) (paths : List String),
      (∀ o ∈ s.registry.operators, o ∈ Registry.standard.operators) →
      (∀ dialect text root, s.parser dialect text = .ok root → root.Sliced text) →
      ∀ path name cause, (s.run paths).result ≠ .error (.failed path name cause) := by
  refine ⟨fun o ho file text root hroot site hsite happlies => ?_, ?_⟩
  · have hsound := Operator.sound_of_mem_standard ho
    have hnode : site.node ∈ root.nodes := by
      rw [← Site.map_node_sites [] root]
      exact List.mem_map_of_mem hsite
    have hworks : o.Works file text site := hsound.works (hroot.of_mem hnode)
    obtain ⟨found, hfound⟩ := hworks happlies
    exact ⟨hsound.kinds happlies, found, hfound, Operator.answer_of_mem_standard ho hfound⟩
  · intro s paths hs hp path name cause h
    have hsound : ∀ o ∈ s.registry.operators, o.Sound := fun o ho =>
      Operator.sound_of_mem_standard (hs o ho)
    obtain ⟨index, he⟩ | ⟨other, -, htrouble⟩ := run_eq_error h
    · cases he
    · exact not_failed_of_sound hsound hp path name cause htrouble

/-- The statement of the text `if(é)x;`. -/
def branch : Node :=
  .mk ⟨"if_statement", true, false, false, false, 0, 8, none⟩ [
    .mk ⟨"if", false, false, false, false, 0, 2, none⟩ [],
    .mk ⟨"parenthesized_expression", true, false, false, false, 2, 6, some "condition"⟩ [
      .mk ⟨"(", false, false, false, false, 2, 3, none⟩ [],
      .mk ⟨"identifier", true, false, false, false, 3, 5, none⟩ [],
      .mk ⟨")", false, false, false, false, 5, 6, none⟩ []],
    .mk ⟨"expression_statement", true, false, false, false, 6, 8, some "consequence"⟩ [
      .mk ⟨"identifier", true, false, false, false, 6, 7, none⟩ [],
      .mk ⟨";", false, false, false, false, 7, 8, none⟩ []]]

def branching : Survey where
  registry := ⟨[.forceCondition, .emptyBlock, .forceCondition]⟩
  reader _ := .ok "if(é)x;"
  parser _ text :=
    if text = "if(é)x;" then
      .ok (.mk ⟨"program", true, false, false, false, 0, 8, none⟩ [branch])
    else .error ⟨1, .unclear⟩

theorem answer_of_applies_branching :
    let root : Node := .mk ⟨"program", true, false, false, false, 0, 8, none⟩ [branch]
    let site : Site := ⟨branch, [⟨root.label, [], []⟩]⟩
    Operator.forceCondition ∈ Registry.standard.operators ∧ root.Sliced "if(é)x;" ∧
      site ∈ Site.sites [] root ∧ Operator.forceCondition.applies site = true ∧
      (∃ found, Operator.forceCondition.mutants "a.js" "if(é)x;" site = .ok found ∧
        Operator.forceCondition.Answer site found ∧ Operator.forceCondition.Doubles site) ∧
      (∀ o ∈ branching.registry.operators, o ∈ Registry.standard.operators) ∧
      (∀ dialect text root, branching.parser dialect text = .ok root → root.Sliced text) ∧
      ∀ path name cause,
        (branching.run ["a.js", "b.js"]).result ≠ .error (.failed path name cause) := by
  intro root site
  obtain ⟨hanswers, hnever⟩ := answer_of_applies
  have ho : Operator.forceCondition ∈ Registry.standard.operators := by simp [Registry.standard]
  have hroot : root.Sliced "if(é)x;" := by decide +kernel
  have hsite : site ∈ Site.sites [] root := by
    simp [root, site, Site.sites, Site.sitesFrom, branch, Node.label]
  have happlies : Operator.forceCondition.applies site = true := by decide +kernel
  have hs : ∀ o ∈ branching.registry.operators, o ∈ Registry.standard.operators := by
    simp [branching, Registry.standard]
  have hp : ∀ dialect text root, branching.parser dialect text = .ok root → root.Sliced text := by
    intro dialect text found h
    simp only [branching] at h
    split at h
    · rename_i htext
      cases h
      exact htext ▸ hroot
    · cases h
  obtain ⟨-, found, hfound, hanswer⟩ := hanswers _ ho "a.js" _ root hroot site hsite happlies
  exact ⟨ho, hroot, hsite, happlies, ⟨found, hfound, hanswer, rfl, rfl⟩, hs, hp,
    hnever branching ["a.js", "b.js"] hs hp⟩

end Survey

end Mutagen
