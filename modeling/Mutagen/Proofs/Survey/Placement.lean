import Mutagen.Proofs.Mutant.Inject
import Mutagen.Proofs.Survey.Sequential

/-!
# Where the mutants of a survey are

Every mutant that sound operators make of a file fits the text of that file, inside a node that the
operator named in it is about (`placed_of_mem_run`).
-/

namespace Mutagen.Survey

variable {s : Survey} {paths : List String} {path text : String} {root : Node} {m : Mutant}
  {found : List Mutant}

-- ---------------------------------------------------------------------------
-- Where mutants come from
-- ---------------------------------------------------------------------------

theorem mem_mutantsOf (h : s.mutantsOf path text root = .ok found) (hm : m ∈ found) :
    ∃ site o, (site, o) ∈ s.places root ∧ o.applies site = true ∧
      ∃ here, o.mutants path text site = .ok here ∧ m ∈ here := by
  rw [mutantsOf_eq_gather] at h
  obtain ⟨g, hg, rfl⟩ := gather_eq_ok_iff.mp h
  obtain ⟨⟨site, o⟩, hplace, hm⟩ := List.mem_flatMap.mp hm
  have hhere := consult_eq_ok_iff.mp (hg _ hplace)
  split at hhere
  · rename_i happlies
    exact ⟨site, o, hplace, happlies, _, hhere, hm⟩
  · rw [hhere] at hm
    cases hm

theorem mem_of_scan {finding : Finding} (h : s.scan path = .ok finding) (hm : m ∈ finding.found) :
    ∃ text root found, s.reader path = .ok text ∧ s.parser (.ofPath path) text = .ok root ∧
      s.mutantsOf path text root = .ok found ∧ m ∈ found := by
  rcases scan_ok_cases h with ⟨named, -, rfl⟩ | ⟨text, root, found, hread, hparse, hfound, rfl⟩
  · cases hm
  · exact ⟨text, root, found, hread, hparse, hfound, hm⟩

theorem visit_eq_ok (h : (s.visit paths).result = .ok found) :
    (s.visit paths).reads = paths ∧
      ∀ m ∈ found, ∃ path ∈ paths, ∃ finding, s.scan path = .ok finding ∧ m ∈ finding.found := by
  induction paths generalizing found with
  | nil =>
    cases h
    exact ⟨rfl, by simp⟩
  | cons path rest ih =>
    obtain ⟨finding, others, hscan, hrest, rfl⟩ := visit_cons_eq_ok.mp h
    obtain ⟨hreads, hothers⟩ := ih hrest
    refine ⟨by simp [visit, hscan, Report.reading, Report.follow, hreads], fun m hm => ?_⟩
    rcases List.mem_append.mp hm with hm | hm
    · exact ⟨path, List.mem_cons_self, finding, hscan, hm⟩
    · obtain ⟨other, ho, hother⟩ := hothers m hm
      exact ⟨other, List.mem_cons_of_mem _ ho, hother⟩

theorem run_eq_ok (h : (s.run paths).result = .ok found) : s.run paths = s.visit paths := by
  unfold run checked at h ⊢
  split at h
  · cases h
  · rfl

/-- Every mutant of a survey is one of a file that could be read and parsed. -/
theorem exists_file_of_mem_run (h : (s.run paths).result = .ok found) (hm : m ∈ found) :
    ∃ path ∈ paths, ∃ text root here, s.reader path = .ok text ∧
      s.parser (.ofPath path) text = .ok root ∧ s.mutantsOf path text root = .ok here ∧
        m ∈ here := by
  rw [run_eq_ok h] at h
  obtain ⟨-, horigin⟩ := visit_eq_ok h
  obtain ⟨path, hpath, finding, hscan, hm⟩ := horigin m hm
  exact ⟨path, hpath, mem_of_scan hscan hm⟩

-- ---------------------------------------------------------------------------
-- Where mutants are
-- ---------------------------------------------------------------------------

theorem placed_of_mem_mutantsOf (hs : ∀ o ∈ s.registry.operators, o.Sound) (hroot : root.Nested)
    (h : s.mutantsOf path text root = .ok found) (hm : m ∈ found) :
    m.file = path ∧ m.Fits text ∧ ∃ o ∈ s.registry.operators, o.name = m.operator ∧
      ∃ n ∈ root.nodes, n.kind ∈ o.kinds ∧ n.start ≤ m.start ∧ m.stop ≤ n.stop := by
  obtain ⟨site, o, hplace, happlies, here, hhere, hm⟩ := mem_mutantsOf h hm
  obtain ⟨hsite, ho⟩ := mem_places.mp hplace
  have hsite := Node.node_mem_of_sitesOfKind hsite
  obtain ⟨target, ht, replacement, hm⟩ := (hs o ho).replaces hhere m hm
  obtain ⟨hfile, hname, hstart, hstop, -, hfits⟩ := Mutant.fits_of_ofSite? hm
  obtain ⟨hle, hge⟩ := (hroot.of_mem hsite).range_of_mem ht
  refine ⟨hfile, hfits, o, ho, hname.symm, site.node, hsite, (hs o ho).kinds happlies, ?_, ?_⟩
  · rw [hstart]
    exact hle
  · rw [hstop]
    exact hge

/-- Every mutant of a survey by standard operators is one of a file that was read, fits the text of
that file, and stands inside a node that the operator named in it is about. -/
theorem placed_of_mem_run (hs : ∀ o ∈ s.registry.operators, o ∈ Registry.standard.operators)
    (hp : ∀ dialect text root, s.parser dialect text = .ok root → root.Nested)
    (h : (s.run paths).result = .ok found) (hm : m ∈ found) :
    m.file ∈ paths ∧ m.file ∈ (s.run paths).reads ∧
      ∃ text root, s.reader m.file = .ok text ∧ s.parser (.ofPath m.file) text = .ok root ∧
        m.Fits text ∧ ∃ o ∈ s.registry.operators, o.name = m.operator ∧
          ∃ n ∈ root.nodes, n.kind ∈ o.kinds ∧ n.start ≤ m.start ∧ m.stop ≤ n.stop := by
  have hvisit := run_eq_ok h
  rw [hvisit] at h ⊢
  obtain ⟨hreads, horigin⟩ := visit_eq_ok h
  obtain ⟨path, hpath, finding, hscan, hm⟩ := horigin m hm
  obtain ⟨text, root, here, hread, hparse, hhere, hm⟩ := mem_of_scan hscan hm
  have hsound : ∀ o ∈ s.registry.operators, o.Sound := fun o ho =>
    Operator.sound_of_mem_standard (hs o ho)
  obtain ⟨rfl, hplaced⟩ := placed_of_mem_mutantsOf hsound (hp _ _ _ hparse) hhere hm
  exact ⟨hpath, hreads.symm ▸ hpath, text, root, hread, hparse, hplaced⟩

/-- A survey of files that hold `é+1;`, where the negated number must not touch the sign. -/
def besideSign : Survey where
  registry := ⟨[.negateNumber, .arithmetic, .negateNumber]⟩
  reader _ := .ok "é+1;"
  parser _ _ :=
    .ok (.mk ⟨"program", true, false, false, false, 0, 5, none⟩ [
      .mk ⟨"expression_statement", true, false, false, false, 0, 5, none⟩ [
        .mk ⟨"binary_expression", true, false, false, false, 0, 4, none⟩ [
          .mk ⟨"identifier", true, false, false, false, 0, 2, some "left"⟩ [],
          .mk ⟨"+", false, false, false, false, 2, 3, some "operator"⟩ [],
          .mk ⟨"number", true, false, false, false, 3, 4, some "right"⟩ []],
        .mk ⟨";", false, false, false, false, 4, 5, none⟩ []]])

theorem placed_of_mem_run_besideSign :
    let swap : Mutant := ⟨"a.js", ⟨⟨0, 2⟩, ⟨0, 3⟩⟩, 2, 3, "arithmetic", "+", "-"⟩
    let negation : Mutant := ⟨"a.js", ⟨⟨0, 3⟩, ⟨0, 4⟩⟩, 3, 4, "numeric_negation", "1", "(-1)"⟩
    (∀ o ∈ besideSign.registry.operators, o ∈ Registry.standard.operators) ∧
      (∀ dialect text root, besideSign.parser dialect text = .ok root → root.Nested) ∧
      (besideSign.run ["a.js"]).result = .ok [swap, negation, negation] ∧
      negation.Fits "é+1;" ∧ negation.inject? "é+1;" = some "é+(-1);" := by
  intro swap negation
  have hs : ∀ o ∈ besideSign.registry.operators, o ∈ Registry.standard.operators := by
    simp [besideSign, Registry.standard]
  have hp : ∀ dialect text root, besideSign.parser dialect text = .ok root → root.Nested := by
    intro dialect text root h
    cases h
    decide
  have hresult : (besideSign.run ["a.js"]).result = .ok [swap, negation, negation] := by
    simp only [run, visit, scan, mutantsOf, Registry.sitesOfKind_kinds]
    rfl
  obtain ⟨-, -, text, root, hread, -, hfits, -⟩ :=
    placed_of_mem_run hs hp hresult (m := negation) (by simp)
  cases hread
  exact ⟨hs, hp, hresult, hfits, by decide +kernel⟩

end Mutagen.Survey
