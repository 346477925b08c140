import Mutagen.Proofs.Operator.Changes
import Mutagen.Proofs.Survey.Placement
import Mutagen.Proofs.SyntaxError.Clean

/-!
# What a survey by the standard operators changes

All mutants of a survey change the text that they are put into, but for those that force a
condition. A file has one that changes nothing just when some condition in it is the literal that it
is forced to be (`changes_iff`), as that of `while(false)x;`.
-/

namespace Mutagen.Survey

open Operator

variable {s : Survey} {paths : List String} {path text : String} {root : Node} {m : Mutant}
  {found : List Mutant}

-- ---------------------------------------------------------------------------
-- Where mutants go
-- ---------------------------------------------------------------------------

theorem exists_made {site : Site} {o : Operator} (h : s.mutantsOf path text root = .ok found)
    (ho : o ∈ s.registry.operators) (hsite : site ∈ root.sitesOfKind o.kinds)
    (happlies : o.applies site = true) :
    ∃ here, o.mutants path text site = .ok here ∧ ∀ m ∈ here, m ∈ found := by
  obtain ⟨hmem, hnamed, hkind⟩ := Node.mem_sitesOfKind.mp hsite
  have hkinds : site.kind ∈ s.registry.kinds := Registry.mem_kinds.mpr ⟨o, ho, hkind⟩
  have hplace : (site, o) ∈ s.places root :=
    mem_places.mpr ⟨Node.mem_sitesOfKind.mpr ⟨hmem, hnamed, hkinds⟩, ho⟩
  rw [mutantsOf_eq_gather] at h
  obtain ⟨g, hg, rfl⟩ := gather_eq_ok_iff.mp h
  have hconsult := consult_eq_ok_iff.mp (hg _ hplace)
  rw [if_pos happlies] at hconsult
  exact ⟨_, hconsult, fun m hm => List.mem_flatMap.mpr ⟨_, hplace, hm⟩⟩

theorem exists_scan_of_visit (h : (s.visit paths).result = .ok found) (hp : path ∈ paths) :
    ∃ finding, s.scan path = .ok finding ∧ ∀ m ∈ finding.found, m ∈ found := by
  induction paths generalizing found with
  | nil => cases hp
  | cons first rest ih =>
    obtain ⟨finding, others, hscan, hrest, rfl⟩ := visit_cons_eq_ok.mp h
    rcases List.mem_cons.mp hp with rfl | hp
    · exact ⟨finding, hscan, fun m hm => List.mem_append_left _ hm⟩
    · obtain ⟨finding, hscan, hfound⟩ := ih hrest hp
      exact ⟨finding, hscan, fun m hm => List.mem_append_right _ (hfound m hm)⟩

/-- A survey that succeeds has found all mutants of each of its files. -/
theorem exists_found_of_run (h : (s.run paths).result = .ok found) (hp : path ∈ paths)
    (hread : s.reader path = .ok text) (hparse : s.parser (.ofPath path) text = .ok root) :
    ∃ here, s.mutantsOf path text root = .ok here ∧ ∀ m ∈ here, m ∈ found := by
  rw [run_eq_ok h] at h
  obtain ⟨finding, hscan, hfound⟩ := exists_scan_of_visit h hp
  simp only [scan, hread, hparse, map_eq_ok] at hscan
  obtain ⟨here, hhere, rfl⟩ := hscan
  exact ⟨here, hhere, hfound⟩

-- ---------------------------------------------------------------------------
-- Files
-- ---------------------------------------------------------------------------

theorem changes_of_mem_mutantsOf (hs : s.registry = .standard) (hroot : Spelled text root)
    (h : s.mutantsOf path text root = .ok found) (hm : m ∈ found) :
    m.file = path ∧ m.Fits text ∧ (m.operator ≠ "remove_conditional" → m.Changes) := by
  obtain ⟨site, o, hplace, happlies, here, hhere, hm⟩ := mem_mutantsOf h hm
  obtain ⟨hsite, ho⟩ := mem_places.mp hplace
  rw [hs] at ho
  obtain ⟨target, -, replacement, hof⟩ := (sound_of_mem_standard ho).replaces hhere m hm
  obtain ⟨hfile, hname, -, -, -, hfits⟩ := Mutant.fits_of_ofSite? hof
  have hspelled := hroot.of_mem (Node.node_mem_of_sitesOfKind hsite)
  refine ⟨hfile, hfits, fun hother => ?_⟩
  rw [hname] at hother
  exact changes_of_mem_standard ho hother hspelled happlies hhere hm

theorem forceCondition_mem_standard : forceCondition ∈ Registry.standard.operators := by
  simp [Registry.standard]

theorem eq_forceCondition_of_name {o : Operator} (ho : o ∈ Registry.standard.operators)
    (hname : o.name = "remove_conditional") : o = forceCondition := by
  simp only [Registry.standard, List.mem_cons, List.not_mem_nil, or_false] at ho
  rcases ho with rfl | rfl | rfl | rfl | rfl | rfl | rfl | rfl | rfl | rfl
  all_goals first | rfl | exact absurd hname (by decide)

theorem idle_mutantsOf_iff (hs : s.registry = .standard) (hroot : Spelled text root)
    (h : s.mutantsOf path text root = .ok found) : (∃ m ∈ found, ¬m.Changes) ↔
      ∃ site ∈ root.sitesOfKind conditionals, ∃ value ∈ forcedValues site,
        IsCondition text site value := by
  constructor
  · rintro ⟨m, hm, hsame⟩
    obtain ⟨site, o, hplace, happlies, here, hhere, hm⟩ := mem_mutantsOf h hm
    obtain ⟨hsite, ho⟩ := mem_places.mp hplace
    rw [hs] at ho
    have hspelled := hroot.of_mem (Node.node_mem_of_sitesOfKind hsite)
    by_cases hname : o.name = "remove_conditional"
    · obtain rfl := eq_forceCondition_of_name ho hname
      obtain ⟨hmem, hnamed, -⟩ := Node.mem_sitesOfKind.mp hsite
      refine ⟨site, Node.mem_sitesOfKind.mpr ⟨hmem, hnamed, ?_⟩, (idle_iff hhere).mp ⟨m, hm, hsame⟩⟩
      exact sound_forceCondition.kinds happlies
    · exact absurd (changes_of_mem_standard ho hname hspelled happlies hhere hm) hsame
  · rintro ⟨site, hsite, value, hvalue, hcondition⟩
    obtain ⟨condition, hc, -⟩ := id hcondition
    obtain ⟨-, -, hkind⟩ := Node.mem_sitesOfKind.mp hsite
    have happlies : forceCondition.applies site = true := by
      simp [forceCondition, hc, hkind]
    have ho : forceCondition ∈ s.registry.operators := hs ▸ forceCondition_mem_standard
    obtain ⟨here, hhere, hfound⟩ := exists_made h ho hsite happlies
    obtain ⟨m, hm, hsame⟩ := (idle_iff hhere).mpr ⟨value, hvalue, hcondition⟩
    exact ⟨m, hfound m hm, hsame⟩

/-- Every mutant of a survey by the standard operators can be put into its file, and changes the
text unless it forces a condition. A file has a mutant that changes nothing just when a condition in
it is the literal that it is forced to be. -/
theorem changes_iff (hs : s.registry = .standard)
    (hp : ∀ dialect text root, s.parser dialect text = .ok root → Spelled text root)
    (h : (s.run paths).result = .ok found) :
    (∀ m ∈ found, ∃ text mutated, s.reader m.file = .ok text ∧ m.inject? text = some mutated ∧
      (mutated = text ↔ ¬m.Changes) ∧ (m.operator ≠ "remove_conditional" → m.Changes)) ∧
    ∀ path ∈ paths, ∀ text root, s.reader path = .ok text →
      s.parser (.ofPath path) text = .ok root →
        ((∃ m ∈ found, m.file = path ∧ ¬m.Changes) ↔
          ∃ site ∈ root.sitesOfKind conditionals, ∃ value ∈ forcedValues site,
            IsCondition text site value) := by
  constructor
  · intro m hm
    obtain ⟨path, -, text, root, here, hread, hparse, hhere, hm⟩ := exists_file_of_mem_run h hm
    obtain ⟨rfl, hfits, hchanges⟩ := changes_of_mem_mutantsOf hs (hp _ _ _ hparse) hhere hm
    obtain ⟨mutated, hinject, -⟩ := hfits.restores
    have hself := hfits.inject?_eq_self_iff
    rw [hinject, Option.some_inj] at hself
    exact ⟨text, mutated, hread, hinject, hself, hchanges⟩
  · intro path hpath text root hread hparse
    have hroot := hp _ _ _ hparse
    constructor
    · rintro ⟨m, hm, hfile, hsame⟩
      obtain ⟨other, -, text', root', here, hread', hparse', hhere, hm⟩ :=
        exists_file_of_mem_run h hm
      obtain ⟨rfl, -⟩ := changes_of_mem_mutantsOf hs (hp _ _ _ hparse') hhere hm
      subst hfile
      obtain rfl : text = text' := Except.ok.inj (hread.symm.trans hread')
      obtain rfl : root = root' := Except.ok.inj (hparse.symm.trans hparse')
      exact (idle_mutantsOf_iff hs hroot hhere).mp ⟨m, hm, hsame⟩
    · intro hidle
      obtain ⟨here, hhere, hfound⟩ := exists_found_of_run h hpath hread hparse
      obtain ⟨m, hm, hsame⟩ := (idle_mutantsOf_iff hs hroot hhere).mpr hidle
      obtain ⟨hfile, -⟩ := changes_of_mem_mutantsOf hs hroot hhere hm
      exact ⟨m, hfound m hm, hfile, hsame⟩

/-- A survey of a file that holds `while(false)x;`. -/
def idleLoop : Survey where
  registry := .standard
  reader _ := .ok "while(false)x;"
  parser _ text :=
    if text = "while(false)x;" then
      .ok (.mk ⟨"program", true, false, false, false, 0, 14, none⟩ [
        .mk ⟨"while_statement", true, false, false, false, 0, 14, none⟩ [
          .mk ⟨"while", false, false, false, false, 0, 5, none⟩ [],
          .mk ⟨"parenthesized_expression", true, false, false, false, 5, 12, some "condition"⟩ [
            .mk ⟨"(", false, false, false, false, 5, 6, none⟩ [],
            .mk ⟨"false", true, false, false, false, 6, 11, none⟩ [],
            .mk ⟨")", false, false, false, false, 11, 12, none⟩ []],
          .mk ⟨"expression_statement", true, false, false, false, 12, 14, some "body"⟩ [
            .mk ⟨"identifier", true, false, false, false, 12, 13, none⟩ [],
            .mk ⟨";", false, false, false, false, 13, 14, none⟩ []]]])
    else .error ⟨1, .unclear⟩

theorem spelled_idleLoop (dialect : Dialect) (text : String) (root : Node)
    (h : idleLoop.parser dialect text = .ok root) : Spelled text root ∧ root.Clean := by
  simp only [idleLoop] at h
  split at h
  · rename_i htext
    cases h
    cases htext
    decide +kernel
  · cases h

def idle : Mutant := ⟨"a.js", ⟨⟨0, 6⟩, ⟨0, 11⟩⟩, 6, 11, "remove_conditional", "false", "false"⟩

def flipped : Mutant := ⟨"a.js", ⟨⟨0, 6⟩, ⟨0, 11⟩⟩, 6, 11, "bool_flip", "false", "true"⟩

theorem run_idleLoop : (idleLoop.run ["a.js"]).result = .ok [idle, flipped] := by
  simp only [run, visit, scan, mutantsOf, Registry.sitesOfKind_kinds]
  rfl

theorem changes_iff_idleLoop :
    idleLoop.registry = .standard ∧
      (∀ dialect text root, idleLoop.parser dialect text = .ok root → Spelled text root) ∧
      (idleLoop.run ["a.js"]).result = .ok [idle, flipped] ∧ ¬idle.Changes ∧ flipped.Changes := by
  have hspelled : ∀ dialect text root, idleLoop.parser dialect text = .ok root →
      Spelled text root := fun dialect text root h => (spelled_idleLoop dialect text root h).1
  obtain ⟨hfound, -⟩ := changes_iff rfl hspelled run_idleLoop
  obtain ⟨text, mutated, hread, hinject, hsame, -⟩ := hfound idle (by simp)
  obtain ⟨-, -, -, -, -, hchanges⟩ := hfound flipped (by simp)
  have hwhole : idle.inject? "while(false)x;" = some "while(false)x;" := by decide +kernel
  cases hread
  obtain rfl := Option.some.inj (hinject.symm.trans hwhole)
  exact ⟨rfl, hspelled, run_idleLoop, hsame.mp rfl, hchanges (by decide)⟩

theorem not_changes : ¬∀ (s : Survey) (paths : List String) (found : List Mutant),
    s.registry = .standard →
    (∀ dialect text root, s.parser dialect text = .ok root → Spelled text root ∧ root.Clean) →
    (s.run paths).result = .ok found → ∀ m ∈ found, m.replacement ≠ m.removed ∧
      ∀ text, s.reader m.file = .ok text → m.inject? text ≠ some text := by
  intro h
  obtain ⟨hchanges, -⟩ := h idleLoop ["a.js"] _ rfl spelled_idleLoop run_idleLoop idle (by simp)
  exact hchanges rfl

end Mutagen.Survey
