import Mathlib.Data.List.Basic
import Mutagen.Proofs.Mutant.Inject
import Mutagen.Proofs.Survey.Gather

/-!
# Surveys by some of the operators

A sound operator says nothing at nodes that it is not about, so what it finds does not depend on
the other operators, although all of them are asked about the same nodes. A survey by some operators
is then the survey by all of them, less what the others find (`run_only`).
-/

namespace Mutagen

-- ---------------------------------------------------------------------------
-- Some of the operators
-- ---------------------------------------------------------------------------

def Registry.only (p : String → Bool) (r : Registry) : Registry :=
  ⟨r.operators.filter fun o => p o.name⟩

def Survey.only (p : String → Bool) (s : Survey) : Survey := { s with registry := s.registry.only p }

@[simp] theorem Survey.reader_only (p : String → Bool) (s : Survey) : (s.only p).reader = s.reader :=
  rfl

@[simp] theorem Survey.parser_only (p : String → Bool) (s : Survey) : (s.only p).parser = s.parser :=
  rfl

def Mutant.only (p : String → Bool) (found : List Mutant) : List Mutant :=
  found.filter fun m => p m.operator

def Finding.only (p : String → Bool) : Finding → Finding
  | .missing path => .missing path
  | .mutants found => .mutants (Mutant.only p found)

def Report.only (p : String → Bool) (r : Report) : Report :=
  { r with result := r.result.map (Mutant.only p) }

theorem Report.only_reading (p : String → Bool) (path : String) (r : Report) :
    (r.reading path).only p = (r.only p).reading path := rfl

theorem Report.only_follow (p : String → Bool) (finding : Finding) (r : Report) :
    (r.follow finding).only p = (r.only p).follow (finding.only p) := by
  obtain ⟨result, log, reads⟩ := r
  cases result with
  | error e => cases finding <;> rfl
  | ok found => cases finding <;> simp [only, follow, Finding.only, Finding.found, Finding.notices,
      Mutant.only, Except.map]

-- ---------------------------------------------------------------------------
-- Selecting
-- ---------------------------------------------------------------------------

theorem Registry.select_eq_error_iff {names : List String} {unknown : String} :
    select names = .error unknown ↔
      ∃ before after, names = before ++ unknown :: after ∧
        (∀ name ∈ before, name ∈ standard.names) ∧ unknown ∉ standard.names := by
  have hfind : select names = .error unknown ↔
      names.find? (fun name => !standard.names.contains name) = some unknown := by
    unfold select
    split <;> simp only [*, Except.error.injEq, Option.some.injEq, reduceCtorEq]
  rw [hfind, List.find?_eq_some_iff_append]
  simp only [Bool.not_eq_true', Bool.not_not, List.contains_eq_mem, decide_eq_true_eq,
    decide_eq_false_iff_not]
  constructor
  · rintro ⟨hu, before, after, he, hbefore⟩
    exact ⟨before, after, he, hbefore, hu⟩
  · rintro ⟨before, after, he, hbefore, hu⟩
    exact ⟨hu, before, after, he, hbefore⟩

theorem Registry.select_eq_ok_iff {names : List String} {r : Registry} :
    select names = .ok r ↔
      (∀ name ∈ names, name ∈ standard.names) ∧ r = standard.only names.contains := by
  unfold select
  split
  · rename_i unknown hfind
    have hnot := List.find?_some hfind
    have hmem := List.mem_of_find?_eq_some hfind
    simp only [reduceCtorEq, false_iff, not_and]
    intro hall
    simp [hall unknown hmem] at hnot
  · rename_i hfind
    have hall : ∀ name ∈ names, name ∈ standard.names := by simpa using hfind
    simp only [Except.ok.injEq]
    exact ⟨fun h => ⟨hall, h.symm⟩, fun h => h.2.symm⟩

namespace Survey

variable {s : Survey} {p : String → Bool} {path text : String} {site : Site} {o : Operator}
  {root : Node} {m : Mutant}

-- ---------------------------------------------------------------------------
-- One operator at one site
-- ---------------------------------------------------------------------------

def said (path text : String) (site : Site) (o : Operator) : List Mutant :=
  (consult path text site o).toOption.getD []

theorem consult_eq_said (ho : o.Sound) (h : site.node.Sliced text) :
    consult path text site o = .ok (said path text site o) := by
  obtain ⟨found, hfound⟩ : ∃ found, consult path text site o = .ok found :=
    exists_consult_ok.mpr (ho.works h)
  rw [said, hfound]
  rfl

theorem said_of_kind (ho : o.Sound) (h : site.kind ∉ o.kinds) : said path text site o = [] := by
  have hnot : ¬o.applies site = true := fun happlies => h (ho.kinds happlies)
  have hnone : consult path text site o = .ok [] := by simp [consult_eq_ok_iff, hnot]
  rw [said, hnone]
  rfl

theorem operator_of_mem_said (ho : o.Sound) (hm : m ∈ said path text site o) :
    m.operator = o.name := by
  cases hc : consult path text site o with
  | error e =>
    rw [said, hc] at hm
    cases hm
  | ok found =>
    rw [said, hc] at hm
    rw [consult_eq_ok_iff] at hc
    split at hc
    · obtain ⟨target, -, replacement, hmade⟩ := ho.replaces hc m hm
      exact (Mutant.fits_of_ofSite? hmade).2.1
    · rw [hc] at hm
      cases hm

theorem only_said (ho : o.Sound) (p : String → Bool) :
    Mutant.only p (said path text site o) = if p o.name = true then said path text site o else [] := by
  split
  · rename_i hp
    refine List.filter_eq_self.mpr fun m hm => ?_
    rw [operator_of_mem_said ho hm, hp]
  · rename_i hp
    refine List.filter_eq_nil_iff.mpr fun m hm => ?_
    rw [operator_of_mem_said ho hm]
    exact hp

-- ---------------------------------------------------------------------------
-- All operators at all sites
-- ---------------------------------------------------------------------------

theorem flatMap_filter {α β : Type} (p : α → Bool) (g : α → List β) (as : List α) :
    (as.filter p).flatMap g = as.flatMap fun a => if p a = true then g a else [] := by
  induction as with
  | nil => rfl
  | cons a rest ih =>
    rw [List.filter_cons, List.flatMap_cons, ← ih]
    split <;> rfl

/-- What sound operators find in a file, with no mention of the kinds they are about. -/
theorem mutantsOf_of_sound (hs : ∀ o ∈ s.registry.operators, o.Sound) (h : root.Sliced text) :
    s.mutantsOf path text root = .ok ((Site.sites [] root).flatMap fun site =>
      if site.node.isNamed = true then s.registry.operators.flatMap (said path text site) else []) := by
  have hsite : ∀ site ∈ root.sitesOfKind s.registry.kinds,
      gather (consult path text site) s.registry.operators =
        .ok (s.registry.operators.flatMap (said path text site)) := fun site hsite =>
    gather_of_ok fun o ho =>
      consult_eq_said (hs o ho) (h.of_mem (Node.node_mem_of_sitesOfKind hsite))
  rw [mutantsOf, gather_of_ok hsite, Registry.sitesOfKind_kinds, flatMap_filter]
  refine congrArg _ (List.flatMap_congr fun site _ => ?_)
  -- The sites that the filter on kinds leaves out are those where no operator has anything to say.
  by_cases hn : site.node.isNamed = true
  · by_cases hany : s.registry.operators.any (·.kinds.contains site.kind) = true
    · rw [hn, hany]
      rfl
    · have hnone : s.registry.operators.flatMap (said path text site) = [] := by
        refine List.flatMap_eq_nil_iff.mpr fun o ho => said_of_kind (hs o ho) fun hk => hany ?_
        exact List.any_eq_true.mpr ⟨o, ho, List.contains_iff_mem.mpr hk⟩
      simp [hn, hnone]
  · simp [hn]

theorem mutantsOf_only (hs : ∀ o ∈ s.registry.operators, o.Sound) (h : root.Sliced text) :
    (s.only p).mutantsOf path text root = (s.mutantsOf path text root).map (Mutant.only p) := by
  have hless : ∀ o ∈ (s.only p).registry.operators, o.Sound := fun o ho =>
    hs o (List.mem_filter.mp ho).1
  rw [mutantsOf_of_sound hs h, mutantsOf_of_sound hless h]
  refine congrArg Except.ok ?_
  rw [Mutant.only, List.filter_flatMap]
  refine List.flatMap_congr fun site _ => ?_
  split
  · show ((s.registry.operators.filter _).flatMap _) = _
    rw [flatMap_filter, List.filter_flatMap]
    exact List.flatMap_congr fun o ho => (only_said (hs o ho) p).symm
  · rfl

-- ---------------------------------------------------------------------------
-- Files and lists of files
-- ---------------------------------------------------------------------------

variable (hs : ∀ o ∈ s.registry.operators, o.Sound)
  (hp : ∀ dialect text root, s.parser dialect text = .ok root → root.Sliced text)

include hs hp

theorem scan_only (path : String) : (s.only p).scan path = (s.scan path).map (Finding.only p) := by
  simp only [scan, reader_only, parser_only]
  cases s.reader path with
  | error failure => cases failure <;> rfl
  | ok text =>
    cases hparse : s.parser (.ofPath path) text with
    | error cause => simp only [hparse, Except.map]
    | ok root =>
      simp only [hparse, mutantsOf_only hs (hp _ _ _ hparse)]
      cases s.mutantsOf path text root <;> rfl

theorem visit_only (paths : List String) : (s.only p).visit paths = (s.visit paths).only p := by
  induction paths with
  | nil => rfl
  | cons path rest ih =>
    rw [visit, visit, scan_only hs hp, ih]
    cases s.scan path with
    | error e => rfl
    | ok finding => simp only [Except.map, Report.only_reading, Report.only_follow]

theorem run_only (paths : List String) : (s.only p).run paths = (s.run paths).only p := by
  unfold run checked
  rw [visit_only hs hp]
  split <;> rfl

omit hs hp

/-- Selecting fails if some name is not standard, and reports the first one. Otherwise the survey
by the selected operators fails, logs and reads like the one by all standard operators, and gives
those of its mutants that the selected operators find, in the same order and number. -/
theorem run_select (names : List String) :
    ((∃ unknown, Registry.select names = .error unknown) ↔
      ∃ name ∈ names, name ∉ Registry.standard.names) ∧
    (∀ unknown, Registry.select names = .error unknown ↔
      ∃ before after, names = before ++ unknown :: after ∧
        (∀ name ∈ before, name ∈ Registry.standard.names) ∧ unknown ∉ Registry.standard.names) ∧
    ∀ registry, Registry.select names = .ok registry →
      ∀ reader parser, (∀ dialect text root, parser dialect text = .ok root → root.Sliced text) →
        ∀ paths,
          let whole := (Survey.mk .standard reader parser).run paths
          let part := (Survey.mk registry reader parser).run paths
          part.log = whole.log ∧ part.reads = whole.reads ∧
            part.result = whole.result.map fun found =>
              found.filter fun m => names.contains m.operator := by
  refine ⟨?_, fun unknown => Registry.select_eq_error_iff, ?_⟩
  · constructor
    · rintro ⟨unknown, hselect⟩
      obtain ⟨before, after, rfl, -, hunknown⟩ := Registry.select_eq_error_iff.mp hselect
      exact ⟨unknown, by simp, hunknown⟩
    · rintro ⟨name, hname, hnot⟩
      cases hselect : Registry.select names with
      | error unknown => exact ⟨unknown, rfl⟩
      | ok registry => exact absurd ((Registry.select_eq_ok_iff.mp hselect).1 name hname) hnot
  · intro registry hselect reader parser hp paths whole part
    obtain ⟨-, rfl⟩ := Registry.select_eq_ok_iff.mp hselect
    have hs : ∀ o ∈ Registry.standard.operators, o.Sound := fun o =>
      Operator.sound_of_mem_standard
    have hpart : part = whole.only names.contains :=
      run_only (s := ⟨.standard, reader, parser⟩) hs hp paths
    rw [hpart]
    exact ⟨rfl, rfl, rfl⟩

def loneReader : Reader := fun path =>
  if path = "a.js" then .ok "true+1;" else .error .missing

def sumParser : Parser := fun _ text =>
  if text = "true+1;" then
    .ok (.mk ⟨"program", true, false, false, false, 0, 7, none⟩ [
      .mk ⟨"expression_statement", true, false, false, false, 0, 7, none⟩ [
        .mk ⟨"binary_expression", true, false, false, false, 0, 6, none⟩ [
          .mk ⟨"true", true, false, false, false, 0, 4, some "left"⟩ [],
          .mk ⟨"+", false, false, false, false, 4, 5, some "operator"⟩ [],
          .mk ⟨"number", true, false, false, false, 5, 6, some "right"⟩ []],
        .mk ⟨";", false, false, false, false, 6, 7, none⟩ []]])
  else .error ⟨1, .unclear⟩

theorem run_select_twoOfThree :
    let swap : Mutant := ⟨"a.js", ⟨⟨0, 4⟩, ⟨0, 5⟩⟩, 4, 5, "arithmetic", "+", "-"⟩
    let flip : Mutant := ⟨"a.js", ⟨⟨0, 0⟩, ⟨0, 4⟩⟩, 0, 4, "bool_flip", "true", "false"⟩
    let negation : Mutant := ⟨"a.js", ⟨⟨0, 5⟩, ⟨0, 6⟩⟩, 5, 6, "numeric_negation", "1", "(-1)"⟩
    ((Survey.mk .standard loneReader sumParser).run ["gone.js", "a.js"]).result =
        .ok [swap, flip, negation] ∧
      (∀ dialect text root, sumParser dialect text = .ok root → root.Sliced text) ∧
      (∃ registry, Registry.select ["bool_flip", "arithmetic", "bool_flip"] = .ok registry ∧
        ((Survey.mk registry loneReader sumParser).run ["gone.js", "a.js"]).result =
          .ok [swap, flip]) ∧
      Registry.select ["update", "nothing", "nobody"] = .error "nothing" := by
  intro swap flip negation
  have hwhole : ((Survey.mk .standard loneReader sumParser).run ["gone.js", "a.js"]).result =
      .ok [swap, flip, negation] := by
    simp only [run, visit, scan, mutantsOf, Registry.sitesOfKind_kinds]
    rfl
  have hp : ∀ dialect text root, sumParser dialect text = .ok root → root.Sliced text := by
    intro dialect text root h
    unfold sumParser at h
    split at h
    · rename_i htext
      cases h
      cases htext
      decide +kernel
    · cases h
  refine ⟨hwhole, hp, ⟨_, rfl, ?_⟩, ?_⟩
  · obtain ⟨-, -, hsome⟩ := run_select ["bool_flip", "arithmetic", "bool_flip"]
    obtain ⟨-, -, hpart⟩ := hsome _ rfl loneReader sumParser hp ["gone.js", "a.js"]
    rw [hpart, hwhole]
    rfl
  · obtain ⟨-, hfirst, -⟩ := run_select ["update", "nothing", "nobody"]
    exact (hfirst "nothing").mpr ⟨["update"], ["nobody"], rfl, by decide, by decide⟩

end Survey

end Mutagen
