import Mutagen.Proofs.Survey.Gather

/-!
# Surveys file by file

A survey takes its files in order and ends at the first one in trouble. So the survey of two lists
is the survey of the first followed, unless that fails, by the survey of the second
(`visit_append`). With that, all that a survey gives back, logs and reads comes from what it does
on single files (`run_inOrder`).
-/

namespace Mutagen

-- ---------------------------------------------------------------------------
-- Reports in sequence
-- ---------------------------------------------------------------------------

namespace Report

def andThen (first second : Report) : Report :=
  match first.result with
  | .error _ => first
  | .ok found =>
    { result := second.result.map (found ++ ·)
      log := first.log ++ second.log
      reads := first.reads ++ second.reads }

theorem blank_andThen (r : Report) : blank.andThen r = r := by
  obtain ⟨result, log, reads⟩ := r
  cases result <;> rfl

theorem reading_andThen (path : String) (first second : Report) :
    (first.reading path).andThen second = (first.andThen second).reading path := by
  obtain ⟨result, log, reads⟩ := first
  cases result <;> rfl

theorem follow_andThen (finding : Finding) (first second : Report) :
    (first.follow finding).andThen second = (first.andThen second).follow finding := by
  obtain ⟨result, log, reads⟩ := first
  obtain ⟨result', log', reads'⟩ := second
  cases result with
  | error e => rfl
  | ok found => cases result' <;> simp [andThen, follow, Except.map]

end Report

namespace Survey

variable {s : Survey} {paths : List String} {path : String} {e : SurveyError}

theorem visit_append (s : Survey) (first second : List String) :
    s.visit (first ++ second) = (s.visit first).andThen (s.visit second) := by
  induction first with
  | nil => exact (Report.blank_andThen _).symm
  | cons path rest ih =>
    rw [List.cons_append, visit, visit]
    cases s.scan path with
    | error e => rfl
    | ok finding => simp only [ih, Report.reading_andThen, Report.follow_andThen]

-- ---------------------------------------------------------------------------
-- Single files
-- ---------------------------------------------------------------------------

/-- What keeps a survey from getting through a file: it cannot be read or parsed, or an operator
fails at some place in it, after all have worked at the places before. -/
inductive Trouble (s : Survey) (path : String) : SurveyError → Prop
  | unreadable {message : String} {named : Option String}
      (hread : s.reader path = .error (.other message named)) :
      Trouble s path (.unreadable (named.getD path) message)
  | unparsable {text : String} {cause : SyntaxError} (hread : s.reader path = .ok text)
      (hparse : s.parser (.ofPath path) text = .error cause) :
      Trouble s path (.unparsable path cause)
  | failed {text : String} {root : Node} {before after : List (Site × Operator)} {site : Site}
      {o : Operator} {cause : OperatorError} (hread : s.reader path = .ok text)
      (hparse : s.parser (.ofPath path) text = .ok root)
      (hplaces : s.places root = before ++ (site, o) :: after)
      (hbefore : ∀ place ∈ before, place.2.Works path text place.1)
      (happlies : o.applies site = true) (hfails : o.mutants path text site = .error cause) :
      Trouble s path (.failed path o.name cause)

def Troubled (s : Survey) (path : String) : Prop := ∃ e, s.Trouble path e

theorem mutantsOf_eq_error_iff {text : String} {root : Node} :
    s.mutantsOf path text root = .error e ↔
      ∃ before site o after cause, s.places root = before ++ (site, o) :: after ∧
        (∀ place ∈ before, place.2.Works path text place.1) ∧ o.applies site = true ∧
        o.mutants path text site = .error cause ∧ e = .failed path o.name cause := by
  simp only [mutantsOf_eq_gather, gather_eq_error_iff, exists_consult_ok, consult_eq_error_iff]
  constructor
  · rintro ⟨before, ⟨site, o⟩, after, hplaces, hbefore, happlies, cause, hfails, he⟩
    exact ⟨before, site, o, after, cause, hplaces, hbefore, happlies, hfails, he⟩
  · rintro ⟨before, site, o, after, cause, hplaces, hbefore, happlies, hfails, he⟩
    exact ⟨before, (site, o), after, hplaces, hbefore, happlies, cause, hfails, he⟩

theorem scan_eq_error_iff : s.scan path = .error e ↔ s.Trouble path e := by
  constructor
  · intro h
    unfold scan at h
    split at h
    · cases h
    · rename_i hread
      cases h
      exact .unreadable hread
    · rename_i text hread
      split at h
      · rename_i hparse
        cases h
        exact .unparsable hread hparse
      · rename_i root hparse
        obtain ⟨before, site, o, after, cause, hplaces, hbefore, happlies, hfails, rfl⟩ :=
          mutantsOf_eq_error_iff.mp (map_eq_error.mp h)
        exact .failed hread hparse hplaces hbefore happlies hfails
  · intro h
    cases h with
    | unreadable hread => simp [scan, hread]
    | unparsable hread hparse => simp [scan, hread, hparse]
    | failed hread hparse hplaces hbefore happlies hfails =>
      have hfound := mutantsOf_eq_error_iff.mpr
        ⟨_, _, _, _, _, hplaces, hbefore, happlies, hfails, rfl⟩
      simp [scan, hread, hparse, hfound, Except.map]

theorem scan_ok_cases {finding : Finding} (h : s.scan path = .ok finding) :
    (∃ named, s.reader path = .error (.missing named) ∧ finding = .missing (named.getD path)) ∨
      ∃ text root found, s.reader path = .ok text ∧ s.parser (.ofPath path) text = .ok root ∧
        s.mutantsOf path text root = .ok found ∧ finding = .mutants found := by
  unfold scan at h
  split at h
  · rename_i named hread
    cases h
    exact .inl ⟨named, hread, rfl⟩
  · cases h
  · rename_i text hread
    split at h
    · cases h
    · rename_i root hparse
      obtain ⟨found, hfound, rfl⟩ := map_eq_ok.mp h
      exact .inr ⟨text, root, found, hread, hparse, hfound, rfl⟩

theorem not_troubled_iff : ¬s.Troubled path ↔ ∃ finding, s.scan path = .ok finding := by
  simp only [Troubled, ← scan_eq_error_iff]
  cases s.scan path <;> simp

def skipNotice? (s : Survey) (path : String) : Option Notice :=
  match s.reader path with
  | .error (.missing named) =>
    some ⟨.info, s!"Skipping file {named.getD path} because it does not exist"⟩
  | _ => none

theorem notices_of_scan {finding : Finding} (h : s.scan path = .ok finding) :
    finding.notices = (s.skipNotice? path).toList := by
  unfold skipNotice?
  rcases scan_ok_cases h with ⟨named, hread, rfl⟩ | ⟨text, root, found, hread, -, -, rfl⟩
  · rw [hread]
    rfl
  · rw [hread]
    rfl

theorem visit_singleton_of_trouble (h : s.Trouble path e) : s.visit [path] = ⟨.error e, [], [path]⟩ := by
  simp [visit, scan_eq_error_iff.mpr h, Report.fail, Report.reading]

theorem visit_singleton_of_ok {finding : Finding} (h : s.scan path = .ok finding) :
    s.visit [path] = ⟨.ok finding.found, (s.skipNotice? path).toList, [path]⟩ := by
  simp [visit, h, Report.blank, Report.follow, Report.reading, Except.map, notices_of_scan h]

-- ---------------------------------------------------------------------------
-- Lists of files
-- ---------------------------------------------------------------------------

theorem visit_cons_eq_ok {rest : List String} {found : List Mutant} :
    (s.visit (path :: rest)).result = .ok found ↔ ∃ finding others, s.scan path = .ok finding ∧
      (s.visit rest).result = .ok others ∧ finding.found ++ others = found := by
  rw [visit]
  cases s.scan path with
  | error e => simp [Report.reading, Report.fail]
  | ok finding => simp [Report.reading, Report.follow, map_eq_ok]

theorem visit_cons_eq_error {rest : List String} :
    (s.visit (path :: rest)).result = .error e ↔ s.scan path = .error e ∨
      (∃ finding, s.scan path = .ok finding) ∧ (s.visit rest).result = .error e := by
  rw [visit]
  cases s.scan path with
  | error e' => simp [Report.reading, Report.fail]
  | ok finding => simp [Report.reading, Report.follow, map_eq_error]

theorem visit_of_untroubled (h : ∀ path ∈ paths, ¬s.Troubled path) :
    ∃ founds : List (List Mutant), paths.map (fun path => (s.visit [path]).result) = founds.map .ok ∧
      s.visit paths = ⟨.ok founds.flatten, paths.filterMap s.skipNotice?, paths⟩ := by
  induction paths with
  | nil => exact ⟨[], rfl, rfl⟩
  | cons path rest ih =>
    -- The survey is split behind the first file.
    obtain ⟨finding, hscan⟩ := not_troubled_iff.mp (h path List.mem_cons_self)
    obtain ⟨founds, halone, hrest⟩ := ih fun other ho => h other (List.mem_cons_of_mem _ ho)
    have hfirst := visit_singleton_of_ok hscan
    refine ⟨finding.found :: founds, ?_, ?_⟩
    · simp only [List.map_cons, halone, hfirst]
    · have hsplit := visit_append s [path] rest
      rw [List.singleton_append] at hsplit
      rw [hsplit, hfirst, hrest]
      cases hnotice : s.skipNotice? path <;> simp [Report.andThen, Except.map, hnotice]

theorem untroubled_of_visit {found : List Mutant} (h : (s.visit paths).result = .ok found) :
    ∀ path ∈ paths, ¬s.Troubled path := by
  induction paths generalizing found with
  | nil => simp
  | cons path rest ih =>
    obtain ⟨finding, others, hscan, hrest, -⟩ := visit_cons_eq_ok.mp h
    exact List.forall_mem_cons.mpr ⟨not_troubled_iff.mpr ⟨finding, hscan⟩, ih hrest⟩

theorem visit_of_trouble {before after : List String} (hbefore : ∀ other ∈ before, ¬s.Troubled other)
    (h : s.Trouble path e) : s.visit (before ++ path :: after) =
      ⟨.error e, before.filterMap s.skipNotice?, before ++ [path]⟩ := by
  obtain ⟨founds, -, hfirst⟩ := visit_of_untroubled hbefore
  have hlast := visit_append s [path] after
  rw [List.singleton_append, visit_singleton_of_trouble h] at hlast
  rw [visit_append, hfirst, hlast]
  simp [Report.andThen, Except.map]

theorem result_visit_insert {named : Option String} (h : s.reader path = .error (.missing named))
    (first second : List String) :
    (s.visit (first ++ path :: second)).result = (s.visit (first ++ second)).result := by
  have hscan : s.scan path = .ok (.missing (named.getD path)) := by simp [scan, h]
  have hrest : (s.visit (path :: second)).result = (s.visit second).result := by
    cases hsecond : (s.visit second).result <;>
      simp [visit, hscan, Report.reading, Report.follow, Finding.found, hsecond, Except.map]
  rw [visit_append, visit_append]
  cases hfirst : (s.visit first).result <;> simp [Report.andThen, hfirst, hrest]

-- ---------------------------------------------------------------------------
-- Surveys
-- ---------------------------------------------------------------------------

theorem findIdx?_of_nonempty (h : "" ∉ paths) : paths.findIdx? (· == "") = none := by
  rw [List.findIdx?_eq_none_iff]
  intro path hp
  simpa using fun he : path = "" => h (he ▸ hp)

theorem exists_checked (h : "" ∈ paths) :
    ∃ index, ∀ report, checked paths report = .fail (.emptyPath index) := by
  cases hindex : paths.findIdx? (· == "") with
  | none =>
    rw [List.findIdx?_eq_none_iff] at hindex
    exact absurd (hindex "" h) (by decide)
  | some index => exact ⟨index, fun report => by rw [checked, hindex]⟩

theorem run_eq_visit (h : "" ∉ paths) : s.run paths = s.visit paths := by
  rw [run, checked, findIdx?_of_nonempty h]

theorem run_of_empty {before : List String} (h : "" ∉ before) (after : List String) :
    s.run (before ++ "" :: after) = ⟨.error (.emptyPath before.length), [], []⟩ := by
  have hindex : (before ++ "" :: after).findIdx? (· == "") = some before.length := by
    simp [List.findIdx?_append, findIdx?_of_nonempty h, List.findIdx?_cons]
  rw [run, checked, hindex]
  rfl

/-- What a survey of a list of files comes to. An empty path is refused before anything else. A
survey of other paths ends with the first file in trouble, and with all that the files give one by
one if there is none. It can be split anywhere, and its result does not depend on missing files. -/
theorem run_inOrder (s : Survey) (paths : List String) :
    (∀ before after, paths = before ++ "" :: after → "" ∉ before →
      s.run paths = ⟨.error (.emptyPath before.length), [], []⟩) ∧
    ("" ∉ paths →
      (∀ before path after e, paths = before ++ path :: after →
        (∀ other ∈ before, ¬s.Troubled other) → s.Trouble path e →
        s.run paths = ⟨.error e, before.filterMap s.skipNotice?, before ++ [path]⟩) ∧
      ((∀ path ∈ paths, ¬s.Troubled path) →
        ∃ founds : List (List Mutant),
          paths.map (fun path => (s.run [path]).result) = founds.map .ok ∧
          s.run paths = ⟨.ok founds.flatten, paths.filterMap s.skipNotice?, paths⟩) ∧
      (∀ first second, paths = first ++ second →
        s.run paths = (s.run first).andThen (s.run second)) ∧
      ∀ first second path named, paths = first ++ second → path ≠ "" →
        s.reader path = .error (.missing named) →
        (s.run (first ++ path :: second)).result = (s.run paths).result) := by
  refine ⟨?_, fun hne => ⟨?_, ?_, ?_, ?_⟩⟩
  · rintro before after rfl hbefore
    exact run_of_empty hbefore after
  · rintro before path after e rfl hbefore he
    rw [run_eq_visit hne, visit_of_trouble hbefore he]
  · intro hnone
    obtain ⟨founds, halone, hall⟩ := visit_of_untroubled hnone
    refine ⟨founds, ?_, by rw [run_eq_visit hne, hall]⟩
    rw [← halone]
    refine List.map_congr_left fun path hp => ?_
    have hsingle : "" ∉ [path] := by simpa using fun he : "" = path => hne (he ▸ hp)
    rw [run_eq_visit hsingle]
  · rintro first second rfl
    obtain ⟨hfirst, hsecond⟩ : "" ∉ first ∧ "" ∉ second := by simpa using hne
    rw [run_eq_visit hne, run_eq_visit hfirst, run_eq_visit hsecond, visit_append]
  · rintro first second path named rfl hp hread
    have hinserted : "" ∉ first ++ path :: second := by simpa [hp.symm] using hne
    rw [run_eq_visit hinserted, run_eq_visit hne, result_visit_insert hread]

/-- A survey of files that hold `true`, but for one that is missing and one that cannot be read. -/
def threeFates : Survey where
  registry := ⟨[.flipBoolean]⟩
  reader path :=
    if path = "gone.js" then .error .missing
    else if path = "closed.js" then .error (.other "denied")
    else .ok "true"
  parser _ _ :=
    .ok (.mk ⟨"program", true, false, false, false, 0, 4, none⟩ [
      .mk ⟨"expression_statement", true, false, false, false, 0, 4, none⟩ [
        .mk ⟨"true", true, false, false, false, 0, 4, none⟩ []]])

theorem run_inOrder_threeFates :
    let skipped : Notice := ⟨.info, "Skipping file gone.js because it does not exist"⟩
    "" ∉ ["on.js", "gone.js", "closed.js", "late.js"] ∧
      threeFates.Trouble "closed.js" (.unreadable "closed.js" "denied") ∧
      threeFates.run ["on.js", "gone.js", "closed.js", "late.js"] =
        ⟨.error (.unreadable "closed.js" "denied"), [skipped], ["on.js", "gone.js", "closed.js"]⟩ ∧
      (threeFates.run ["on.js", "gone.js"]).result = (threeFates.run ["on.js"]).result ∧
      threeFates.run ["on.js", "", ""] = ⟨.error (.emptyPath 1), [], []⟩ := by
  intro skipped
  have hne : "" ∉ ["on.js", "gone.js", "closed.js", "late.js"] := by decide
  have htrouble : threeFates.Trouble "closed.js" (.unreadable "closed.js" "denied") :=
    show threeFates.Trouble "closed.js" (.unreadable ((none : Option String).getD "closed.js") _)
    from .unreadable rfl
  have hon : threeFates.scan "on.js" =
      .ok (.mutants [⟨"on.js", ⟨⟨0, 0⟩, ⟨0, 4⟩⟩, 0, 4, "bool_flip", "true", "false"⟩]) := by
    simp only [scan, mutantsOf, Registry.sitesOfKind_kinds]
    rfl
  have hbefore : ∀ other ∈ ["on.js", "gone.js"], ¬threeFates.Troubled other := by
    intro other ho
    rcases (by simpa using ho : other = "on.js" ∨ other = "gone.js") with rfl | rfl
    · exact not_troubled_iff.mpr ⟨_, hon⟩
    · exact not_troubled_iff.mpr ⟨.missing "gone.js", rfl⟩
  obtain ⟨-, hrun⟩ := run_inOrder threeFates ["on.js", "gone.js", "closed.js", "late.js"]
  obtain ⟨-, hmissing⟩ := run_inOrder threeFates ["on.js"]
  obtain ⟨hempty, -⟩ := run_inOrder threeFates ["on.js", "", ""]
  refine ⟨hne, htrouble, ?_, ?_, hempty ["on.js"] [""] rfl (by decide)⟩
  · exact (hrun hne).1 ["on.js", "gone.js"] "closed.js" ["late.js"] _ rfl hbefore htrouble
  · obtain ⟨-, -, -, hinsert⟩ := hmissing (by decide)
    exact hinsert ["on.js"] [] "gone.js" none rfl (by decide) rfl

end Survey

end Mutagen
