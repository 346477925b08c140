import Mutagen.Command.Run
import Mutagen.Proofs.Command.Arguments
import Mutagen.Proofs.Command.FileSystem
import Mutagen.Proofs.Mutant.RoundTrip
import Mutagen.Proofs.Survey.Answers
import Mutagen.Proofs.Survey.Parallel
import Mutagen.Proofs.Survey.Placement
import Mutagen.Proofs.Survey.Selection
import Mutagen.Proofs.Text.Bytes

/-!
# Runs that list mutants

A request that names an unknown operator or an empty path is refused whatever the world is like
(`mutate_of_refused`). Any other request fails if some file is there and cannot be surveyed, and
gives all mutants otherwise (`mutate_of_usable`).
-/

namespace Mutagen

-- ---------------------------------------------------------------------------
-- Mutants with numbers that fit into words
-- ---------------------------------------------------------------------------

theorem Mutant.inWords_of_ofSite? {file operator text replacement : String} {site : Site} {m : Mutant}
    (h : ofSite? file operator text site replacement = some m)
    (hsize : text.utf8ByteSize < Json.wordBound) : m.InWords := by
  obtain ⟨-, -, -, -, -, hfits⟩ := fits_of_ofSite? h
  have hstop := Nat.lt_of_le_of_lt hfits.le_size hsize
  have hstart := Nat.lt_of_le_of_lt hfits.le hstop
  obtain ⟨removed, -, hm⟩ := Option.bind_eq_some_iff.mp h
  cases hm
  exact ⟨Span.inWords_ofOffsets hstart hstop text, hstart, hstop⟩

theorem Survey.inWords_of_mem_run {s : Survey} {paths : List String} {found : List Mutant}
    (hs : ∀ o ∈ s.registry.operators, o.Sound)
    (hsize : ∀ path ∈ paths, ∀ text, s.reader path = .ok text → text.utf8ByteSize < Json.wordBound)
    (h : (s.run paths).result = .ok found) : ∀ m ∈ found, m.InWords := by
  intro m hm
  rw [run_eq_ok h] at h
  obtain ⟨-, horigin⟩ := visit_eq_ok h
  obtain ⟨path, hpath, finding, hscan, hm⟩ := horigin m hm
  obtain ⟨text, root, here, hread, -, hhere, hm⟩ := mem_of_scan hscan hm
  obtain ⟨site, o, hplace, -, answer, hanswer, hm⟩ := mem_mutantsOf hhere hm
  obtain ⟨target, -, replacement, hmade⟩ := (hs o (mem_places.mp hplace).2).replaces hanswer m hm
  exact Mutant.inWords_of_ofSite? hmade (hsize path hpath text hread)

namespace Command

variable {w : World} {options : MutateOptions} {registry : Registry} {names : List String}
  {path : String} {e : SurveyError}

-- ---------------------------------------------------------------------------
-- The three ways to end
-- ---------------------------------------------------------------------------

/-- Neither the tasks nor their schedule show in a report, but for its reads. -/
theorem report_agrees (w : World) (options : MutateOptions) (registry : Registry) :
    (w.report options registry).result = ((w.survey registry).run options.files).result ∧
      (w.report options registry).log = ((w.survey registry).run options.files).log := by
  unfold World.report
  split
  · obtain ⟨hresult, hlog⟩ := Survey.collect_finalBoard (w.survey registry) w.schedule options.files
    refine Survey.checked_agrees ?_ ?_ options.files
    · exact hresult
    · exact hlog
  · exact ⟨rfl, rfl⟩

theorem mutate_of_unknown {unknown : String} (h : registryFor options.operators = .error unknown)
    (w : World) : w.mutate options = w.answer 2 "" (errorLine (unknownOperator unknown)) := by
  simp only [World.mutate, h]

theorem mutate_of_error (hregistry : registryFor options.operators = .ok registry)
    (h : ((w.survey registry).run options.files).result = .error e) :
    w.mutate options = w.answer (exitCodeOf e) ""
      (logLines ((w.survey registry).run options.files).log ++ errorLine e.message) := by
  obtain ⟨hresult, hlog⟩ := report_agrees w options registry
  simp only [World.mutate, hregistry, hresult, hlog, h]

theorem mutate_of_ok {mutants : List Mutant}
    (hregistry : registryFor options.operators = .ok registry)
    (h : ((w.survey registry).run options.files).result = .ok mutants) :
    w.mutate options = w.answer 0 (w.listing options mutants)
      (logLines ((w.survey registry).run options.files).log) := by
  obtain ⟨hresult, hlog⟩ := report_agrees w options registry
  simp only [World.mutate, hregistry, hresult, hlog, h]

theorem mutate_parallel (w : World) (schedule : Survey.Schedule) (options : MutateOptions) :
    World.mutate { w with schedule } { options with parallel := true } = w.mutate options := by
  cases hregistry : registryFor options.operators with
  | error unknown => simp only [World.mutate, hregistry, World.answer]
  | ok registry =>
    obtain ⟨hresult, hlog⟩ := report_agrees w options registry
    obtain ⟨hresult', hlog'⟩ :=
      report_agrees { w with schedule } { options with parallel := true } registry
    simp only [World.mutate, hregistry, hresult, hlog, hresult', hlog']
    rfl

-- ---------------------------------------------------------------------------
-- Refused requests
-- ---------------------------------------------------------------------------

/-- Some operator is unknown or, all of them being known, some path is empty. -/
inductive MutateOptions.Refused (options : MutateOptions) : Prop
  | unknown {name : String} (hname : name ∈ options.operators)
      (hunknown : name ∉ Registry.standard.names)
  | emptyPath (hknown : ∀ name ∈ options.operators, name ∈ Registry.standard.names)
      (hempty : "" ∈ options.files)

/-- The standard operators or, if some are named, those that are. -/
def MutateOptions.chosen (options : MutateOptions) : Registry :=
  if options.operators = [] then .standard
  else ⟨Registry.standard.operators.filter fun o => o.name ∈ options.operators⟩

theorem registryFor_eq_ok_iff : registryFor options.operators = .ok registry ↔
    (∀ name ∈ options.operators, name ∈ Registry.standard.names) ∧ registry = options.chosen := by
  unfold registryFor MutateOptions.chosen
  split
  · simp [*, eq_comm]
  · simp [Registry.select_eq_ok_iff, Registry.only]

theorem sound_chosen (options : MutateOptions) : ∀ o ∈ options.chosen.operators, o.Sound := by
  intro o ho
  unfold MutateOptions.chosen at ho
  split at ho
  · exact Operator.sound_of_mem_standard ho
  · exact Operator.sound_of_mem_standard (List.mem_filter.mp ho).1

theorem not_refused_iff : ¬options.Refused ↔
    registryFor options.operators = .ok options.chosen ∧ "" ∉ options.files := by
  simp only [registryFor_eq_ok_iff, and_true]
  constructor
  · intro h
    have hknown : ∀ name ∈ options.operators, name ∈ Registry.standard.names := fun name hname =>
      Decidable.byContradiction fun hunknown => h (.unknown hname hunknown)
    exact ⟨hknown, fun hempty => h (.emptyPath hknown hempty)⟩
  · rintro ⟨hknown, hne⟩ (⟨hname, hunknown⟩ | ⟨-, hempty⟩)
    · exact hunknown (hknown _ hname)
    · exact hne hempty

/-- Past the names of the operators, only an empty path can be the reason. -/
theorem empty_of_refused (h : options.Refused)
    (hregistry : registryFor options.operators = .ok registry) : "" ∈ options.files := by
  obtain ⟨hknown, -⟩ := registryFor_eq_ok_iff.mp hregistry
  rcases h with ⟨hname, hunknown⟩ | ⟨-, hempty⟩
  · exact absurd (hknown _ hname) hunknown
  · exact hempty

theorem mutate_of_refused (h : options.Refused) :
    ∃ message, ∀ w : World, w.mutate options = w.answer 2 "" message := by
  cases hregistry : registryFor options.operators with
  | error unknown => exact ⟨_, mutate_of_unknown hregistry⟩
  | ok registry =>
    obtain ⟨index, hindex⟩ := Survey.exists_checked (empty_of_refused h hregistry)
    have hrun : ∀ w : World, (w.survey registry).run options.files = .fail (.emptyPath index) :=
      fun w => hindex _
    refine ⟨errorLine (SurveyError.emptyPath index).message, fun w => ?_⟩
    rw [mutate_of_error hregistry (congrArg Report.result (hrun w)), hrun]
    rfl

theorem reads_of_empty (h : "" ∈ options.files) (w : World) (registry : Registry) :
    (w.report options registry).reads = [] := by
  obtain ⟨index, hindex⟩ := Survey.exists_checked h
  unfold World.report
  split
  · exact congrArg Report.reads (hindex _)
  · exact congrArg Report.reads (hindex _)

-- ---------------------------------------------------------------------------
-- Other requests
-- ---------------------------------------------------------------------------

/-- A file that is there and cannot be read as a text, or does not parse. -/
inductive World.Unusable (w : World) (path : String) : Prop
  | unreadable (hfound : w.files.read path ≠ .error .notFound)
      (htext : ∀ text, w.files.read path ≠ .ok (.ofText text))
  | unparsable {text : String} {cause : SyntaxError} (hread : w.files.read path = .ok (.ofText text))
      (hparse : w.parser (.ofPath path) text = .error cause)

theorem not_unusable_of_missing (h : w.files.read path = .error .notFound) : ¬w.Unusable path := by
  rintro (⟨hfound, -⟩ | ⟨hread, -⟩)
  · exact hfound h
  · cases h.symm.trans hread

theorem unusable_iff_of_text {text : String} (h : w.files.read path = .ok (.ofText text)) :
    w.Unusable path ↔ ∃ cause, w.parser (.ofPath path) text = .error cause := by
  constructor
  · rintro (⟨-, htext⟩ | ⟨hread, hparse⟩)
    · exact absurd h (htext text)
    · obtain rfl := Bytes.ofText_inj (Except.ok.inj (h.symm.trans hread))
      exact ⟨_, hparse⟩
  · rintro ⟨cause, hparse⟩
    exact .unparsable h hparse

theorem troubled_of_unusable (h : w.Unusable path) : (w.survey registry).Troubled path := by
  cases h with
  | unreadable hfound htext =>
    cases hread : w.reader path with
    | ok text => exact absurd (reader_eq_ok_iff.mp hread) (htext text)
    | error failure =>
      cases failure with
      | missing named => exact absurd (reader_eq_missing_iff.mp hread).1 hfound
      | other message named => exact ⟨_, .unreadable hread⟩
  | unparsable hread hparse => exact ⟨_, .unparsable (reader_eq_ok_iff.mpr hread) hparse⟩

theorem unusable_of_trouble (hs : ∀ o ∈ registry.operators, o.Sound)
    (hp : ∀ dialect text root, w.parser dialect text = .ok root → root.Sliced text)
    (h : (w.survey registry).Trouble path e) : w.Unusable path := by
  cases h with
  | unreadable hread =>
    refine .unreadable (fun hnone => ?_) fun text htext => ?_
    · cases hread.symm.trans (reader_eq_missing_iff.mpr ⟨hnone, rfl⟩)
    · cases hread.symm.trans (reader_eq_ok_iff.mpr htext)
  | unparsable hread hparse => exact .unparsable (reader_eq_ok_iff.mp hread) hparse
  | failed hread hparse hplaces hbefore happlies hfails =>
    exact absurd (.failed hread hparse hplaces hbefore happlies hfails)
      (Survey.not_failed_of_sound hs hp _ _ _)

theorem exitCodeOf_of_trouble (h : (w.survey registry).Trouble path e) : exitCodeOf e = 3 := by
  cases h <;> rfl

theorem mutate_of_unusable (h : ¬options.Refused)
    (hunusable : ∃ path ∈ options.files, w.Unusable path) :
    ∃ message, w.mutate options = w.answer 3 "" message := by
  obtain ⟨hregistry, hne⟩ := not_refused_iff.mp h
  obtain ⟨path, hpath, hunusable⟩ := hunusable
  have hrun := Survey.run_eq_visit (s := w.survey options.chosen) hne
  cases hresult : ((w.survey options.chosen).visit options.files).result with
  | ok found =>
    exact absurd (troubled_of_unusable hunusable) (Survey.untroubled_of_visit hresult path hpath)
  | error e =>
    obtain ⟨other, -, htrouble⟩ := Survey.visit_eq_error hresult
    have hend := mutate_of_error hregistry ((congrArg Report.result hrun).trans hresult)
    rw [exitCodeOf_of_trouble htrouble] at hend
    exact ⟨_, hend⟩

theorem mutate_of_usable
    (hp : ∀ dialect text root, w.parser dialect text = .ok root → root.Sliced text)
    (h : ¬options.Refused) (husable : ∀ path ∈ options.files, ¬w.Unusable path) :
    ∃ mutants message, ((w.survey options.chosen).run options.files).result = .ok mutants ∧
      w.mutate options = w.answer 0 (w.listing options mutants) message := by
  obtain ⟨hregistry, hne⟩ := not_refused_iff.mp h
  cases hresult : ((w.survey options.chosen).run options.files).result with
  | ok mutants => exact ⟨mutants, _, rfl, mutate_of_ok hregistry hresult⟩
  | error e =>
    rw [Survey.run_eq_visit hne] at hresult
    obtain ⟨path, hpath, htrouble⟩ := Survey.visit_eq_error hresult
    have hunusable := unusable_of_trouble (sound_chosen options) hp htrouble
    exact absurd hunusable (husable path hpath)

-- ---------------------------------------------------------------------------
-- Runs
-- ---------------------------------------------------------------------------

structure Listed (w : World) (options : MutateOptions) (outcome : Outcome) : Prop where
  refused : outcome.exitCode = 2 ↔ options.Refused
  failed : outcome.exitCode = 3 ↔ ¬options.Refused ∧ ∃ path ∈ options.files, w.Unusable path
  done : outcome.exitCode = 0 ↔ ¬options.Refused ∧ ∀ path ∈ options.files, ¬w.Unusable path
  silent : outcome.exitCode ≠ 0 → outcome.stdout = []
  /-- Numbers are read back if they fit into words. -/
  json : outcome.exitCode = 0 → options.json = true → ∃ mutants,
    (Survey.run ⟨options.chosen, w.reader, w.parser⟩ options.files).result = .ok mutants ∧
    '\n' ∉ (Mutant.encodeAll mutants).toList ∧
    outcome.stdout = .ofText (Mutant.encodeAll mutants ++ "\n") ∧
    ((∀ path ∈ options.files, ∀ text, w.files.read path = .ok (.ofText text) →
        text.utf8ByteSize < Json.wordBound) →
      Mutant.decodeAll? (Mutant.encodeAll mutants ++ "\n") = some mutants)

theorem listed_of_refused {message : String} (h : options.Refused) :
    Listed w options (w.answer 2 "" message) where
  refused := iff_of_true rfl h
  failed := iff_of_false nofun fun hnot => hnot.1 h
  done := iff_of_false nofun fun hnot => hnot.1 h
  silent _ := rfl
  json hcode := by cases hcode

theorem listed_of_unusable {message : String} (h : ¬options.Refused)
    (hunusable : ∃ path ∈ options.files, w.Unusable path) :
    Listed w options (w.answer 3 "" message) where
  refused := iff_of_false nofun h
  failed := iff_of_true rfl ⟨h, hunusable⟩
  done := by
    obtain ⟨path, hpath, hunusable⟩ := hunusable
    exact iff_of_false nofun fun husable => husable.2 path hpath hunusable
  silent _ := rfl
  json hcode := by cases hcode

theorem listed_of_usable {mutants : List Mutant} {message : String} (h : ¬options.Refused)
    (husable : ∀ path ∈ options.files, ¬w.Unusable path)
    (hresult : ((w.survey options.chosen).run options.files).result = .ok mutants) :
    Listed w options (w.answer 0 (w.listing options mutants) message) where
  refused := iff_of_false nofun h
  failed := iff_of_false nofun fun ⟨_, path, hpath, hunusable⟩ => husable path hpath hunusable
  done := iff_of_true rfl ⟨h, husable⟩
  silent hcode := absurd rfl hcode
  json _ hjson := by
    have hline : w.listing options mutants = Mutant.encodeAll mutants ++ "\n" := if_pos hjson
    refine ⟨mutants, hresult, Mutant.newline_notMem_encodeAll mutants,
      congrArg Bytes.ofText hline, fun hsize => ?_⟩
    have hwords : ∀ m ∈ mutants, m.InWords := by
      refine Survey.inWords_of_mem_run (sound_chosen options) ?_ hresult
      exact fun path hpath text hread => hsize path hpath text (reader_eq_ok_iff.mp hread)
    rw [← hline]
    exact Mutant.decodeAll?_listing w hjson hwords

theorem listed_mutate
    (hp : ∀ dialect text root, w.parser dialect text = .ok root → root.Sliced text)
    (options : MutateOptions) : Listed w options (w.mutate options) := by
  by_cases hrefused : options.Refused
  · obtain ⟨message, h⟩ := mutate_of_refused hrefused
    exact h w ▸ listed_of_refused hrefused
  · by_cases hunusable : ∃ path ∈ options.files, w.Unusable path
    · obtain ⟨message, h⟩ := mutate_of_unusable hrefused hunusable
      exact h ▸ listed_of_unusable hrefused hunusable
    · have husable : ∀ path ∈ options.files, ¬w.Unusable path := fun path hpath h =>
        hunusable ⟨path, hpath, h⟩
      obtain ⟨mutants, message, hresult, h⟩ := mutate_of_usable hp hrefused husable
      exact h ▸ listed_of_usable hrefused husable hresult

/-- A run that lists mutants is refused if the request makes no sense, and then reads nothing and
does not depend on the world. Otherwise it shows what a survey of the files finds, or that one of
them cannot be surveyed. A parallel survey shows the same, however its tasks are interleaved. -/
theorem run_mutate
    (hp : ∀ dialect text root, w.parser dialect text = .ok root → root.Sliced text) :
    (∀ arguments options, request ("mutate" :: arguments) = .ok (.mutate options) →
      Listed w options (w.run ("mutate" :: arguments)) ∧
      (options.Refused →
        ∃ message, ∀ w' : World, w'.run ("mutate" :: arguments) = ⟨2, [], message, w'.files⟩) ∧
      ("" ∈ options.files → (w.report options options.chosen).reads = [])) ∧
    ∀ before after options options',
      request ("mutate" :: (before ++ after)) = .ok (.mutate options) →
      request ("mutate" :: (before ++ "--parallel" :: after)) = .ok (.mutate options') →
      options'.files = options.files → ∀ schedule : Survey.Schedule,
        World.run { w with schedule } ("mutate" :: (before ++ "--parallel" :: after)) =
          w.run ("mutate" :: (before ++ after)) := by
  have hrun : ∀ (w : World) arguments options, request ("mutate" :: arguments) = .ok (.mutate options) →
      w.run ("mutate" :: arguments) = w.mutate options := fun w arguments options hrequest => by
    simp only [World.run, hrequest, World.serve]
  refine ⟨fun arguments options hrequest => ⟨?_, fun hrefused => ?_, fun hempty => ?_⟩,
    fun before after options options' hrequest hrequest' hfiles schedule => ?_⟩
  · rw [hrun w _ _ hrequest]
    exact listed_mutate hp options
  · obtain ⟨message, h⟩ := mutate_of_refused hrefused
    exact ⟨message, fun w' => (hrun w' _ _ hrequest).trans (h w')⟩
  · exact reads_of_empty hempty w options.chosen
  · obtain rfl := request_parallel hrequest hrequest' hfiles
    rw [hrun _ _ _ hrequest', hrun _ _ _ hrequest, mutate_parallel]

def flagParser : Parser := fun _ text =>
  if text = "!true" then
    .ok (.mk ⟨"program", true, false, false, false, 0, 5, none⟩ [
      .mk ⟨"expression_statement", true, false, false, false, 0, 5, none⟩ [
        .mk ⟨"unary_expression", true, false, false, false, 0, 5, none⟩ [
          .mk ⟨"!", false, false, false, false, 0, 1, some "operator"⟩ [],
          .mk ⟨"true", true, false, false, false, 1, 5, some "argument"⟩ []]]])
  else .error ⟨1, .unexpectedEnd⟩

theorem sliced_flagParser (dialect : Dialect) (text : String) (root : Node)
    (h : flagParser dialect text = .ok root) : root.Sliced text := by
  unfold flagParser at h
  split at h
  · rename_i htext
    cases h
    subst htext
    decide +kernel
  · cases h

/-- A directory with a text, with a part of it, and with another directory. -/
def flags : World where
  parser := flagParser
  files := ⟨[(["on.js"], .file (.ofText "!true")), (["half.js"], .file (.ofText "!tru")),
    (["lib"], .directory)]⟩
  object := none

theorem read_flags : flags.files.read "on.js" = .ok (.ofText "!true") := by decide +kernel

theorem read_flags_missing : flags.files.read "gone.js" = .error .notFound := by decide +kernel

theorem usable_flags : ∀ path ∈ ["on.js", "gone.js"], ¬flags.Unusable path := by
  have hparses : ¬flags.Unusable "on.js" := by
    rw [unusable_iff_of_text read_flags]
    rintro ⟨cause, ⟨⟩⟩
  simpa [hparses] using not_unusable_of_missing read_flags_missing

theorem size_flags : ∀ path ∈ ["on.js", "gone.js"], ∀ text,
    flags.files.read path = .ok (.ofText text) → text.utf8ByteSize < Json.wordBound := by
  intro path hpath text hread
  rcases (by simpa using hpath : path = "on.js" ∨ path = "gone.js") with rfl | rfl
  · obtain rfl := Bytes.ofText_inj (Except.ok.inj (read_flags.symm.trans hread))
    decide +kernel
  · cases read_flags_missing.symm.trans hread

theorem run_mutate_flags :
    let drop : Mutant := ⟨"on.js", ⟨⟨0, 0⟩, ⟨0, 5⟩⟩, 0, 5, "unary", "!true", "true"⟩
    let flip : Mutant := ⟨"on.js", ⟨⟨0, 1⟩, ⟨0, 5⟩⟩, 1, 5, "bool_flip", "true", "false"⟩
    let flipLine := "[\x7b\"source_file\":\"on.js\",\"span\":\x7b\"start\":\x7b\"line\":0,\"column\":1\x7d," ++
      "\"end\":\x7b\"line\":0,\"column\":5\x7d\x7d,\"start_byte\":1,\"end_byte\":5," ++
      "\"operator\":\"bool_flip\",\"original\":\"true\",\"replacement\":\"false\"\x7d]\n"
    let listing := flags.run ["mutate", "on.js", "gone.js", "--json"]
    let chosen := flags.run ["mutate", "on.js", "gone.js", "--json", "-obool_flip"]
    (∀ dialect text root, flags.parser dialect text = .ok root → root.Sliced text) ∧
      listing.exitCode = 0 ∧ listing.stdout = .ofText (Mutant.encodeAll [drop, flip] ++ "\n") ∧
      Mutant.decodeAll? (Mutant.encodeAll [drop, flip] ++ "\n") = some [drop, flip] ∧
      chosen.exitCode = 0 ∧ chosen.stdout = .ofText flipLine ∧
      Mutant.decodeAll? flipLine = some [flip] ∧
      World.run { flags with schedule := [⟨1, none⟩, ⟨0, none⟩] }
        ["mutate", "on.js", "gone.js", "--parallel", "--json", "-obool_flip"] = chosen ∧
      (flags.run ["mutate", "gone.js", "half.js", "on.js"]).exitCode = 3 ∧
      (flags.run ["mutate", "gone.js", "half.js", "on.js"]).stdout = [] ∧
      (flags.run ["mutate", "lib", "", "half.js"]).exitCode = 2 ∧
      (flags.report ⟨["lib", "", "half.js"], [], false, false, false⟩ .standard).reads = [] ∧
      (flags.run ["mutate", "lib", "-obool"]).exitCode = 2 := by
  intro drop flip flipLine listing chosen
  have hflipLine : Mutant.encodeAll [flip] ++ "\n" = flipLine := by decide +kernel
  have hp : ∀ dialect text root, flags.parser dialect text = .ok root → root.Sliced text :=
    sliced_flagParser
  obtain ⟨hlisted, hparallel⟩ := run_mutate hp
  have hhalf : flags.files.read "half.js" = .ok (.ofText "!tru") := by decide +kernel
  have hreadOn : flags.reader "on.js" = .ok "!true" := reader_eq_ok_iff.mpr read_flags
  have hreadGone : flags.reader "gone.js" = .error (.missing none) :=
    reader_eq_missing_iff.mpr ⟨read_flags_missing, rfl⟩
  -- all operators, and the only one that is named
  have hboth : (Survey.run ⟨.standard, flags.reader, flagParser⟩ ["on.js", "gone.js"]).result =
      .ok [drop, flip] := by
    simp only [Survey.run, Survey.visit, Survey.scan, hreadOn, hreadGone, Survey.mutantsOf,
      Registry.sitesOfKind_kinds]
    rfl
  have hone : (Survey.run ⟨⟨[.flipBoolean]⟩, flags.reader, flagParser⟩ ["on.js", "gone.js"]).result =
      .ok [flip] := by
    simp only [Survey.run, Survey.visit, Survey.scan, hreadOn, hreadGone, Survey.mutantsOf,
      Registry.sitesOfKind_kinds]
    rfl
  have hrequest : request ["mutate", "on.js", "gone.js", "--json"] =
      .ok (.mutate ⟨["on.js", "gone.js"], [], false, true, false⟩) := by decide +kernel
  have hrefused : ¬MutateOptions.Refused ⟨["on.js", "gone.js"], [], false, true, false⟩ :=
    not_refused_iff.mpr ⟨rfl, by decide⟩
  obtain ⟨hlisting, -⟩ := hlisted _ _ hrequest
  have hcode := hlisting.done.mpr ⟨hrefused, usable_flags⟩
  obtain ⟨mutants, hresult, -, hstdout, hdecode⟩ := hlisting.json hcode rfl
  obtain rfl : [drop, flip] = mutants := Except.ok.inj (hboth.symm.trans hresult)
  have hrequest' : request ("mutate" :: (["on.js", "gone.js"] ++ ["--json", "-obool_flip"])) =
      .ok (.mutate ⟨["on.js", "gone.js"], ["bool_flip"], false, true, false⟩) := by decide +kernel
  have hrefused' : ¬MutateOptions.Refused ⟨["on.js", "gone.js"], ["bool_flip"], false, true, false⟩ :=
    not_refused_iff.mpr ⟨rfl, by decide⟩
  obtain ⟨hlisting', -⟩ := hlisted _ _ hrequest'
  have hcode' := hlisting'.done.mpr ⟨hrefused', usable_flags⟩
  obtain ⟨mutants, hresult', -, hstdout', hdecode'⟩ := hlisting'.json hcode' rfl
  obtain rfl : [flip] = mutants := Except.ok.inj (hone.symm.trans hresult')
  rw [hflipLine] at hstdout' hdecode'
  have hrequestParallel :
      request ("mutate" :: (["on.js", "gone.js"] ++ "--parallel" :: ["--json", "-obool_flip"])) =
        .ok (.mutate ⟨["on.js", "gone.js"], ["bool_flip"], true, true, false⟩) := by decide +kernel
  have hsame := hparallel _ _ _ _ hrequest' hrequestParallel rfl [⟨1, none⟩, ⟨0, none⟩]
  -- a file that does not parse
  have hbroken : request ["mutate", "gone.js", "half.js", "on.js"] =
      .ok (.mutate ⟨["gone.js", "half.js", "on.js"], [], false, false, false⟩) := by decide +kernel
  have hbrokenRefused :
      ¬MutateOptions.Refused ⟨["gone.js", "half.js", "on.js"], [], false, false, false⟩ :=
    not_refused_iff.mpr ⟨rfl, by decide⟩
  have hunusable : flags.Unusable "half.js" := (unusable_iff_of_text hhalf).mpr ⟨_, rfl⟩
  obtain ⟨hfailing, -⟩ := hlisted _ _ hbroken
  have hfailed := hfailing.failed.mpr ⟨hbrokenRefused, "half.js", by decide, hunusable⟩
  -- an empty path behind a directory, and a name that is not known
  have hempty : request ["mutate", "lib", "", "half.js"] =
      .ok (.mutate ⟨["lib", "", "half.js"], [], false, false, false⟩) := by decide +kernel
  obtain ⟨hsenseless, -, hearly⟩ := hlisted _ _ hempty
  have hemptyRefused : MutateOptions.Refused ⟨["lib", "", "half.js"], [], false, false, false⟩ :=
    .emptyPath (by simp) (by decide)
  have hunknown : request ["mutate", "lib", "-obool"] =
      .ok (.mutate ⟨["lib"], ["bool"], false, false, false⟩) := by decide +kernel
  obtain ⟨hnameless, -⟩ := hlisted _ _ hunknown
  have hunknownRefused : MutateOptions.Refused ⟨["lib"], ["bool"], false, false, false⟩ :=
    .unknown (List.mem_singleton_self _) (by decide)
  exact ⟨hp, hcode, hstdout, hdecode size_flags, hcode', hstdout', hdecode' size_flags, hsame, hfailed,
    hfailing.silent (by simp [hfailed]), hsenseless.refused.mpr hemptyRefused, hearly (by decide),
    hnameless.refused.mpr hunknownRefused⟩

end Command

end Mutagen
