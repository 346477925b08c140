import Mutagen.Command.Run
import Mutagen.Proofs.Command.Arguments
import Mutagen.Proofs.Command.FileSystem
import Mutagen.Proofs.Coverage.Chunks
import Mutagen.Proofs.Coverage.MapRoundTrip
import Mutagen.Proofs.Text.Bytes

/-!
# Instrumenting on the command line

The command leaves what instrumenting the text of its input gives, on the standard output or in the
files that it is asked to write, and it writes nothing before it has read that text
(`run_instrument`).
-/

namespace Mutagen

open Coverage

-- ---------------------------------------------------------------------------
-- Maps that can be read back
-- ---------------------------------------------------------------------------

namespace Coverage

variable {setting : Setting} {text : String} {whole : Instrumented}

theorem inWords_ofTree {root : Node} (h : Placeable text root)
    (hsize : text.utf8ByteSize < Json.wordBound) (object : String)
    (hids : (Plan.ofTree object text root).map.size < StatementMap.idBound) :
    (Plan.ofTree object text root).map.InWords := by
  obtain ⟨hentries, -⟩ := Plan.ofTree_eq object text root
  rw [StatementMap.size, hentries] at hids
  intro e he
  rw [hentries] at he
  obtain ⟨⟨s, id⟩, hs, rfl⟩ := List.mem_map.mp he
  obtain ⟨-, hlt, hget⟩ := List.mem_zipIdx hs
  have hcounted : s ∈ counted [] root := hget ▸ List.getElem_mem _
  obtain ⟨hstart, hstop⟩ := h.cut s.node (Site.node_mem_constructs (List.mem_filter.mp hcounted).1)
  have hwidth := Text.width_toList text
  refine ⟨?_, Span.inWords_ofOffsets ?_ ?_ text⟩
  · simp only [entriesOf, List.length_map, List.length_zipIdx] at hids
    dsimp only
    omega
  · exact Nat.lt_of_le_of_lt (hwidth ▸ hstart.le_width) hsize
  · exact Nat.lt_of_le_of_lt (hwidth ▸ hstop.le_width) hsize

/-- The map of a text that is not too long can be read back, unless its ids run out. -/
theorem inWords_of_instrument
    (h : ∀ dialect text root, setting.parser dialect text = .ok root → Placeable text root)
    (hwhole : Product.ofInput setting (.ofText text) = whole.product)
    (hsize : text.utf8ByteSize < Json.wordBound) (hids : whole.map.size < StatementMap.idBound) :
    whole.map.InWords := by
  unfold Product.ofInput at hwhole
  split at hwhole
  · rename_i code map hmade
    obtain rfl : map = whole.map := congrArg Product.map hwhole
    obtain ⟨-, text', root, htext, hparse, -, hmap⟩ := made_of_instrumentBytes hmade
    obtain rfl := Bytes.ofText_inj htext
    rw [← hmap] at hids ⊢
    exact inWords_ofTree (h _ _ _ hparse) hsize _ hids
  · obtain hmap : StatementMap.empty = whole.map := congrArg Product.map hwhole
    rw [← hmap]
    nofun

end Coverage

namespace Command

variable {w : World} {options : InstrumentOptions} {arguments : List String} {text : String}

-- ---------------------------------------------------------------------------
-- The stage of the command
-- ---------------------------------------------------------------------------

theorem willing_sinkFor : (sinkFor false).Willing where
  accept _ bytes hne := ⟨(), bytes.length, rfl, List.length_pos_iff.mpr hne⟩
  flush _ := rfl

theorem finish_of_perform {σ : Type} {s : Stage σ} (h : (s.perform .finish).2 = .ok none) :
    s.finish = ((s.perform .finish).1, .ok ()) := by
  cases hresult : s.finish.2 with
  | error message => simp [Stage.perform, hresult, Except.map] at h
  | ok done => exact Prod.ext rfl hresult

/-- A stage before a sink that takes everything shows what instrumenting at once gives. -/
theorem feed_shows {setting : Setting} {whole : Instrumented}
    (hwhole : Product.ofInput setting (.ofText text) = whole.product) :
    ∃ stage, feed setting false text = (stage, .ok ()) ∧ stage.product? = some whole.product := by
  obtain ⟨hanswer, hproduct⟩ := Stage.finish_shows setting willing_sinkFor () (.ofText text)
  refine ⟨_, ?_, hwhole ▸ hproduct⟩
  simp only [feed, Stage.writeAll_start]
  exact finish_of_perform hanswer

theorem instrumentTo_eq {whole : Instrumented}
    (hwhole : Product.ofInput (w.setting options) (.ofText text) = whole.product)
    {files : FileSystem} {place : Option Place} (hroomy : place.any files.isFull = false) :
    w.instrumentTo options text files place = reportMap options whole.map {
      exitCode := 0
      stdout := if place.isNone then Bytes.ofText whole.code else []
      stderr := logLines whole.log
      files := place.elim files fun place => files.put place (.file (.ofText whole.code)) } := by
  obtain ⟨stage, hfeed, hproduct⟩ := feed_shows hwhole
  obtain ⟨hreceived, hmap, hlog⟩ := Stage.product?_eq_some hproduct
  simp only [World.instrumentTo, hroomy, hfeed, hreceived, hmap, hlog]
  cases place <;> rfl

-- ---------------------------------------------------------------------------
-- What a run leaves behind
-- ---------------------------------------------------------------------------

/-- The files that a run is to write can be written, and they are not the same. -/
structure World.CanWrite (w : World) (options : InstrumentOptions) : Prop where
  output : ∀ path ∈ options.output, ∃ place, w.files.Writable path place
  map : ∀ path ∈ options.map, ∃ place, w.files.Writable path place
  apart : ∀ output ∈ options.output, ∀ map ∈ options.map,
    w.files.destination output ≠ w.files.destination map

def markOf : Level → String
  | .info => "· "
  | .error => "✗ "

theorem logLines_eq (log : Log) : logLines log =
    String.join (log.map fun entry => markOf entry.level ++ entry.message ++ "\n") := by
  refine congrArg String.join (List.map_congr_left fun entry _ => ?_)
  obtain ⟨level, message⟩ := entry
  cases level <;> rfl

/-- The code and the map are where they are wanted, the log is told, and nothing else has
changed. -/
structure Delivered (w : World) (options : InstrumentOptions) (whole : Instrumented)
    (outcome : Outcome) : Prop where
  exitCode : outcome.exitCode = 0
  stdout : outcome.stdout = if options.output = none then Bytes.ofText whole.code else []
  output : ∀ path ∈ options.output, outcome.files.read path = .ok (.ofText whole.code)
  map : ∀ path ∈ options.map, outcome.files.read path = .ok (.ofText whole.map.encodePretty)
  stderr : outcome.stderr =
    String.join (whole.log.map fun entry => markOf entry.level ++ entry.message ++ "\n") ++
      if options.map = none then
        "✓ " ++ options.file ++ ": " ++ toString whole.map.entries.length ++
          " statements instrumented\n"
      else ""
  others : ∀ place, (∀ path ∈ options.output, w.files.destination path ≠ .ok place) →
    (∀ path ∈ options.map, w.files.destination path ≠ .ok place) →
    outcome.files.entry? place = w.files.entry? place

theorem reportMap_none {outcome : Outcome} (h : options.map = none) (map : StatementMap) :
    reportMap options map outcome = { outcome with
      stderr := outcome.stderr ++ ("✓ " ++ options.file ++ ": " ++ toString map.entries.length ++
        " statements instrumented\n") } := by
  have hline : successLine (options.file ++ ": " ++ toString map.size ++ " statements instrumented") =
      "✓ " ++ options.file ++ ": " ++ toString map.entries.length ++ " statements instrumented\n" := by
    simp [successLine, line, StatementMap.size, String.append_assoc]
  simp only [reportMap, h, hline]

theorem reportMap_some {outcome : Outcome} {path : String} {place : Place}
    (h : options.map = some path) (hwritable : outcome.files.Writable path place)
    (map : StatementMap) : reportMap options map outcome =
      { outcome with files := outcome.files.overwrite place (.ofText map.encodePretty) } := by
  simp only [reportMap, h, hwritable.write]

theorem delivered_to_stdout {whole : Instrumented} (hread : w.reader options.file = .ok text)
    (hwrite : w.CanWrite options) (houtput : options.output = none)
    (hwhole : Product.ofInput (w.setting options) (.ofText text) = whole.product) :
    Delivered w options whole (w.instrument options) := by
  have hrun : w.instrument options = w.instrumentTo options text w.files none := by
    simp only [World.instrument, hread, houtput]
  rw [hrun, instrumentTo_eq hwhole rfl]
  cases hmap : options.map with
  | none =>
    rw [reportMap_none hmap]
    exact {
      exitCode := rfl
      stdout := by simp [houtput]
      output := by simp [houtput]
      map := by simp [hmap]
      stderr := by simp [hmap, logLines_eq]
      others := fun _ _ _ => rfl }
  | some path =>
    obtain ⟨place, hplace⟩ := hwrite.map path hmap
    rw [reportMap_some hmap hplace]
    exact {
      exitCode := rfl
      stdout := by simp [houtput]
      output := by simp [houtput]
      map := by simpa [hmap] using hplace.read_overwrite _
      stderr := by simp [hmap, logLines_eq]
      others := fun other _ hother => by
        have hne : other ≠ place := fun he => hother path hmap (he ▸ hplace.destination)
        exact (hplace.entry?_overwrite _ other).trans (if_neg hne) }

/-- The output file may also be the input. -/
theorem delivered_to_file {whole : Instrumented} {output : String}
    (hread : w.reader options.file = .ok text) (hwrite : w.CanWrite options)
    (houtput : options.output = some output)
    (hwhole : Product.ofInput (w.setting options) (.ofText text) = whole.product) :
    Delivered w options whole (w.instrument options) := by
  obtain ⟨place, hplace⟩ := hwrite.output output houtput
  have hrun : w.instrument options =
      w.instrumentTo options text (w.files.put place (.file [])) (some place) := by
    simp only [World.instrument, hread, houtput, hplace.create]
  have hroomy : (some place).any (w.files.put place (.file [])).isFull = false :=
    (hplace.put_self []).roomy
  have hothers : ∀ other, w.files.destination output ≠ .ok other → other ≠ place :=
    fun other hother he => hother (he ▸ hplace.destination)
  rw [hrun, instrumentTo_eq hwhole hroomy]
  have hcode := hplace.entry?_overwrite (.ofText whole.code)
  cases hmap : options.map with
  | none =>
    rw [reportMap_none hmap]
    exact {
      exitCode := rfl
      stdout := by simp [houtput]
      output := fun path hpath => by
        cases houtput.symm.trans hpath
        exact hplace.read_overwrite _
      map := by simp [hmap]
      stderr := by simp [hmap, logLines_eq]
      others := fun other hother _ => (hcode other).trans (if_neg (hothers other (hother _ houtput))) }
  | some path =>
    obtain ⟨place', hplace'⟩ := hwrite.map path hmap
    have hne : place ≠ place' := fun he => hwrite.apart output houtput path hmap
      (by rw [hplace.destination, hplace'.destination, he])
    have hsaved := (hplace.put_self []).put_self (.ofText whole.code)
    have hlater := hplace'.overwrite_other hplace hne.symm (.ofText whole.code)
    rw [reportMap_some hmap hlater]
    exact {
      exitCode := rfl
      stdout := by simp [houtput]
      output := fun path hpath => by
        cases houtput.symm.trans hpath
        exact hsaved.read_overwrite_other ((hcode place).trans (if_pos rfl)) hlater hne _
      map := fun path hpath => by
        cases hmap.symm.trans hpath
        exact hlater.read_overwrite _
      stderr := by simp [hmap, logLines_eq]
      others := fun other hother hother' => by
        have hne' : other ≠ place' := fun he => hother' path hmap (he ▸ hplace'.destination)
        exact (hlater.entry?_overwrite _ other).trans
          ((if_neg hne').trans ((hcode other).trans (if_neg (hothers other (hother _ houtput))))) }

theorem delivered {whole : Instrumented} (hread : w.reader options.file = .ok text)
    (hwrite : w.CanWrite options)
    (hwhole : Product.ofInput (w.setting options) (.ofText text) = whole.product) :
    Delivered w options whole (w.instrument options) := by
  cases houtput : options.output with
  | none => exact delivered_to_stdout hread hwrite houtput hwhole
  | some output => exact delivered_to_file hread hwrite houtput hwhole

-- ---------------------------------------------------------------------------
-- Inputs that cannot be read
-- ---------------------------------------------------------------------------

theorem instrument_of_unreadable
    (h : ∀ text, w.files.read options.file ≠ .ok (.ofText text)) :
    (w.instrument options).exitCode =
        (if w.files.read options.file = .error .notFound then 2 else 3) ∧
      (w.instrument options).stdout = [] ∧ (w.instrument options).files = w.files := by
  cases hreader : w.reader options.file with
  | ok text => exact absurd (reader_eq_ok_iff.mp hreader) (h text)
  | error failure =>
    cases failure with
    | missing named =>
      rw [if_pos (reader_eq_missing_iff.mp hreader).1]
      simp only [World.instrument, hreader]
      exact ⟨rfl, rfl, rfl⟩
    | other message named =>
      have hfound : w.files.read options.file ≠ .error .notFound := by
        intro hread
        cases hreader.symm.trans (reader_eq_missing_iff.mpr ⟨hread, rfl⟩)
      rw [if_neg hfound]
      simp only [World.instrument, hreader]
      exact ⟨rfl, rfl, rfl⟩

-- ---------------------------------------------------------------------------
-- Runs
-- ---------------------------------------------------------------------------

/-- A run on a text that can be read, with files that can be written, leaves what instrumenting that
text gives, whether the text parses or not. Without such a text a run fails and changes nothing. -/
theorem run_instrument
    (h : ∀ dialect text root, w.parser dialect text = .ok root → Placeable text root) :
    (∀ options, ∃ arguments, request arguments = .ok (.instrument options)) ∧
    ∀ arguments options, request arguments = .ok (.instrument options) →
      (∀ text, w.files.read options.file = .ok (.ofText text) → w.CanWrite options →
        let setting : Setting := {
          file := options.file
          object := options.object.getD (w.object.getD "__coverage__")
          parser := w.parser }
        instrumentBytes setting (.ofText text) ≠ .error .misplaced ∧
        ∃ whole, Coverage.instrument setting text = .ok whole ∧
          Delivered w options whole (w.run arguments) ∧
          (text.utf8ByteSize < Json.wordBound → whole.map.size < StatementMap.idBound →
            StatementMap.decode? whole.map.encodePretty = some whole.map)) ∧
      ((∀ text, w.files.read options.file ≠ .ok (.ofText text)) →
        (w.run arguments).exitCode =
            (if w.files.read options.file = .error .notFound then 2 else 3) ∧
          (w.run arguments).stdout = [] ∧ (w.run arguments).files = w.files) := by
  refine ⟨fun options => ⟨options.spell, request_spell options⟩,
    fun arguments options hrequest => ?_⟩
  have hrun : w.run arguments = w.instrument options := by
    simp only [World.run, hrequest, World.serve]
  rw [hrun]
  refine ⟨fun text hread hwrite => ?_, instrument_of_unreadable⟩
  intro setting
  refine ⟨fun hmisplaced => ?_, ?_⟩
  · cases (instrumentBytes_eq_error_iff h).mp hmisplaced
  · obtain ⟨whole, hwhole⟩ := Product.exists_ofText (w.setting options) text
    refine ⟨whole, instrument_eq_ok hwhole, delivered (reader_eq_ok_iff.mpr hread) hwrite hwhole,
      fun hsize hids => ?_⟩
    exact StatementMap.decode?_encodePretty (inWords_of_instrument h hwhole hsize hids)

/-- A directory with texts, with bytes that are no text, and with another directory. -/
def mixedEntries : World where
  parser := Stage.typedOnly Stage.flatParser
  files := ⟨[(["a.ts"], .file (.ofText "é")), (["b.ts"], .file [0xC3]),
    (["c.js"], .file (.ofText "é")), (["lib"], .directory)]⟩
  object := some "V"

theorem read_mixedEntries_bytes : mixedEntries.files.read "b.ts" = .ok [0xC3] := by decide +kernel

theorem read_mixedEntries_missing : mixedEntries.files.read "d.ts" = .error .notFound := by
  decide +kernel

theorem unreadable_mixedEntries :
    ∀ path ∈ ["b.ts", "d.ts"], ∀ text, mixedEntries.files.read path ≠ .ok (.ofText text) := by
  have hbytes (text : String) : mixedEntries.files.read "b.ts" ≠ .ok (.ofText text) := by
    intro htext
    have hvalid := Bytes.toText_eq_ok_iff.mpr
      (Except.ok.inj (read_mixedEntries_bytes.symm.trans htext))
    have hinvalid : Bytes.toText [0xC3] = .error ⟨0, none⟩ := by decide +kernel
    cases hinvalid.symm.trans hvalid
  simp [hbytes, read_mixedEntries_missing]

theorem run_instrument_mixedEntries :
    let named := mixedEntries.run ["instrument", "a.ts", "--coverage-variable", "W", "-o", "./a.ts",
      "--statement-map", "lib/../a.json"]
    let map := (StatementMap.empty.push ⟨⟨0, 0⟩, ⟨0, 2⟩⟩).1
    let mapText := "\x7b\n  \"1\": \x7b\n    \"start\": \x7b\n      \"line\": 0,\n" ++
      "      \"column\": 0\n    \x7d,\n    \"end\": \x7b\n      \"line\": 0,\n" ++
      "      \"column\": 2\n    \x7d\n  \x7d\n\x7d"
    let shown := mixedEntries.run ["instrument", "a.ts"]
    let broken := mixedEntries.run ["instrument", "c.js"]
    let refused := mixedEntries.run ["instrument", "b.ts", "-oa.ts"]
    let missing := mixedEntries.run ["instrument", "d.ts", "-oa.ts"]
    (∀ dialect text root, mixedEntries.parser dialect text = .ok root → Placeable text root) ∧
      named.exitCode = 0 ∧ named.stdout = [] ∧ named.stderr = "" ∧
      named.files.read "./a.ts" = .ok (.ofText "W.s['1']++;é") ∧
      named.files.read "lib/../a.json" = .ok (.ofText mapText) ∧
      StatementMap.decode? mapText = some map ∧
      shown.exitCode = 0 ∧ shown.stdout = .ofText "V.s['1']++;é" ∧
      shown.stderr = "✓ a.ts: 1 statements instrumented\n" ∧
      broken.exitCode = 0 ∧ broken.stdout = .ofText "é" ∧
      broken.stderr = "✗ Error while instrumenting file \"c.js\", error was: Error: Line 1: " ++
        "Invalid syntax\n✓ c.js: 0 statements instrumented\n" ∧
      refused.exitCode = 3 ∧ refused.stdout = [] ∧ refused.files = mixedEntries.files ∧
      missing.exitCode = 2 ∧ missing.stdout = [] ∧ missing.files = mixedEntries.files := by
  intro named map mapText shown broken refused missing
  have hmapText : map.encodePretty = mapText := by decide +kernel
  have hparser : ∀ dialect text root, mixedEntries.parser dialect text = .ok root →
      Placeable text root := Stage.placeable_typedOnly Stage.placeable_flatParser
  obtain ⟨-, hrun⟩ := run_instrument hparser
  have htyped : mixedEntries.files.read "a.ts" = .ok (.ofText "é") := by decide +kernel
  have hplain : mixedEntries.files.read "c.js" = .ok (.ofText "é") := by decide +kernel
  -- the code replaces its own input
  have hrequest : request ["instrument", "a.ts", "--coverage-variable", "W", "-o", "./a.ts",
      "--statement-map", "lib/../a.json"] =
      .ok (.instrument ⟨"a.ts", some "W", some "./a.ts", some "lib/../a.json"⟩) := by decide +kernel
  have hwrite : mixedEntries.CanWrite ⟨"a.ts", some "W", some "./a.ts", some "lib/../a.json"⟩ := {
    output := by
      rintro path ⟨⟩
      exact ⟨["a.ts"], by decide +kernel, by decide +kernel⟩
    map := by
      rintro path ⟨⟩
      exact ⟨["a.json"], by decide +kernel, by decide +kernel⟩
    apart := by
      rintro output ⟨⟩ map ⟨⟩
      decide +kernel }
  obtain ⟨htext, -⟩ := hrun _ _ hrequest
  obtain ⟨-, whole, hwhole, hnamed, hdecode⟩ := htext "é" htyped hwrite
  obtain rfl : ⟨"W.s['1']++;é", map, []⟩ = whole :=
    Except.ok.inj ((instrument_eq_ok (by decide +kernel)).symm.trans hwhole)
  -- the standard output takes the code if no file is named
  have hrequest' : request ["instrument", "a.ts"] = .ok (.instrument ⟨"a.ts", none, none, none⟩) := by
    decide +kernel
  have hwrite' (file : String) : mixedEntries.CanWrite ⟨file, none, none, none⟩ :=
    ⟨nofun, nofun, nofun⟩
  obtain ⟨htext', -⟩ := hrun _ _ hrequest'
  obtain ⟨-, whole', hwhole', hshown, -⟩ := htext' "é" htyped (hwrite' _)
  obtain rfl : ⟨"V.s['1']++;é", map, []⟩ = whole' :=
    Except.ok.inj ((instrument_eq_ok (by decide +kernel)).symm.trans hwhole')
  -- a text that does not parse
  have hrequestBroken : request ["instrument", "c.js"] =
      .ok (.instrument ⟨"c.js", none, none, none⟩) := by decide +kernel
  obtain ⟨htextBroken, -⟩ := hrun _ _ hrequestBroken
  obtain ⟨-, same, hsame, hbroken, -⟩ := htextBroken "é" hplain (hwrite' _)
  obtain rfl : ⟨"é", .empty, [⟨.error, "Error while instrumenting file \"c.js\", error was: " ++
      "Error: Line 1: Invalid syntax"⟩]⟩ = same :=
    Except.ok.inj ((instrument_eq_ok (by decide +kernel)).symm.trans hsame)
  -- bytes that are no text, and a file that is not there
  have hrequestBytes : request ["instrument", "b.ts", "-oa.ts"] =
      .ok (.instrument ⟨"b.ts", none, some "a.ts", none⟩) := by decide +kernel
  have hrequestNone : request ["instrument", "d.ts", "-oa.ts"] =
      .ok (.instrument ⟨"d.ts", none, some "a.ts", none⟩) := by decide +kernel
  obtain ⟨-, hunreadable⟩ := hrun _ _ hrequestBytes
  obtain ⟨hcode, hstdout, hfiles⟩ := hunreadable (unreadable_mixedEntries _ (by decide))
  obtain ⟨-, hunreadable'⟩ := hrun _ _ hrequestNone
  obtain ⟨hcode', hstdout', hfiles'⟩ := hunreadable' (unreadable_mixedEntries _ (by decide))
  rw [read_mixedEntries_bytes] at hcode
  rw [read_mixedEntries_missing] at hcode'
  exact ⟨hparser, hnamed.exitCode, hnamed.stdout, hnamed.stderr,
    hnamed.output _ rfl, hmapText ▸ hnamed.map _ rfl,
    hmapText ▸ hdecode (by decide +kernel) (by decide +kernel),
    hshown.exitCode, hshown.stdout, hshown.stderr.trans (by decide +kernel), hbroken.exitCode,
    hbroken.stdout, hbroken.stderr.trans (by decide +kernel), hcode, hstdout, hfiles, hcode',
    hstdout', hfiles'⟩

end Command

end Mutagen
