import Mutagen.Proofs.Coverage.Outcome

/-!
# Inputs in pieces

What a stage has to show in the end depends on its whole input alone, not on the pieces in which the
input came (`finish_shows`). So all ways to cut an input have the same result, which for a text is
also what comes of instrumenting it at once (`finish_of_pieces`).
-/

namespace Mutagen.Coverage

variable {σ τ : Type} {setting : Setting} {input : Bytes}

/-- What is left of an input in the end. -/
structure Product where
  output : Bytes
  map : StatementMap
  log : Log
  deriving DecidableEq, Repr

def Product.ofInput (setting : Setting) (input : Bytes) : Product :=
  match instrumentBytes setting input with
  | .ok (code, map) => ⟨.ofText code, map, []⟩
  | .error e => ⟨input, .empty, [Stage.failureEntry setting.file e]⟩

def Instrumented.product (i : Instrumented) : Product := ⟨.ofText i.code, i.map, i.log⟩

theorem Product.exists_ofText (setting : Setting) (text : String) :
    ∃ whole : Instrumented, Product.ofInput setting (.ofText text) = whole.product := by
  unfold ofInput
  cases instrumentBytes setting (.ofText text) with
  | ok made => exact ⟨⟨made.1, made.2, []⟩, rfl⟩
  | error e => exact ⟨⟨text, .empty, [Stage.failureEntry setting.file e]⟩, rfl⟩

namespace Stage

def product? (s : Stage σ) : Option Product :=
  s.statementMap?.map fun map => ⟨s.outlet.received, map, s.log⟩

theorem finish_shows (setting : Setting) {sink : Sink σ} (hsink : sink.Willing) (state : σ)
    (input : Bytes) :
    let fed : Stage σ := { start setting sink state with buffer := input }
    (fed.perform .finish).2 = .ok none ∧
      (fed.perform .finish).1.product? = some (.ofInput setting input) := by
  intro fed
  obtain ⟨last, hlast⟩ := finish_of_willing (s := fed) hsink rfl
  rw [hlast]
  refine ⟨rfl, ?_⟩
  cases hcode : instrumentBytes setting input with
  | ok made =>
    obtain ⟨code, map⟩ := made
    rw [transform_of_ok (s := fed) hcode]
    simp [product?, statementMap?, Product.ofInput, hcode, fed, start]
  | error e =>
    rw [transform_of_error (s := fed) hcode]
    simp [product?, statementMap?, Product.ofInput, hcode, fed, start]

theorem product?_eq_some {s : Stage σ} {p : Product} (h : s.product? = some p) :
    s.outlet.received = p.output ∧ s.statementMap? = some p.map ∧ s.log = p.log := by
  obtain ⟨map, hmap, rfl⟩ := Option.map_eq_some_iff.mp h
  exact ⟨rfl, hmap, rfl⟩

theorem writeAll_start (setting : Setting) (sink : Sink σ) (state : σ) (piece : Bytes) :
    (start setting sink state).writeAll piece =
      ({ start setting sink state with buffer := piece }, .ok ()) := by
  by_cases h : piece = []
  · subst h
    rfl
  · simp [writeAll, write, start, h, Except.map]

end Stage

theorem instrument_eq_ok {text : String} {whole : Instrumented}
    (h : Product.ofInput setting (.ofText text) = whole.product) :
    instrument setting text = .ok whole := by
  let fed : Stage Unit := { Stage.start setting .accepting () with buffer := .ofText text }
  obtain ⟨hanswer, hproduct⟩ :=
    Stage.finish_shows setting Sink.willing_accepting () (.ofText text)
  rw [h] at hproduct
  obtain ⟨hreceived, hmap, hlog⟩ := Stage.product?_eq_some hproduct
  have hemitted : fed.finish.2 = .ok () := by
    cases hresult : fed.finish.2 with
    | error message => simp [Stage.perform, fed, hresult, Except.map] at hanswer
    | ok done => rfl
  have hcode : fed.finish.1.outlet.received.toText = .ok whole.code :=
    Bytes.toText_eq_ok_iff.mpr hreceived
  replace hmap : fed.finish.1.statementMap? = some whole.map := hmap
  replace hlog : fed.finish.1.log = whole.log := hlog
  simp only [instrument, Stage.writeAll_start, bind, Except.bind]
  simp only [fed] at hemitted hcode hmap hlog
  simp [hemitted, hcode, hmap, hlog]

namespace Stage

/-- All ways to cut an input into pieces have the same result, and that of a text is what comes of
instrumenting it at once, which always works. -/
theorem finish_of_pieces
    (h : ∀ dialect text root, setting.parser dialect text = .ok root → Placeable text root)
    {sink : Sink σ} (hsink : sink.Willing) (state : σ)
    {other : Sink τ} (hother : other.Willing) (state' : τ)
    {calls calls' : List Call} (hc : .finish ∉ calls) (hc' : .finish ∉ calls')
    (hinput : Call.input calls = input) (hinput' : Call.input calls' = input) :
    let ended := ((start setting sink state).after calls).perform .finish
    let ended' := ((start setting other state').after calls').perform .finish
    ended.2 = .ok none ∧ ended'.2 = .ok none ∧
      instrumentBytes setting input ≠ .error .misplaced ∧
      ∃ product, ended.1.product? = some product ∧ ended'.1.product? = some product ∧
        ∀ text, input = .ofText text →
          ∃ whole, instrument setting text = .ok whole ∧ product = whole.product := by
  intro ended ended'
  have hended : ended = Stage.perform { start setting sink state with buffer := input } .finish :=
    hinput ▸ congrArg (perform · .finish) (after_of_accumulating rfl hc)
  have hended' : ended' = Stage.perform { start setting other state' with buffer := input } .finish :=
    hinput' ▸ congrArg (perform · .finish) (after_of_accumulating rfl hc')
  obtain ⟨hanswer, hproduct⟩ := finish_shows setting hsink state input
  obtain ⟨hanswer', hproduct'⟩ := finish_shows setting hother state' input
  rw [hended, hended']
  refine ⟨hanswer, hanswer', fun hmisplaced => ?_, .ofInput setting input, hproduct, hproduct', ?_⟩
  · cases (instrumentBytes_eq_error_iff h).mp hmisplaced
  · rintro text rfl
    obtain ⟨whole, hwhole⟩ := Product.exists_ofText setting text
    exact ⟨whole, instrument_eq_ok hwhole, hwhole⟩

def flatParser : Parser := fun _ text =>
  let stop := Text.width text.toList
  .ok (.mk ⟨"program", true, false, false, false, 0, stop, none⟩ [
    .mk ⟨"expression_statement", true, false, false, false, 0, stop, none⟩ []])

theorem placeable_flatParser (dialect : Dialect) (text : String) (root : Node)
    (h : flatParser dialect text = .ok root) : Placeable text root := by
  cases h
  let stop := Text.width text.toList
  have hcut : Text.IsCut text 0 ∧ Text.IsCut text stop := ⟨Text.isCut_zero text, Text.isCut_width text⟩
  constructor
  · simp only [Node.nodes, Node.nodesOf, List.append_nil, List.mem_cons, List.not_mem_nil, or_false]
    rintro n (rfl | rfl)
    · exact hcut
    · exact hcut
  · intro s hs hd
    have hnode := Site.node_mem_constructs (List.mem_filter.mp hs).1
    simp only [Node.nodes, Node.nodesOf, List.append_nil, List.mem_cons, List.not_mem_nil,
      or_false] at hnode
    rcases hnode with hnode | hnode
    · rw [Site.kind, hnode] at hd
      cases hd
    · rw [Site.kind, hnode] at hd
      cases hd

def sipping : Sink Unit where
  accept _ _ := ((), .ok 1)
  flush _ := ((), .ok ())

theorem finish_of_pieces_insideCharacter :
    let setting : Setting := ⟨"a.js", "V", flatParser⟩
    let pieces : List Call := [.write [0xC3], .flush, .writeAll [], .write [0xA9]]
    let whole : Instrumented :=
      ⟨"V.s['1']++;é", (StatementMap.empty.push ⟨⟨0, 0⟩, ⟨0, 2⟩⟩).1, []⟩
    (∀ dialect text root, flatParser dialect text = .ok root → Placeable text root) ∧
      sipping.Willing ∧ Sink.accepting.Willing ∧ .finish ∉ pieces ∧
      .finish ∉ [Call.writeAll (.ofText "é")] ∧ Call.input pieces = .ofText "é" ∧
      Call.input [.writeAll (.ofText "é")] = .ofText "é" ∧
      (((start setting sipping ()).after pieces).perform .finish).1.product? = some whole.product ∧
      (((start setting .accepting ()).after [.writeAll (.ofText "é")]).perform .finish).1.product? =
        some whole.product ∧
      instrument setting "é" = .ok whole := by
  intro setting pieces whole
  have hparser : ∀ dialect text root, setting.parser dialect text = .ok root →
      Placeable text root := placeable_flatParser
  have hsipping : sipping.Willing := ⟨fun _ _ _ => ⟨(), 1, rfl, Nat.one_pos⟩, fun _ => rfl⟩
  have hpieces : Call.input pieces = .ofText "é" := by decide +kernel
  have hone : Call.input [.writeAll (.ofText "é")] = .ofText "é" := List.append_nil _
  obtain ⟨-, -, -, product, hfirst, hsecond, htext⟩ :=
    finish_of_pieces hparser hsipping () Sink.willing_accepting () (by simp [pieces]) (by simp)
      hpieces hone
  have hwhole : instrument setting "é" = .ok whole := instrument_eq_ok (by decide +kernel)
  obtain ⟨made, hmade, rfl⟩ := htext "é" rfl
  cases hwhole.symm.trans hmade
  exact ⟨placeable_flatParser, hsipping, Sink.willing_accepting, by simp [pieces], by simp, hpieces,
    hone, hfirst, hsecond, hwhole⟩

end Stage

end Mutagen.Coverage
