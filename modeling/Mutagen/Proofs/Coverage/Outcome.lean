import Mutagen.Proofs.Coverage.Stage

/-!
# How a stage ends

Before a sink that takes everything a stage ends in one of two ways, and what is wrong with the
input decides in which (`finish_outcome`). Either the sink gets a text that parses and nothing is
logged, or it gets the input as it was, with one error in the log and no statement in the map.
-/

namespace Mutagen

variable {σ : Type} {sink : Sink σ}

-- ---------------------------------------------------------------------------
-- Sinks that take everything
-- ---------------------------------------------------------------------------

/-- A sink that does not fail and accepts some of whatever it is offered. -/
structure Sink.Willing (sink : Sink σ) : Prop where
  accept : ∀ state bytes, bytes ≠ [] →
    ∃ later count, sink.accept state bytes = (later, .ok count) ∧ 0 < count
  flush : ∀ state, (sink.flush state).2 = .ok ()

theorem Sink.willing_accepting : Sink.accepting.Willing where
  accept _ bytes hne := ⟨(), bytes.length, rfl, List.length_pos_iff.mpr hne⟩
  flush _ := rfl

namespace Outlet

theorem offer_of_willing (h : sink.Willing) (o : Outlet σ) {bytes : Bytes} (hne : bytes ≠ []) :
    ∃ later count, offer sink o bytes = (later, .ok count) ∧ 0 < count := by
  obtain ⟨state, count, haccept, hpos⟩ := h.accept o.state bytes hne
  have hlen := List.length_pos_iff.mpr hne
  refine ⟨⟨state, o.received ++ bytes.take count⟩, min count bytes.length, ?_, by omega⟩
  rw [offer, haccept]

theorem deliver_of_willing (h : sink.Willing) (o : Outlet σ) (bytes : Bytes) :
    ∃ state, deliver sink o bytes = (⟨state, o.received ++ bytes⟩, .ok ()) := by
  have hok : (deliver sink o bytes).2 = .ok () := by
    fun_induction deliver sink o bytes with
    | case1 o => rfl
    | case2 o bytes hne o' message hoffer =>
      obtain ⟨_, _, htaken, -⟩ := offer_of_willing h o hne
      cases hoffer.symm.trans htaken
    | case3 o bytes hne o' hoffer =>
      obtain ⟨_, _, htaken, hpos⟩ := offer_of_willing h o hne
      cases hoffer.symm.trans htaken
      exact absurd hpos (Nat.lt_irrefl 0)
    | case4 o bytes _ o' count _ _ ih => exact ih
  obtain ⟨accepted, rest, hparts, hreceived, hall⟩ := deliver_spec sink o bytes
  rw [hall hok, List.append_nil] at hparts
  subst hparts
  refine ⟨(deliver sink o bytes).1.state, Prod.ext ?_ hok⟩
  rw [← hreceived]

end Outlet

namespace Coverage

variable {setting : Setting} {input : Bytes} {e : InstrumentError}

-- ---------------------------------------------------------------------------
-- Refused inputs
-- ---------------------------------------------------------------------------

/-- What may be wrong with an input: it is no text, it does not parse, or it no longer does so
once it is instrumented. -/
inductive Refused (setting : Setting) (input : Bytes) : InstrumentError → Prop
  | encoding (hinput : ∀ text, input ≠ .ofText text) :
      Refused setting input (.encoding (.ofBytes input))
  | unparsable {text : String} {cause : SyntaxError} (hinput : input = .ofText text)
      (hparse : setting.parser (.ofPath setting.file) text = .error cause) :
      Refused setting input (.unparsable cause)
  | broken {text code : String} {root : Node} {cause : SyntaxError} (hinput : input = .ofText text)
      (hparse : setting.parser (.ofPath setting.file) text = .ok root)
      (hcode : (Plan.ofTree setting.object text root).render? text = some code)
      (hbroken : setting.parser (.ofPath setting.file) code = .error cause) :
      Refused setting input (.broken cause)

theorem toText_eq_error_iff {cause : EncodingError} : input.toText = .error cause ↔
    (∀ text, input ≠ .ofText text) ∧ cause = .ofBytes input := by
  constructor
  · intro herror
    refine ⟨fun text hinput => ?_, ?_⟩
    · rw [Bytes.toText_eq_ok_iff.mpr hinput] at herror
      cases herror
    · unfold Bytes.toText at herror
      split at herror
      · cases herror
      · cases herror
        rfl
  · rintro ⟨hinput, rfl⟩
    unfold Bytes.toText
    split
    · rename_i text htext
      have hok : input.toText = .ok text := by rw [Bytes.toText, htext]
      exact absurd (Bytes.toText_eq_ok_iff.mp hok) (hinput text)
    · rfl

/-- Where function bodies open with a brace, an input is refused for no other reason. -/
theorem instrumentBytes_eq_error_iff
    (h : ∀ dialect text root, setting.parser dialect text = .ok root → Placeable text root) :
    instrumentBytes setting input = .error e ↔ Refused setting input e := by
  constructor
  · intro herror
    unfold instrumentBytes at herror
    split at herror
    · rename_i cause hcause
      obtain ⟨hinput, rfl⟩ := toText_eq_error_iff.mp hcause
      cases herror
      exact .encoding hinput
    · rename_i text htext
      have hinput := Bytes.toText_eq_ok_iff.mp htext
      unfold instrumentText at herror
      split at herror
      · rename_i cause hparse
        cases herror
        exact .unparsable hinput hparse
      · rename_i root hparse
        have hcode := Insertion.render?_eq ((h _ _ _ hparse).isCut setting.object)
        simp only [Plan.render?, hcode] at herror
        split at herror
        · rename_i cause hbroken
          cases herror
          exact .broken hinput hparse hcode hbroken
        · cases herror
  · intro hrefused
    cases hrefused with
    | encoding hinput => simp only [instrumentBytes, toText_eq_error_iff.mpr ⟨hinput, rfl⟩]
    | unparsable hinput hparse =>
      simp only [instrumentBytes, Bytes.toText_eq_ok_iff.mpr hinput, instrumentText, Setting.dialect,
        hparse]
    | broken hinput hparse hcode hbroken =>
      simp only [instrumentBytes, Bytes.toText_eq_ok_iff.mpr hinput, instrumentText, Setting.dialect,
        hparse, hcode, hbroken]

theorem refused_iff
    (h : ∀ dialect text root, setting.parser dialect text = .ok root → Placeable text root) :
    (∃ e, Refused setting input e) ↔ (instrumentBytes setting input).isOk = false := by
  simp only [← instrumentBytes_eq_error_iff h]
  cases instrumentBytes setting input <;> simp [Except.isOk, Except.toBool]

structure Made (setting : Setting) (input : Bytes) (code : String) (map : StatementMap) : Prop where
  parses : ∃ root, setting.parser (.ofPath setting.file) code = .ok root
  counts : ∃ text root, input = .ofText text ∧ setting.parser (.ofPath setting.file) text = .ok root ∧
    (Plan.ofTree setting.object text root).render? text = some code ∧
    (Plan.ofTree setting.object text root).map = map

theorem made_of_instrumentBytes {code : String} {map : StatementMap}
    (h : instrumentBytes setting input = .ok (code, map)) : Made setting input code map := by
  unfold instrumentBytes instrumentText at h
  split at h
  · cases h
  · rename_i text htext
    have hinput := Bytes.toText_eq_ok_iff.mp htext
    split at h
    · cases h
    · rename_i root hparse
      simp only at h
      split at h
      · cases h
      · rename_i code' hcode
        split at h
        · cases h
        · rename_i again hagain
          cases h
          exact ⟨⟨again, hagain⟩, text, root, hinput, hparse, hcode, rfl⟩

-- ---------------------------------------------------------------------------
-- Outcomes
-- ---------------------------------------------------------------------------

namespace Stage

structure Accepted (setting : Setting) (input : Bytes) (s : Stage σ) : Prop where
  log : s.log = []
  made : ∃ code map, s.outlet.received = .ofText code ∧ s.statementMap? = some map ∧
    Made setting input code map

structure PassedThrough (input : Bytes) (s : Stage σ) : Prop where
  log : ∃ message, s.log = [⟨.error, message⟩]
  received : s.outlet.received = input
  map : s.statementMap? = some .empty

theorem emit_of_willing {s : Stage σ} (h : s.sink.Willing) :
    ∃ state, s.emit = ({ s with
      phase := .done, buffer := [], outlet := ⟨state, s.outlet.received ++ s.buffer⟩ }, .ok ()) := by
  obtain ⟨state, hdeliver⟩ := Outlet.deliver_of_willing h s.outlet s.buffer
  refine ⟨(s.sink.flush state).1, ?_⟩
  simp only [emit, hdeliver, Outlet.flush, h.flush]

theorem transform_of_ok {s : Stage σ} {code : String} {map : StatementMap}
    (h : instrumentBytes s.setting s.buffer = .ok (code, map)) :
    s.transform = { s with phase := .instrumenting, map, buffer := .ofText code } := by
  simp only [transform, h]

theorem transform_of_error {s : Stage σ} (h : instrumentBytes s.setting s.buffer = .error e) :
    s.transform =
      { s with phase := .passThrough, log := s.log ++ [failureEntry s.setting.file e] } := by
  simp only [transform, h]

theorem finish_of_willing {s : Stage σ} (h : s.sink.Willing) (hphase : s.phase = .accumulating) :
    ∃ state, s.perform .finish = ({ s.transform with
      phase := .done, buffer := []
      outlet := ⟨state, s.outlet.received ++ s.transform.buffer⟩ }, .ok none) := by
  obtain ⟨-, hsink, houtlet⟩ := transform_eq s
  have hwilling : s.transform.sink.Willing := hsink ▸ h
  obtain ⟨state, hemit⟩ := emit_of_willing hwilling
  rw [houtlet] at hemit
  refine ⟨state, ?_⟩
  rw [perform_finish hphase, hemit]
  rfl

/-- However a stage is fed, the end of input works if the sink takes everything. The input then
decides whether an instrumented text that parses comes out, or the input itself with an empty
map. -/
theorem finish_outcome
    (h : ∀ dialect text root, setting.parser dialect text = .ok root → Placeable text root)
    (hsink : sink.Willing) (state : σ) {calls : List Call} (hc : .finish ∉ calls) :
    let input := Call.input calls
    let ended := ((start setting sink state).after calls).perform .finish
    ended.2 = .ok none ∧
      (Accepted setting input ended.1 ↔ ¬∃ e, Refused setting input e) ∧
      (PassedThrough input ended.1 ↔ ∃ e, Refused setting input e) ∧
      ∀ e, Refused setting input e → ended.1.log = [failureEntry setting.file e] := by
  intro input ended
  let fed : Stage σ := { start setting sink state with buffer := input }
  have hfed : (start setting sink state).after calls = fed := after_of_accumulating rfl hc
  have hended : ended = fed.perform .finish := congrArg (perform · .finish) hfed
  obtain ⟨last, hlast⟩ := finish_of_willing (s := fed) hsink rfl
  simp only [← instrumentBytes_eq_error_iff h]
  cases hcode : instrumentBytes setting input with
  | ok made =>
    obtain ⟨code, map⟩ := made
    have hmade : Made setting input code map := made_of_instrumentBytes hcode
    rw [hended, hlast, transform_of_ok (s := fed) hcode]
    refine ⟨rfl, ⟨?_, fun _ => ⟨rfl, code, map, rfl, rfl, hmade⟩⟩, ⟨?_, ?_⟩, nofun⟩
    · rintro - ⟨e, he⟩
      cases he
    · rintro ⟨⟨message, hlog⟩, -, -⟩
      cases hlog
    · rintro ⟨e, he⟩
      cases he
  | error e =>
    rw [hended, hlast, transform_of_error (s := fed) hcode]
    refine ⟨rfl, ⟨?_, fun hnone => absurd ⟨e, rfl⟩ hnone⟩, ⟨fun _ => ⟨e, rfl⟩, ?_⟩, ?_⟩
    · rintro ⟨hlog, -⟩
      cases hlog
    · exact fun _ => ⟨⟨_, rfl⟩, rfl, rfl⟩
    · rintro e' he
      cases he
      rfl

def typedOnly (parser : Parser) : Parser := fun dialect text =>
  if dialect = .typeScript then parser dialect text else .error ⟨1, .unclear⟩

theorem placeable_typedOnly {parser : Parser}
    (h : ∀ dialect text root, parser dialect text = .ok root → Placeable text root)
    (dialect : Dialect) (text : String) (root : Node)
    (hparse : typedOnly parser dialect text = .ok root) : Placeable text root := by
  unfold typedOnly at hparse
  split at hparse
  · exact h dialect text root hparse
  · cases hparse

theorem finish_outcome_loneParser :
    let setting (file object : String) : Setting := ⟨file, object, typedOnly loneParser⟩
    let ended (file object : String) (input : Bytes) :=
      ((start (setting file object) .accepting ()).after [.writeAll input, .flush]).perform .finish
    (∀ dialect text root, typedOnly loneParser dialect text = .ok root → Placeable text root) ∧
      Sink.accepting.Willing ∧ .finish ∉ [Call.writeAll (.ofText "b"), .flush] ∧
      Accepted (setting "b.ts" "V") (.ofText "b") (ended "b.ts" "V" (.ofText "b")).1 ∧
      PassedThrough (.ofText "b") (ended "b.js" "V" (.ofText "b")).1 ∧
      PassedThrough (.ofText "b") (ended "b.ts" "no name" (.ofText "b")).1 ∧
      PassedThrough (.ofText "c") (ended "b.ts" "V" (.ofText "c")).1 ∧
      PassedThrough [0xC3] (ended "b.ts" "V" [0xC3]).1 := by
  intro setting ended
  have hparser : ∀ dialect text root, typedOnly loneParser dialect text = .ok root →
      Placeable text root := placeable_typedOnly fun dialect text root h =>
    (parserOk_loneParser dialect text root h).placeable
  have hfinish (input : Bytes) : .finish ∉ [Call.writeAll input, .flush] := by simp
  have houtcome (file object : String) (input : Bytes) :=
    @finish_outcome _ _ (setting file object) hparser Sink.willing_accepting () _ (hfinish input)
  have hinput (input : Bytes) : Call.input [.writeAll input, .flush] = input := List.append_nil _
  have hrefused (file object : String) (input : Bytes)
      (h : (instrumentBytes (setting file object) input).isOk = false) :
      PassedThrough input (ended file object input).1 := by
    obtain ⟨-, -, hpassed, -⟩ := houtcome file object input
    rw [hinput] at hpassed
    exact hpassed.mpr ((refused_iff hparser).mpr h)
  refine ⟨hparser, Sink.willing_accepting, hfinish _, ?_, ?_, ?_, ?_, ?_⟩
  · obtain ⟨-, haccepted, -⟩ := houtcome "b.ts" "V" (.ofText "b")
    rw [hinput] at haccepted
    refine haccepted.mpr fun hsome => ?_
    have hfails := (refused_iff hparser).mp hsome
    have hworks : (instrumentBytes (setting "b.ts" "V") (.ofText "b")).isOk = true := by
      decide +kernel
    rw [hworks] at hfails
    cases hfails
  · exact hrefused "b.js" "V" (.ofText "b") (by decide +kernel)
  · exact hrefused "b.ts" "no name" (.ofText "b") (by decide +kernel)
  · exact hrefused "b.ts" "V" (.ofText "c") (by decide +kernel)
  · exact hrefused "b.ts" "V" [0xC3] (by decide +kernel)

end Stage

end Coverage

end Mutagen
