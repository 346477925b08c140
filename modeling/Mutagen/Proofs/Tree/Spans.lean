import Mutagen.Proofs.Coverage.Outcome
import Mutagen.Proofs.Survey.Placement
import Mutagen.Proofs.Text.Locate

/-!
# The spans of nodes

Mutants and statement maps tell where a node is by a span. The byte range of the node can be read
off that span, and the spans of a text lie to each other as the ranges do (`Span.locates_nodes`).
-/

namespace Mutagen

/-- The span is that of a range of the text, and the offsets of its ends are those of the range. -/
structure Span.Locates (text : String) (span : Span) (start stop : Nat) : Prop where
  eq : span = .ofOffsets text start stop
  start : span.start.toOffset text = start
  stop : span.stop.toOffset text = stop
  le : span.start ≤ span.stop

namespace Span

variable {text : String} {p q : Span} {a b c d : Nat}

theorem locates_ofOffsets (text : String) (h : a ≤ b) : (ofOffsets text a b).Locates text a b where
  eq := rfl
  start := Position.toOffset_ofOffset text a
  stop := Position.toOffset_ofOffset text b
  le := Position.ofOffset_le text h

theorem Locates.relations (hp : p.Locates text a b) (hq : q.Locates text c d) :
    (p.Within q ↔ c ≤ a ∧ b ≤ d) ∧ (p.Apart q ↔ b ≤ c ∨ d ≤ a) ∧ (p.start < q.start ↔ a < c) ∧
      (p = q ↔ a = c ∧ b = d) := by
  refine ⟨?_, ?_, ?_, fun h => ?_, ?_⟩
  · rw [hp.eq, hq.eq]
    exact within_ofOffsets
  · rw [hp.eq, hq.eq]
    exact apart_ofOffsets
  · rw [hp.eq, hq.eq]
    exact Position.ofOffset_lt_iff
  · subst h
    exact ⟨hp.start.symm.trans hq.start, hp.stop.symm.trans hq.stop⟩
  · rintro ⟨rfl, rfl⟩
    exact hp.eq.trans hq.eq.symm

end Span

-- ---------------------------------------------------------------------------
-- Mutants
-- ---------------------------------------------------------------------------

def Operator.FromNodes (o : Operator) : Prop :=
  ∀ {file text site found}, o.mutants file text site = .ok found →
    ∃ name, Replaces name file text site found

theorem Operator.fromNodes_of_mem_standard {o : Operator} (h : o ∈ Registry.standard.operators) :
    o.FromNodes := fun hfound => ⟨o.name, (sound_of_mem_standard h).replaces hfound⟩

theorem Mutant.locates_of_ofSite? {m : Mutant} {file name text replacement : String} {site : Site}
    (h : ofSite? file name text site replacement = some m) :
    m.span.Locates text site.start site.stop := by
  obtain ⟨-, -, hstart, hstop, -, hfits⟩ := fits_of_ofSite? h
  obtain ⟨removed, -, hm⟩ := Option.bind_eq_some_iff.mp h
  cases hm
  exact Span.locates_ofOffsets text hfits.le

theorem Survey.locates_of_mem_run {s : Survey} {paths : List String} {m : Mutant}
    {found : List Mutant} (hs : ∀ o ∈ s.registry.operators, o.FromNodes)
    (h : (s.run paths).result = .ok found) (hm : m ∈ found) :
    ∃ text root, s.reader m.file = .ok text ∧ s.parser (.ofPath m.file) text = .ok root ∧
      ∃ n ∈ root.nodes, m.start = n.start ∧ m.stop = n.stop ∧
        m.span.Locates text n.start n.stop := by
  obtain ⟨path, -, text, root, here, hread, hparse, hhere, hm⟩ := exists_file_of_mem_run h hm
  obtain ⟨site, o, hplace, -, made, hmade, hm⟩ := mem_mutantsOf hhere hm
  obtain ⟨hsite, ho⟩ := mem_places.mp hplace
  obtain ⟨name, hreplaces⟩ := hs o ho hmade
  obtain ⟨target, ht, replacement, hof⟩ := hreplaces m hm
  obtain ⟨rfl, -, hstart, hstop, -, -⟩ := Mutant.fits_of_ofSite? hof
  have hnode := Node.mem_nodes_trans (Node.node_mem_of_sitesOfKind hsite) ht
  exact ⟨text, root, hread, hparse, target.node, hnode, hstart, hstop,
    Mutant.locates_of_ofSite? hof⟩

-- ---------------------------------------------------------------------------
-- Statement maps
-- ---------------------------------------------------------------------------

namespace Coverage

variable {σ : Type} {setting : Setting}

def Forward (root : Node) : Prop := ∀ n ∈ root.nodes, n.start ≤ n.stop

instance (root : Node) : Decidable (Forward root) :=
  inferInstanceAs (Decidable (∀ n ∈ root.nodes, _ ≤ _))

theorem Plan.locates_of_mem_map {object text : String} {root : Node} (h : Forward root)
    {e : Nat × Span} (he : e ∈ (ofTree object text root).map.entries) :
    ∃ n ∈ root.nodes, (statements ++ declarations).contains n.kind = true ∧
      e.2.Locates text n.start n.stop := by
  rw [(ofTree_eq object text root).1] at he
  obtain ⟨⟨s, id⟩, hp, rfl⟩ := List.mem_map.mp he
  obtain ⟨-, -, hs⟩ := List.mem_zipIdx hp
  have hmem : s ∈ counted [] root := hs ▸ List.getElem_mem _
  obtain ⟨hconstruct, hcounted⟩ := List.mem_filter.mp hmem
  have hnode := Site.node_mem_constructs hconstruct
  exact ⟨s.node, hnode, isCounted_kind hcounted, Span.locates_ofOffsets text (h _ hnode)⟩

namespace Stage

theorem input_of_finish (before later : List Call) (h : .finish ∉ before) :
    Call.input (before ++ .finish :: later) = Call.input before := by
  induction before with
  | nil => rfl
  | cons call before ih =>
    obtain ⟨hne, hrest⟩ : .finish ≠ call ∧ .finish ∉ before := by simpa using h
    rw [List.cons_append, input_cons hne.symm, ih hrest, ← input_cons hne.symm]

theorem map_emit (s : Stage σ) : s.emit.1.map = s.map := by
  unfold emit
  split <;> rfl

theorem statementMap?_of_finish (sink : Sink σ) (state : σ) {before : List Call} (later : List Call)
    (hb : .finish ∉ before) :
    ((start setting sink state).after (before ++ .finish :: later)).statementMap? =
      some { start setting sink state with buffer := Call.input before }.transform.map := by
  let fed : Stage σ := { start setting sink state with buffer := Call.input before }
  have hfed : (start setting sink state).after before = fed := after_of_accumulating rfl hb
  have hended : (fed.perform .finish).1 = fed.transform.emit.1 :=
    congrArg Prod.fst (perform_finish rfl)
  have hdone : fed.transform.emit.1.phase = .done := (emit_spec fed.transform).1
  have hafter : (start setting sink state).after (before ++ .finish :: later) =
      fed.transform.emit.1 := by
    rw [after_append, hfed]
    show (fed.perform .finish).1.after later = _
    rw [hended, after_of_done hdone]
  rw [hafter, (spent_of_done hdone).map, map_emit]

/-- The map of a stage is that of the instrumented input, and empty if there is none. -/
theorem map_of_statementMap? {sink : Sink σ} {state : σ} {calls : List Call} {map : StatementMap}
    (h : ((start setting sink state).after calls).statementMap? = some map) :
    map = .empty ∨ ∃ code, instrumentBytes setting (Call.input calls) = .ok (code, map) := by
  by_cases hc : .finish ∈ calls
  · obtain ⟨before, later, rfl, hb⟩ := List.eq_append_cons_of_mem hc
    rw [statementMap?_of_finish sink state later hb] at h
    rw [input_of_finish before later hb]
    cases h
    cases hcode : instrumentBytes setting (Call.input before) with
    | ok made =>
      obtain ⟨code, map⟩ := made
      rw [transform_of_ok hcode]
      exact .inr ⟨code, rfl⟩
    | error e =>
      rw [transform_of_error hcode]
      exact .inl rfl
  · rw [(silent_of_unfinished setting sink state hc).map] at h
    cases h

theorem locates_of_mem_map
    (hp : ∀ dialect text root, setting.parser dialect text = .ok root → Forward root)
    {sink : Sink σ} {state : σ} {calls : List Call} {map : StatementMap} {e : Nat × Span}
    (h : ((start setting sink state).after calls).statementMap? = some map)
    (he : e ∈ map.entries) :
    ∃ text root, Call.input calls = .ofText text ∧
      setting.parser (.ofPath setting.file) text = .ok root ∧
      ∃ n ∈ root.nodes, (statements ++ declarations).contains n.kind = true ∧
        e.2.Locates text n.start n.stop := by
  rcases map_of_statementMap? h with rfl | ⟨code, hmade⟩
  · cases he
  · obtain ⟨text, root, hinput, hparse, -, rfl⟩ := (made_of_instrumentBytes hmade).counts
    exact ⟨text, root, hinput, hparse, Plan.locates_of_mem_map (hp _ _ _ hparse) he⟩

end Stage

end Coverage

-- ---------------------------------------------------------------------------
-- The relation as a whole
-- ---------------------------------------------------------------------------

namespace Span

/-- Positions and offsets of a text determine each other, and the order of the ones is that of the
others. So the span of every mutant that a survey finds, and of every entry of a statement map that
a stage has, is the byte range of its node, and such spans lie to each other as the ranges do. -/
theorem locates_nodes :
    (∀ text n, n ≤ text.utf8ByteSize →
      (Position.ofOffset text n).line = ((Bytes.ofText text).take n).count Bytes.newline ∧
        (Position.ofOffset text n).column = Bytes.sinceBreak ((Bytes.ofText text).take n)) ∧
      (∀ text n, (Position.ofOffset text n).toOffset text = n) ∧
      (∀ text m n, Position.ofOffset text m < Position.ofOffset text n ↔ m < n) ∧
      (∀ text a b c d (p q : Span), p.Locates text a b → q.Locates text c d →
        (p.Within q ↔ c ≤ a ∧ b ≤ d) ∧ (p.Apart q ↔ b ≤ c ∨ d ≤ a) ∧ (p.start < q.start ↔ a < c) ∧
          (p = q ↔ a = c ∧ b = d)) ∧
      (∀ (s : Survey) paths found,
        (∀ o ∈ s.registry.operators, o ∈ Registry.standard.operators ∨ o.FromNodes) →
        (s.run paths).result = .ok found → ∀ m ∈ found,
          ∃ text root, s.reader m.file = .ok text ∧ s.parser (.ofPath m.file) text = .ok root ∧
            ∃ n ∈ root.nodes, m.start = n.start ∧ m.stop = n.stop ∧
              m.span.Locates text n.start n.stop) ∧
      ∀ (σ : Type) (setting : Coverage.Setting) (sink : Sink σ) (state : σ) calls map,
        (∀ dialect text root, setting.parser dialect text = .ok root → Coverage.Forward root) →
        ((Coverage.Stage.start setting sink state).after calls).statementMap? = some map →
        ∀ e ∈ map.entries, ∃ text root, Coverage.Stage.Call.input calls = .ofText text ∧
          setting.parser (.ofPath setting.file) text = .ok root ∧
          ∃ n ∈ root.nodes,
            (Coverage.statements ++ Coverage.declarations).contains n.kind = true ∧
              e.2.Locates text n.start n.stop := by
  refine ⟨fun text n hn => ⟨Position.line_ofOffset text n, Position.column_ofOffset hn⟩,
    Position.toOffset_ofOffset, fun text m n => Position.ofOffset_lt_iff,
    fun text a b c d p q hp hq => hp.relations hq, ?_, ?_⟩
  · intro s paths found hs hresult m hm
    refine Survey.locates_of_mem_run (fun o ho => ?_) hresult hm
    rcases hs o ho with hstandard | hnodes
    · exact Operator.fromNodes_of_mem_standard hstandard
    · exact hnodes
  · intro σ setting sink state calls map hp hmap e he
    exact Coverage.Stage.locates_of_mem_map hp hmap he

/-- A byte order mark, both line breaks, a lone return and characters of several bytes. -/
def mixedText : String := "\uFEFF\r\n\u2028é\r+1;"

def mixedParser : Parser := fun _ text =>
  if text = mixedText then
    .ok (.mk ⟨"program", true, false, false, false, 0, 14, none⟩ [
      .mk ⟨"expression_statement", true, false, false, false, 8, 14, none⟩ [
        .mk ⟨"binary_expression", true, false, false, false, 8, 13, none⟩ [
          .mk ⟨"identifier", true, false, false, false, 8, 10, some "left"⟩ [],
          .mk ⟨"+", false, false, false, false, 11, 12, some "operator"⟩ [],
          .mk ⟨"number", true, false, false, false, 12, 13, some "right"⟩ []],
        .mk ⟨";", false, false, false, false, 13, 14, none⟩ []]])
  else .ok (.mk ⟨"comment", true, false, false, false, 0, text.utf8ByteSize, none⟩ [])

theorem forward_mixedParser (dialect : Dialect) (text : String) (root : Node)
    (h : mixedParser dialect text = .ok root) : Coverage.Forward root := by
  unfold mixedParser at h
  split at h
  · cases h
    decide
  · cases h
    intro n hn
    rw [Node.nodes_eq] at hn
    obtain rfl := List.mem_singleton.mp hn
    exact Nat.zero_le _

theorem locates_nodes_mixedText :
    let survey : Survey := ⟨⟨[.arithmetic, .negateNumber]⟩, fun _ => .ok mixedText, mixedParser⟩
    let stage := (Coverage.Stage.start ⟨"a.js", "V", mixedParser⟩ .accepting ()).after
      [.writeAll (.ofText mixedText), .finish]
    let swap : Mutant := ⟨"a.js", ⟨⟨1, 6⟩, ⟨1, 7⟩⟩, 11, 12, "arithmetic", "+", "-"⟩
    let negation : Mutant := ⟨"a.js", ⟨⟨1, 7⟩, ⟨1, 8⟩⟩, 12, 13, "numeric_negation", "1", "(-1)"⟩
    let entry : Nat × Span := (1, ⟨⟨1, 3⟩, ⟨1, 9⟩⟩)
    (∀ o ∈ survey.registry.operators, o ∈ Registry.standard.operators ∨ o.FromNodes) ∧
      (survey.run ["a.js"]).result = .ok [swap, negation] ∧
      swap.span.Locates mixedText 11 12 ∧
      (∀ dialect text root, mixedParser dialect text = .ok root → Coverage.Forward root) ∧
      (∃ map, stage.statementMap? = some map ∧ entry ∈ map.entries ∧
        entry.2.Locates mixedText 8 14) := by
  intro survey stage swap negation entry
  obtain ⟨-, -, -, -, hmutants, hmaps⟩ := locates_nodes
  have hs : ∀ o ∈ survey.registry.operators, o ∈ Registry.standard.operators ∨ o.FromNodes := by
    simp [survey, Registry.standard]
  have hresult : (survey.run ["a.js"]).result = .ok [swap, negation] := by
    simp only [Survey.run, Survey.visit, Survey.scan, Survey.mutantsOf, Registry.sitesOfKind_kinds]
    rfl
  have hentries : stage.statementMap?.map (·.entries) = some [entry] := by
    have hfinish : .finish ∉ [Coverage.Stage.Call.writeAll (.ofText mixedText)] := by simp
    rw [show stage.statementMap? = _ from Coverage.Stage.statementMap?_of_finish _ _ [] hfinish]
    decide +kernel
  refine ⟨hs, hresult, ?_, forward_mixedParser, ?_⟩
  · obtain ⟨text, root, hread, -, n, -, hstart, hstop, hlocates⟩ :=
      hmutants survey ["a.js"] _ hs hresult swap (by simp)
    cases hread
    rwa [← hstart, ← hstop] at hlocates
  · obtain ⟨map, hmap, hall⟩ := Option.map_eq_some_iff.mp hentries
    have he : entry ∈ map.entries := by simp [hall]
    refine ⟨map, hmap, he, ?_⟩
    obtain ⟨text, root, hinput, -, n, -, -, hlocates⟩ :=
      hmaps _ _ _ _ _ map forward_mixedParser hmap entry he
    obtain rfl : mixedText = text := Bytes.ofText_inj ((List.append_nil _).symm.trans hinput)
    have hstart : entry.2.start.toOffset mixedText = 8 := by decide +kernel
    have hstop : entry.2.stop.toOffset mixedText = 14 := by decide +kernel
    rwa [← hlocates.start, ← hlocates.stop, hstart, hstop] at hlocates

end Span

end Mutagen
