import Mathlib.Data.List.Forall2
import Mutagen.Coverage.Instrument
import Mutagen.Proofs.Coverage.Visit
import Mutagen.Proofs.Survey.Gather
import Mutagen.Proofs.Tree.Faults
import Mutagen.Proofs.Tree.Order
import Mutagen.Survey.Parallel

/-!
# Clean trees

A parser made from a recovering one accepts the texts whose trees are clean, if marks can be
trusted (`ofRecovery_eq_ok_iff`). Whatever goes through a tree then goes through a clean one: what
operators would say elsewhere makes no difference (`run_congr`), and counters are placed in clean
trees only.
-/

namespace Mutagen

def Node.Clean (root : Node) : Prop := ∀ n ∈ root.nodes, n.isFault = false

instance (root : Node) : Decidable root.Clean :=
  inferInstanceAs (Decidable (∀ n ∈ root.nodes, n.isFault = false))

-- ---------------------------------------------------------------------------
-- Parsing
-- ---------------------------------------------------------------------------

namespace Node

variable {root : Node}

theorem not_clean_iff : ¬root.Clean ↔ ∃ n ∈ root.nodes, n.isFault = true := by
  simp only [Clean, not_forall, Bool.not_eq_false, exists_prop]

theorem Marked.clean_iff (h : root.Marked) : root.Clean ↔ root.label.faulty = false := by
  rw [← not_iff_not, not_clean_iff, ← h.root, Bool.not_eq_false]

theorem Marked.exists_firstFault (h : root.Marked) (hroot : ¬root.Clean) :
    ∃ fault, root.firstFault? = some fault := by
  obtain ⟨n, hn, hfault⟩ := not_clean_iff.mp hroot
  rw [h.traced.firstFault?_eq]
  exact Option.isSome_iff_exists.mp (List.find?_isSome.mpr ⟨n, hn, hfault⟩)

theorem Marked.cause_ne_unclear (h : root.Marked) (hroot : ¬root.Clean) (text : String) :
    (SyntaxError.ofTree text root).cause ≠ .unclear := by
  obtain ⟨fault, hfault⟩ := h.exists_firstFault hroot
  simp only [SyntaxError.ofTree, hfault]
  split
  · simp
  · split <;> simp

end Node

namespace Parser

variable {recover : Dialect → String → Node} {dialect : Dialect} {text : String}

theorem ofRecovery_of_clean (h : (recover dialect text).Marked)
    (hroot : (recover dialect text).Clean) :
    ofRecovery recover dialect text = .ok (recover dialect text) := by
  simp [ofRecovery, h.clean_iff.mp hroot]

theorem ofRecovery_of_not_clean (h : (recover dialect text).Marked)
    (hroot : ¬(recover dialect text).Clean) :
    ofRecovery recover dialect text = .error (.ofTree text (recover dialect text)) := by
  rw [h.clean_iff, Bool.not_eq_false] at hroot
  simp [ofRecovery, hroot]

theorem ofRecovery_eq_ok_iff (h : (recover dialect text).Marked) {root : Node} :
    ofRecovery recover dialect text = .ok root ↔ recover dialect text = root ∧ root.Clean := by
  by_cases hroot : (recover dialect text).Clean
  · simp only [ofRecovery_of_clean h hroot, Except.ok.injEq]
    exact ⟨fun heq => ⟨heq, heq ▸ hroot⟩, And.left⟩
  · simp only [ofRecovery_of_not_clean h hroot, reduceCtorEq, false_iff]
    rintro ⟨rfl, hclean⟩
    exact hroot hclean

end Parser

-- ---------------------------------------------------------------------------
-- What operators see
-- ---------------------------------------------------------------------------

structure Operator.AgreeOnClean (o o' : Operator) : Prop where
  name : o.name = o'.name
  kinds : o.kinds = o'.kinds
  applies : ∀ site, site.whole.Clean → o.applies site = o'.applies site
  mutants : ∀ path text site, site.whole.Clean →
    o.mutants path text site = o'.mutants path text site

def Registry.AgreeOnClean (r r' : Registry) : Prop :=
  List.Forall₂ Operator.AgreeOnClean r.operators r'.operators

theorem Registry.AgreeOnClean.kinds {r r' : Registry} (h : r.AgreeOnClean r') :
    r.kinds = r'.kinds := by
  obtain ⟨operators⟩ := r
  obtain ⟨operators'⟩ := r'
  have hkinds : operators.flatMap (·.kinds) = operators'.flatMap (·.kinds) := by
    change List.Forall₂ Operator.AgreeOnClean operators operators' at h
    induction h with
    | nil => rfl
    | cons ho _ ih => simp [ho.kinds, ih]
  simp only [Registry.kinds, hkinds]

theorem gather_congr {α α' β ε : Type} {f : α → Except ε (List β)} {g : α' → Except ε (List β)}
    {as : List α} {as' : List α'} (h : List.Forall₂ (fun a a' => f a = g a') as as') :
    gather f as = gather g as' := by
  induction h with
  | nil => rfl
  | cons h _ ih => simp [gather, h, ih]

namespace Survey

variable {reader : Reader} {parser : Parser} {r r' : Registry}

theorem consult_congr {o o' : Operator} (ho : o.AgreeOnClean o') (path text : String)
    {site : Site} (h : site.whole.Clean) :
    consult path text site o = consult path text site o' := by
  simp [consult, ho.name, ho.applies site h, ho.mutants path text site h]

theorem mutantsOf_congr (hr : r.AgreeOnClean r') (path text : String) {root : Node}
    (h : root.Clean) :
    mutantsOf ⟨r, reader, parser⟩ path text root = mutantsOf ⟨r', reader, parser⟩ path text root := by
  unfold mutantsOf
  rw [hr.kinds]
  refine gather_congr (List.forall₂_same.mpr fun site hsite => gather_congr ?_)
  have hclean : site.whole.Clean := Site.whole_of_mem_sitesOfKind hsite ▸ h
  exact List.Forall₂.imp (fun _ _ ho => consult_congr ho path text hclean) hr

/-- Only what operators say in clean trees makes a difference. -/
theorem scan_congr (hr : r.AgreeOnClean r')
    (hparser : ∀ dialect text root, parser dialect text = .ok root → root.Clean) :
    scan ⟨r, reader, parser⟩ = scan ⟨r', reader, parser⟩ := by
  funext path
  unfold scan
  dsimp only
  split
  · rfl
  · rfl
  · split
    · rfl
    · rename_i text _ _ root hparse
      rw [mutantsOf_congr hr path text (hparser _ _ _ hparse)]

-- a survey looks at its files through `scan` only

theorem run_congr {s s' : Survey} (h : s.scan = s'.scan) : s.run = s'.run := by
  have hvisit : ∀ paths, s.visit paths = s'.visit paths := by
    intro paths
    induction paths with
    | nil => rfl
    | cons path rest ih => rw [visit, visit, h, ih]
  funext paths
  rw [run, run, hvisit]

theorem runParallel_congr {s s' : Survey} (h : s.scan = s'.scan) :
    s.runParallel = s'.runParallel := by
  have hstep : ∀ paths, Board.step s paths = Board.step s' paths := by
    intro paths
    funext b turn
    rw [Board.step, Board.step, h]
  funext schedule paths
  simp only [runParallel, finalBoard, hstep]

end Survey

-- ---------------------------------------------------------------------------
-- Broken texts
-- ---------------------------------------------------------------------------

/-- If the marks of all recovered trees can be trusted, a search finds the first fault of a tree, a
text is accepted just when its tree is clean, and otherwise there is a fault to blame. So neither
operators nor counters have to do with anything but clean trees. -/
theorem clean_of_accepted {recover : Dialect → String → Node}
    (h : ∀ dialect text, (recover dialect text).Marked) :
    let parser := Parser.ofRecovery recover
    (∀ dialect text, let root := recover dialect text
      Site.findFault? (.ofRoot root) = (Site.sites [] root).find? (·.node.isFault) ∧
      root.firstFault? = root.nodes.find? (·.isFault) ∧
      (∀ accepted, parser dialect text = .ok accepted ↔ root = accepted ∧ accepted.Clean) ∧
      (¬root.Clean → parser dialect text = .error (.ofTree text root) ∧
        (∃ fault, root.firstFault? = some fault) ∧
        (SyntaxError.ofTree text root).cause ≠ .unclear)) ∧
    (∀ (reader : Reader) (r r' : Registry), r.AgreeOnClean r' →
      Survey.run ⟨r, reader, parser⟩ = Survey.run ⟨r', reader, parser⟩ ∧
      Survey.runParallel ⟨r, reader, parser⟩ = Survey.runParallel ⟨r', reader, parser⟩) ∧
    ∀ file object text, let setting : Coverage.Setting := ⟨file, object, parser⟩
      let root := recover (.ofPath file) text
      (¬root.Clean →
        Coverage.instrumentText setting text = .error (.unparsable (.ofTree text root))) ∧
      (root.Clean →
        Coverage.Plan.ofTree object text root =
          (Site.constructs [] root).foldl (Coverage.Plan.count object text) .blank ∧
        ∀ s ∈ Site.constructs [] root, s.whole.Clean) := by
  intro parser
  have haccepted : ∀ dialect text root, parser dialect text = .ok root → root.Clean :=
    fun dialect text root hroot => ((Parser.ofRecovery_eq_ok_iff (h dialect text)).mp hroot).2
  refine ⟨fun dialect text => ?_, fun reader r r' hr => ?_, fun file object text => ?_⟩
  · have hmarked := h dialect text
    refine ⟨Site.findFault?_ofRoot hmarked.traced, hmarked.traced.firstFault?_eq,
      fun accepted => Parser.ofRecovery_eq_ok_iff hmarked, fun hroot => ?_⟩
    exact ⟨Parser.ofRecovery_of_not_clean hmarked hroot, hmarked.exists_firstFault hroot,
      hmarked.cause_ne_unclear hroot text⟩
  · have hscan : Survey.scan ⟨r, reader, parser⟩ = Survey.scan ⟨r', reader, parser⟩ :=
      Survey.scan_congr hr haccepted
    exact ⟨Survey.run_congr hscan, Survey.runParallel_congr hscan⟩
  · intro setting root
    refine ⟨fun hroot => ?_, fun hroot => ⟨?_, fun s hs => ?_⟩⟩
    · have hparse : setting.parser (.ofPath setting.file) text = .error (.ofTree text root) :=
        Parser.ofRecovery_of_not_clean (h _ text) hroot
      simp only [Coverage.instrumentText, Coverage.Setting.dialect, hparse]
    · exact Coverage.Plan.visit_eq_foldl object text [] .blank root
    · exact Site.whole_of_mem_constructs hs ▸ hroot

/-- The tree of `a;{b;@}`. What is not marked in it is passed over, but for the fault itself. -/
def strayAt : Node :=
  let leaf (kind : String) (isError : Bool) (start : Nat) : Node :=
    .mk ⟨kind, isError, isError, false, false, start, start + 1, none⟩ []
  let node (kind : String) (faulty : Bool) (start stop : Nat) (children : List Node) : Node :=
    .mk ⟨kind, true, false, false, faulty, start, stop, none⟩ children
  node "program" true 0 7 [
    node "expression_statement" false 0 2 [node "identifier" false 0 1 [], leaf ";" false 1],
    node "statement_block" true 2 7 [
      leaf "\x7b" false 2,
      node "expression_statement" false 3 5 [node "identifier" false 3 4 [], leaf ";" false 4],
      leaf "ERROR" true 5,
      leaf "\x7d" false 6]]

/-- Finds fault with one text, and takes all others for empty programs. -/
def recoverStray : Dialect → String → Node := fun _ text =>
  if text = "a;\x7bb;@\x7d" then strayAt
  else .mk ⟨"program", true, false, false, false, 0, 0, none⟩ []

def bystander (failing : Bool) : Operator where
  name := "bystander"
  kinds := ["identifier"]
  applies _ := true
  mutants _ _ site := if failing ∧ ¬site.whole.Clean then .error .noArgument else .ok []

theorem clean_of_accepted_strayAt :
    let parser := Parser.ofRecovery recoverStray
    let reader : Reader := fun _ => .ok "a;\x7bb;@\x7d"
    (∀ dialect text, (recoverStray dialect text).Marked) ∧
      strayAt.firstFault?.map (·.start) = some 5 ∧
      parser (.ofPath "a.js") "a;\x7bb;@\x7d" = .error ⟨1, .unexpectedToken "@"⟩ ∧
      Survey.run ⟨⟨[bystander true]⟩, reader, parser⟩ =
        Survey.run ⟨⟨[bystander false]⟩, reader, parser⟩ ∧
      Coverage.instrumentText ⟨"a.js", "V", parser⟩ "a;\x7bb;@\x7d" =
        .error (.unparsable ⟨1, .unexpectedToken "@"⟩) := by
  have h : ∀ dialect text, (recoverStray dialect text).Marked := by
    intro dialect text
    unfold recoverStray
    split <;> decide +kernel
  have hagree : Registry.AgreeOnClean ⟨[bystander true]⟩ ⟨[bystander false]⟩ := by
    refine .cons ⟨rfl, rfl, fun _ _ => rfl, fun path text site hsite => ?_⟩ .nil
    simp [bystander, hsite]
  have hclean : ¬strayAt.Clean := by decide +kernel
  obtain ⟨hparse, hoperators, hcounters⟩ := clean_of_accepted h
  obtain ⟨-, hfirst, -, hbroken⟩ := hparse (.ofPath "a.js") "a;\x7bb;@\x7d"
  have hroot : recoverStray (.ofPath "a.js") "a;\x7bb;@\x7d" = strayAt := rfl
  rw [hroot] at hfirst hbroken
  have hcause : SyntaxError.ofTree "a;\x7bb;@\x7d" strayAt = ⟨1, .unexpectedToken "@"⟩ := by
    rw [SyntaxError.ofTree, hfirst]
    decide +kernel
  refine ⟨h, ?_, ?_, ?_, ?_⟩
  · rw [hfirst]
    decide +kernel
  · rw [(hbroken hclean).1, hcause]
  · rw [(hoperators _ _ _ hagree).1]
  · rw [(hcounters "a.js" "V" "a;\x7bb;@\x7d").1 hclean, ← hcause]
    rfl

end Mutagen
