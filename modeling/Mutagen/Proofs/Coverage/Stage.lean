import Mutagen.Coverage.Stage
import Mutagen.Proofs.Coverage.Offsets

/-!
# The life of a stage

A stage is silent until the end of input is declared, whatever it is fed. Declaring it hands the
output over, as far as the sink takes it, and leaves the stage done. Nothing changes a stage that
is done (`after_of_done`), so every history has at most these two parts (`Stage.history`).
-/

namespace Mutagen.Outlet

variable {σ : Type}

-- ---------------------------------------------------------------------------
-- Delivery
-- ---------------------------------------------------------------------------

theorem offer_cases (sink : Sink σ) (o : Outlet σ) (bytes : Bytes) :
    (∃ state message, offer sink o bytes = (⟨state, o.received⟩, .error message)) ∨
      ∃ state accepted rest, bytes = accepted ++ rest ∧
        offer sink o bytes = (⟨state, o.received ++ accepted⟩, .ok accepted.length) := by
  unfold offer
  split
  · exact .inl ⟨_, _, rfl⟩
  · rename_i state count _
    refine .inr ⟨state, bytes.take count, bytes.drop count, (List.take_append_drop ..).symm, ?_⟩
    rw [List.length_take]

/-- Delivery adds a first part of the bytes, and all of them unless it fails. -/
theorem deliver_spec (sink : Sink σ) (o : Outlet σ) (bytes : Bytes) :
    ∃ accepted rest, bytes = accepted ++ rest ∧
      (deliver sink o bytes).1.received = o.received ++ accepted ∧
      ((deliver sink o bytes).2 = .ok () → rest = []) := by
  fun_induction deliver sink o bytes with
  | case1 o => exact ⟨[], [], rfl, by simp, fun _ => rfl⟩
  | case2 o bytes _ o' message hoffer =>
    obtain ⟨state, _, h⟩ | ⟨state, accepted, rest, _, h⟩ := offer_cases sink o bytes
    · cases hoffer.symm.trans h
      exact ⟨[], bytes, rfl, by simp, nofun⟩
    · cases hoffer.symm.trans h
  | case3 o bytes _ o' hoffer =>
    obtain ⟨state, _, h⟩ | ⟨state, accepted, rest, hbytes, h⟩ := offer_cases sink o bytes
    · cases hoffer.symm.trans h
    · obtain ⟨rfl, hcount⟩ := Prod.mk.inj (hoffer.symm.trans h)
      exact ⟨accepted, rest, hbytes, rfl, nofun⟩
  | case4 o bytes _ o' count hoffer _ ih =>
    obtain ⟨state, _, h⟩ | ⟨state, accepted, rest, rfl, h⟩ := offer_cases sink o bytes
    · cases hoffer.symm.trans h
    · cases hoffer.symm.trans h
      rw [List.drop_left] at ih
      obtain ⟨later, left, rfl, hreceived, hall⟩ := ih
      refine ⟨accepted ++ later, left, by simp, ?_, ?_⟩
      · rw [List.drop_left, hreceived, List.append_assoc]
      · rwa [List.drop_left]

end Mutagen.Outlet

namespace Mutagen.Coverage

open Outlet

/-- Texts that a parser accepts can be read with the trees that it gives. -/
def ParserOk (parser : Parser) : Prop :=
  ∀ dialect text root, parser dialect text = .ok root → Readable text root

theorem instrumentBytes_ne_misplaced {setting : Setting} (h : ParserOk setting.parser)
    (bytes : Bytes) : instrumentBytes setting bytes ≠ .error .misplaced := by
  unfold instrumentBytes instrumentText
  split
  · nofun
  · rename_i text _
    cases hroot : setting.parser setting.dialect text with
    | error e => nofun
    | ok root =>
      have hcode := Insertion.render?_eq ((h _ _ _ hroot).isCut setting.object)
      simp only [Plan.render?, hcode]
      split <;> nofun

def outputOf (setting : Setting) (input : Bytes) : Bytes :=
  match instrumentBytes setting input with
  | .ok (code, _) => .ofText code
  | .error _ => input

namespace Stage

variable {σ : Type}

-- ---------------------------------------------------------------------------
-- The end of input
-- ---------------------------------------------------------------------------

theorem transform_eq (s : Stage σ) : s.transform.buffer = outputOf s.setting s.buffer ∧
    s.transform.sink = s.sink ∧ s.transform.outlet = s.outlet := by
  cases h : instrumentBytes s.setting s.buffer <;> simp [transform, outputOf, h]

theorem emit_spec (s : Stage σ) :
    s.emit.1.phase = .done ∧
      s.emit.1.outlet.received = (s.outlet.deliver s.sink s.buffer).1.received ∧
      (s.emit.2 = .ok () → (s.outlet.deliver s.sink s.buffer).2 = .ok ()) ∧
      ∀ message, (s.outlet.deliver s.sink s.buffer).2 = .error message →
        s.emit.2 = .error message := by
  unfold emit
  split
  · rename_i outlet message hd
    simp [hd]
  · rename_i outlet hd
    simp [hd, Outlet.flush]

/-- What the first `finish` does, for the output that it is to hand over. If only flushing fails,
the delivery succeeds. -/
structure Handed (sink : Sink σ) (state : σ) (output : Bytes) (ended : Stage σ × Answer) :
    Prop where
  phase : ended.1.phase = .done
  first : ended.1.outlet.received <+: output
  all : ended.2 = .ok none ∨ (deliver sink ⟨state, []⟩ output).2 = .ok () →
    ended.1.outlet.received = output
  failure : ∀ message, (deliver sink ⟨state, []⟩ output).2 = .error message →
    ended.2 = .error message

theorem perform_finish {s : Stage σ} (h : s.phase = .accumulating) :
    s.perform .finish = (s.transform.emit.1, s.transform.emit.2.map fun _ => none) := by
  rw [perform, finish, if_pos h]

theorem handed_finish {s : Stage σ} {state : σ} (h : s.phase = .accumulating)
    (ho : s.outlet = ⟨state, []⟩) :
    Handed s.sink state (outputOf s.setting s.buffer) (s.perform .finish) := by
  obtain ⟨hbuffer, hsink, houtlet⟩ := transform_eq s
  obtain ⟨hphase, hreceived, hok, herror⟩ := emit_spec s.transform
  rw [houtlet, ho, hsink, hbuffer] at hreceived hok herror
  obtain ⟨accepted, rest, hparts, hdelivered, hall⟩ :=
    deliver_spec s.sink ⟨state, []⟩ (outputOf s.setting s.buffer)
  have hfirst : s.transform.emit.1.outlet.received = accepted := hreceived.trans hdelivered
  rw [perform_finish h]
  refine ⟨hphase, ⟨rest, by rw [hfirst, hparts]⟩, fun hanswer => ?_, fun message hm => ?_⟩
  · have hdelivery : (deliver s.sink ⟨state, []⟩ (outputOf s.setting s.buffer)).2 = .ok () := by
      rcases hanswer with hanswer | hdelivery
      · refine hok ?_
        cases hresult : s.transform.emit.2 with
        | error message => simp [hresult, Except.map] at hanswer
        | ok done => rfl
      · exact hdelivery
    rw [hfirst, hparts, hall hdelivery, List.append_nil]
  · simp [herror message hm, Except.map]

-- ---------------------------------------------------------------------------
-- Histories
-- ---------------------------------------------------------------------------

theorem after_append (s : Stage σ) (calls later : List Call) :
    s.after (calls ++ later) = (s.after calls).after later := List.foldl_append

theorem perform_of_accumulating {s : Stage σ} (h : s.phase = .accumulating) {call : Call}
    (hc : call ≠ .finish) : (s.perform call).1 = { s with buffer := s.buffer ++ Call.input [call] } := by
  cases call with
  | write piece => simp [perform, write, h, Call.input]
  | writeAll piece =>
    by_cases hp : piece = []
    · simp [perform, writeAll, hp, Call.input]
    · simp [perform, writeAll, write, h, hp, Call.input]
  | flush => simp [perform, flush, Call.input]
  | finish => exact absurd rfl hc

theorem input_cons {call : Call} (hc : call ≠ .finish) (calls : List Call) :
    Call.input (call :: calls) = Call.input [call] ++ Call.input calls := by
  cases call <;> simp [Call.input] at hc ⊢

/-- Until the end of input a stage does nothing but collect it. -/
theorem after_of_accumulating {s : Stage σ} (h : s.phase = .accumulating) {calls : List Call}
    (hc : .finish ∉ calls) : s.after calls = { s with buffer := s.buffer ++ Call.input calls } := by
  induction calls generalizing s with
  | nil => simp [after, Call.input]
  | cons call calls ih =>
    obtain ⟨hne, hc⟩ : .finish ≠ call ∧ .finish ∉ calls := by simpa using hc
    have hstep := perform_of_accumulating h hne.symm
    have hphase : (s.perform call).1.phase = .accumulating := by rw [hstep, h]
    rw [input_cons hne.symm]
    show (s.perform call).1.after calls = _
    rw [ih hphase hc, hstep, List.append_assoc]

theorem perform_of_done {s : Stage σ} (h : s.phase = .done) (call : Call) :
    (s.perform call).1 = s := by
  cases call with
  | write piece => simp [perform, write, h]
  | writeAll piece =>
    by_cases hp : piece = []
    · simp [perform, writeAll, hp]
    · simp [perform, writeAll, write, h, hp]
  | flush => rfl
  | finish => simp [perform, finish, h]

theorem after_of_done {s : Stage σ} (h : s.phase = .done) (calls : List Call) :
    s.after calls = s := by
  induction calls with
  | nil => rfl
  | cons call calls ih =>
    show (s.perform call).1.after calls = s
    rw [perform_of_done h, ih]

structure Silent (state : σ) (s : Stage σ) : Prop where
  phase : s.phase = .accumulating
  outlet : s.outlet = ⟨state, []⟩
  log : s.log = []
  map : s.statementMap? = none

/-- A stage whose life is over: it shows its map and refuses all input, and nothing changes it. -/
structure Spent (s : Stage σ) : Prop where
  phase : s.phase = .done
  map : s.statementMap? = some s.map
  write : ∀ piece, piece ≠ [] → ∃ message, (s.perform (.write piece)).2 = .error message
  writeAll : ∀ piece, piece ≠ [] → ∃ message, (s.perform (.writeAll piece)).2 = .error message
  finish : (s.perform .finish).2 = .ok none
  still : ∀ calls, s.after calls = s

theorem silent_of_unfinished (setting : Setting) (sink : Sink σ) (state : σ) {calls : List Call}
    (hc : .finish ∉ calls) : Silent state ((start setting sink state).after calls) := by
  rw [after_of_accumulating rfl hc]
  exact ⟨rfl, rfl, rfl, rfl⟩

theorem spent_of_done {s : Stage σ} (h : s.phase = .done) : Spent s where
  phase := h
  map := if_pos h
  write piece _ := by simp [perform, Stage.write, h, Except.map]
  writeAll piece hp := by simp [perform, Stage.writeAll, Stage.write, h, hp, Except.map]
  finish := by simp [perform, Stage.finish, h, Except.map]
  still := after_of_done h

theorem done_of_finished (setting : Setting) (sink : Sink σ) (state : σ) {calls : List Call}
    (hc : .finish ∈ calls) : ((start setting sink state).after calls).phase = .done := by
  obtain ⟨before, later, rfl, hb⟩ := List.eq_append_cons_of_mem hc
  have hsilent := silent_of_unfinished setting sink state hb
  have hdone := (handed_finish hsilent.phase hsilent.outlet).phase
  rw [after_append]
  show ((((start setting sink state).after before).perform .finish).1.after later).phase = .done
  rw [after_of_done hdone, hdone]

/-- Whatever calls are made on a stage and however its sink takes them, it is silent before the
first `finish`, which hands over the output as far as the sink takes it, and spent from then
on. -/
theorem history {setting : Setting} (h : ParserOk setting.parser) (sink : Sink σ) (state : σ) :
    let fresh := start setting sink state
    (∀ calls, .finish ∉ calls →
      let input := Call.input calls
      Silent state (fresh.after calls) ∧ instrumentBytes setting input ≠ .error .misplaced ∧
        Handed sink state (outputOf setting input) ((fresh.after calls).perform .finish)) ∧
      (∀ calls, .finish ∈ calls → Spent (fresh.after calls)) ∧
      (∀ calls, (fresh.after calls).phase = .accumulating ∨ (fresh.after calls).phase = .done) ∧
      ∀ calls later, (fresh.after calls).phase = .done →
        fresh.after (calls ++ later) = fresh.after calls := by
  intro fresh
  refine ⟨fun calls hc => ?_, fun calls hc => ?_, fun calls => ?_, fun calls later hd => ?_⟩
  · intro input
    have hsilent := silent_of_unfinished setting sink state hc
    have hafter : fresh.after calls = { fresh with buffer := input } := after_of_accumulating rfl hc
    refine ⟨hsilent, instrumentBytes_ne_misplaced h input, ?_⟩
    rw [hafter]
    exact handed_finish (s := { fresh with buffer := input }) rfl rfl
  · exact spent_of_done (done_of_finished setting sink state hc)
  · by_cases hc : .finish ∈ calls
    · exact .inr (done_of_finished setting sink state hc)
    · exact .inl (silent_of_unfinished setting sink state hc).phase
  · rw [after_append, after_of_done hd]

def loneParser : Parser := fun _ text =>
  let leaf (kind : String) (start stop : Nat) (field : Option String) : Node :=
    .mk ⟨kind, false, false, false, false, start, stop, field⟩ []
  let node (kind : String) (start stop : Nat) (field : Option String) (children : List Node) :
      Node := .mk ⟨kind, true, false, false, false, start, stop, field⟩ children
  if text = "b" then
    .ok (node "program" 0 1 none [
      node "expression_statement" 0 1 none [node "identifier" 0 1 none []]])
  else if text = "V.s['1']++;b" then
    .ok (node "program" 0 12 none [
      node "expression_statement" 0 11 none [
        node "update_expression" 0 10 none [
          node "subscript_expression" 0 8 (some "argument") [
            node "member_expression" 0 3 (some "object") [
              node "identifier" 0 1 (some "object") [],
              leaf "." 1 2 none,
              node "property_identifier" 2 3 (some "property") []],
            leaf "[" 3 4 none,
            node "string" 4 7 (some "index") [
              leaf "'" 4 5 none,
              node "string_fragment" 5 6 none [],
              leaf "'" 6 7 none],
            leaf "]" 7 8 none],
          leaf "++" 8 10 (some "operator")],
        leaf ";" 10 11 none],
      node "expression_statement" 11 12 none [node "identifier" 11 12 none []]])
  else .error ⟨1, .unclear⟩

theorem parserOk_loneParser : ParserOk loneParser := by
  intro dialect text root h
  simp only [loneParser] at h
  split at h
  · rename_i htext
    cases h
    cases htext
    decide +kernel
  · split at h
    · rename_i htext
      cases h
      cases htext
      decide +kernel
    · cases h

/-- A sink that fails once it is full. Its state is the room that it has left. -/
def limited : Sink Nat where
  accept room bytes :=
    if room = 0 then (0, .error "disk full") else (room - bytes.length, .ok (min room bytes.length))
  flush room := (room, .ok ())

theorem history_limited :
    let fresh := start ⟨"b.js", "V", loneParser⟩ limited 5
    let fed := fresh.after [.write (.ofText "b")]
    ParserOk loneParser ∧ Silent 5 fed ∧
      (fed.perform .finish).1.outlet.received <+: Bytes.ofText "V.s['1']++;b" ∧
      (fed.perform .finish).2 = .error "disk full" ∧ Spent (fed.perform .finish).1 := by
  intro fresh fed
  have hparser : ParserOk (Setting.parser ⟨"b.js", "V", loneParser⟩) := parserOk_loneParser
  obtain ⟨hbefore, hafter, -, -⟩ := history hparser limited 5
  obtain ⟨hsilent, -, hhanded⟩ := hbefore [.write (.ofText "b")] (by simp)
  have hinput : Call.input [.write (.ofText "b")] = .ofText "b" := List.append_nil _
  have houtput : outputOf ⟨"b.js", "V", loneParser⟩ (.ofText "b") = .ofText "V.s['1']++;b" := by
    decide +kernel
  have hfull : (deliver limited ⟨5, []⟩ (.ofText "V.s['1']++;b")).2 = .error "disk full" := by
    have hcode : Bytes.ofText "V.s['1']++;b" =
        [86, 46, 115, 91, 39, 49, 39, 93, 43, 43, 59, 98] := by decide +kernel
    simp [hcode, deliver, offer, limited]
  rw [hinput, houtput] at hhanded
  refine ⟨parserOk_loneParser, hsilent, hhanded.first, hhanded.failure _ hfull, ?_⟩
  exact hafter [.write (.ofText "b"), .finish] (by simp)

end Stage

end Mutagen.Coverage
