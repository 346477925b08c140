import Mutagen.Coverage.Instrument
import Mutagen.Coverage.Sink
import Mutagen.Notice

/-!
# Instrumenting stages

A stage stands before a sink and is bound to one file. It takes the bytes of the file in any
number of pieces and holds them back until the end of input is declared. Then the instrumented
text goes to the sink, or the bytes as they were if they cannot be instrumented.
-/

namespace Mutagen.Coverage

/-- Where a stage stands. Between calls it is either accumulating or done. -/
inductive Phase
  | accumulating
  | instrumenting
  | passThrough
  | done
  deriving BEq, DecidableEq, Repr

structure Stage (σ : Type) where
  setting : Setting
  sink : Sink σ
  phase : Phase
  buffer : Bytes
  map : StatementMap
  outlet : Outlet σ
  log : Log

namespace Stage

variable {σ : Type}

def start (setting : Setting) (sink : Sink σ) (state : σ) : Stage σ where
  setting
  sink
  phase := .accumulating
  buffer := []
  map := .empty
  outlet := ⟨state, []⟩
  log := []

def statementMap? (s : Stage σ) : Option StatementMap :=
  if s.phase = .done then some s.map else none

/-- Takes a piece of the input whole, unless the end of input has been declared. -/
def write (s : Stage σ) (piece : Bytes) : Stage σ × Except String Nat :=
  if s.phase = .accumulating then ({ s with buffer := s.buffer ++ piece }, .ok piece.length)
  else (s, .error ("instrumenter for \"" ++ s.setting.file ++ "\" no longer accepts input"))

def writeAll (s : Stage σ) (piece : Bytes) : Stage σ × Except String Unit :=
  if piece = [] then (s, .ok ())
  else match s.write piece with
    | (s, result) => (s, result.map fun _ => ())

def flush (s : Stage σ) : Stage σ × Except String Unit := (s, .ok ())

def failureEntry (file : String) (e : InstrumentError) : Notice :=
  ⟨.error, "Error while instrumenting file \"" ++ file ++ "\", error was: " ++ e.message⟩

def transform (s : Stage σ) : Stage σ :=
  match instrumentBytes s.setting s.buffer with
  | .ok (code, map) => { s with phase := .instrumenting, map, buffer := .ofText code }
  | .error e =>
    { s with phase := .passThrough, log := s.log ++ [failureEntry s.setting.file e] }

/-- Hands the buffer to the sink, and flushes the sink if that worked. -/
def emit (s : Stage σ) : Stage σ × Except String Unit :=
  match s.outlet.deliver s.sink s.buffer with
  | (outlet, .error message) =>
    ({ s with phase := .done, buffer := [], outlet }, .error message)
  | (outlet, .ok ()) =>
    match outlet.flush s.sink with
    | (outlet, result) => ({ s with phase := .done, buffer := [], outlet }, result)

/-- Declares the end of input. Doing so again changes nothing. -/
def finish (s : Stage σ) : Stage σ × Except String Unit :=
  if s.phase = .accumulating then s.transform.emit else (s, .ok ())

-- ---------------------------------------------------------------------------
-- Histories
-- ---------------------------------------------------------------------------

inductive Call
  | write (piece : Bytes)
  | writeAll (piece : Bytes)
  | flush
  | finish
  deriving BEq, DecidableEq, Repr

abbrev Answer := Except String (Option Nat)

def perform (s : Stage σ) : Call → Stage σ × Answer
  | .write piece => let (s, result) := s.write piece; (s, result.map some)
  | .writeAll piece => let (s, result) := s.writeAll piece; (s, result.map fun _ => none)
  | .flush => let (s, result) := s.flush; (s, result.map fun _ => none)
  | .finish => let (s, result) := s.finish; (s, result.map fun _ => none)

def after (s : Stage σ) (calls : List Call) : Stage σ := calls.foldl (fun s c => (s.perform c).1) s

/-- The bytes that calls offer before the first end of input. -/
def Call.input : List Call → Bytes
  | [] | .finish :: _ => []
  | .write piece :: rest | .writeAll piece :: rest => piece ++ input rest
  | .flush :: rest => input rest

end Stage

structure Instrumented where
  code : String
  map : StatementMap
  log : Log
  deriving DecidableEq, Repr

def instrument (setting : Setting) (text : String) : Except String Instrumented := do
  let (fed, taken) := (Stage.start setting .accepting ()).writeAll (.ofText text)
  taken
  let (ended, emitted) := fed.finish
  emitted
  match ended.outlet.received.toText with
  | .error e => .error e.message
  | .ok code => .ok ⟨code, ended.statementMap?.getD .empty, ended.log⟩

end Mutagen.Coverage
