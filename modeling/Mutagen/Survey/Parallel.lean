import Mutagen.Survey.Basic

/-!
# Surveys by parallel tasks

One task per file. A task first looks at a board where the indices of failed files are noted, and
gives up if it sees one before its own; otherwise it scans its file and, if that fails, notes its
own index. Tasks may be interleaved in any way, and a look may miss notes. Once all tasks are
over, their outcomes are gone through in the order of the files.
-/

namespace Mutagen.Survey

inductive Task
  | waiting
  | cleared
  | skipped
  | scanned (outcome : Except SurveyError Finding)
  | settled (outcome : Except SurveyError Finding)

/-- All tasks, the indices noted so far with the latest first, and the indices of the files that
were scanned, in the order of scanning. -/
structure Board where
  tasks : List Task
  failures : List Nat
  scans : List Nat

/-- The next step of a task. If the step is a look at the board, `glance` selects the note that
the task sees; without such a note it sees an empty board. -/
structure Turn where
  task : Nat
  glance : Option Nat
  deriving BEq, DecidableEq, Repr

abbrev Schedule := List Turn

namespace Board

def start (count : Nat) : Board := ⟨List.replicate count .waiting, [], []⟩

def seen (b : Board) (turn : Turn) : Option Nat := turn.glance.bind (b.failures[·]?)

/-- The board after a turn. A turn of a task that is over, or that does not exist, is void. -/
def step (s : Survey) (paths : List String) (b : Board) (turn : Turn) : Board :=
  let becomes (task : Task) : Board := { b with tasks := b.tasks.set turn.task task }
  match b.tasks[turn.task]?, paths[turn.task]? with
  | some .waiting, _ =>
    if (b.seen turn).any (· < turn.task) then becomes .skipped else becomes .cleared
  | some .cleared, some path =>
    { becomes (.scanned (s.scan path)) with scans := b.scans ++ [turn.task] }
  | some (.scanned (.ok finding)), _ => becomes (.settled (.ok finding))
  | some (.scanned (.error e)), _ =>
    { becomes (.settled (.error e)) with failures := turn.task :: b.failures }
  | _, _ => b

end Board

def Schedule.inOrder (count : Nat) : Schedule :=
  (List.range count).flatMap fun task => List.replicate 3 ⟨task, some 0⟩

def Task.outcome? : Task → Option (Except SurveyError Finding)
  | .scanned outcome | .settled outcome => some outcome
  | .waiting | .cleared | .skipped => none

def collect : List (Option (Except SurveyError Finding)) → Report
  | [] | none :: _ => .blank
  | some (.error e) :: _ => .fail e
  | some (.ok finding) :: rest => (collect rest).follow finding

/-- The board at the end. Turns that the schedule leaves out are taken in order. -/
def finalBoard (s : Survey) (schedule : Schedule) (paths : List String) : Board :=
  (schedule ++ .inOrder paths.length).foldl (Board.step s paths) (.start paths.length)

def runParallel (s : Survey) (schedule : Schedule) (paths : List String) : Report :=
  let board := s.finalBoard schedule paths
  checked paths
    { collect (board.tasks.map Task.outcome?) with reads := board.scans.filterMap (paths[·]?) }

end Mutagen.Survey
