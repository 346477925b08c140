import Mutagen.Command.Arguments
import Mutagen.Command.FileSystem
import Mutagen.Command.Instrument
import Mutagen.Command.Mutate
import Mutagen.Command.Run
import Mutagen.Command.Usage
import Mutagen.Command.World
import Mutagen.Coverage.Instrument
import Mutagen.Coverage.Json
import Mutagen.Coverage.Plan
import Mutagen.Coverage.Sink
import Mutagen.Coverage.Slot
import Mutagen.Coverage.Splice
import Mutagen.Coverage.Stage
import Mutagen.Coverage.StatementMap
import Mutagen.Dialect
import Mutagen.Diff.Lines
import Mutagen.Diff.Script
import Mutagen.Diff.Shift
import Mutagen.Diff.Snake
import Mutagen.Json.Basic
import Mutagen.Json.Decimal
import Mutagen.Json.Field
import Mutagen.Json.Quoted
import Mutagen.Json.Reader
import Mutagen.Json.Token
import Mutagen.Json.Writer
import Mutagen.Main
import Mutagen.Mutant.Basic
import Mutagen.Mutant.Diff
import Mutagen.Mutant.Json
import Mutagen.Notice
import Mutagen.Operator.Basic
import Mutagen.Operator.Binary
import Mutagen.Operator.Control
import Mutagen.Operator.Literal
import Mutagen.Operator.Registry
import Mutagen.Operator.Unary
import Mutagen.Survey.Basic
import Mutagen.Survey.Parallel
import Mutagen.SyntaxError
import Mutagen.Text.Blank
import Mutagen.Text.Encoding
import Mutagen.Text.Json
import Mutagen.Text.Line
import Mutagen.Text.Position
import Mutagen.Text.Slice
import Mutagen.Tree.Basic
import Mutagen.Tree.Json
import Mutagen.Tree.Listing
import Mutagen.Tree.Site
import Mutagen.Tree.Token
import Mutagen.Proofs.Except
import Mutagen.Proofs.Survey.Gather
import Mutagen.Proofs.Survey.Parallel
import Mutagen.Proofs.Tree.Nodes
import Mutagen.Proofs.Tree.Sites
import Mutagen.Proofs.Tree.Order
import Mutagen.Proofs.Coverage.Visit
import Mutagen.Proofs.Text.Position
import Mutagen.Proofs.Coverage.Numbering
import Mutagen.Proofs.Coverage.Order
import Mutagen.Proofs.Coverage.Splice
import Mutagen.Proofs.Coverage.Offsets
import Mutagen.Proofs.Coverage.Rewriting
import Mutagen.Proofs.Coverage.Stage
import Mutagen.Proofs.Operator.Standard
import Mutagen.Proofs.Survey.Sequential
import Mutagen.Proofs.Mutant.Inject
import Mutagen.Proofs.Mutant.Seam
import Mutagen.Proofs.Survey.Placement
import Mutagen.Proofs.Survey.Selection
import Mutagen.Proofs.Coverage.Outcome
import Mutagen.Proofs.Survey.Answers
import Mutagen.Proofs.Coverage.Chunks
import Mutagen.Proofs.Json.Quoted
import Mutagen.Proofs.Json.Layout
import Mutagen.Proofs.Json.Reading
import Mutagen.Proofs.Json.Writing
import Mutagen.Proofs.Json.Fields
import Mutagen.Proofs.Json.Record
import Mutagen.Proofs.Mutant.Forms
import Mutagen.Proofs.Mutant.RoundTrip
import Mutagen.Proofs.Coverage.MapRoundTrip
import Mutagen.Proofs.Tree.Faults
import Mutagen.Proofs.SyntaxError.Clean
import Mutagen.Proofs.Text.Bytes
import Mutagen.Proofs.Coverage.Weave
import Mutagen.Proofs.Coverage.Strip
import Mutagen.Proofs.Command.FileSystem
import Mutagen.Proofs.Command.Arguments
import Mutagen.Proofs.Command.Instrument
import Mutagen.Proofs.Command.Listing
import Mutagen.Proofs.Tree.Tokens
import Mutagen.Proofs.SyntaxError.Blame
import Mutagen.Proofs.Operator.Neighbours
import Mutagen.Proofs.Text.Locate
import Mutagen.Proofs.Tree.Spans
import Mutagen.Proofs.Diff.Shortest
import Mutagen.Proofs.Diff.Tidy
import Mutagen.Proofs.Diff.Lines
import Mutagen.Proofs.Mutant.Diff
import Mutagen.Proofs.Operator.Changes
import Mutagen.Proofs.Survey.Changes
import Mutagen.Proofs.Coverage.Clear
import Mutagen.Proofs.Coverage.Prologue
