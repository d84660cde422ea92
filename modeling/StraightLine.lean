import StraightLine.Text.Character
import StraightLine.Text.Offset
import StraightLine.Text.Decimal
import StraightLine.Span
import StraightLine.Kind
import StraightLine.Carving
import StraightLine.Carving.Pattern
import StraightLine.Carving.Munch
import StraightLine.Carving.Scan
import StraightLine.Fault
import StraightLine.Lexeme
import StraightLine.Program
import StraightLine.Program.Parser
import StraightLine.Stream
import StraightLine.Program.Reading
import StraightLine.Program.Tree
import StraightLine.Program.Evaluation
import StraightLine.Assembly
import StraightLine.Assembly.Slots
import StraightLine.Assembly.Compilation
import StraightLine.Json
import StraightLine.Json.Printer
import StraightLine.Json.Reader
import StraightLine.Lexeme.Json
import StraightLine.Program.Json
import StraightLine.Report
import StraightLine.Stream.Use
import StraightLine.Bench
import StraightLine.Session
import StraightLine.Command.Path
import StraightLine.Command.Disk
import StraightLine.Command.Arguments
import StraightLine.Command.Execution
import StraightLine.Command.Workshop
import StraightLine.Main
import StraightLine.Proofs.Grammar
import StraightLine.Proofs.Grammar.Rules
import StraightLine.Proofs.Grammar.Spelling
import StraightLine.Proofs.Grammar.Refusal
import StraightLine.Proofs.Decimal
import StraightLine.Proofs.Machine
import StraightLine.Proofs.Lexeme
import StraightLine.Proofs.Carving
import StraightLine.Proofs.Carving.Foremost
import StraightLine.Proofs.Lexeme.Tiling
import StraightLine.Proofs.Lexeme.Comment
import StraightLine.Proofs.Lexeme.Segment
import StraightLine.Proofs.Lexeme.Separator
import StraightLine.Proofs.Program
import StraightLine.Proofs.Program.Layout
import StraightLine.Proofs.Program.Modes
import StraightLine.Proofs.Program.Origin
import StraightLine.Proofs.Program.Resolution
import StraightLine.Proofs.Program.Listing
import StraightLine.Proofs.Slots
import StraightLine.Proofs.Machine.Simulation
import StraightLine.Proofs.Machine.Refinement
import StraightLine.Proofs.Machine.Stack
import StraightLine.Proofs.Position
import StraightLine.Proofs.Position.Order
import StraightLine.Proofs.Report
import StraightLine.Proofs.Stream.Use
import StraightLine.Proofs.Tools
import StraightLine.Proofs.Lexeme.Delimiters
import StraightLine.Proofs.Lexeme.Spacing
import StraightLine.Proofs.Slots.Frame
import StraightLine.Proofs.Program.Extension
import StraightLine.Proofs.Program.Renaming
import StraightLine.Proofs.Tree
import StraightLine.Proofs.Tree.Unique
import StraightLine.Proofs.Disk
import StraightLine.Proofs.Command.Build
import StraightLine.Proofs.Command.Outputs
import StraightLine.Proofs.Command.Delivery
import StraightLine.Proofs.Json
import StraightLine.Proofs.Json.Layout
import StraightLine.Proofs.Json.Views
import StraightLine.Proofs.Command.Failure
import StraightLine.Proofs.Command.Views
import StraightLine.Proofs.Command.Table
import StraightLine.Proofs.Command.Cleanup
