import HuffTrace.Analysis
import HuffTrace.Builtin
import HuffTrace.CommandLine
import HuffTrace.Comment
import HuffTrace.Diagnostics
import HuffTrace.Directory
import HuffTrace.Document
import HuffTrace.Json.Basic
import HuffTrace.Json.Parser
import HuffTrace.Keccak
import HuffTrace.Library
import HuffTrace.Machine.Basic
import HuffTrace.Machine.Run
import HuffTrace.Machine.Step
import HuffTrace.Main
import HuffTrace.Memory
import HuffTrace.Opcode.Basic
import HuffTrace.Opcode.Mnemonic
import HuffTrace.Opcode.Semantics
import HuffTrace.Path
import HuffTrace.Problem
import HuffTrace.Report
import HuffTrace.Source.Header
import HuffTrace.Source.Program
import HuffTrace.Source.Signature
import HuffTrace.Source.Span
import HuffTrace.Source.Token
import HuffTrace.Stack
import HuffTrace.Text.Abridge
import HuffTrace.Text.Blank
import HuffTrace.Text.Digit
import HuffTrace.Text.Extending
import HuffTrace.Text.Hex
import HuffTrace.Text.Pad
import HuffTrace.Text.Printable
import HuffTrace.Text.Quoted
import HuffTrace.Text.Search
import HuffTrace.Value
import HuffTrace.Word.Basic
import HuffTrace.Word.Literal
import HuffTrace.Proofs.Word.Arithmetic
import HuffTrace.Proofs.Memory
import HuffTrace.Proofs.Machine.Step
import HuffTrace.Proofs.Machine.Loop
import HuffTrace.Proofs.Word.Literal
import HuffTrace.Proofs.Evm.Machine
import HuffTrace.Proofs.Opcode.Workspace
import HuffTrace.Proofs.Evm.Folding
import HuffTrace.Proofs.Evm.Tracking
import HuffTrace.Proofs.Evm.Simulation
import HuffTrace.Proofs.Evm.StraightLine
import HuffTrace.Proofs.Text.OneLine
import HuffTrace.Proofs.Opcode.Invariant
import HuffTrace.Proofs.Source.Extent
import HuffTrace.Proofs.Machine.Moves
import HuffTrace.Proofs.Machine.Nesting
import HuffTrace.Proofs.Machine.FrameRule
import HuffTrace.Proofs.Source.Lookahead
import HuffTrace.Proofs.Source.Probe
import HuffTrace.Proofs.Source.Reader
import HuffTrace.Proofs.Source.Cut
import HuffTrace.Proofs.Source.Clear
import HuffTrace.Proofs.Source.Scan
import HuffTrace.Proofs.Comment.Lines
import HuffTrace.Proofs.Comment.Width
import HuffTrace.Proofs.Comment.Annotate
import HuffTrace.Proofs.Source.Lexeme
import HuffTrace.Proofs.Machine.Comments
import HuffTrace.Proofs.Source.Boundary
import HuffTrace.Proofs.Comment.Anchor
import HuffTrace.Proofs.Comment.Again
import HuffTrace.Proofs.Machine.Scope
import HuffTrace.Proofs.Document
import HuffTrace.Proofs.Analysis
import HuffTrace.Proofs.Document.Search
import HuffTrace.Proofs.Machine.Bracket
import HuffTrace.Proofs.Machine.Coverage
import HuffTrace.Proofs.Machine.Limits
import HuffTrace.Proofs.Machine.Alike
import HuffTrace.Proofs.Machine.Agreement
import HuffTrace.Proofs.Machine.Faithful
import HuffTrace.Proofs.Machine.LockStep
import HuffTrace.Proofs.Machine.Budget
import HuffTrace.Proofs.Machine.Labels
import HuffTrace.Proofs.Diagnostics
import HuffTrace.Proofs.Source.Located
import HuffTrace.Proofs.Source.Rejoined
import HuffTrace.Proofs.Machine.Isolation
import HuffTrace.Proofs.Machine.Records
import HuffTrace.Proofs.Machine.View
import HuffTrace.Proofs.Machine.Callee
import HuffTrace.Proofs.Opcode.Visible
import HuffTrace.Proofs.Path
import HuffTrace.Proofs.Source.Inclusion
import HuffTrace.Proofs.Stack.InPlace
import HuffTrace.Proofs.Document.Tree
import HuffTrace.Proofs.Document.Failures
import HuffTrace.Proofs.Machine.Lines
import HuffTrace.Proofs.Report
import HuffTrace.Proofs.Memory.History
import HuffTrace.Proofs.Word.Exact
import HuffTrace.Proofs.Opcode.Regions
import HuffTrace.Proofs.Machine.Memory
import HuffTrace.Proofs.Word.Reading
import HuffTrace.Proofs.Word.Signed
import HuffTrace.Proofs.Source.Parens
import HuffTrace.Proofs.Text.Trim
import HuffTrace.Proofs.Machine.Selector
import HuffTrace.Proofs.Source.Canonical
import HuffTrace.Proofs.Path.Walk
import HuffTrace.Proofs.Machine.Outputs
import HuffTrace.Proofs.Opcode.Arity
import HuffTrace.Proofs.Text.Decimal
import HuffTrace.Proofs.Text.Search
import HuffTrace.Proofs.Opcode.Mnemonic
import HuffTrace.Proofs.Source.Header
import HuffTrace.Proofs.Comment.Column
import HuffTrace.Proofs.Stack.Labels
import HuffTrace.Proofs.Diagnostics.History
import HuffTrace.Proofs.Text.Abridge
import HuffTrace.Proofs.Source.Body
import HuffTrace.Proofs.Machine.Entry
import HuffTrace.Proofs.Json.Escape
import HuffTrace.Proofs.Json.Written
import HuffTrace.Proofs.Report.Json
