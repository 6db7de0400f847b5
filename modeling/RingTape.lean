import RingTape.Datum.Basic
import RingTape.Datum.Show
import RingTape.Decimal.Binary64
import RingTape.Decimal.Shortest
import RingTape.Demonstration
import RingTape.Direction
import RingTape.FileTree
import RingTape.History.ArrayFile
import RingTape.History.Diagram
import RingTape.History.Encoding
import RingTape.History.Save
import RingTape.Launch.CommandLine
import RingTape.Launch.Defaults
import RingTape.Launch.Load
import RingTape.Launch.Outcome
import RingTape.Machine.Basic
import RingTape.Machine.Playback
import RingTape.Machine.Report
import RingTape.Machine.Run
import RingTape.Main
import RingTape.Names
import RingTape.Program.Line
import RingTape.Program.Parse
import RingTape.Proofs.Checked
import RingTape.Proofs.Datum.Entries
import RingTape.Proofs.Datum.Integers
import RingTape.Proofs.Datum.Labels
import RingTape.Proofs.Direction
import RingTape.Proofs.FileTree
import RingTape.Proofs.History.ArrayFile
import RingTape.Proofs.History.ArrayReader
import RingTape.Proofs.History.Encoding
import RingTape.Proofs.History.GivenEncoding
import RingTape.Proofs.History.Save
import RingTape.Proofs.Launch.Complaint
import RingTape.Proofs.Launch.Environment
import RingTape.Proofs.Launch.Faults
import RingTape.Proofs.Launch.Load
import RingTape.Proofs.Launch.Modes
import RingTape.Proofs.Launch.ProgramFile
import RingTape.Proofs.Machine.Composition
import RingTape.Proofs.Machine.Failure
import RingTape.Proofs.Machine.Halted
import RingTape.Proofs.Machine.History
import RingTape.Proofs.Machine.InitialTape
import RingTape.Proofs.Machine.Playback
import RingTape.Proofs.Machine.Precedence
import RingTape.Proofs.Machine.PrintedTape
import RingTape.Proofs.Machine.Recurrence
import RingTape.Proofs.Machine.Report
import RingTape.Proofs.Machine.Resize
import RingTape.Proofs.Machine.Run
import RingTape.Proofs.Machine.Session
import RingTape.Proofs.Machine.Step
import RingTape.Proofs.Machine.Symmetry
import RingTape.Proofs.Machine.Unlimited
import RingTape.Proofs.Machine.Waiting
import RingTape.Proofs.Program.Faults
import RingTape.Proofs.Program.Legible
import RingTape.Proofs.Program.Line
import RingTape.Proofs.Program.Printable
import RingTape.Proofs.Program.Reading
import RingTape.Proofs.Program.Remarks
import RingTape.Proofs.Program.RoundTrip
import RingTape.Proofs.Program.RuleText
import RingTape.Proofs.Table.Alike
import RingTape.Proofs.Table.BlockLines
import RingTape.Proofs.Table.Faults
import RingTape.Proofs.Table.GroupItems
import RingTape.Proofs.Table.GroupLines
import RingTape.Proofs.Table.EntryLines
import RingTape.Proofs.Table.Import
import RingTape.Proofs.Table.LineEnds
import RingTape.Proofs.Table.Lookup
import RingTape.Proofs.Table.Quoting
import RingTape.Proofs.Table.RoundTrip
import RingTape.Proofs.Table.Shorthand
import RingTape.Proofs.Table.Simulation
import RingTape.Proofs.Table.Terminal
import RingTape.Proofs.Tape
import RingTape.Proofs.Text.Lines
import RingTape.Proofs.Text.LowerCase
import RingTape.Proofs.Text.Numeral
import RingTape.Proofs.Text.Utf8
import RingTape.Proofs.Yaml.Block
import RingTape.Proofs.Yaml.Braces
import RingTape.Proofs.Yaml.Characters
import RingTape.Proofs.Yaml.Cursor
import RingTape.Proofs.Yaml.Document
import RingTape.Proofs.Yaml.Gap
import RingTape.Proofs.Yaml.Layout
import RingTape.Proofs.Yaml.LineEnds.Cursor
import RingTape.Proofs.Yaml.LineEnds.Lexer
import RingTape.Proofs.Yaml.LineEnds.Property
import RingTape.Proofs.Yaml.LineEnds.Scalar
import RingTape.Proofs.Yaml.Marks
import RingTape.Proofs.Yaml.Nodes
import RingTape.Proofs.Yaml.Rows
import RingTape.Proofs.Yaml.ScalarText
import RingTape.Proofs.Yaml.Steps
import RingTape.Rule
import RingTape.Ruleset
import RingTape.Table.Import
import RingTape.Table.SymbolGroup
import RingTape.Table.TokenCheck
import RingTape.Table.Transition
import RingTape.Tape
import RingTape.TapeSize
import RingTape.Text.Blank
import RingTape.Text.DecimalDigit
import RingTape.Text.Lines
import RingTape.Text.LowerCase
import RingTape.Text.Numeral
import RingTape.Text.Printable
import RingTape.Text.Quoted
import RingTape.Text.Utf8
import RingTape.Token
import RingTape.Yaml.Cursor
import RingTape.Yaml.Fault
import RingTape.Yaml.Node
import RingTape.Yaml.Scalar
import RingTape.Yaml.Tag
import RingTape.Yaml.Token.Basic
import RingTape.Yaml.Token.Lexer
import RingTape.Yaml.Token.Property
import RingTape.Yaml.Token.Scalar
import RingTape.Yaml.Value
