import Nesting.Angle.Collect
import Nesting.Angle.Mark
import Nesting.Bracket
import Nesting.Byte
import Nesting.CommandLine.Arguments
import Nesting.CommandLine.Help
import Nesting.CommandLine.Program
import Nesting.Delimiter
import Nesting.Error
import Nesting.FileContent
import Nesting.Grammar
import Nesting.Lexer.Cell
import Nesting.Lexer.State
import Nesting.Lexer.Transition
import Nesting.Main
import Nesting.Paint.Command
import Nesting.Paint.Highlight
import Nesting.Paint.Json
import Nesting.Paint.Palette
import Nesting.Paint.Window
import Nesting.Pairing.Match
import Nesting.Pairing.Site
import Nesting.Pending
import Nesting.Position.Basic
import Nesting.Position.Text
import Nesting.Proofs.Delimiters
import Nesting.Proofs.Place
import Nesting.Scan
import Nesting.Settings
import Nesting.Terminal
import Nesting.Toml.Document
import Nesting.Toml.Scalar
import Nesting.Toml.Text
import Nesting.Toml.Value
import Nesting.Word
import Nesting.Proofs.Pairing.Span
import Nesting.Proofs.Pairing.Growth
import Nesting.Proofs.Pending
import Nesting.Proofs.Pairing.Run
import Nesting.Proofs.Pairing.NonCrossing
import Nesting.Proofs.Pairing.Depth
import Nesting.Proofs.Angle.Order
import Nesting.Proofs.Pairing.Balanced
import Nesting.Proofs.Lexer.Memory
import Nesting.Proofs.Lexer.Token
import Nesting.Proofs.Angle.Trim
import Nesting.Proofs.Angle.Collector
import Nesting.Proofs.Angle.Segment
import Nesting.Proofs.Scan.Prefix
import Nesting.Proofs.Lexer.Shift
import Nesting.Proofs.Scan.LineBreak
import Nesting.Proofs.Angle.Agreement
import Nesting.Proofs.Scan.PlainPairs
import Nesting.Proofs.Paint.Cursor
import Nesting.Proofs.Scan.Blank
import Nesting.Proofs.Lexer.NestedComment
import Nesting.Proofs.Lexer.CharLiteral
import Nesting.Proofs.Lexer.Escape
import Nesting.Proofs.Checked.Lexer
import Nesting.Proofs.Checked.Reader
import Nesting.Proofs.Checked.Angle
import Nesting.Proofs.Checked.Scan
import Nesting.Proofs.Angle.Deletion
import Nesting.Proofs.Lexer.Apostrophe
import Nesting.Proofs.Scan.Lifetime
import Nesting.Proofs.Angle.Consumption
import Nesting.Proofs.Paint.Culling
import Nesting.Proofs.Paint.Ranges
import Nesting.Proofs.Position.Text
import Nesting.Proofs.Paint.Command
import Nesting.Proofs.Lexer.Consistency
import Nesting.Proofs.Pairing.Closer
import Nesting.Proofs.Position.Offset
