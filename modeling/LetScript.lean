import LetScript.Command
import LetScript.Command.Directory
import LetScript.Compile
import LetScript.Diagnostic.Basic
import LetScript.Diagnostic.Collect
import LetScript.Diagnostic.Report
import LetScript.Grammar.Basic
import LetScript.Layout.Doc
import LetScript.Layout.Writer
import LetScript.Main
import LetScript.Number.Binary64
import LetScript.Number.Numeral
import LetScript.Number.Shortest
import LetScript.Parser.Expression
import LetScript.Parser.Session
import LetScript.Parser.State
import LetScript.Scope.Basic
import LetScript.Scope.Resolution
import LetScript.Script.Basic
import LetScript.Script.Library
import LetScript.Script.Lower
import LetScript.Script.Name
import LetScript.Script.Print
import LetScript.Script.StringLiteral
import LetScript.Source.Line
import LetScript.Source.Position
import LetScript.Text.Blank
import LetScript.Text.Bytes
import LetScript.Text.Hex
import LetScript.Text.Printable
import LetScript.Text.Quoted
import LetScript.Token.Basic
import LetScript.Token.Lexer
import LetScript.Token.Stream
import LetScript.Tree.Basic
import LetScript.Tree.Node
import LetScript.Proofs.Parser.Coverage
import LetScript.Proofs.Parser.Recovery
import LetScript.Proofs.Parser.Acceptance
import LetScript.Proofs.Parser.Completeness
import LetScript.Proofs.Scope.Environment
import LetScript.Proofs.Scope.Lexical
import LetScript.Proofs.Token.LongestMatch
import LetScript.Proofs.Script.Program
import LetScript.Proofs.Parser.Invariant
import LetScript.Proofs.Parser.Origins
import LetScript.Proofs.Diagnostic.Invalid
import LetScript.Proofs.Parser.Awaiting
import LetScript.Proofs.Parser.Isolation
import LetScript.Proofs.Relocation.Blanks
import LetScript.Proofs.Script.StandIns
import LetScript.Proofs.Parser.Locality
import LetScript.Proofs.Parser.Numbering
import LetScript.Proofs.Parser.Progress
import LetScript.Proofs.Parser.Checks
import LetScript.Proofs.Parser.Terminators
import LetScript.Proofs.Token.QuotedNames
import LetScript.Proofs.Token.Respacing
import LetScript.Proofs.Scope.Arena
import LetScript.Proofs.Parser.Extents
import LetScript.Proofs.Parser.Layout
import LetScript.Proofs.Script.Literals
import LetScript.Proofs.Script.Indentation
import LetScript.Proofs.Script.Parentheses
import LetScript.Proofs.Diagnostic.Origins
import LetScript.Proofs.Token.Numerals
import LetScript.Proofs.Source.Lines
import LetScript.Proofs.Diagnostic.Carets
import LetScript.Proofs.Script.Numbers
import LetScript.Proofs.Parser.Occurrences
