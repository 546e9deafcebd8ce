import ClockedC.Compile
import ClockedC.Design.Basic
import ClockedC.Design.Event
import ClockedC.Design.Instances
import ClockedC.Design.Signals
import ClockedC.Diagnostic
import ClockedC.Main
import ClockedC.Notice
import ClockedC.Numeral.Binary
import ClockedC.Numeral.Integer
import ClockedC.Numeral.Scientific
import ClockedC.Parse.Cursor
import ClockedC.Parse.Declaration
import ClockedC.Parse.Error
import ClockedC.Parse.Expr
import ClockedC.Parse.Logged
import ClockedC.Parse.Program
import ClockedC.Parse.Stmt
import ClockedC.Process.Basic
import ClockedC.Process.Naming
import ClockedC.Process.Variable
import ClockedC.Program.Basic
import ClockedC.Program.Expr
import ClockedC.Program.Operator
import ClockedC.Program.Outline
import ClockedC.Program.ScalarType
import ClockedC.Program.Stmt
import ClockedC.Proofs.ArrayContents
import ClockedC.Proofs.BoundedOutput
import ClockedC.Proofs.BraceMatching
import ClockedC.Proofs.CallNumbers
import ClockedC.Proofs.CallWiring
import ClockedC.Proofs.CheckedDeclarations
import ClockedC.Proofs.Concatenation
import ClockedC.Proofs.ConstantIndices
import ClockedC.Proofs.ControlPaths
import ClockedC.Proofs.DeclarationParser
import ClockedC.Proofs.Execution
import ClockedC.Proofs.ExprGrammar
import ClockedC.Proofs.ExprLayout
import ClockedC.Proofs.ExprParser
import ClockedC.Proofs.ExprRoundTrip
import ClockedC.Proofs.ForeignText
import ClockedC.Proofs.FunctionSpelling
import ClockedC.Proofs.Grouping
import ClockedC.Proofs.Lexemes
import ClockedC.Proofs.LexicalScope
import ClockedC.Proofs.LocalSignals
import ClockedC.Proofs.Modularity
import ClockedC.Proofs.Moves
import ClockedC.Proofs.NameClashes
import ClockedC.Proofs.NameFamilies
import ClockedC.Proofs.NextRound
import ClockedC.Proofs.NumberedDesign
import ClockedC.Proofs.OutputPort
import ClockedC.Proofs.ParserAgreement
import ClockedC.Proofs.ParserHeadway
import ClockedC.Proofs.PlainFunction
import ClockedC.Proofs.PositionBlind
import ClockedC.Proofs.Positions
import ClockedC.Proofs.Printable
import ClockedC.Proofs.PrintedText
import ClockedC.Proofs.ProcessNesting
import ClockedC.Proofs.ProgramGrammar
import ClockedC.Proofs.ProgramParser
import ClockedC.Proofs.Reading
import ClockedC.Proofs.Recovery
import ClockedC.Proofs.RenamedText
import ClockedC.Proofs.Scopes
import ClockedC.Proofs.SeenTokens
import ClockedC.Proofs.ShapeHistory
import ClockedC.Proofs.ShapeRegistry
import ClockedC.Proofs.ShownNames
import ClockedC.Proofs.Simulation
import ClockedC.Proofs.SourceLayout
import ClockedC.Proofs.SourceTerms
import ClockedC.Proofs.Spelling
import ClockedC.Proofs.StackView
import ClockedC.Proofs.StmtParser
import ClockedC.Proofs.TextWords
import ClockedC.Proofs.TickAnswer
import ClockedC.Proofs.UnitNumbers
import ClockedC.Proofs.VariableNames
import ClockedC.Proofs.VhdlLayout
import ClockedC.Proofs.VhdlReader
import ClockedC.Proofs.WriteBack
import ClockedC.Session.Arguments
import ClockedC.Session.Basic
import ClockedC.Session.Directory
import ClockedC.Shape
import ClockedC.Text.Basic
import ClockedC.Text.Plain
import ClockedC.Token.Basic
import ClockedC.Token.Scan
import ClockedC.Vhdl.Expr
import ClockedC.Vhdl.Sequential
import ClockedC.Vhdl.Vector
