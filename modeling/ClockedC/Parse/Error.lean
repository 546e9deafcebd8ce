import ClockedC.Program.Operator
import ClockedC.Shape
import ClockedC.Token.Scan

/-!
# Parse errors

The faults that stop the reading of a program, and their wording. Each is reported with the line on
which it was noticed.
-/

namespace ClockedC

/-- Where a punctuation mark was called for. -/
inductive Place where
  | afterParameters
  | startOfBody
  | endOfBody
  | afterArraySize
  | startOfElements
  | endOfElements
  | afterDeclaration
  | afterAssignment
  | afterReturn
  | afterIf
  | afterIfCondition
  | afterIfBlock
  | afterElseIf
  | afterElseIfCondition
  | afterElseIfBlock
  | afterElse
  | afterElseBlock
  | afterWhile
  | afterWhileCondition
  | afterWhileBlock
  | afterFor
  | afterForStart
  | afterForCondition
  | afterForHeader
  | afterForBody
  | afterJump (jump : Jump)
  | afterExpression
  | afterArguments (callee : String)
  | afterIndex
deriving DecidableEq, Repr

/-- The words for a place. -/
def Place.phrase : Place → String
  | afterParameters => "after parameter list"
  | startOfBody => "to start function body"
  | endOfBody => "at end of function body"
  | afterArraySize => "after array size"
  | startOfElements => "for array initializer"
  | endOfElements => "after array initializer"
  | afterDeclaration => "after variable declaration"
  | afterAssignment => "after assignment"
  | afterReturn => "after return statement"
  | afterIf => "after 'if'"
  | afterIfCondition => "after if condition"
  | afterIfBlock => "after if block"
  | afterElseIf => "after 'else if'"
  | afterElseIfCondition => "after else if condition"
  | afterElseIfBlock => "after else if block"
  | afterElse => "after else"
  | afterElseBlock => "after else block"
  | afterWhile => "after 'while'"
  | afterWhileCondition => "after while condition"
  | afterWhileBlock => "after while block"
  | afterFor => "after 'for'"
  | afterForStart => "after for-init assignment"
  | afterForCondition => "after for condition"
  | afterForHeader => "after for header"
  | afterForBody => "after for body"
  | afterJump jump => s!"after '{jump.spelling}'"
  | afterExpression => "after expression"
  | afterArguments callee => s!"after function call arguments for '{callee}'"
  | afterIndex => "after array index"

/-- A place where the tokens do not fit the grammar, or where a declaration is refused. -/
inductive GrammarFault where
  | missing (mark : Punct) (place : Place)
  | noParameterType (found : Symbol)
  | noParameterName
  | noVariableName
  | noArraySize
  | noElement (found : Symbol)
  | noOperand (op : BinaryOp)
  | noExpression (found : Symbol)
  | noIndex (base : String)
  | conflict (conflict : Conflict)
deriving DecidableEq, Repr

/-- The wording of a fault. -/
def GrammarFault.message : GrammarFault → String
  | missing mark place => s!"Expected '{mark.char}' {place.phrase}"
  | noParameterType found => s!"Expected parameter type, found {found.describe}"
  | noParameterName => "Expected parameter name"
  | noVariableName => "Expected variable name after type"
  | noArraySize => "Expected array size after '['"
  | noElement found =>
    s!"Expected number or identifier in array initializer, found {found.describe}"
  | noOperand op => s!"Expected right operand after operator '{op.spelling}'"
  | noExpression found => s!"Expected expression, found {found.describe}"
  | noIndex base => s!"Expected array index for '{base}'"
  | conflict c => c.message

/-- Why a source is not a program. -/
inductive ParseFault where
  | lexical (fault : ScanFault)
  | grammar (fault : GrammarFault)
  /-- A literal index outside of the array it is applied to. -/
  | indexOutOfBounds (name : String) (index : Int) (size : Nat)
  | jumpOutsideLoop (jump : Jump)
deriving DecidableEq, Repr

/-- The wording of a fault. -/
def ParseFault.message : ParseFault → String
  | lexical fault => fault.message
  | grammar fault => fault.message
  | indexOutOfBounds name index size =>
    s!"Array index {index} out of bounds for '{name}' with size {size}"
  | jumpOutsideLoop jump => s!"'{jump.spelling}' not within a loop"

/-- A fault and the line on which it was noticed. -/
structure ParseError where
  fault : ParseFault
  line : Nat
deriving DecidableEq, Repr

namespace ParseError

/-- A fault of grammar on a line. -/
def grammar (fault : GrammarFault) (line : Nat) : ParseError :=
  ⟨.grammar fault, line⟩

/-- What a fault in the tokens of a source is to its parser. -/
def ofScanError (e : ScanError) : ParseError :=
  ⟨.lexical e.fault, e.position.line⟩

end ParseError

end ClockedC
