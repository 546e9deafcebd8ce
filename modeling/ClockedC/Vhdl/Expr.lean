import ClockedC.Program.Expr

/-!
# The text of expressions in VHDL

The text of a value and the text of a condition. A value that is used where a truth value is needed
is compared with zero. A name stands for the signal or variable of that name, so an expression is
renamed before its text is taken wherever its names are kept elsewhere.
-/

namespace ClockedC

/-- The signal that carries the result of a call. -/
def resultWire (callee : String) (unit : Option Nat) : String :=
  match unit with
  | some n => s!"call_{callee}_{n}_res"
  | none => s!"{callee}_result"

/-- The signal that carries the result of a call. -/
def Call.wire (c : Call) : String :=
  resultWire c.callee c.unit

/-- How a binary operator is written in VHDL. -/
def BinaryOp.vhdl : BinaryOp → String
  | eq => "="
  | ne => "/="
  | mod => "mod"
  | bitAnd => "and"
  | bitOr => "or"
  | bitXor => "xor"
  | op => op.spelling

namespace Expr

/-! Each of the following takes an operand together with its text. -/

/-- An operand that stands for a position or a count. -/
def vhdlCount (e : Expr) (text : String) : String :=
  match e.literalValue? with
  | some n => toString n
  | none => s!"to_integer(unsigned({text}))"

/-- The operand of a minus sign, and the sign. -/
def vhdlNegated (e : Expr) (text : String) : String :=
  match e with
  | number _ => s!"to_signed(-{text}, 32)"
  | name _ | element .. => s!"-unsigned({text})"
  | _ => s!"0 - ({text})"

/-- The operand of a logical negation, and the negation. -/
def vhdlInverted (e : Expr) (text : String) : String :=
  if e.isTruthValue then s!"not ({text})" else s!"(unsigned({text}) = 0)"

/-- An operand of a logical operator. -/
def vhdlLogical (e : Expr) (text : String) : String :=
  if e.isTruthValue then s!"({text})" else s!"unsigned({text}) /= 0"

/-- An operand of a comparison. -/
def vhdlCompared (e : Expr) (text : String) : String :=
  match e with
  | number _ => s!"to_unsigned({text}, 32)"
  | unary .neg (number _) => text
  | _ => s!"unsigned({text})"

/-- An operand of an arithmetic operator. -/
def vhdlArithmetic (e : Expr) (text : String) : String :=
  match e with
  | binary .. => s!"({text})"
  | _ => text

/-- A binary operation, given its operands and their texts. -/
def vhdlBinary (op : BinaryOp) (left right : Expr) (l r : String) : String :=
  match op with
  | .and => s!"({left.vhdlLogical l} and {right.vhdlLogical r})"
  | .or => s!"({left.vhdlLogical l} or {right.vhdlLogical r})"
  | .eq | .ne | .lt | .le | .gt | .ge =>
    s!"{left.vhdlCompared l} {op.vhdl} {right.vhdlCompared r}"
  | .bitAnd | .bitOr | .bitXor => s!"unsigned({l}) {op.vhdl} unsigned({r})"
  | .shiftLeft => s!"shift_left(unsigned({l}), {right.vhdlCount r})"
  | .shiftRight => s!"shift_right(unsigned({l}), {right.vhdlCount r})"
  | .add | .sub | .mul | .div | .mod =>
    s!"{left.vhdlArithmetic l} {op.vhdl} {right.vhdlArithmetic r}"

/-- A unary operation, given its operand and the text of it. -/
def vhdlUnary (op : UnaryOp) (operand : Expr) (text : String) : String :=
  match op with
  | .neg => operand.vhdlNegated text
  | .not => operand.vhdlInverted text
  | .bitNot => s!"not unsigned({text})"

/-- The text of an expression that is used as a value. -/
def vhdl : Expr → String
  | number text => text
  | name n => n
  | element base index _ => s!"{base}({index.vhdlCount index.vhdl})"
  | call callee _ unit _ => resultWire callee unit
  | unary op operand => vhdlUnary op operand operand.vhdl
  | binary op left right => vhdlBinary op left right left.vhdl right.vhdl

/-- The text of an expression that is used as a condition. -/
def vhdlCondition (e : Expr) : String :=
  if e.isTruthValue then e.vhdl
  else
    match e.literalValue? with
    | some n => if n = 0 then "false" else "true"
    | none => s!"unsigned({e.vhdl}) /= 0"

end Expr

end ClockedC
