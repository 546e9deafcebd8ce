import ClockedC.Parse.Cursor
import ClockedC.Program.Expr

/-!
# Reading expressions

An expression is a sequence of operands joined by binary operators. The operators of one level group
to the left, and an operator takes as its right operand everything that binds tighter than itself.

```text
expression ::= operand (operator operand)*
operand    ::= ("-" | "!" | "~") operand | "(" expression ")" | number | character | name
             | name "(" (expression ("," expression)*)? ")" | name "[" expression "]"
```

An index that is a literal is checked against the size of its array, if that is known by then.
-/

namespace ClockedC

namespace Symbol

/-- The binary operator that a symbol is. -/
def binary? : Symbol → Option BinaryOp
  | operator spelling => BinaryOp.ofSpelling? spelling
  | _ => none

/-- Whether an operand can begin with a symbol. -/
def opensOperand : Symbol → Bool
  | number _ | character _ | name _ | punct .openParen => true
  | operator spelling => (UnaryOp.ofSpelling? spelling).isSome
  | _ => false

end Symbol

namespace Parse

open Cursor

/-! ## Indices -/

/-- The tokens up to the bracket that closes an index, when `depth` more brackets and parentheses
are open inside of it. There are none where a semicolon or the end of the source comes first. -/
def insideBrackets : (depth : Nat) → List Token → Option (List Token)
  | _, [] => none
  | depth, t :: ts =>
    match t.symbol, depth with
    | .punct .closeBracket, 0 => some []
    | .eof, _ | .punct .semicolon, _ => none
    | .punct .openParen, depth | .punct .openBracket, depth =>
      (insideBrackets (depth + 1) ts).map (t :: ·)
    | .punct .closeParen, depth | .punct .closeBracket, depth =>
      (insideBrackets (depth - 1) ts).map (t :: ·)
    | _, depth => (insideBrackets depth ts).map (t :: ·)

/-- The value of an index that is one integer literal, a minus sign before it allowed. -/
def literalIndex? : List Symbol → Option Int
  | [.number text] => signed64? text
  | [.operator "-", .number text] => (signed64? text).map negate64
  | _ => none

/-- Looks over the index that `ts` begins with, and gives its text. The line is that of the bracket
before it. -/
def indexText (table : ShapeTable) (base : String) (line : Nat) (ts : List Token) :
    Except ParseError String :=
  match insideBrackets 0 ts with
  | none => .error (.grammar (.missing .closeBracket .afterIndex) (Cursor.line ts))
  | some [] => .error (.grammar (.noIndex base) line)
  | some inside =>
    let symbols := inside.map Token.symbol
    let text := String.join (symbols.map Symbol.spelling)
    match literalIndex? symbols with
    | some index =>
      if table.inBounds base index then .ok text
      else .error ⟨.indexOutOfBounds base index ((table.size? base).getD 0), line⟩
    | none => .ok text

/-! ## Expressions -/

mutual

/-- Reads an operand. -/
def operand (table : ShapeTable) (ts : List Token) : Except ParseError (Read Expr ts) :=
  match next? ts with
  | none => .error (.grammar (.noExpression .eof) (line ts))
  | some ⟨t, rest, h⟩ =>
    match t.symbol with
    | .operator spelling =>
      match UnaryOp.ofSpelling? spelling with
      | some op => do
        let ⟨e, rest, h'⟩ ← operand table rest
        return ⟨.unary op e, rest, h.andThen h'⟩
      | none => .error (.grammar (.noExpression t.symbol) t.line)
    | .punct .openParen => do
      let ⟨e, rest, h'⟩ ← expression table BinaryOp.loosest rest
      have h := h.andThen h'
      let ⟨_, rest, h'⟩ ← expect .closeParen .afterExpression rest
      return ⟨e, rest, h.andThen h'⟩
    | .number text => .ok ⟨.number text, rest, h⟩
    | .character c => .ok ⟨.number (toString c.toNat), rest, h⟩
    | .name name =>
      match accept (.punct .openParen) rest with
      | some ⟨_, rest, h'⟩ => do
        have h := h.andThen h'
        let ⟨args, rest, h'⟩ ← arguments table name rest
        return ⟨.call name args none t.position, rest, h.andThen h'⟩
      | none =>
        match accept (.punct .openBracket) rest with
        | some ⟨_, inside, h'⟩ => do
          have h := h.andThen h'
          let ⟨(index, text), rest, h'⟩ ← index table name (line rest) inside
          return ⟨.element name index text, rest, h.andThen h'⟩
        | none => .ok ⟨.name name, rest, h⟩
    | found => .error (.grammar (.noExpression found) t.line)
termination_by 4 * ts.length
decreasing_by all_goals grind

/-- Reads an expression whose operators all have at least a given level. -/
def expression (table : ShapeTable) (level : Nat) (ts : List Token) :
    Except ParseError (Read Expr ts) := do
  let ⟨left, rest, h⟩ ← operand table ts
  let ⟨e, rest, h'⟩ ← operations table level left rest
  return ⟨e, rest, h.andPass h'⟩
termination_by 4 * ts.length + 1
decreasing_by all_goals grind

/-- Goes on reading operators of at least a given level, and their right operands, after the
expression `left`. -/
def operations (table : ShapeTable) (level : Nat) (left : Expr) (ts : List Token) :
    Except ParseError (Pass Expr ts) :=
  match next? ts with
  | none => .ok (.stay left ts)
  | some ⟨t, rest, h⟩ =>
    match t.symbol.binary? with
    | none => .ok (.stay left ts)
    | some op =>
      if op.level < level then .ok (.stay left ts)
      else if (symbol rest).opensOperand then do
        let ⟨right, rest, h'⟩ ← expression table (op.level + 1) rest
        have h := h.andThen h'
        let ⟨e, rest, h'⟩ ← operations table level (.binary op left right) rest
        have h := h.andPass h'
        return ⟨e, rest, h.left⟩
      else .error (.grammar (.noOperand op) (line rest))
termination_by 4 * ts.length
decreasing_by all_goals grind

/-- Reads the arguments of a call and the parenthesis after them. -/
def arguments (table : ShapeTable) (callee : String) (ts : List Token) :
    Except ParseError (Read (List Expr) ts) :=
  match accept (.punct .closeParen) ts with
  | some ⟨_, rest, h⟩ => .ok ⟨[], rest, h⟩
  | none => do
    let ⟨args, rest, h⟩ ← expressions table ts
    let ⟨_, rest, h'⟩ ← expect .closeParen (.afterArguments callee) rest
    return ⟨args, rest, h.andThen h'⟩
termination_by 4 * ts.length + 3
decreasing_by all_goals grind

/-- Reads expressions with commas between them. -/
def expressions (table : ShapeTable) (ts : List Token) :
    Except ParseError (Read (List Expr) ts) := do
  let ⟨e, rest, h⟩ ← expression table BinaryOp.loosest ts
  match accept (.punct .comma) rest with
  | some ⟨_, rest, h'⟩ =>
    have h := h.andThen h'
    let ⟨es, rest, h'⟩ ← expressions table rest
    return ⟨e :: es, rest, h.andThen h'⟩
  | none => return ⟨[e], rest, h⟩
termination_by 4 * ts.length + 2
decreasing_by all_goals grind

/-- Reads an index and the bracket after it. The text of the index comes with it. -/
def index (table : ShapeTable) (base : String) (line : Nat) (ts : List Token) :
    Except ParseError (Read (Expr × String) ts) := do
  let text ← indexText table base line ts
  let ⟨e, rest, h⟩ ← expression table BinaryOp.loosest ts
  let ⟨_, rest, h'⟩ ← expect .closeBracket .afterIndex rest
  return ⟨(e, text), rest, h.andThen h'⟩
termination_by 4 * ts.length + 2
decreasing_by all_goals grind

end

/-- Reads a whole expression. -/
def value (table : ShapeTable) (ts : List Token) : Except ParseError (Read Expr ts) :=
  expression table BinaryOp.loosest ts

end Parse

end ClockedC
