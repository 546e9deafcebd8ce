import ClockedC.Parse.Declaration

/-!
# Reading statements

```text
statement   ::= declaration | assignment ";" | "return" expression? ";" | "break" ";"
              | "continue" ";" | "if" "(" expression ")" block alternative
              | "while" "(" expression ")" block | "for" "(" init condition increment ")" block
alternative ::= ("else" block | "else" "if" "(" expression ")" block alternative)?
assignment  ::= name "=" expression | name "[" expression "]" "=" expression
init        ::= ";" | declaration | name "=" expression ";"
condition   ::= expression? ";"
increment   ::= (name "++" | "++" name | name "--" | "--" name | name "=" expression)?
block       ::= "{" (statement | "{" | "}")* "}"
```

Braces inside a block group nothing: their statements belong to the block. What is no statement is
left out with a notice, up to the next semicolon or before the next closing brace.
-/

namespace ClockedC

namespace Parse

open Cursor

/-- The two tokens that begin an assignment to a name. -/
def assignedName? (ts : List Token) : Option (Read (String × Position) ts) :=
  match next? ts with
  | some ⟨⟨.name name, position⟩, rest, h⟩ =>
    match accept (.operator "=") rest with
    | some ⟨_, rest, h'⟩ => some ⟨(name, position), rest, h.andThen h'⟩
    | none => none
  | _ => none

/-! ## Loop headers -/

/-- The operator of a step up or down by one. -/
def stepOperator? (spelling : String) : Option BinaryOp :=
  if spelling = "++" then some .add
  else if spelling = "--" then some .sub
  else none

/-- The name and the operator of a step, which may come in either order. -/
def stepOf? : (first second : Symbol) → Option (String × BinaryOp)
  | .name name, .operator spelling | .operator spelling, .name name =>
    (stepOperator? spelling).map fun op => (name, op)
  | _, _ => none

/-- A step up or down by one. -/
def step? (ts : List Token) : Option (Read (String × BinaryOp) ts) :=
  match next? ts with
  | some ⟨first, rest, h⟩ =>
    match next? rest with
    | some ⟨second, rest, h'⟩ =>
      match stepOf? first.symbol second.symbol with
      | some step => some ⟨step, rest, h.andThen h'⟩
      | none => none
    | none => none
  | none => none

/-- Reads what a `for` loop does before its first round, with the semicolon after it. -/
def forStart (table : ShapeTable) (ts : List Token) :
    Logged (Pass (Option ForStart × ShapeTable) ts) :=
  match accept (.punct .semicolon) ts with
  | some ⟨_, rest, h⟩ => return ⟨(none, table), rest, h.left⟩
  | none =>
    match assignedName? ts with
    | some ⟨(name, position), rest, h⟩ => do
      let ⟨e, rest, h'⟩ ← value table rest
      have h := h.andThen h'
      let ⟨_, rest, h'⟩ ← expect .semicolon .afterForStart rest
      have h := h.andThen h'
      return ⟨(some (.assign ⟨.name name, e, position⟩), table), rest, h.left⟩
    | none =>
      match variableType? ts with
      | some ⟨(type, position), rest, h⟩ => do
        let ⟨(d, table), rest, h'⟩ ← declaration table type position rest
        have h := h.andThen h'
        return ⟨(some (.declare d), table), rest, h.left⟩
      | none => do
        .tell (.unknownForStart (line ts))
        return ⟨(none, table), afterSemicolon ts, left_afterSemicolon ts⟩

/-- Reads the condition of a `for` loop with the semicolon after it. Without a condition the loop
goes on as if it were `1`. -/
def forCondition (table : ShapeTable) (ts : List Token) : Except ParseError (Read Expr ts) :=
  match accept (.punct .semicolon) ts with
  | some ⟨_, rest, h⟩ => .ok ⟨.number "1", rest, h⟩
  | none => do
    let ⟨e, rest, h⟩ ← value table ts
    let ⟨_, rest, h'⟩ ← expect .semicolon .afterForCondition rest
    return ⟨e, rest, h.andThen h'⟩

/-- Reads what a `for` loop does after each round, and leaves the parenthesis after it. -/
def forIncrement (table : ShapeTable) (ts : List Token) : Logged (Pass (Option Assignment) ts) :=
  if symbol ts = .punct .closeParen then
    return .stay none ts
  else
    match step? ts with
    | some ⟨(name, op), rest, h⟩ =>
      return ⟨some ⟨.name name, .binary op (.name name) (.number "1"), position ts⟩, rest, h.left⟩
    | none =>
      match assignedName? ts with
      | some ⟨(name, position), rest, h⟩ => do
        let ⟨e, rest, h'⟩ ← value table rest
        have h := h.andThen h'
        return ⟨some ⟨.name name, e, position⟩, rest, h.left⟩
      | none => do
        .tell (.unknownForIncrement (line ts))
        return ⟨none, endOfHeader 0 ts, left_endOfHeader 0 ts⟩

/-- What stands between the word `for` and the body of the loop. -/
structure ForHeader where
  start : Option ForStart
  condition : Expr
  increment : Option Assignment

/-- Reads what stands between the word `for` and the body of the loop, with the brace that opens the
body. -/
def forHeader (table : ShapeTable) (ts : List Token) :
    Logged (Read (ForHeader × ShapeTable) ts) := do
  let ⟨_, rest, h⟩ ← expect .openParen .afterFor ts
  let ⟨(start, table), rest, h'⟩ ← forStart table rest
  have h := h.andPass h'
  let ⟨condition, rest, h'⟩ ← forCondition table rest
  have h := h.andThen h'
  let ⟨increment, rest, h'⟩ ← forIncrement table rest
  have h := h.andPass h'
  let ⟨_, rest, h'⟩ ← expect .closeParen .afterForHeader rest
  have h := h.andThen h'
  let ⟨_, rest, h'⟩ ← expect .openBrace .afterForHeader rest
  return ⟨(⟨start, condition, increment⟩, table), rest, h.andThen h'⟩

/-! ## Simple statements -/

/-- Leaves out the rest of a statement. -/
def leaveOut (table : ShapeTable) (n : Notice) (ts : List Token) :
    Logged (Pass (Option Stmt × ShapeTable) ts) := do
  .tell n
  return ⟨(none, table), afterStatement ts, left_afterStatement ts⟩

/-- Reads the target of an assignment, whose name has been read. -/
def target (table : ShapeTable) (name : String) (ts : List Token) :
    Except ParseError (Pass Target ts) :=
  match accept (.punct .openBracket) ts with
  | some ⟨_, rest, h⟩ => do
    let ⟨(e, text), rest, h'⟩ ← index table name (line ts) rest
    have h := h.andThen h'
    return ⟨.element name e text, rest, h.left⟩
  | none => .ok (.stay (.name name) ts)

/-- Reads an assignment, whose name at `position` has been read. -/
def assignment (table : ShapeTable) (name : String) (position : Position) (ts : List Token) :
    Logged (Pass (Option Stmt × ShapeTable) ts) := do
  let ⟨target, rest, h⟩ ← target table name ts
  match accept (.operator "=") rest with
  | some ⟨_, rest, h'⟩ =>
    have h := h.andThen h'
    let ⟨e, rest, h'⟩ ← value table rest
    have h := h.andThen h'
    let ⟨_, rest, h'⟩ ← expect .semicolon .afterAssignment rest
    have h := h.andThen h'
    return ⟨(some (.assign ⟨target, e, position⟩), table), rest, h.left⟩
  | none =>
    let ⟨nothing, rest, h'⟩ ← leaveOut table (.notAnAssignment position.line target.base) rest
    return ⟨nothing, rest, h.andPass h'⟩

/-- Reads what follows the word `return`. -/
def returned (table : ShapeTable) (position : Position) (ts : List Token) :
    Except ParseError (Read Stmt ts) :=
  match accept (.punct .semicolon) ts with
  | some ⟨_, rest, h⟩ => .ok ⟨.ret none position, rest, h⟩
  | none => do
    let ⟨e, rest, h⟩ ← value table ts
    let ⟨_, rest, h'⟩ ← expect .semicolon .afterReturn rest
    return ⟨.ret (some e) position, rest, h.andThen h'⟩

/-- Reads what follows the word for a jump, which has to stand inside of a loop. -/
def jump (inLoop : Bool) (j : Jump) (position : Position) (ts : List Token) :
    Except ParseError (Read Stmt ts) :=
  if inLoop then do
    let ⟨_, rest, h⟩ ← expect .semicolon (.afterJump j) ts
    return ⟨.jump j position, rest, h⟩
  else .error ⟨.jumpOutsideLoop j, position.line⟩

/-- Reads a condition in parentheses and the brace that opens the block after it. -/
def condition (before after : Place) (table : ShapeTable) (ts : List Token) :
    Except ParseError (Read Expr ts) := do
  let ⟨_, rest, h⟩ ← expect .openParen before ts
  let ⟨e, rest, h'⟩ ← value table rest
  have h := h.andThen h'
  let ⟨_, rest, h'⟩ ← expect .closeParen after rest
  have h := h.andThen h'
  let ⟨_, rest, h'⟩ ← expect .openBrace after rest
  return ⟨e, rest, h.andThen h'⟩

/-! ## Compound statements -/

mutual

/-- Reads the statements of a block, whose opening brace has been read, and the brace that closes
it. Inside of the block, `depth` more braces are open. -/
def block (place : Place) (inLoop : Bool) (depth : Nat) (table : ShapeTable) (ts : List Token) :
    Logged (Read (Block × ShapeTable) ts) :=
  match next? ts with
  | none => .fail (.grammar (.missing .closeBrace place) (line ts))
  | some ⟨t, rest, h⟩ =>
    match t.symbol, depth with
    | .punct .closeBrace, 0 => return ⟨([], table), rest, h⟩
    | .punct .closeBrace, depth + 1 => do
      let ⟨body, rest, h'⟩ ← block place inLoop depth table rest
      return ⟨body, rest, h.andThen h'⟩
    | .punct .openBrace, depth => do
      let ⟨body, rest, h'⟩ ← block place inLoop (depth + 1) table rest
      return ⟨body, rest, h.andThen h'⟩
    | _, depth => do
      let ⟨(s, table), rest, h'⟩ ← statement inLoop table t rest
      have h := h.andPass h'
      let ⟨(ss, table), rest, h'⟩ ← block place inLoop depth table rest
      return ⟨(s.toList ++ ss, table), rest, h.andThen h'⟩
termination_by 3 * ts.length
decreasing_by all_goals grind

/-- Reads the statement that begins with the token `t`. -/
def statement (inLoop : Bool) (table : ShapeTable) (t : Token) (ts : List Token) :
    Logged (Pass (Option Stmt × ShapeTable) ts) :=
  match t.symbol with
  | .keyword (.type .void) => leaveOut table (.unknownStatement t.line t.symbol) ts
  | .keyword (.type type) => do
    let ⟨(d, table), rest, h⟩ ← declaration table type t.position ts
    return ⟨(some (.declare d), table), rest, h.left⟩
  | .name name => assignment table name t.position ts
  | .keyword .returnKw => do
    let ⟨s, rest, h⟩ ← returned table t.position ts
    return ⟨(some s, table), rest, h.left⟩
  | .keyword .ifKw => do
    let ⟨e, rest, h⟩ ← condition .afterIf .afterIfCondition table ts
    let ⟨(body, table), rest, h'⟩ ← block .afterIfBlock inLoop 0 table rest
    have h := h.andThen h'
    let ⟨(otherwise, table), rest, h'⟩ ← alternative inLoop table rest
    have h := h.andPass h'
    return ⟨(some (.branch e body otherwise t.position), table), rest, h.left⟩
  | .keyword .whileKw => do
    let ⟨e, rest, h⟩ ← condition .afterWhile .afterWhileCondition table ts
    let ⟨(body, table), rest, h'⟩ ← block .afterWhileBlock true 0 table rest
    have h := h.andThen h'
    return ⟨(some (.whileLoop e body t.position), table), rest, h.left⟩
  | .keyword .forKw => do
    let ⟨(header, table), rest, h⟩ ← forHeader table ts
    let ⟨(body, table), rest, h'⟩ ← block .afterForBody true 0 table rest
    have h := h.andThen h'
    let loop := .forLoop header.start header.condition body header.increment t.position
    return ⟨(some loop, table), rest, h.left⟩
  | .keyword (.jump j) => do
    let ⟨s, rest, h⟩ ← jump inLoop j t.position ts
    return ⟨(some s, table), rest, h.left⟩
  | .punct .semicolon => do
    .tell (.unknownStatement t.line t.symbol)
    return .stay (none, table) ts
  | found => leaveOut table (.unknownStatement t.line found) ts
termination_by 3 * ts.length + 1
decreasing_by all_goals grind

/-- Reads what follows the block of a branch: `else` blocks, of which a plain one is the last. -/
def alternative (inLoop : Bool) (table : ShapeTable) (ts : List Token) :
    Logged (Pass (Alternative × ShapeTable) ts) :=
  match accept (.keyword .elseKw) ts with
  | none => return .stay (.none, table) ts
  | some ⟨_, rest, h⟩ =>
    match accept (.keyword .ifKw) rest with
    | none => do
      let ⟨_, rest, h'⟩ ← expect .openBrace .afterElse rest
      have h := h.andThen h'
      let ⟨(body, table), rest, h'⟩ ← block .afterElseBlock inLoop 0 table rest
      have h := h.andThen h'
      return ⟨(.body body, table), rest, h.left⟩
    | some ⟨_, rest, h'⟩ => do
      have h := h.andThen h'
      let ⟨e, rest, h'⟩ ← condition .afterElseIf .afterElseIfCondition table rest
      have h := h.andThen h'
      let ⟨(body, table), rest, h'⟩ ← block .afterElseIfBlock inLoop 0 table rest
      have h := h.andThen h'
      let ⟨(otherwise, table), rest, h'⟩ ← alternative inLoop table rest
      have h := h.andPass h'
      return ⟨(.branch e body otherwise (position ts), table), rest, h.left⟩
termination_by 3 * ts.length
decreasing_by all_goals grind

end

end Parse

end ClockedC
