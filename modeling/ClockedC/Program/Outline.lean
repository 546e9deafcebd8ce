import ClockedC.Program.Basic

/-!
# The outline of a program

A program shown as a tree, one node a line, each level two blanks further to the right. Expressions
are written on the line of their statement, fully parenthesised.
-/

namespace ClockedC

/-- The text of an element of an array initializer. -/
def Element.text : Element → String
  | number text => text
  | character c => s!"'{c}'"
  | name n => n

/-- The text of a declaration. -/
def Declaration.text (d : Declaration) : String :=
  let head := s!"VarDecl {d.type.spelling} {d.name}"
  match d.form with
  | .scalar none => head
  | .scalar (some e) => s!"{head} = {e.text}"
  | .array size none => s!"{head}[{size}]"
  | .array size (some elements) =>
    let list := commaSeparated (elements.map Element.text)
    s!"{head}[{size}] = \x7b{list}\x7d"

/-- The text of a target. An index is shown as it was written. -/
def Target.text : Target → String
  | name n => n
  | element base _ text => s!"{base}[{text}]"

/-- The text of an assignment. -/
def Assignment.text (a : Assignment) : String :=
  s!"{a.target.text} = {a.value.text}"

/-- The line of what a `for` loop does before its first round. -/
def ForStart.text : ForStart → String
  | declare d => d.text
  | assign a => s!"Init {a.text}"

mutual

/-- The lines of a statement. -/
def Stmt.outline (depth : Nat) : Stmt → List String
  | .declare d => [indented depth d.text]
  | .assign a => [indented depth s!"Assign {a.text}"]
  | .ret none _ => [indented depth "Return"]
  | .ret (some e) _ => [indented depth s!"Return {e.text}"]
  | .branch condition body otherwise _ =>
    indented depth s!"If {condition.text}" :: Block.outline (depth + 1) body ++
      otherwise.outline depth
  | .whileLoop condition body _ =>
    indented depth s!"While {condition.text}" :: Block.outline (depth + 1) body
  | .forLoop init condition body increment _ =>
    indented depth s!"For {condition.text}" ::
      (init.map fun i => indented (depth + 1) i.text).toList ++
      Block.outline (depth + 1) body ++
      (increment.map fun a => indented (depth + 1) s!"Increment {a.text}").toList
  | .jump .leave _ => [indented depth "Break"]
  | .jump .again _ => [indented depth "Continue"]

/-- The lines of an alternative. -/
def Alternative.outline (depth : Nat) : Alternative → List String
  | .none => []
  | .body body => indented depth "Else" :: Block.outline (depth + 1) body
  | .branch condition body otherwise _ =>
    indented depth s!"ElseIf {condition.text}" :: Block.outline (depth + 1) body ++
      otherwise.outline depth

/-- The lines of a body. -/
def Block.outline (depth : Nat) : List Stmt → List String
  | [] => []
  | s :: ss => s.outline depth ++ Block.outline depth ss

end

/-- The lines of a function. -/
def Function.outline (f : Function) : List String :=
  let params := commaSeparated (f.params.map fun p => s!"{p.type.spelling} {p.name}")
  let head := s!"Function {f.returns.spelling} {f.name}({params})"
  indented 1 s!"{head} [line {f.position.line}]" :: Block.outline 2 f.body

/-- The outline of a program. -/
def Program.outline (p : Program) : String :=
  unlines ("Program" :: p.functions.flatMap Function.outline)

end ClockedC
