import ClockedC.Program.Expr
import ClockedC.Program.ScalarType
import ClockedC.Token.Basic

/-!
# Statements

Declarations, assignments and the statements built from them. The walks over a body visit its parts
in the order of the source text:

* `Block.declarations` collects what a body declares, in nested bodies and loop headers too;
* `Block.expressions` collects the outermost expressions;
* `Block.numberCalls` gives unit numbers to the calls in these expressions.
-/

namespace ClockedC

/-- An element of an array initializer. -/
inductive Element where
  /-- A number, with a minus sign before it if it was negated. -/
  | number (text : String)
  | character (value : Char)
  | name (name : String)
deriving DecidableEq, Repr

/-- What a declaration makes: one value, or an array of values. -/
inductive Form where
  | scalar (init : Option Expr)
  | array (size : Nat) (init : Option (List Element))
deriving Repr

/-- The declaration of a local variable. -/
structure Declaration where
  name : String
  type : ScalarType
  form : Form
  position : Position
deriving Repr

/-- Whether a declaration makes an array. -/
def Declaration.isArray (d : Declaration) : Bool :=
  match d.form with
  | .scalar _ => false
  | .array .. => true

/-- What an assignment writes to. -/
inductive Target where
  | name (name : String)
  | element (base : String) (index : Expr) (text : String)
deriving Repr

/-- The name at the front of a target. -/
def Target.base : Target → String
  | name n => n
  | element base _ _ => base

/-- An assignment. -/
structure Assignment where
  target : Target
  value : Expr
  position : Position
deriving Repr

/-- What a `for` loop does before its first round. -/
inductive ForStart where
  | declare (declaration : Declaration)
  | assign (assignment : Assignment)
deriving Repr

mutual

/-- A statement. -/
inductive Stmt where
  | declare (declaration : Declaration)
  | assign (assignment : Assignment)
  | ret (value : Option Expr) (position : Position)
  | branch (condition : Expr) (body : List Stmt) (otherwise : Alternative) (position : Position)
  | whileLoop (condition : Expr) (body : List Stmt) (position : Position)
  | forLoop (init : Option ForStart) (condition : Expr) (body : List Stmt)
      (increment : Option Assignment) (position : Position)
  | jump (jump : Jump) (position : Position)

/-- What happens where the condition of a branch fails. -/
inductive Alternative where
  | none
  | body (body : List Stmt)
  | branch (condition : Expr) (body : List Stmt) (otherwise : Alternative) (position : Position)

end

/-- The statements of a body. -/
abbrev Block := List Stmt

/-! ## Declarations -/

/-- The declaration in a loop header. -/
def ForStart.declarations : ForStart → List Declaration
  | declare d => [d]
  | assign _ => []

mutual

/-- The declarations in a statement. -/
def Stmt.declarations : Stmt → List Declaration
  | .declare d => [d]
  | .branch _ body otherwise _ => Block.declarations body ++ otherwise.declarations
  | .whileLoop _ body _ => Block.declarations body
  | .forLoop init _ body _ _ =>
    (init.map ForStart.declarations).getD [] ++ Block.declarations body
  | .assign _ | .ret .. | .jump .. => []

/-- The declarations in an alternative. -/
def Alternative.declarations : Alternative → List Declaration
  | .none => []
  | .body body => Block.declarations body
  | .branch _ body otherwise _ => Block.declarations body ++ otherwise.declarations

/-- The declarations in a body, nested ones included. -/
def Block.declarations : List Stmt → List Declaration
  | [] => []
  | s :: ss => s.declarations ++ Block.declarations ss

end

/-! ## Expressions -/

/-- The initial value of a scalar. -/
def Declaration.expressions (d : Declaration) : List Expr :=
  match d.form with
  | .scalar init => init.toList
  | .array .. => []

/-- The index of a target. -/
def Target.expressions : Target → List Expr
  | name _ => []
  | element _ index _ => [index]

/-- The expressions of an assignment, that of its target first. -/
def Assignment.expressions (a : Assignment) : List Expr :=
  a.target.expressions ++ [a.value]

/-- The expressions before the first round of a `for` loop. -/
def ForStart.expressions : ForStart → List Expr
  | declare d => d.expressions
  | assign a => a.expressions

mutual

/-- The outermost expressions of a statement. -/
def Stmt.expressions : Stmt → List Expr
  | .declare d => d.expressions
  | .assign a => a.expressions
  | .ret value _ => value.toList
  | .branch condition body otherwise _ =>
    condition :: Block.expressions body ++ otherwise.expressions
  | .whileLoop condition body _ => condition :: Block.expressions body
  | .forLoop init condition body increment _ =>
    (init.map ForStart.expressions).getD [] ++ condition :: Block.expressions body ++
      (increment.map Assignment.expressions).getD []
  | .jump .. => []

/-- The outermost expressions of an alternative. -/
def Alternative.expressions : Alternative → List Expr
  | .none => []
  | .body body => Block.expressions body
  | .branch condition body otherwise _ =>
    condition :: Block.expressions body ++ otherwise.expressions

/-- The outermost expressions of a body. -/
def Block.expressions : List Stmt → List Expr
  | [] => []
  | s :: ss => s.expressions ++ Block.expressions ss

end

/-! ## Unit numbers

As for expressions, the calls without a unit number get numbers from `next` on, and the counter is
handed on. -/

/-- Numbers the calls in a value that may be absent. -/
def numberCallsOfOption {α κ : Type} (number : κ → α → α × κ) (next : κ) :
    Option α → Option α × κ
  | none => (none, next)
  | some a =>
    let (a, next) := number next a
    (some a, next)

section Numbering

variable {κ : Type} [Counter κ]

/-- Numbers the calls in the initial value of a scalar. -/
def Declaration.numberCalls (next : κ) (d : Declaration) : Declaration × κ :=
  match d.form with
  | .scalar (some e) =>
    let (e, next) := e.numberCalls next
    (⟨d.name, d.type, .scalar (some e), d.position⟩, next)
  | _ => (d, next)

/-- Numbers the calls in the index of a target. -/
def Target.numberCalls (next : κ) : Target → Target × κ
  | name n => (name n, next)
  | element base index text =>
    let (index, next) := index.numberCalls next
    (element base index text, next)

/-- Numbers the calls in an assignment, those of its target first. -/
def Assignment.numberCalls (next : κ) (a : Assignment) : Assignment × κ :=
  let (target, next) := a.target.numberCalls next
  let (value, next) := a.value.numberCalls next
  (⟨target, value, a.position⟩, next)

/-- Numbers the calls before the first round of a `for` loop. -/
def ForStart.numberCalls (next : κ) : ForStart → ForStart × κ
  | declare d =>
    let (d, next) := d.numberCalls next
    (declare d, next)
  | assign a =>
    let (a, next) := a.numberCalls next
    (assign a, next)

mutual

/-- Numbers the calls in a statement. -/
def Stmt.numberCalls (next : κ) : Stmt → Stmt × κ
  | .declare d =>
    let (d, next) := d.numberCalls next
    (.declare d, next)
  | .assign a =>
    let (a, next) := a.numberCalls next
    (.assign a, next)
  | .ret value position =>
    let (value, next) := numberCallsOfOption Expr.numberCalls next value
    (.ret value position, next)
  | .branch condition body otherwise position =>
    let (condition, next) := condition.numberCalls next
    let (body, next) := Block.numberCalls next body
    let (otherwise, next) := otherwise.numberCalls next
    (.branch condition body otherwise position, next)
  | .whileLoop condition body position =>
    let (condition, next) := condition.numberCalls next
    let (body, next) := Block.numberCalls next body
    (.whileLoop condition body position, next)
  | .forLoop init condition body increment position =>
    let (init, next) := numberCallsOfOption ForStart.numberCalls next init
    let (condition, next) := condition.numberCalls next
    let (body, next) := Block.numberCalls next body
    let (increment, next) := numberCallsOfOption Assignment.numberCalls next increment
    (.forLoop init condition body increment position, next)
  | .jump jump position => (.jump jump position, next)

/-- Numbers the calls in an alternative. -/
def Alternative.numberCalls (next : κ) : Alternative → Alternative × κ
  | .none => (.none, next)
  | .body body =>
    let (body, next) := Block.numberCalls next body
    (.body body, next)
  | .branch condition body otherwise position =>
    let (condition, next) := condition.numberCalls next
    let (body, next) := Block.numberCalls next body
    let (otherwise, next) := otherwise.numberCalls next
    (.branch condition body otherwise position, next)

/-- Numbers the calls in a body. -/
def Block.numberCalls (next : κ) : List Stmt → List Stmt × κ
  | [] => ([], next)
  | s :: ss =>
    let (s, next) := s.numberCalls next
    let (ss, next) := Block.numberCalls next ss
    (s :: ss, next)

end

end Numbering

end ClockedC
