import ClockedC.Process.Variable

/-!
# Plain functions

A function is plain if it computes with scalars only and if what it does in one tick can be told
from its statements alone: every name that it reads is in scope, every declaration has an initial
value, no name is taken for a process variable or for the output, and nothing follows a `return`.

* `Function.Plain` collects these conditions. They can be decided.
* `Block.returnsAtEnd` says that a statement which may return is the last of its body.
-/

namespace ClockedC

/-! ## Names in scope -/

/-- Whether an expression has neither elements nor calls and reads certain names only. -/
def Expr.readsOnly (read : String → Bool) : Expr → Bool
  | .number _ => true
  | .name n => read n
  | .unary _ operand => operand.readsOnly read
  | .binary _ left right => left.readsOnly read && right.readsOnly read
  | .element .. | .call .. => false

/-- Whether an assignment writes and reads certain names only. -/
def Assignment.usesOnly (written read : String → Bool) (a : Assignment) : Bool :=
  match a.target with
  | .name n => written n && a.value.readsOnly read
  | .element .. => false

theorem Assignment.usesOnly_iff {written read : String → Bool} {a : Assignment} :
    a.usesOnly written read = true ↔
      ∃ n, a.target = .name n ∧ written n = true ∧ a.value.readsOnly read = true := by
  unfold usesOnly
  cases a.target with
  | name n => simp
  | element base index text => simp

/-- The names of the inputs and the locals that are in scope. -/
structure Visible where
  params : List String
  locals : List String

namespace Visible

/-- Whether a name is in scope. -/
def has (names : Visible) (n : String) : Bool := names.locals.contains n || names.params.contains n

/-- Adds locals. -/
def add (names : Visible) (ds : List Declaration) : Visible :=
  { names with locals := ds.map Declaration.name ++ names.locals }

end Visible

/-- Whether a declaration makes a scalar from names in scope. -/
def Declaration.isPlain (names : Visible) (d : Declaration) : Bool :=
  match d.form with
  | .scalar (some init) => init.readsOnly names.has
  | .scalar none | .array .. => false

theorem Declaration.isPlain_iff {names : Visible} {d : Declaration} :
    d.isPlain names = true ↔
      ∃ init, d.form = .scalar (some init) ∧ init.readsOnly names.has = true := by
  unfold isPlain
  rcases d.form with (_ | init) | _ <;> simp

/-- Whether an assignment changes a local in scope. -/
def Assignment.isPlain (names : Visible) (a : Assignment) : Bool :=
  a.usesOnly names.locals.contains names.has

/-- Whether an assignment uses none of the names that are declared. -/
def Assignment.avoids (ds : List Declaration) (a : Assignment) : Bool :=
  let other (n : String) := !(ds.map Declaration.name).contains n
  a.usesOnly other other

def ForStart.isPlain (names : Visible) : ForStart → Bool
  | .declare d => d.isPlain names
  | .assign a => a.isPlain names

/-- What a statement adds to the scope it stands in. -/
def Stmt.ownDeclarations : Stmt → List Declaration
  | .declare d => [d]
  | .assign _ | .ret .. | .branch .. | .whileLoop .. | .forLoop .. | .jump .. => []

mutual

/-- Whether a statement keeps to the names in scope. The body of a `for` loop must not declare again
what the increment of the loop uses. -/
def Stmt.isPlain : Stmt → Visible → Bool
  | .declare d, names => d.isPlain names
  | .assign a, names => a.isPlain names
  | .ret value _, names => value.all (Expr.readsOnly names.has)
  | .branch condition body otherwise _, names =>
    condition.readsOnly names.has && (Block.isPlain body names && otherwise.isPlain names)
  | .whileLoop condition body _, names =>
    condition.readsOnly names.has && Block.isPlain body names
  | .forLoop init condition body step _, names =>
    let inner := names.add ((init.map ForStart.declarations).getD [])
    init.all (ForStart.isPlain names) && (condition.readsOnly inner.has &&
      (Block.isPlain body inner &&
        step.all fun a => a.isPlain inner && a.avoids (Block.declarations body)))
  | .jump .., _ => true

/-- Whether an alternative keeps to the names in scope. -/
def Alternative.isPlain : Alternative → Visible → Bool
  | .none, _ => true
  | .body body, names => Block.isPlain body names
  | .branch condition body otherwise _, names =>
    condition.readsOnly names.has && (Block.isPlain body names && otherwise.isPlain names)

/-- Whether a body keeps to the names in scope. -/
def Block.isPlain : List Stmt → Visible → Bool
  | [], _ => true
  | s :: ss, names => s.isPlain names && Block.isPlain ss (names.add s.ownDeclarations)

end

/-! ## Returns -/

mutual

/-- Whether a statement may return. -/
def Stmt.hasReturn : Stmt → Bool
  | .ret .. => true
  | .branch _ body otherwise _ => Block.hasReturn body || otherwise.hasReturn
  | .whileLoop _ body _ => Block.hasReturn body
  | .forLoop _ _ body _ _ => Block.hasReturn body
  | .declare _ | .assign _ | .jump .. => false

/-- Whether an alternative may return. -/
def Alternative.hasReturn : Alternative → Bool
  | .none => false
  | .body body => Block.hasReturn body
  | .branch _ body otherwise _ => Block.hasReturn body || otherwise.hasReturn

/-- Whether a body may return. -/
def Block.hasReturn : List Stmt → Bool
  | [] => false
  | s :: ss => s.hasReturn || Block.hasReturn ss

end

mutual

/-- Whether nothing follows a `return` inside of a statement. No loop may return. -/
def Stmt.returnsAtEnd : Stmt → Bool
  | .branch _ body otherwise _ => Block.returnsAtEnd body && otherwise.returnsAtEnd
  | .whileLoop _ body _ => !Block.hasReturn body && Block.returnsAtEnd body
  | .forLoop _ _ body _ _ => !Block.hasReturn body && Block.returnsAtEnd body
  | .declare _ | .assign _ | .ret .. | .jump .. => true

/-- Whether nothing follows a `return` inside of an alternative. -/
def Alternative.returnsAtEnd : Alternative → Bool
  | .none => true
  | .body body => Block.returnsAtEnd body
  | .branch _ body otherwise _ => Block.returnsAtEnd body && otherwise.returnsAtEnd

/-- Whether a statement that may return is the last of its body. -/
def Block.returnsAtEnd : List Stmt → Bool
  | [] => true
  | s :: ss => s.returnsAtEnd && (!s.hasReturn || ss.isEmpty) && Block.returnsAtEnd ss

end

/-! ## Functions -/

/-- Whether a name is neither the output nor like that of a process variable. -/
def isOrdinary (name : String) : Bool := name ≠ outputName && !hasVariableMark name

/-- The names of the parameters. -/
def Function.paramNames (f : Function) : List String := f.params.map Param.name

/-- A function over scalars whose statements tell all that it does in a tick. -/
structure Function.Plain (f : Function) : Prop where
  params : f.paramNames.all isOrdinary = true
  locals : f.declarations.all (fun d => isOrdinary d.name) = true
  inScope : Block.isPlain f.body ⟨f.paramNames, []⟩ = true
  returns : Block.returnsAtEnd f.body = true

instance (f : Function) : Decidable f.Plain :=
  decidable_of_iff (f.paramNames.all isOrdinary = true ∧
      f.declarations.all (fun d => isOrdinary d.name) = true ∧
      Block.isPlain f.body ⟨f.paramNames, []⟩ = true ∧ Block.returnsAtEnd f.body = true)
    ⟨fun h => ⟨h.1, h.2.1, h.2.2.1, h.2.2.2⟩,
      fun h => ⟨h.params, h.locals, h.inScope, h.returns⟩⟩

end ClockedC
