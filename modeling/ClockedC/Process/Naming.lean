import ClockedC.Notice
import ClockedC.Process.Variable

/-!
# What names stand for

While a body is gone through, a name stands for the variable of its innermost declaration so far. A
`Naming` holds the variables of all declarations of a function, and the scopes that are open.

* `Naming.resolve` finds the variable that a name stands for.
* `Naming.nameOf` gives the variable, signal or input that holds the value of a name.
-/

namespace ClockedC

/-- The variables bound in a scope, the latest first. -/
abbrev Scope := List (String × ProcessVariable)

/-- The variables of a function and the scopes that are open. -/
structure Naming where
  /-- The variable of each declaration, in order, for those that have one. -/
  declared : List (Option ProcessVariable)
  /-- The open scopes, the innermost first. -/
  scopes : List Scope
  /-- Whether results go through the signal that drives the output. -/
  holdsResult : Bool
deriving DecidableEq, Repr

namespace Naming

/-- The naming without variables. -/
def empty : Naming := ⟨[], [], false⟩

/-- The naming of a function, with no scope open. -/
def ofFunction (f : Function) : Naming :=
  ⟨f.declaredVariables, [], f.hidesOutput⟩

/-- All variables, in the order of their declarations. -/
def allVariables (n : Naming) : List ProcessVariable :=
  n.declared.filterMap id

/-- Opens a scope. -/
def push (n : Naming) : Naming :=
  { n with scopes := [] :: n.scopes }

/-- Closes the innermost scope, if one is open. -/
def pop (n : Naming) : Naming :=
  { n with scopes := n.scopes.tail }

/-- Binds a variable in the innermost scope. Where no scope is open, one is opened for it. -/
def bindVariable (n : Naming) (v : ProcessVariable) : Naming :=
  match n.scopes with
  | [] => { n with scopes := [[(v.source, v)]] }
  | scope :: scopes => { n with scopes := ((v.source, v) :: scope) :: scopes }

/-- Binds the variable of a declaration, which is given by its place in the order of declarations.
Nothing happens if the declaration has none. -/
def bind (n : Naming) (index : Nat) : Option ProcessVariable × Naming :=
  match n.declared[index]? with
  | some (some v) => (some v, n.bindVariable v)
  | _ => (none, n)

/-- The variable that a name stands for. -/
def resolve (n : Naming) (name : String) : Option ProcessVariable :=
  n.scopes.findSome? fun scope => scope.lookup name

/-- The signal that results are written to. -/
def resultTarget (n : Naming) : String :=
  if n.holdsResult then heldResult else outputName

/-- The variable, signal or input that holds the value of a name. -/
def nameOf (n : Naming) (name : String) : String :=
  match n.resolve name with
  | some v => v.name
  | none => if name = outputName then n.resultTarget else name

end Naming

/-- What there is to tell about the variable of a declaration. -/
def Function.variableNotice (f : Function) (d : Declaration) (v : Option ProcessVariable) :
    Option Notice :=
  match v with
  | some v => some (.variableMade v.source v.name)
  | none => if d.hidesOutput then some (.resultKept f.name outputName heldResult) else none

/-- What there is to tell about the variables of a function. -/
def Function.variableNotices (f : Function) : List Notice :=
  (f.declarations.zip f.declaredVariables).filterMap fun (d, v) => f.variableNotice d v

end ClockedC
