import ClockedC.Program.Basic
import ClockedC.Vhdl.Vector

/-!
# Process variables

Inside of the clocked process each declaration of a scalar has a variable of its own, so that an
assignment is seen by the statements after it within the same tick. Its name is made from the
declared name and from the count of earlier declarations of that name.

A local named like the output has no variable. It is kept in a signal that drives the output,
because the output itself cannot be read.
-/

namespace ClockedC

/-- The name of the output of an entity. -/
def outputName : String := "result"

/-- The signal for a local that is named like the output. -/
def heldResult : String := "internal_result"

/-- Whether a name ends in `_v` and any count of digits. -/
def hasVariableMark (name : String) : Bool :=
  ['v', '_'].isPrefixOf (name.toList.reverse.dropWhile Char.isDigit)

/-- The variable for the declaration of a name after `ordinal` earlier ones. A name that bears the
mark of a variable already only has the count appended. -/
def variableName (source : String) (ordinal : Nat) : String :=
  if hasVariableMark source then source ++ toString ordinal
  else if ordinal = 0 then source ++ "_v"
  else source ++ "_v" ++ toString ordinal

/-- The variable of a scalar declaration. -/
structure ProcessVariable where
  /-- The name that is declared. -/
  source : String
  /-- The name of the variable. -/
  name : String
  type : ScalarType
  /-- The count of earlier declarations of the same name. -/
  ordinal : Nat
  /-- Whether a parameter has the declared name, which leaves no signal to write the value to. -/
  hidesParam : Bool
deriving DecidableEq, Repr

/-- Whether the value of a variable is written to a signal at the end of a tick. -/
def ProcessVariable.isWrittenBack (v : ProcessVariable) : Bool :=
  !v.hidesParam

/-- Whether a declaration makes a scalar that is named like the output. -/
def Declaration.hidesOutput (d : Declaration) : Bool :=
  !d.isArray && d.name = outputName

/-- Whether a declaration has a process variable. -/
def Declaration.hasVariable (d : Declaration) : Bool :=
  !d.isArray && d.name ≠ outputName

namespace Function

/-- Whether a function declares a scalar that is named like the output. -/
def hidesOutput (f : Function) : Bool :=
  f.declarations.any Declaration.hidesOutput

/-- The variables of some declarations of a function, in order. The names are those of the earlier
declarations that have a variable. -/
def variablesOf (f : Function) : (earlier : List String) → List Declaration →
    List (Option ProcessVariable)
  | _, [] => []
  | earlier, d :: ds =>
    if d.hasVariable then
      let ordinal := earlier.count d.name
      some ⟨d.name, variableName d.name ordinal, d.type, ordinal, f.hasParam d.name⟩ ::
        f.variablesOf (d.name :: earlier) ds
    else none :: f.variablesOf earlier ds

/-- The variable of each declaration of a function, in order, for those that have one. -/
def declaredVariables (f : Function) : List (Option ProcessVariable) :=
  f.variablesOf [] f.declarations

end Function

end ClockedC
