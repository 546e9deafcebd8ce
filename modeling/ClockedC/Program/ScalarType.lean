/-!
# Scalar types

The types a declaration, a parameter or a function result may have. `void` is only a result type.
-/

namespace ClockedC

/-- A scalar type of the source language. -/
inductive ScalarType where
  | int
  | float
  | char
  | double
  | void
deriving DecidableEq, Repr

namespace ScalarType

/-- The word that names a type. -/
def spelling : ScalarType → String
  | int => "int"
  | float => "float"
  | char => "char"
  | double => "double"
  | void => "void"

/-- All scalar types. -/
def all : List ScalarType := [int, float, char, double, void]

/-- The width in bits of the signal that carries a value of a type. A function without a result has
an output of the common width. -/
def width : ScalarType → Nat
  | char => 8
  | double => 64
  | int | float | void => 32

end ScalarType

end ClockedC
