/-!
# Shapes of declared names

Within one function a name is either a scalar or an array of one size, however often and in
whichever nested body it is declared. A `ShapeTable` holds what has been declared so far. The first
declaration of a name settles its shape; a later one that says otherwise is refused and leaves the
table as it was.
-/

namespace ClockedC

/-- What a name stands for. -/
inductive Shape where
  | scalar
  | array (size : Nat)
deriving DecidableEq, Repr

/-- Why a declaration is refused. -/
inductive Conflict where
  | resized (name : String) (previous size : Nat)
  | scalarAndArray (name : String)
deriving DecidableEq, Repr

/-- The wording of a conflict. -/
def Conflict.message : Conflict → String
  | resized name previous size =>
    s!"Array '{name}' redeclared with size {size} (previously {previous})"
  | scalarAndArray name => s!"'{name}' declared both as a scalar and as an array"

/-- The shapes of the names declared so far: the arrays with their sizes, and the scalars. In both
the latest name stands first. -/
structure ShapeTable where
  arrays : List (String × Nat)
  scalars : List String
deriving DecidableEq, Repr

namespace ShapeTable

/-- The table without names. -/
def empty : ShapeTable := ⟨[], []⟩

/-- The size of an array. -/
def size? (t : ShapeTable) (name : String) : Option Nat :=
  t.arrays.lookup name

/-- Registers a scalar. The table comes back also where the name is refused. -/
def registerScalar (t : ShapeTable) (name : String) : Except Conflict Unit × ShapeTable :=
  if (t.size? name).isSome then (.error (.scalarAndArray name), t)
  else (.ok (), { t with scalars := t.scalars.insert name })

/-- Registers an array. -/
def registerArray (t : ShapeTable) (name : String) (size : Nat) :
    Except Conflict Unit × ShapeTable :=
  if t.scalars.contains name then (.error (.scalarAndArray name), t)
  else
    match t.size? name with
    | some previous =>
      if previous = size then (.ok (), t) else (.error (.resized name previous size), t)
    | none => (.ok (), { t with arrays := (name, size) :: t.arrays })

/-- The table that a registration leaves, unless the name is refused. -/
def accepted (r : Except Conflict Unit × ShapeTable) : Except Conflict ShapeTable :=
  match r.1 with
  | .ok () => .ok r.2
  | .error c => .error c

/-- Declares a scalar, where a conflict ends the work. -/
def addScalar (t : ShapeTable) (name : String) : Except Conflict ShapeTable :=
  accepted (t.registerScalar name)

/-- Declares an array, where a conflict ends the work. -/
def addArray (t : ShapeTable) (name : String) (size : Nat) : Except Conflict ShapeTable :=
  accepted (t.registerArray name size)

/-- Whether an index lies in an array. A name that is no array puts no bound on its indices. -/
def inBounds (t : ShapeTable) (name : String) (index : Int) : Bool :=
  match t.size? name with
  | some size => 0 ≤ index && index < size
  | none => true

/-- The count of arrays. -/
def arrayCount (t : ShapeTable) : Nat :=
  t.arrays.length

end ShapeTable

end ClockedC
