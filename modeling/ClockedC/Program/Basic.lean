import ClockedC.Program.Stmt

/-!
# Functions and programs

A program is a list of functions. Two functions may share a name: whoever looks one up by name gets
the first of them, while a call goes to the last.
-/

namespace ClockedC

/-- A parameter of a function. -/
structure Param where
  type : ScalarType
  name : String
deriving DecidableEq, Repr

/-- A function definition. The position is that of its name. -/
structure Function where
  name : String
  returns : ScalarType
  params : List Param
  body : Block
  position : Position

/-- What a caller has to know of a function. -/
structure Signature where
  returns : ScalarType
  params : List ScalarType
deriving DecidableEq, Repr

/-- A program. -/
structure Program where
  functions : List Function

namespace Function

/-- Whether a function has a parameter of a name. -/
def hasParam (f : Function) (name : String) : Bool :=
  f.params.any fun p => p.name = name

/-- What callers see of a function. -/
def signature (f : Function) : Signature :=
  ⟨f.returns, f.params.map Param.type⟩

/-- The declarations in a function, in source order. -/
def declarations (f : Function) : List Declaration :=
  Block.declarations f.body

/-- The calls in a function, in source order and each before those in its arguments. -/
def calls (f : Function) : List Call :=
  (Block.expressions f.body).flatMap Expr.calls

/-- The greatest unit number in use. -/
def greatestUnit? (f : Function) : Option Nat :=
  (f.calls.filterMap Call.unit).max?

/-- The least unit number above all those in use. -/
def firstFreeUnit (f : Function) : Nat :=
  match f.greatestUnit? with
  | some m => m + 1
  | none => 0

/-- Whether some call has no unit number. -/
def hasUnnumberedCall (f : Function) : Bool :=
  f.calls.any fun c => c.unit.isNone

/-- Gives a unit number from `first` on to each call that has none, in the order of `calls`. -/
def numberCallsFrom {κ : Type} [Counter κ] (first : κ) (f : Function) : Function × κ :=
  let (body, next) := Block.numberCalls first f.body
  (⟨f.name, f.returns, f.params, body, f.position⟩, next)

/-- Gives a unit number to each call that has none. The numbers go up in the order of `calls` and
start above those in use. The second part of the answer counts the numbers given. -/
def numberCalls (f : Function) : Function × Nat :=
  let first := f.firstFreeUnit
  let (g, next) := f.numberCallsFrom first
  (g, next - first)

/-- The least unit number above all those in use, as a word of 64 bits. -/
def firstFreeWord (f : Function) : WordCounter :=
  match f.greatestUnit? with
  | some m => Counter.next ⟨UInt64.ofNat m, false⟩
  | none => ⟨0, false⟩

/-- What comes of numbering calls in words of 64 bits. -/
structure WordNumbering where
  function : Function
  /-- The count of the numbers given. -/
  count : UInt64
  /-- Whether an addition went past the greatest word. Where additions are checked, this stops the
  numbering. -/
  overflowed : Bool

/-- Numbers calls as `numberCalls` does, with words of 64 bits for numbers. -/
def numberCallsInWords (f : Function) : WordNumbering :=
  let first := f.firstFreeWord
  let (g, next) := f.numberCallsFrom first
  ⟨g, next.value - first.value, next.overflowed⟩

end Function

namespace Program

/-- The first function of a name. -/
def function? (p : Program) (name : String) : Option Function :=
  p.functions.find? fun f => f.name = name

/-- The signature of the function that a call by a name goes to: the last of that name. -/
def signature? (p : Program) (name : String) : Option Signature :=
  (p.functions.reverse.find? fun f => f.name = name).map Function.signature

/-- Gives a unit number to each call that has none. -/
def numberCalls (p : Program) : Program :=
  ⟨p.functions.map fun f => f.numberCalls.1⟩

end Program

end ClockedC
