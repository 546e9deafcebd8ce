import ClockedC.Numeral.Integer
import ClockedC.Program.Operator
import ClockedC.Text.Basic

/-!
# Expressions

The expressions of the source language and what can be read off them: their fully parenthesised
text, the calls inside them, and the integer that a literal stands for.
-/

namespace ClockedC

/-- An expression. Numbers keep the text they were written as; a character literal is the number of
its code point. -/
inductive Expr where
  | number (text : String)
  | name (name : String)
  /-- An element of the array `base`. The text is how the index was written, blanks left out. -/
  | element (base : String) (index : Expr) (text : String)
  /-- A call. Each call of a function is a piece of hardware of its own, told apart by its unit
  number once it has one. -/
  | call (callee : String) (args : List Expr) (unit : Option Nat) (position : Position)
  | unary (op : UnaryOp) (operand : Expr)
  | binary (op : BinaryOp) (left right : Expr)
deriving Repr

/-- A call apart from the expression it stands in. -/
structure Call where
  callee : String
  args : List Expr
  unit : Option Nat
  position : Position
deriving Repr

/-! ## Counters -/

/-- What unit numbers are counted with. -/
class Counter (κ : Type) where
  /-- The number that is given next. -/
  number : κ → Nat
  /-- The counter once this number is given. -/
  next : κ → κ

instance : Counter Nat where
  number n := n
  next n := n + 1

/-- A word of 64 bits that counts. Behind the greatest word it comes round to zero, and it tells
that it did. -/
structure WordCounter where
  value : UInt64
  overflowed : Bool
deriving DecidableEq, Repr

instance : Counter WordCounter where
  number c := c.value.toNat
  next c := ⟨c.value + 1, c.overflowed || c.value + 1 == 0⟩

namespace Expr

/-! ## Text -/

mutual

/-- The text of an expression, with every binary operation in parentheses. -/
def text : Expr → String
  | number text => text
  | name n => n
  | element base index _ => base ++ "[" ++ index.text ++ "]"
  | call callee args unit _ =>
    let mark :=
      match unit with
      | some n => "#" ++ toString n
      | none => ""
    callee ++ mark ++ "(" ++ commaSeparated (texts args) ++ ")"
  | unary op operand => op.spelling ++ operand.text
  | binary op left right => "(" ++ left.text ++ " " ++ op.spelling ++ " " ++ right.text ++ ")"

/-- The texts of a list of expressions. -/
def texts : List Expr → List String
  | [] => []
  | e :: es => e.text :: texts es

end

/-! ## Literals -/

/-- The value of an integer literal, or of one with a minus sign before it. -/
def literalValue? : Expr → Option Int
  | number text => signed64? text
  | unary .neg (number text) => (signed64? text).map negate64
  | _ => none

/-- Whether an expression is a truth value: a comparison, a logical combination or a negation. -/
def isTruthValue : Expr → Bool
  | binary op _ _ => op.isComparison || op.isLogical
  | unary .not _ => true
  | _ => false

/-! ## Calls -/

mutual

/-- The calls in an expression, each before those in its arguments. -/
def calls : Expr → List Call
  | number _ | name _ => []
  | element _ index _ => index.calls
  | call callee args unit position => ⟨callee, args, unit, position⟩ :: callsOfList args
  | unary _ operand => operand.calls
  | binary _ left right => left.calls ++ right.calls

/-- The calls in a list of expressions. -/
def callsOfList : List Expr → List Call
  | [] => []
  | e :: es => e.calls ++ callsOfList es

end

mutual

/-- Gives unit numbers from `next` on to the calls that have none, in the order of `calls`. The
second part of the answer is the counter for the numbers that are still free. -/
def numberCalls {κ : Type} [Counter κ] (next : κ) : Expr → Expr × κ
  | number text => (number text, next)
  | name n => (name n, next)
  | element base index text =>
    let (index, next) := index.numberCalls next
    (element base index text, next)
  | call callee args unit position =>
    match unit with
    | some n =>
      let (args, next) := numberCallsOfList next args
      (call callee args (some n) position, next)
    | none =>
      let (args, after) := numberCallsOfList (Counter.next next) args
      (call callee args (some (Counter.number next)) position, after)
  | unary op operand =>
    let (operand, next) := operand.numberCalls next
    (unary op operand, next)
  | binary op left right =>
    let (left, next) := left.numberCalls next
    let (right, next) := right.numberCalls next
    (binary op left right, next)

/-- `numberCalls` on a list of expressions, from the first to the last. -/
def numberCallsOfList {κ : Type} [Counter κ] (next : κ) : List Expr → List Expr × κ
  | [] => ([], next)
  | e :: es =>
    let (e, next) := e.numberCalls next
    let (es, next) := numberCallsOfList next es
    (e :: es, next)

end

/-! ## Names -/

/-- Replaces the names of scalars. The base of an element stays, because arrays are never renamed,
and so do the arguments of a call, because they are wired up outside the place of the expression. -/
def rename (f : String → String) : Expr → Expr
  | number text => number text
  | name n => name (f n)
  | element base index text => element base (index.rename f) text
  | call callee args unit position => call callee args unit position
  | unary op operand => unary op (operand.rename f)
  | binary op left right => binary op (left.rename f) (right.rename f)

end Expr

end ClockedC
