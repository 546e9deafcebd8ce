/-!
# Operators

The unary and binary operators of expressions. A binary operator has a level from 1, which binds
loosest, to 10, which binds tightest; operators of one level group to the left, and a unary operator
binds tighter than all of them.
-/

namespace ClockedC

/-- A binary operator. -/
inductive BinaryOp where
  | add
  | sub
  | mul
  | div
  | mod
  | eq
  | ne
  | lt
  | le
  | gt
  | ge
  | and
  | or
  | bitAnd
  | bitOr
  | bitXor
  | shiftLeft
  | shiftRight
deriving DecidableEq, Repr

namespace BinaryOp

/-- All binary operators. -/
def all : List BinaryOp :=
  [add, sub, mul, div, mod, eq, ne, lt, le, gt, ge, and, or, bitAnd, bitOr, bitXor, shiftLeft,
    shiftRight]

/-- How an operator is written. -/
def spelling : BinaryOp → String
  | add => "+"
  | sub => "-"
  | mul => "*"
  | div => "/"
  | mod => "%"
  | eq => "=="
  | ne => "!="
  | lt => "<"
  | le => "<="
  | gt => ">"
  | ge => ">="
  | and => "&&"
  | or => "||"
  | bitAnd => "&"
  | bitOr => "|"
  | bitXor => "^"
  | shiftLeft => "<<"
  | shiftRight => ">>"

/-- The operator with a given spelling. -/
def ofSpelling? (spelling : String) : Option BinaryOp :=
  all.find? fun op => op.spelling = spelling

/-- How tightly an operator binds its operands. -/
def level : BinaryOp → Nat
  | or => 1
  | and => 2
  | bitOr => 3
  | bitXor => 4
  | bitAnd => 5
  | eq | ne => 6
  | lt | le | gt | ge => 7
  | shiftLeft | shiftRight => 8
  | add | sub => 9
  | mul | div | mod => 10

/-- The level of the operators that bind loosest. -/
def loosest : Nat := 1

/-- Whether an operator compares two numbers. -/
def isComparison : BinaryOp → Bool
  | eq | ne | lt | le | gt | ge => true
  | _ => false

/-- Whether an operator joins two truth values. -/
def isLogical : BinaryOp → Bool
  | and | or => true
  | _ => false

theorem ofSpelling?_spelling (op : BinaryOp) : ofSpelling? op.spelling = some op := by
  cases op <;> decide

theorem loosest_le_level (op : BinaryOp) : loosest ≤ op.level := by
  cases op <;> decide

end BinaryOp

/-- A unary operator. -/
inductive UnaryOp where
  | neg
  | not
  | bitNot
deriving DecidableEq, Repr

namespace UnaryOp

/-- All unary operators. -/
def all : List UnaryOp := [neg, not, bitNot]

/-- How an operator is written. -/
def spelling : UnaryOp → String
  | neg => "-"
  | not => "!"
  | bitNot => "~"

/-- The operator with a given spelling. -/
def ofSpelling? (spelling : String) : Option UnaryOp :=
  all.find? fun op => op.spelling = spelling

theorem ofSpelling?_spelling (op : UnaryOp) : ofSpelling? op.spelling = some op := by
  cases op <;> decide

end UnaryOp

end ClockedC
