import ClockedC.Numeral.Integer

/-!
# Numerals in scientific form

A numeral has an optional sign and then one of

* decimal digits with at most one point among them, at least one digit, and an optional exponent
  marked by `e` or `E`;
* the word `inf`, `infinity` or `nan`, in any mixture of cases.

Nothing else may stand before, between or after these parts. The value of the first form is kept
exactly, as a whole number and a power of ten.
-/

namespace ClockedC

/-- What a numeral stands for, its sign apart. -/
inductive Magnitude where
  /-- The number `digits * 10 ^ exponent`. -/
  | decimal (digits : Nat) (exponent : Int)
  | infinity
  | notANumber
deriving DecidableEq, Repr

/-- A numeral that has been read. -/
structure Scientific where
  negative : Bool
  magnitude : Magnitude
deriving DecidableEq, Repr

namespace Scientific

/-- The exponent at the end of a numeral: nothing, or a mark and a signed run of digits. -/
def exponent? : List Char → Option Int
  | [] => some 0
  | c :: cs =>
    if c = 'e' ∨ c = 'E' then
      let (negative, digits) := splitSign cs
      (natural? digits).map fun n => if negative then -(n : Int) else n
    else none

/-- The unsigned value of digits, point and exponent. -/
def decimal? (cs : List Char) : Option Magnitude :=
  let whole := cs.takeWhile Char.isDigit
  let rest := cs.dropWhile Char.isDigit
  let (fraction, rest) :=
    match rest with
    | '.' :: rest => (rest.takeWhile Char.isDigit, rest.dropWhile Char.isDigit)
    | rest => ([], rest)
  if whole.isEmpty && fraction.isEmpty then none
  else (exponent? rest).map fun e =>
    .decimal (digitsValue 0 (whole ++ fraction)) (e - fraction.length)

/-- The value of one of the words for what no digits can say. -/
def word? (cs : List Char) : Option Magnitude :=
  let lower := cs.map Char.toLower
  if lower = "inf".toList ∨ lower = "infinity".toList then some .infinity
  else if lower = "nan".toList then some .notANumber
  else none

/-- Reads a whole text as one numeral. -/
def read? (text : String) : Option Scientific :=
  let (negative, cs) := splitSign text.toList
  ((decimal? cs).or (word? cs)).map (Scientific.mk negative)

end Scientific

end ClockedC
