import ClockedC.Numeral.Scientific

/-!
# Binary floating-point codes

A number in a binary floating-point format is coded by its sign, a biased exponent and a fraction.
Taken as one whole number, the code without its sign grows with the magnitude, so that a rounding
that carries over into the exponent needs no care of its own: the code of `m * 2 ^ (least + k)` is
`k * 2 ^ (precision - 1) + m`, both for the normal numbers and for the subnormal ones, where `k =
0`.

Rounding goes to the nearest number of the format, and to the one with an even last digit where two
are equally near. It is done on the exact fraction, whatever the count of digits.
-/

namespace ClockedC

/-- A binary floating-point format. -/
structure BinaryFormat where
  /-- Binary digits of a normal number, the leading one included. -/
  precision : Nat
  /-- Binary digits of the exponent field. -/
  exponentBits : Nat
deriving DecidableEq, Repr

namespace BinaryFormat

/-- The format of 32 bits. -/
def single : BinaryFormat := ⟨24, 8⟩

/-- The format of 64 bits. -/
def double : BinaryFormat := ⟨53, 11⟩

/-- The count of bits of a code, the sign included. -/
def width (f : BinaryFormat) : Nat := f.precision + f.exponentBits

/-- All finite numbers are below `2 ^ f.top`. -/
def top (f : BinaryFormat) : Nat := 1 <<< (f.exponentBits - 1)

/-- The power of two that the last digit of the least numbers counts for. -/
def least (f : BinaryFormat) : Int := 3 - (f.top : Int) - f.precision

/-- The code of infinity: all exponent bits set and an empty fraction. -/
def infinityCode (f : BinaryFormat) : Nat := ((1 <<< f.exponentBits) - 1) <<< (f.precision - 1)

/-- The code of the quiet not-a-number: infinity with the first fraction bit set. -/
def notANumberCode (f : BinaryFormat) : Nat := f.infinityCode + (1 <<< (f.precision - 2))

/-- The whole number nearest to `a / b`, the even one of two that are equally near. -/
def roundedQuotient (a b : Nat) : Nat :=
  let q := a / b
  let twice := 2 * (a % b)
  if twice < b then q else if b < twice then q + 1 else q + q % 2

/-- The greatest `e` with `2 ^ e ≤ a / b`, for positive `a` and `b`. -/
def floorLog (a b : Nat) : Int :=
  let e : Int := (a.log2 : Int) - b.log2
  if b <<< e.toNat ≤ a <<< (-e).toNat then e else e - 1

/-- The code of the positive fraction `a / b`. -/
def codeOfFraction (f : BinaryFormat) (a b : Nat) : Nat :=
  let unit := max f.least (floorLog a b + 1 - f.precision)
  let m := roundedQuotient (a <<< (-unit).toNat) (b <<< unit.toNat)
  min f.infinityCode (((unit - f.least).toNat <<< (f.precision - 1)) + m)

/-- The code of `digits * 10 ^ exponent`. Exponents that put the number beyond the format, however
its digits read, are settled first, because `2 ^ 3 < 10`. -/
def codeOfDecimal (f : BinaryFormat) (digits : Nat) (exponent : Int) : Nat :=
  if digits = 0 then 0
  else if (f.top : Int) ≤ digits.log2 + 3 * exponent ∧ 0 ≤ exponent then f.infinityCode
  else if digits.log2 + 1 + 3 * exponent < f.least - 1 ∧ exponent ≤ 0 then 0
  else f.codeOfFraction (digits * Nat.pow 10 exponent.toNat) (Nat.pow 10 (-exponent).toNat)

/-- The code of a magnitude. -/
def codeOfMagnitude (f : BinaryFormat) : Magnitude → Nat
  | .decimal digits exponent => f.codeOfDecimal digits exponent
  | .infinity => f.infinityCode
  | .notANumber => f.notANumberCode

/-- The code of a numeral, with the sign as the highest bit. -/
def code (f : BinaryFormat) (n : Scientific) : Nat :=
  (if n.negative then 1 <<< (f.width - 1) else 0) + f.codeOfMagnitude n.magnitude

/-- The whole part of the finite number with an unsigned code. -/
def wholePart (f : BinaryFormat) (code : Nat) : Nat :=
  let field := code >>> (f.precision - 1)
  let fraction := code % (1 <<< (f.precision - 1))
  let m := if field = 0 then fraction else fraction + (1 <<< (f.precision - 1))
  let unit := f.least + (field - 1 : Nat)
  (m <<< unit.toNat) >>> (-unit).toNat

end BinaryFormat

/-- The 64-bit integer that a numeral is cut down to, once it has been rounded to the floating-point
format of 64 bits. Numbers out of range go to the nearest end of it, and what is not a number to
zero. -/
def Scientific.toSigned64 (n : Scientific) : Int :=
  match n.magnitude with
  | .notANumber => 0
  | magnitude =>
    let code := BinaryFormat.double.codeOfMagnitude magnitude
    let whole : Int :=
      if code = BinaryFormat.double.infinityCode then wordCount
      else BinaryFormat.double.wholePart code
    clamp64 (if n.negative then -whole else whole)

end ClockedC
