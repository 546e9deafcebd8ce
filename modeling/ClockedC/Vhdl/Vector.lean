import ClockedC.Numeral.Binary
import ClockedC.Program.ScalarType

/-!
# Vectors

Every scalar is carried by a vector of bits: integers in two's complement, floating-point numbers in
their binary code. A vector is written with a fixed count of binary digits, the highest first, and
digits that do not fit are dropped from the front.
-/

namespace ClockedC

/-! ## Bit strings -/

/-- The binary digit of `n` that counts for `2 ^ i`. -/
def bitAt (n i : Nat) : Char :=
  if n.testBit i then '1' else '0'

/-- The lowest `width` binary digits of `n`, the highest of them first. -/
def bitChars : (width n : Nat) → List Char
  | 0, _ => []
  | width + 1, n => bitAt n width :: bitChars width n

@[simp]
theorem length_bitChars (width n : Nat) : (bitChars width n).length = width := by
  induction width with
  | zero => rfl
  | succ width ih => simp [bitChars, ih]

/-- The text of `bitChars`. -/
def bitString (width n : Nat) : String :=
  String.ofList (bitChars width n)

/-- The two's complement code of `value` in `width` bits. -/
def twosComplement (width : Nat) (value : Int) : Nat :=
  (value % (1 <<< width : Nat)).toNat

/-! ## Scalars as vectors -/

namespace ScalarType

/-- The vector type of a scalar type. -/
def vector (t : ScalarType) : String :=
  s!"std_logic_vector({t.width - 1} downto 0)"

/-- The bit string that stands for zero. -/
def zeroCode (t : ScalarType) : String :=
  bitString t.width 0

/-- The integer that a numeral is stored as: its own value if it is an integer, or else what is left
of it without its fraction. -/
def wholeValue? (text : String) : Option Int :=
  (signed64? text).or ((Scientific.read? text).map Scientific.toSigned64)

/-- The bit string of a numeral in a vector of a type. A text that is no numeral has none. -/
def encoded? (t : ScalarType) (text : String) : Option String :=
  match t with
  | float =>
    (Scientific.read? text).map fun n => bitString t.width (BinaryFormat.single.code n)
  | double =>
    (Scientific.read? text).map fun n => bitString t.width (BinaryFormat.double.code n)
  | int | char | void =>
    (wholeValue? text).map fun v => bitString t.width (twosComplement t.width v)

end ScalarType

end ClockedC
