/-!
# Integer numerals of 64 bits

Decimal numerals with an optional sign, read into the range of a 64-bit word. A numeral that is not
well formed, or whose value does not fit, has no value.

* `unsigned64?` reads `0 ≤ n < 2 ^ 64` and takes no minus sign.
* `signed64?` reads `-2 ^ 63 ≤ n < 2 ^ 63`.
* `negate64` is the negation of 64-bit words, where the least value is its own negative.
-/

namespace ClockedC

/-- The count of words of 64 bits, `2 ^ 64`. -/
def wordCount : Nat := 0x10000000000000000

/-- The least of the signed words, `-2 ^ 63`. -/
def leastSigned : Int := -0x8000000000000000

/-- The greatest of the signed words, `2 ^ 63 - 1`. -/
def greatestSigned : Int := 0x7fffffffffffffff

/-- The value of a run of decimal digits, after the digits with value `n` have been read. -/
def digitsValue (n : Nat) (cs : List Char) : Nat :=
  cs.foldl (fun n c => 10 * n + (c.toNat - '0'.toNat)) n

/-- The value of a text that consists of decimal digits, of which there is at least one. -/
def natural? (cs : List Char) : Option Nat :=
  if cs.isEmpty || !cs.all Char.isDigit then none else some (digitsValue 0 cs)

/-- Takes an optional sign off the front; the first part tells whether it was a minus. -/
def splitSign : List Char → Bool × List Char
  | '-' :: cs => (true, cs)
  | '+' :: cs => (false, cs)
  | cs => (false, cs)

/-- The value of a numeral of an unsigned 64-bit word. -/
def unsigned64? (text : String) : Option Nat :=
  let (negative, digits) := splitSign text.toList
  match natural? digits with
  | some n => if !negative && n < wordCount then some n else none
  | none => none

/-- The value of a numeral of a signed 64-bit word. -/
def signed64? (text : String) : Option Int :=
  let (negative, digits) := splitSign text.toList
  match natural? digits with
  | some n =>
    let value : Int := if negative then -n else n
    if leastSigned ≤ value ∧ value ≤ greatestSigned then some value else none
  | none => none

/-- The signed 64-bit word that `value` leaves when its higher digits are dropped. -/
def wrap64 (value : Int) : Int :=
  value.bmod wordCount

/-- The negative of a signed 64-bit word. -/
def negate64 (value : Int) : Int :=
  wrap64 (-value)

/-- The signed 64-bit word closest to `value`. -/
def clamp64 (value : Int) : Int :=
  max leastSigned (min greatestSigned value)

end ClockedC
