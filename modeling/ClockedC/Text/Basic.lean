/-!
# Characters, positions and lines

What is read is a text of characters, each of which has a position. What is written goes out line by
line.

* `isBlank` tells the characters that separate tokens without meaning anything themselves.
* `Position` is a line and a column, both counted from one. Only a line feed starts a new line, and
  every other character, whatever its encoded size, moves one column to the right.
* `unlines` puts lines together. A line inside a block stands two blanks further to the right than
  the block.
-/

namespace ClockedC

/-! ## Blank characters -/

/-- The twenty-five characters with the Unicode property `White_Space`, as inclusive ranges of code
points. -/
def blankRanges : List (Nat × Nat) :=
  [(0x09, 0x0D), (0x20, 0x20), (0x85, 0x85), (0xA0, 0xA0), (0x1680, 0x1680), (0x2000, 0x200A),
    (0x2028, 0x2029), (0x202F, 0x202F), (0x205F, 0x205F), (0x3000, 0x3000)]

/-- Whether a character is blank. -/
def isBlank (c : Char) : Bool :=
  blankRanges.any fun (first, last) => first ≤ c.toNat && c.toNat ≤ last

/-! ## Positions -/

/-- A place in a source text. The position `⟨0, 0⟩` belongs to no text; it stands in where a token
sequence carries no position at all. -/
structure Position where
  line : Nat
  column : Nat
deriving DecidableEq, Inhabited, Repr

namespace Position

/-- The position of the first character of a text. -/
def start : Position := ⟨1, 1⟩

/-- The position after one character. -/
def step (p : Position) (c : Char) : Position :=
  if c = '\n' then ⟨p.line + 1, 1⟩ else ⟨p.line, p.column + 1⟩

/-- The position after a run of characters. -/
def advance (p : Position) (cs : List Char) : Position :=
  cs.foldl step p

@[simp]
theorem advance_nil (p : Position) : p.advance [] = p := rfl

@[simp]
theorem advance_cons (p : Position) (c : Char) (cs : List Char) :
    p.advance (c :: cs) = (p.step c).advance cs := rfl

end Position

/-! ## Lines -/

/-- A line that stands `depth` steps to the right. -/
def indented (depth : Nat) (text : String) : String :=
  String.ofList (List.replicate (2 * depth) ' ') ++ text

/-- The text of a list of lines. -/
def unlines (lines : List String) : String :=
  String.join (lines.map (· ++ "\n"))

/-- A list of texts on one line. -/
def commaSeparated (texts : List String) : String :=
  String.intercalate ", " texts

end ClockedC
