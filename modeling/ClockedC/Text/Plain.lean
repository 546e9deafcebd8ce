/-!
# Plain text

A stream that is no terminal gets its text without control characters, and without the sequences
that control a terminal. Such a sequence begins with an escape character. What follows decides where
it ends:

* after `[`, at the first letter or mark from `@` to `~`;
* after `]`, at a bell character;
* after `P`, `X`, `^` or `_`, at a string terminator, for which any byte `9C` is taken;
* otherwise at the first character that is neither a control character nor one from blank to `/`.

A new escape character breaks a sequence off, and so do the control characters `18` and `1A`. Tabs
and the characters that end a line or a page are kept. They are kept inside of a sequence too, if it
is no string; everything that can be seen after them is kept as well, up to the next control
character.

* `withoutControls` gives the plain text of a text.
-/

namespace ClockedC

namespace Plain

/-- What a text is in the middle of. -/
inductive Mode where
  | text
  /-- After an escape character. -/
  | escape
  /-- After an escape character and some marks from the blank to `/`. -/
  | escapeMarks
  /-- In a control sequence. -/
  | sequence
  /-- At the head of a device control string: at its start, in its parameters, in its marks. -/
  | deviceStart
  | deviceParams
  | deviceMarks
  /-- In a string that a string terminator ends. -/
  | string
  /-- In a command to the operating system, which a bell character ends. -/
  | command
deriving DecidableEq, Repr

/-- Whether a character sets the layout of a text. -/
def isLayout (c : Char) : Bool :=
  c = '\t' || c = '\n' || c = '\x0c' || c = '\r'

/-- Whether a character can be seen, or sets the layout of what can be seen. -/
def isPrintable (c : Char) : Bool :=
  isLayout c || (0x20 ≤ c.toNat && c.toNat ≠ 0x7F)

/-- Whether a character is kept by a mode. -/
def Mode.keeps (m : Mode) (c : Char) : Bool :=
  match m with
  | text => isPrintable c
  | escape | escapeMarks | sequence => isLayout c
  | deviceStart | deviceParams | deviceMarks | string | command => false

/-- The mode after an escape character and a character that can be seen. -/
def Mode.ofIntroducer (c : Char) : Mode :=
  if c.toNat < 0x30 then escapeMarks
  else if c = '[' then sequence
  else if c = ']' then command
  else if c = 'P' then deviceStart
  else if c = 'X' || c = '^' || c = '_' then string
  else text

/-- The mode after an ASCII character that can be seen. -/
def Mode.afterVisible (m : Mode) (c : Char) : Mode :=
  match m with
  | escape => ofIntroducer c
  | escapeMarks => if c.toNat < 0x30 then escapeMarks else text
  | sequence => if c.toNat < 0x40 then sequence else text
  | deviceStart =>
    if c.toNat < 0x30 then deviceMarks else if c.toNat < 0x40 then deviceParams else string
  | deviceParams =>
    if c.toNat < 0x30 then deviceMarks else if c.toNat < 0x3C then deviceParams else string
  | deviceMarks => if c.toNat < 0x30 then deviceMarks else string
  | text | string | command => m

/-- The mode after a character. -/
def Mode.after (m : Mode) (c : Char) : Mode :=
  if c = '\x18' || c = '\x1a' then text
  else if c = '\x1b' then escape
  else if c = '\x07' && m = command then text
  else if c.toNat < 0x20 || c.toNat = 0x7F then m
  else if c.toNat < 0x80 then m.afterVisible c
  else if m = string && (String.utf8EncodeChar c).contains 0x9C then text
  else m

/-- The characters of a text that are kept. While they run on, a character is kept without a look at
the mode, which one beyond ASCII ends. -/
def kept (m : Mode) (running : Bool) : List Char → List Char
  | [] => []
  | c :: cs =>
    if running && isPrintable c then c :: kept (if c.toNat < 0x80 then m else .text) true cs
    else if m.keeps c then c :: kept (m.after c) true cs
    else kept (m.after c) false cs

end Plain

/-- A text without control characters and control sequences. -/
def withoutControls (text : String) : String :=
  String.ofList (Plain.kept .text false text.toList)

end ClockedC
