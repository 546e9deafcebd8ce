import ClockedC.Token.Basic

/-!
# From text to tokens

A source text is a sequence of tokens with trivia before, between and after them. Trivia are blank
characters, the lines from `//` or `#` to their end, and the comments between `/*` and `*/`.

Each token takes as many characters as it can. The functions that recognise something at the front
of a text answer with the count of characters it takes, so that what follows is never longer than
the text it was cut from.

* `triviaLength` measures the trivia at the front of a text.
* `symbolAt` recognises one symbol and measures it.
* `scan` reads a whole text and ends in the symbol `eof`.
-/

namespace ClockedC

/-- Why a text has no tokens. -/
inductive ScanFault where
  | unclosedComment
  | unclosedString
  | unfinishedCharacter
  | unknownEscape (c : Char)
  | unclosedCharacter
  | unexpected (c : Char)
deriving DecidableEq, Repr

/-- The wording of a fault. -/
def ScanFault.message : ScanFault → String
  | unclosedComment => "Unterminated comment"
  | unclosedString => "Unterminated string literal"
  | unfinishedCharacter => "Unexpected end of file in character literal"
  | unknownEscape c => s!"Unknown escape sequence: \\{c}"
  | unclosedCharacter => "Expected closing quote in character literal"
  | unexpected c => s!"Unexpected character: '{c}'"

/-- A fault and the position of the comment or symbol that has it. -/
structure ScanError where
  fault : ScanFault
  position : Position
deriving DecidableEq, Repr

namespace Scan

/-! ## Trivia -/

/-- What a stretch of trivia is in the middle of. -/
inductive Trivia where
  | between
  | line
  /-- A comment that was opened `start` characters into the text. -/
  | comment (start : Nat)

/-- The count of characters up to the next symbol, or to the end, when `n` have been passed already.
A comment without an end gives the count of characters before it. -/
def trivia : Trivia → (n : Nat) → List Char → Except Nat Nat
  | .between, n, [] => .ok n
  | .between, n, '/' :: '/' :: cs => trivia .line (n + 2) cs
  | .between, n, '/' :: '*' :: cs => trivia (.comment n) (n + 2) cs
  | .between, n, c :: cs =>
    if isBlank c then trivia .between (n + 1) cs
    else if c = '#' then trivia .line (n + 1) cs
    else .ok n
  | .line, n, [] => .ok n
  | .line, n, c :: cs => trivia (if c = '\n' then .between else .line) (n + 1) cs
  | .comment start, _, [] => .error start
  | .comment _, n, '*' :: '/' :: cs => trivia .between (n + 2) cs
  | .comment start, n, _ :: cs => trivia (.comment start) (n + 1) cs

/-- The count of characters of the trivia at the front of a text. -/
def triviaLength (cs : List Char) : Except Nat Nat :=
  trivia .between 0 cs

/-! ## Symbols -/

/-- The operators of the source language, longer ones first. -/
def operators : List String :=
  ["<<=", ">>=",
    "++", "+=", "--", "-=", "*=", "/=", "%=", "==", "!=", "<=", "<<", ">=", ">>", "&&", "&=", "||",
    "|=", "^=",
    "+", "-", "*", "/", "%", "=", "!", "<", ">", "&", "|", "^", "~", "?", ":", "."]

/-- The longest operator at the front of a text. -/
def operatorAt (cs : List Char) : Option String :=
  operators.find? fun op => op.toList.isPrefixOf cs

/-- Whether a name may begin with a character. -/
def startsName (c : Char) : Bool :=
  c.isAlpha || c == '_'

/-- Whether a name may go on with a character. -/
def continuesName (c : Char) : Bool :=
  c.isAlphanum || c == '_'

/-- The count of characters before the quote that closes a string, when `n` have been passed
already. A backslash keeps the character after it from closing the string or ending its line. -/
def closingQuote : (n : Nat) → List Char → Option Nat
  | _, [] => none
  | n, '"' :: _ => some n
  | _, '\n' :: _ => none
  | _, ['\\'] => none
  | n, '\\' :: _ :: cs => closingQuote (n + 2) cs
  | n, _ :: cs => closingQuote (n + 1) cs

/-- The character that an escape stands for. -/
def escape? : Char → Option Char
  | 'n' => some '\n'
  | 't' => some '\t'
  | 'r' => some '\r'
  | '\\' => some '\\'
  | '\'' => some '\''
  | '0' => some '\x00'
  | _ => none

/-- A character literal, of which only the opening quote has been read, and the count of characters
that it takes beyond that quote. -/
def characterAt : List Char → Except ScanFault (Char × Nat)
  | [] | ['\\'] => .error .unfinishedCharacter
  | '\\' :: e :: cs =>
    match escape? e with
    | none => .error (.unknownEscape e)
    | some value => if cs.head? = some '\'' then .ok (value, 3) else .error .unclosedCharacter
  | c :: cs => if cs.head? = some '\'' then .ok (c, 2) else .error .unclosedCharacter

/-- The count of characters of a number, its first digit apart: more digits, and a point with at
least one digit after it. -/
def numberTail (cs : List Char) : Nat :=
  let whole := (cs.takeWhile Char.isDigit).length
  match cs.drop whole with
  | '.' :: ds =>
    let fraction := (ds.takeWhile Char.isDigit).length
    if fraction = 0 then whole else whole + 1 + fraction
  | _ => whole

/-- The symbol of a word: a reserved word, or a name. -/
def word (text : String) : Symbol :=
  match Keyword.ofSpelling? text with
  | some k => .keyword k
  | none => .name text

/-- The symbol that begins with `c`, and the count of characters of `cs` that belong to it. -/
def symbolAt (c : Char) (cs : List Char) : Except ScanFault (Symbol × Nat) :=
  if c = '"' then
    match closingQuote 0 cs with
    | some n => .ok (.string (String.ofList (cs.take n)), n + 1)
    | none => .error .unclosedString
  else if c = '\'' then
    (characterAt cs).map fun (value, n) => (.character value, n)
  else if c.isDigit then
    let n := numberTail cs
    .ok (.number (String.ofList (c :: cs.take n)), n)
  else if startsName c then
    let n := (cs.takeWhile continuesName).length
    .ok (word (String.ofList (c :: cs.take n)), n)
  else
    match Punct.ofChar? c with
    | some mark => .ok (.punct mark, 0)
    | none =>
      match operatorAt (c :: cs) with
      | some op => .ok (.operator op, op.length - 1)
      | none => .error (.unexpected c)

/-! ## Whole texts -/

/-- The tokens of a text whose first character stands at `p`. -/
def tokens (p : Position) (cs : List Char) : Except ScanError (List Token) :=
  match triviaLength cs with
  | .error n => .error ⟨.unclosedComment, p.advance (cs.take n)⟩
  | .ok n =>
    let here := p.advance (cs.take n)
    match _h : cs.drop n with
    | [] => .ok [⟨.eof, here⟩]
    | c :: rest =>
      match symbolAt c rest with
      | .error fault => .error ⟨fault, here⟩
      | .ok (symbol, k) =>
        match tokens (here.advance (c :: rest.take k)) (rest.drop k) with
        | .error e => .error e
        | .ok ts => .ok (⟨symbol, here⟩ :: ts)
termination_by cs.length
decreasing_by
  have hlen := congrArg List.length _h
  simp only [List.length_drop, List.length_cons] at hlen ⊢
  omega

end Scan

/-- Reads a source text into tokens, the last of which is `eof`. -/
def scan (source : String) : Except ScanError (List Token) :=
  Scan.tokens Position.start source.toList

end ClockedC
