import ClockedC.Program.ScalarType
import ClockedC.Text.Basic

/-!
# Tokens

The units a source text is read into. A token is a symbol with the position of its first character.
The end of the text is a symbol too, so that a sequence of tokens says where it ends.
-/

namespace ClockedC

/-- A statement that leaves the round of the innermost loop: `leave` ends the loop, `again` goes on
with its next round. -/
inductive Jump where
  | leave
  | again
deriving DecidableEq, Repr

/-- The word for a jump. -/
def Jump.spelling : Jump → String
  | .leave => "break"
  | .again => "continue"

/-- A reserved word. -/
inductive Keyword where
  | type (type : ScalarType)
  | jump (jump : Jump)
  | returnKw
  | ifKw
  | elseKw
  | whileKw
  | forKw
deriving DecidableEq, Repr

namespace Keyword

/-- All reserved words. -/
def all : List Keyword :=
  ScalarType.all.map type ++ [jump .leave, jump .again, returnKw, ifKw, elseKw, whileKw, forKw]

/-- How a reserved word is written. -/
def spelling : Keyword → String
  | type t => t.spelling
  | jump j => j.spelling
  | returnKw => "return"
  | ifKw => "if"
  | elseKw => "else"
  | whileKw => "while"
  | forKw => "for"

/-- The reserved word with a given spelling. -/
def ofSpelling? (spelling : String) : Option Keyword :=
  all.find? fun k => k.spelling = spelling

/-- Whether a reserved word names a type. -/
def isType : Keyword → Bool
  | type _ => true
  | _ => false

end Keyword

/-- A punctuation mark. -/
inductive Punct where
  | openParen
  | closeParen
  | openBrace
  | closeBrace
  | openBracket
  | closeBracket
  | semicolon
  | comma
deriving DecidableEq, Repr

namespace Punct

/-- All punctuation marks. -/
def all : List Punct :=
  [openParen, closeParen, openBrace, closeBrace, openBracket, closeBracket, semicolon, comma]

/-- The character of a punctuation mark. -/
def char : Punct → Char
  | openParen => '('
  | closeParen => ')'
  | openBrace => '{'
  | closeBrace => '}'
  | openBracket => '['
  | closeBracket => ']'
  | semicolon => ';'
  | comma => ','

/-- The punctuation mark with a given character. -/
def ofChar? (c : Char) : Option Punct :=
  all.find? fun p => p.char = c

end Punct

/-- What a token is. Numbers and names keep their text, strings the text between their quotes, and
operators their spelling. -/
inductive Symbol where
  | number (text : String)
  | character (value : Char)
  | string (text : String)
  | name (text : String)
  | keyword (word : Keyword)
  | operator (spelling : String)
  | punct (mark : Punct)
  | eof
deriving DecidableEq, Repr

namespace Symbol

/-- The text that a symbol is written as. A character is written as itself between its quotes. -/
def spelling : Symbol → String
  | number text => text
  | character c => s!"'{c}'"
  | string text => s!"\"{text}\""
  | name text => text
  | keyword word => word.spelling
  | operator op => op
  | punct mark => mark.char.toString
  | eof => ""

/-- How a message speaks of a symbol. -/
def describe : Symbol → String
  | number text => s!"number {text}"
  | character c => s!"char literal '{c}'"
  | string text => s!"string literal \"{text}\""
  | name text => s!"identifier '{text}'"
  | keyword word => s!"'{word.spelling}'"
  | operator op => s!"'{op}'"
  | punct mark => s!"'{mark.char}'"
  | eof => "end of file"

end Symbol

/-- A symbol and where it stands. -/
structure Token where
  symbol : Symbol
  position : Position
deriving DecidableEq, Repr

namespace Token

/-- The line on which a token starts. -/
def line (t : Token) : Nat := t.position.line

end Token

end ClockedC
