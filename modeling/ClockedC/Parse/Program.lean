import ClockedC.Parse.Stmt

/-!
# Reading programs

A program is a sequence of function definitions. What stands between them is left out with a notice:
a declaration outside of all functions up to its semicolon, anything else token by token.

* `Program.ofTokens` reads a sequence of tokens.
* `Program.ofSource` reads a source text.
-/

namespace ClockedC

namespace Parse

open Cursor

/-- Reads a function definition, of which the result type, the name at `position` and the
parenthesis after it have been read. Names declared in other functions are of no concern to it. -/
def function (returns : ScalarType) (name : String) (position : Position) (ts : List Token) :
    Logged (Read Function ts) := do
  let ⟨(params, table), rest, h⟩ ← parameterList .empty ts
  let ⟨_, rest, h'⟩ ← expect .closeParen .afterParameters rest
  have h := h.andThen h'
  let ⟨_, rest, h'⟩ ← expect .openBrace .startOfBody rest
  have h := h.andThen h'
  let ⟨(body, _), rest, h'⟩ ← block .endOfBody false 0 table rest
  return ⟨⟨name, returns, params, body, position⟩, rest, h.andThen h'⟩

/-- Reads functions up to the end of the source. -/
def functions (ts : List Token) : Logged (List Function) :=
  match next? ts with
  | none => return []
  | some ⟨t, rest, _⟩ =>
    match t.symbol with
    | .keyword (.type returns) =>
      match next? rest with
      | some ⟨⟨.name name, position⟩, inner, _⟩ =>
        match accept (.punct .openParen) inner with
        | some ⟨_, inner, _⟩ => do
          let ⟨f, rest, _⟩ ← function returns name position inner
          .tell (.functionParsed name)
          let fs ← functions rest
          return f :: fs
        | none => do
          .tell (.globalVariable name)
          functions (afterSemicolon rest)
      | _ => do
        .tell .typeWithoutName
        functions rest
    | found => do
      .tell (.strayToken found)
      functions rest
termination_by ts.length
decreasing_by all_goals grind

/-- The tokens with an end. One that is missing stands where the last token does. -/
def withEnd (ts : List Token) : List Token :=
  match ts.getLast? with
  | none => [⟨.eof, default⟩]
  | some last => if last.symbol = .eof then ts else ts ++ [⟨.eof, last.position⟩]

end Parse

/-- Reads a program from its tokens. -/
def Program.ofTokens (ts : List Token) : Logged Program := do
  let fs ← Parse.functions (Parse.withEnd ts)
  return ⟨fs⟩

/-- Reads a program from its source text. -/
def Program.ofSource (source : String) : Logged Program :=
  match scan source with
  | .error e => .fail (.ofScanError e)
  | .ok ts => Program.ofTokens ts

end ClockedC
