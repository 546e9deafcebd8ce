import ClockedC.Parse.Expr
import ClockedC.Program.Basic

/-!
# Reading declarations

Parameters and local variables. A declaration enters its name into the table of shapes; one that
conflicts with an earlier declaration is an error on the line of its name.

```text
parameters  ::= "void"? | type name ("," type name)*
declaration ::= type name ("=" expression)? ";" | type name "[" size "]" ("=" elements)? ";"
elements    ::= "{" (element ("," element)*)? "}"
element     ::= "-"? number | character | name
```
-/

namespace ClockedC

namespace Parse

open Cursor

/-- The table after a declaration on a line. -/
def declared (line : Nat) (result : Except Conflict ShapeTable) : Except ParseError ShapeTable :=
  match result with
  | .ok table => .ok table
  | .error c => .error (.grammar (.conflict c) line)

/-- Reads a name, or fails on the line where it should stand. The line of the name comes with it. -/
def declaredName (fault : GrammarFault) (ts : List Token) :
    Except ParseError (Read (String × Nat) ts) :=
  match next? ts with
  | some ⟨⟨.name name, position⟩, rest, h⟩ => .ok ⟨(name, position.line), rest, h⟩
  | _ => .error (.grammar fault (line ts))

/-! ## Parameters -/

/-- The type that a variable begins with. -/
def variableType? (ts : List Token) : Option (Read (ScalarType × Position) ts) :=
  match next? ts with
  | some ⟨⟨.keyword (.type type), position⟩, rest, h⟩ =>
    if type = .void then none else some ⟨(type, position), rest, h⟩
  | _ => none

/-- Reads parameters with commas between them. -/
def parameters (table : ShapeTable) (ts : List Token) :
    Except ParseError (Read (List Param × ShapeTable) ts) :=
  match variableType? ts with
  | none => .error (.grammar (.noParameterType (symbol ts)) (line ts))
  | some ⟨(type, _), rest, h⟩ => do
    let ⟨(name, line), rest, h'⟩ ← declaredName .noParameterName rest
    have h := h.andThen h'
    let table ← declared line (table.addScalar name)
    match accept (.punct .comma) rest with
    | some ⟨_, rest, h'⟩ =>
      have h := h.andThen h'
      let ⟨(params, table), rest, h'⟩ ← parameters table rest
      return ⟨(⟨type, name⟩ :: params, table), rest, h.andThen h'⟩
    | none => return ⟨([⟨type, name⟩], table), rest, h⟩
termination_by ts.length
decreasing_by grind

/-- Reads an empty list of parameters, which may say `void`. The parenthesis after it is left. -/
def noParameters? (ts : List Token) : Option (Pass Unit ts) :=
  if symbol ts = .punct .closeParen then some (.stay () ts)
  else
    match accept (.keyword (.type .void)) ts with
    | some ⟨_, rest, h⟩ =>
      if symbol rest = .punct .closeParen then some ⟨(), rest, h.left⟩ else none
    | none => none

/-- Reads the parameters of a function, of which there may be none. The parenthesis after them is
left. -/
def parameterList (table : ShapeTable) (ts : List Token) :
    Except ParseError (Pass (List Param × ShapeTable) ts) :=
  match noParameters? ts with
  | some ⟨_, rest, h⟩ => .ok ⟨([], table), rest, h⟩
  | none => do
    let ⟨params, rest, h⟩ ← parameters table ts
    return ⟨params, rest, h.left⟩

/-! ## Local variables -/

/-- Reads the size of an array. -/
def arraySize (ts : List Token) : Except ParseError (Read Nat ts) :=
  match next? ts with
  | some ⟨⟨.number text, position⟩, rest, h⟩ =>
    match unsigned64? text with
    | some size => .ok ⟨size, rest, h⟩
    | none => .error (.grammar .noArraySize position.line)
  | _ => .error (.grammar .noArraySize (line ts))

/-- Reads an element that has no minus sign. -/
def plainElement (ts : List Token) : Except ParseError (Read Element ts) :=
  match next? ts with
  | some ⟨⟨.number text, _⟩, rest, h⟩ => .ok ⟨.number text, rest, h⟩
  | some ⟨⟨.character c, _⟩, rest, h⟩ => .ok ⟨.character c, rest, h⟩
  | some ⟨⟨.name name, _⟩, rest, h⟩ => .ok ⟨.name name, rest, h⟩
  | _ => .error (.grammar (.noElement (symbol ts)) (line ts))

/-- Reads the number after a minus sign. -/
def negatedElement (ts : List Token) : Except ParseError (Read Element ts) :=
  match next? ts with
  | some ⟨⟨.number text, _⟩, rest, h⟩ => .ok ⟨.number ("-" ++ text), rest, h⟩
  | _ => .error (.grammar (.noElement (symbol ts)) (line ts))

/-- Reads an element of an array initializer. -/
def element (ts : List Token) : Except ParseError (Read Element ts) :=
  match accept (.operator "-") ts with
  | some ⟨_, rest, h⟩ => do
    let ⟨e, rest, h'⟩ ← negatedElement rest
    return ⟨e, rest, h.andThen h'⟩
  | none => plainElement ts

/-- Reads elements with commas between them. -/
def elements (ts : List Token) : Except ParseError (Read (List Element) ts) := do
  let ⟨e, rest, h⟩ ← element ts
  match accept (.punct .comma) rest with
  | some ⟨_, rest, h'⟩ =>
    have h := h.andThen h'
    let ⟨es, rest, h'⟩ ← elements rest
    return ⟨e :: es, rest, h.andThen h'⟩
  | none => return ⟨[e], rest, h⟩
termination_by ts.length
decreasing_by grind

/-- Reads an array initializer with its braces. -/
def elementList (ts : List Token) : Except ParseError (Read (List Element) ts) := do
  let ⟨_, rest, h⟩ ← expect .openBrace .startOfElements ts
  match accept (.punct .closeBrace) rest with
  | some ⟨_, rest, h'⟩ => return ⟨[], rest, h.andThen h'⟩
  | none =>
    let ⟨es, rest, h'⟩ ← elements rest
    have h := h.andThen h'
    let ⟨_, rest, h'⟩ ← expect .closeBrace .endOfElements rest
    return ⟨es, rest, h.andThen h'⟩

/-- Reads the size of an array and its initializer, of which the opening bracket has been read. The
line is that of the name. -/
def arrayForm (table : ShapeTable) (name : String) (line : Nat) (ts : List Token) :
    Except ParseError (Read (Form × ShapeTable) ts) := do
  let ⟨size, rest, h⟩ ← arraySize ts
  let ⟨_, rest, h'⟩ ← expect .closeBracket .afterArraySize rest
  have h := h.andThen h'
  let table ← declared line (table.addArray name size)
  match accept (.operator "=") rest with
  | some ⟨_, rest, h'⟩ =>
    have h := h.andThen h'
    let ⟨es, rest, h'⟩ ← elementList rest
    return ⟨(.array size (some es), table), rest, h.andThen h'⟩
  | none => return ⟨(.array size none, table), rest, h⟩

/-- Reads the form of a declaration, from after its name up to its semicolon. The line is that of
the name. -/
def form (table : ShapeTable) (name : String) (line : Nat) (ts : List Token) :
    Except ParseError (Pass (Form × ShapeTable) ts) :=
  match accept (.punct .openBracket) ts with
  | some ⟨_, rest, h⟩ => do
    let ⟨form, rest, h'⟩ ← arrayForm table name line rest
    have h := h.andThen h'
    return ⟨form, rest, h.left⟩
  | none => do
    let table ← declared line (table.addScalar name)
    match accept (.operator "=") ts with
    | some ⟨_, rest, h⟩ =>
      let ⟨e, rest, h'⟩ ← value table rest
      have h := h.andThen h'
      return ⟨(.scalar (some e), table), rest, h.left⟩
    | none => return .stay (.scalar none, table) ts

/-- Reads the declaration of a local variable, of which the type at `position` has been read. -/
def declaration (table : ShapeTable) (type : ScalarType) (position : Position) (ts : List Token) :
    Except ParseError (Read (Declaration × ShapeTable) ts) := do
  let ⟨(name, line), rest, h⟩ ← declaredName .noVariableName ts
  let ⟨(form, table), rest, h'⟩ ← form table name line rest
  have h := h.andPass h'
  let ⟨_, rest, h'⟩ ← expect .semicolon .afterDeclaration rest
  return ⟨(⟨name, type, form, position⟩, table), rest, h.andThen h'⟩

end Parse

end ClockedC
