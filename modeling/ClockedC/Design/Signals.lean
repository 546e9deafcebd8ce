import ClockedC.Design.Event
import ClockedC.Process.Variable
import ClockedC.Vhdl.Expr

/-!
# The signals of a function

Each local has a signal of its own name, declared once, unless the name is taken by a parameter or
by the output. An array has a type of its own as well, and a constant with its initial contents if
it has an initializer. The result of each call is a signal too.
-/

namespace ClockedC

/-! ## Arrays -/

/-- The last index of an array, as a signed 64-bit word. -/
def lastIndex (size : Nat) : Int :=
  wrap64 (size - 1)

/-- The bit string of an element of an initializer. A name is no constant and counts as zero. -/
def Element.bits (type : ScalarType) : Element → String
  | number text => (type.encoded? text).getD type.zeroCode
  | character c => (type.encoded? (toString c.toNat)).getD type.zeroCode
  | name _ => type.zeroCode

/-- What there is to tell about an element of the initializer of an array. -/
def Element.notice? (array : String) : Element → Option Notice
  | name n => some (.elementNotConstant n array)
  | number _ | character _ => none

/-- The entries of the constant with the initial contents of an array: the elements it has room for,
and zero for all others if there are any. -/
def initialEntries (type : ScalarType) (size : Nat) (elements : List Element) : List String :=
  let kept := elements.take size
  (kept.map fun e => "\"" ++ e.bits type ++ "\"") ++
    (if kept.length < size then ["others => (others => '0')"] else [])

/-- What there is to tell about the initializer of an array. -/
def initialNotices (name : String) (size : Nat) (elements : List Element) : List Notice :=
  (if size < elements.length then [.excessElements name elements.length size] else []) ++
    (elements.take size).filterMap (Element.notice? name)

/-- The line that declares the type of an array. -/
def arrayTypeLine (name : String) (last : Int) (type : ScalarType) : String :=
  s!"  type {name}_type is array (0 to {last}) of {type.vector};"

/-- The line that declares the constant with the initial contents of an array. -/
def arrayConstantLine (name entries : String) : String :=
  s!"  constant {name}_init : {name}_type := ({entries});"

/-- The line that declares the signal of an array. -/
def arraySignalLine (name contents : String) : String :=
  s!"  signal {name} : {name}_type{contents};"

/-- Declares an array. -/
def arrayEvents (name : String) (type : ScalarType) (size : Nat) (init : Option (List Element)) :
    List Event :=
  .line (arrayTypeLine name (lastIndex size) type) ::
    match init with
    | none => [.line (arraySignalLine name "")]
    | some elements =>
      (initialNotices name size elements).map .notice ++
        [.line "  -- Array initialization",
          .line (arrayConstantLine name (commaSeparated (initialEntries type size elements))),
          .line (arraySignalLine name (" := " ++ name ++ "_init"))]

/-! ## All signals -/

/-- The declaration of a signal. -/
def signalLine (name : String) (type : ScalarType) : String :=
  s!"  signal {name} : {type.vector};"

/-- Declares the signal of a local. -/
def Declaration.events (d : Declaration) : List Event :=
  match d.form with
  | .scalar _ => [.line (signalLine d.name d.type)]
  | .array size init => arrayEvents d.name d.type size init

/-- The declarations whose names are neither taken nor declared by an earlier one. -/
def firstDeclarations : (taken : List String) → List Declaration → List Declaration
  | _, [] => []
  | taken, d :: ds =>
    if taken.contains d.name then firstDeclarations taken ds
    else d :: firstDeclarations (d.name :: taken) ds

/-- The type of the result of a call. The result of an unknown function counts as an `int`. -/
def Call.resultType (signature? : String → Option Signature) (c : Call) : ScalarType :=
  match signature? c.callee with
  | some s => s.returns
  | none => .int

namespace Function

/-- The declarations that have a signal of their own. -/
def signalDeclarations (f : Function) : List Declaration :=
  firstDeclarations (outputName :: f.params.map Param.name) f.declarations

/-- Declares the signals of a function. -/
def signalEvents (signature? : String → Option Signature) (f : Function) : List Event :=
  f.signalDeclarations.flatMap Declaration.events ++
    (if f.hidesOutput then [.line (signalLine heldResult f.returns)] else []) ++
    f.calls.map fun c => .line (signalLine c.wire (c.resultType signature?))

/-- Drives the output from the signal for a local of its name. -/
def resultDriverLines (f : Function) : List String :=
  if f.hidesOutput then [s!"  {outputName} <= {heldResult};"] else []

/-- The names of the arrays of a function, each once. -/
def arrayNames (f : Function) : List String :=
  (firstDeclarations [] (f.declarations.filter Declaration.isArray)).map Declaration.name

/-- Remarks that arrays stay signals inside of the process. -/
def arrayNoteLines (f : Function) : List String :=
  f.arrayNames.map fun name => s!"  -- note: array {name} kept as signal (not variableized)"

end Function

end ClockedC
