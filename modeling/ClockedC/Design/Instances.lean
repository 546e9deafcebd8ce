import ClockedC.Design.Signals

/-!
# The instances of a function

Each call with a unit number is an instance of the entity of the function it calls. Instances run at
all times; only the use of their results depends on the statements around the call. Their arguments
are wired from signals and inputs, so the names in them are taken as they are.
-/

namespace ClockedC

/-- The text of an argument for an input of some width. A literal becomes a vector. -/
def Expr.argument (width : Nat) (e : Expr) : String :=
  match e, e.literalValue? with
  | number text, some _ => s!"std_logic_vector(to_unsigned({text}, {width}))"
  | _, some value =>
    if value < 0 then s!"std_logic_vector(to_signed({value}, {width}))" else e.vhdl
  | _, none => e.vhdl

/-- The width of the parameter at a place, or the common width if there is none. -/
def paramWidth (signature : Option Signature) (place : Nat) : Nat :=
  match signature with
  | some s => ((s.params[place]?).map ScalarType.width).getD ScalarType.int.width
  | none => ScalarType.int.width

/-- What an instance is connected to: clock, reset, the arguments and the result. -/
def Call.connections (signature : Option Signature) (c : Call) : List String :=
  ["clk", "reset"] ++
    (c.args.zipIdx.map fun (arg, place) => arg.argument (paramWidth signature place)) ++
    [c.wire]

/-- Instantiates a call of a function. -/
def Call.events (signature? : String → Option Signature) (caller : String) (c : Call) :
    List Event :=
  match c.unit with
  | none => [.notice (.unnumberedCall c.callee)]
  | some n =>
    let signature := signature? c.callee
    let connections := commaSeparated (c.connections signature)
    (if signature.isNone then [.notice (.unknownCallee caller c.callee)] else []) ++
      [.line s!"  u_{c.callee}_{n}: entity work.{c.callee} port map( {connections} );"]

/-- Instantiates the calls of a function. -/
def Function.instanceEvents (signature? : String → Option Signature) (f : Function) : List Event :=
  f.calls.flatMap (Call.events signature? f.name)

end ClockedC
