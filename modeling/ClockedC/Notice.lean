import ClockedC.Token.Basic

/-!
# Notices

What a run of the compiler tells about its work without stopping: what it left out, what it may have
misunderstood, and how far it has come. A notice is kept as its cause; its level and its wording are
read off the cause.
-/

namespace ClockedC

/-- How much a notice matters, from the gravest to the most detailed. -/
inductive Level where
  | error
  | warn
  | info
  | debug
  | trace
deriving DecidableEq, Repr

namespace Level

/-- All levels, the gravest first. -/
def all : List Level := [error, warn, info, debug, trace]

/-- The name of a level. -/
def name : Level → String
  | error => "error"
  | warn => "warn"
  | info => "info"
  | debug => "debug"
  | trace => "trace"

/-- The rank of a level: the more detailed, the higher. -/
def rank : Level → Nat
  | error => 1
  | warn => 2
  | info => 3
  | debug => 4
  | trace => 5

end Level

/-- Something worth telling. -/
inductive Notice where
  /-- A token outside of all functions means nothing. -/
  | strayToken (found : Symbol)
  | typeWithoutName
  | globalVariable (name : String)
  | functionParsed (name : String)
  | programParsed (count : Nat)
  | unknownStatement (line : Nat) (found : Symbol)
  | notAnAssignment (line : Nat) (name : String)
  | unknownForStart (line : Nat)
  | unknownForIncrement (line : Nat)
  | entityStarted (name : String)
  | excessElements (array : String) (count size : Nat)
  | elementNotConstant (name array : String)
  | unnumberedCall (callee : String)
  | unknownCallee (caller callee : String)
  | resultKept (function output signal : String)
  | variableMade (source tracked : String)
deriving DecidableEq, Repr

namespace Notice

/-- The level of a notice. -/
def level : Notice → Level
  | strayToken _ | variableMade .. => .trace
  | functionParsed _ | programParsed _ | entityStarted _ => .debug
  | typeWithoutName | globalVariable _ | unknownStatement .. | notAnAssignment ..
  | unknownForStart _ | unknownForIncrement _ | excessElements .. | elementNotConstant ..
  | unnumberedCall _ | unknownCallee .. | resultKept .. => .warn

/-- The wording of a notice. -/
def message : Notice → String
  | strayToken found => s!"skipping top-level token {found.describe}"
  | typeWithoutName => "Expected identifier after type"
  | globalVariable name =>
    s!"Global variable declarations not yet supported (skipping '{name}')"
  | functionParsed name => s!"parsed function '{name}'"
  | programParsed count => s!"parsed {count} function(s)"
  | unknownStatement line found =>
    s!"Unrecognized statement at line {line} starting with {found.describe}; skipping"
  | notAnAssignment line name =>
    s!"Unrecognized statement at line {line} ('{name}' is not followed by '='); skipping"
  | unknownForStart line => s!"Unsupported for-loop initializer at line {line}; skipping"
  | unknownForIncrement line => s!"Unsupported for-loop increment at line {line}; skipping"
  | entityStarted name => s!"generating entity '{name}'"
  | excessElements array count size =>
    s!"array '{array}' has {count} initializers for {size} elements; extra values dropped"
  | elementNotConstant name array =>
    s!"identifier '{name}' in initializer of array '{array}' is not a constant; using zero"
  | unnumberedCall callee => s!"call to '{callee}' has no instance index; not instantiated"
  | unknownCallee caller callee =>
    s!"'{caller}' calls '{callee}', which is not defined in this program"
  | resultKept function output signal =>
    s!"local '{output}' in '{function}' is kept in signal '{signal}', which drives the output port"
  | variableMade source tracked => s!"tracking '{source}' as '{tracked}'"

end Notice

end ClockedC
