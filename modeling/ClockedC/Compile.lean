import ClockedC.Design.Basic
import ClockedC.Parse.Program

/-!
# Compiling a source text

From source text to design. Nothing is written unless the whole source can be read, and what is told
while reading comes before what is told while writing.
-/

namespace ClockedC

/-- Reads a program and numbers its calls. -/
def Program.prepare (source : String) : Logged Program := do
  let p ← Program.ofSource source
  let p := p.numberCalls
  .tell (.programParsed p.functions.length)
  return p

/-- Compiles a source text into the steps of writing its design. -/
def compile (preamble : Preamble) (source : String) : Logged (List Event) := do
  let p ← Program.prepare source
  return p.designEvents preamble

/-- The notices of a compilation, first those of reading and then those of writing. -/
def compileLog (t : Logged (List Event)) : List Notice :=
  match t.outcome with
  | .error _ => t.log
  | .ok events => t.log ++ Event.log events

/-! ## Outputs of bounded size -/

/-- Why a design did not get into an output of bounded size as a whole. -/
inductive CompileError where
  | source (error : ParseError)
  | outputFull
deriving DecidableEq, Repr

/-- What became of a source text that was compiled into an output of bounded size. -/
structure Transfer where
  /-- The bytes that the output took. -/
  written : List UInt8
  /-- The notices of the compilation. -/
  log : List Notice
  outcome : Except CompileError Unit

/-- Compiles a source text into an output with room for some bytes. -/
def compileInto (room : Nat) (preamble : Preamble) (source : String) : Transfer :=
  let t := compile preamble source
  match t.outcome with
  | .error e => ⟨[], t.log, .error (.source e)⟩
  | .ok events =>
    let d := Event.deliver room events
    ⟨d.written, t.log ++ d.log, if d.complete then .ok () else .error .outputFull⟩

end ClockedC
