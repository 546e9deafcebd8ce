import ClockedC.Notice
import ClockedC.Parse.Error

/-!
# Diagnostics

How errors and notices are shown. An error names the line it was found on, if it was found in the
source. Labels can be coloured, by the control sequences of a terminal.
-/

namespace ClockedC

/-- A colour of a label. -/
inductive Color where
  | error
  | warning
  | note
deriving DecidableEq, Repr

/-- The amounts of red, green and blue. -/
def Color.rgb : Color → Nat × Nat × Nat
  | error => (243, 139, 168)
  | warning => (250, 179, 135)
  | note => (108, 112, 134)

/-- A label, bold and coloured if it is styled. -/
def painted (text : String) (color : Color) (styled : Bool) : String :=
  if styled then
    let (r, g, b) := color.rgb
    s!"\x1b[38;2;{r};{g};{b}m\x1b[1m{text}\x1b[0m"
  else text

/-- The label of a notice. -/
def Level.label (styled : Bool) : Level → String
  | error => painted "Error" .error styled
  | warn => painted "Warning" .warning styled
  | info => painted "Info" .note styled
  | debug => painted "Debug" .note styled
  | trace => painted "Trace" .note styled

/-- The line that shows a notice. -/
def Notice.shown (styled : Bool) (n : Notice) : String :=
  s!"{n.level.label styled}: {n.message}"

/-- An error as it is reported: the line of the source it belongs to, if any, and what is wrong. -/
structure Diagnostic where
  line : Option Nat
  message : String
deriving DecidableEq, Repr

namespace Diagnostic

/-- The report of an error in the source. -/
def ofParseError (e : ParseError) : Diagnostic :=
  ⟨some e.line, e.fault.message⟩

/-- The report of an output that is full. -/
def outputFull : Diagnostic := ⟨none, "failed to write whole buffer"⟩

/-- The line that shows an error. -/
def shown (styled : Bool) (d : Diagnostic) : String :=
  let head := painted "Error" .error styled
  match d.line with
  | some n => s!"{head} (line {n}): {d.message}"
  | none => s!"{head}: {d.message}"

/-- An error as plain text. -/
def text (d : Diagnostic) : String :=
  d.shown false

/-- What lies behind an error: an error in the source speaks for itself, and any other is the bare
message. -/
def cause (d : Diagnostic) : String :=
  match d.line with
  | some _ => d.text
  | none => d.message

end Diagnostic

end ClockedC
