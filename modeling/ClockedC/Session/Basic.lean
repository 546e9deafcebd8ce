import ClockedC.Compile
import ClockedC.Diagnostic
import ClockedC.Program.Outline
import ClockedC.Session.Arguments
import ClockedC.Text.Plain

/-!
# Sessions

A session reads its arguments and its input, compiles it, and writes its output. It runs on a
`Host`, which gives it files and streams; what it does with them does not depend on the host.

The output file is made only when the whole source has been read without an error.
-/

namespace ClockedC

/-- Why a file cannot be read or written. -/
inductive FileError where
  | missing
  | notADirectory
  | isADirectory
  | nameTooLong
  | denied
  | other (message : String)
deriving DecidableEq, Repr

/-- The wording of a file error. -/
def FileError.message : FileError → String
  | missing => "No such file or directory (os error 2)"
  | notADirectory => "Not a directory (os error 20)"
  | isADirectory => "Is a directory (os error 21)"
  | nameTooLong => "File name too long (os error 36)"
  | denied => "Permission denied (os error 13)"
  | other message => message

/-- The files and streams of a session. -/
structure Host (m : Type → Type) where
  readFile : String → m (Except FileError ByteArray)
  readInput : m (Except FileError ByteArray)
  writeFile : String → String → m (Except FileError Unit)
  writeOutput : String → m Unit
  writeError : String → m Unit

namespace Diagnostic

/-- The report of a file that cannot be used. -/
def ofFileError (e : FileError) : Diagnostic := ⟨none, e.message⟩

/-- The report of an input that is no text. -/
def notText : Diagnostic := ⟨none, "stream did not contain valid UTF-8"⟩

end Diagnostic

/-- Whether a notice is shown at a verbosity. -/
def Notice.isShown (verbosity : Option Level) (n : Notice) : Bool :=
  match verbosity with
  | some l => n.level.rank ≤ l.rank
  | none => false

/-- The line that shows a notice, as plain text. -/
def Notice.plainLine (n : Notice) : String :=
  withoutControls (n.shown false ++ "\n")

/-- The lines that show the notices of a session. -/
def shownNotices (verbosity : Option Level) (log : List Notice) : String :=
  String.join ((log.filter (Notice.isShown verbosity)).map Notice.plainLine)

/-- What a session writes for a program, and the notices that come up meanwhile. -/
def Options.product (o : Options) (p : Program) : String × List Notice :=
  if o.outline then (p.outline, [])
  else
    let events := p.designEvents o.preamble
    (Event.text events, Event.log events)

namespace Session

variable {m : Type → Type} [Monad m]

/-- Ends a session with an error. -/
def abort (host : Host m) (d : Diagnostic) : m UInt32 := do
  host.writeError (d.text ++ "\n")
  return 1

/-- Writes the product of a session. -/
def write (host : Host m) (o : Options) (p : Program) : m UInt32 := do
  let (text, log) := o.product p
  let written ←
    match o.output with
    | some path => host.writeFile path text
    | none => do
      host.writeOutput text
      pure (.ok ())
  match written with
  | .error e => abort host (.ofFileError e)
  | .ok () => do
    host.writeError (shownNotices o.verbosity log)
    return 0

/-- Compiles a source text. -/
def compile (host : Host m) (o : Options) (source : String) : m UInt32 := do
  let p := Program.prepare source
  host.writeError (shownNotices o.verbosity p.log)
  match p.outcome with
  | .error e => abort host (.ofParseError e)
  | .ok p => write host o p

/-- Compiles the input. -/
def start (host : Host m) (o : Options) : m UInt32 := do
  let input ←
    match o.input with
    | some path => host.readFile path
    | none => host.readInput
  match input with
  | .error e => abort host (.ofFileError e)
  | .ok bytes =>
    match String.fromUTF8? bytes with
    | none => abort host .notText
    | some source => compile host o source

/-- Runs a session with the arguments of its command line. The answer is its exit status. -/
def run (host : Host m) (args : List String) : m UInt32 :=
  match Request.ofArguments args with
  | .error e => do
    host.writeError e.shown
    return 1
  | .ok .help => do
    host.writeOutput helpText
    return 0
  | .ok (.compile o) => start host o

end Session

end ClockedC
