import ClockedC.Session.Basic

/-!
# The command line

Runs a session on the files and standard streams of the system.
-/

namespace ClockedC

/-- The error of a file operation that the system reports. Two kinds of error share a constructor
and are told apart by their number, which some operations give with a minus sign. -/
def fileErrorOf : IO.Error → FileError
  | .noFileOrDirectory .. => .missing
  | .inappropriateType _ code _ => if code = 20 ∨ code = -20 then .notADirectory else .isADirectory
  | .permissionDenied .. => .denied
  | e => .other (toString e)

/-- Reads a stream to its end. -/
partial def readAll (stream : IO.FS.Stream) (bytes : ByteArray) : IO ByteArray := do
  let more ← stream.read 65536
  if more.isEmpty then return bytes else readAll stream (bytes ++ more)

/-- Carries out a file operation. -/
def attempt {α : Type} (action : IO α) : IO (Except FileError α) := do
  try
    return .ok (← action)
  catch e =>
    return .error (fileErrorOf e)

/-- The host that the system is. -/
def systemHost : Host IO where
  readFile path := attempt (IO.FS.readBinFile path)
  readInput := attempt do readAll (← IO.getStdin) ByteArray.empty
  writeFile path text := attempt (IO.FS.writeFile path text)
  writeOutput text := do (← IO.getStdout).putStr text
  writeError text := do (← IO.getStderr).putStr text

end ClockedC

def main (args : List String) : IO UInt32 :=
  ClockedC.Session.run ClockedC.systemHost args
