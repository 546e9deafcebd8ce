import ClockedC.Session.Basic

/-!
# Sessions in memory

A host that keeps its files and streams as values, so that a session can be run without a disk. The
files lie in one directory. A name with slashes in it lies in a directory below, which is there as
long as a file is in it. Nothing is known of what lies outside.

A path is followed part by part, and every part but the last has to lead to a directory. A slash at
its end says that the last part is a directory too. A file under such a path is not read, and
nothing is written to one, whatever is there.
-/

namespace ClockedC

/-- The files and streams of a session in memory. -/
structure Directory where
  /-- The files, each under its path from the directory of the session. -/
  files : List (String × ByteArray)
  input : ByteArray
  output : String
  errors : String

namespace Directory

/-- Where a path has come to: a directory, given by its path from the directory of the session, or
somewhere outside of that. -/
inductive Spot where
  | inside (dir : List String)
  | outside
deriving DecidableEq, Repr

/-- What a name stands for. -/
inductive Entry where
  | directory (spot : Spot)
  | file (name : String)
  /-- Nothing is there, but a file could be. Outside, it would not be seen. -/
  | free (name : Option String)
deriving DecidableEq, Repr

/-- The parts of a path between its slashes. -/
def parts (path : String) : List String :=
  (path.toList.splitOn '/').map String.ofList

/-- The path with given parts. -/
def joined (parts : List String) : String :=
  String.intercalate "/" parts

/-- The greatest count of bytes in a part of a path. -/
def longestPart : Nat := 255

/-- The greatest count of bytes in a path. -/
def longestPath : Nat := 4095

/-- Whether some file lies below a path. -/
def isDirectory (d : Directory) (dir : List String) : Bool :=
  d.files.any fun (name, _) => dir.isPrefixOf (parts name) && dir.length < (parts name).length

/-- The directory around a spot. -/
def Spot.parent : Spot → Spot
  | inside [] => outside
  | inside dir => inside dir.dropLast
  | outside => outside

/-- Looks up a part of a path. -/
def entry (d : Directory) (spot : Spot) (part : String) : Except FileError Entry :=
  if part = "." then .ok (.directory spot)
  else if part = ".." then .ok (.directory spot.parent)
  else if longestPart < part.utf8ByteSize then .error .nameTooLong
  else
    match spot with
    | .outside => .ok (.free none)
    | .inside dir =>
      let there := dir ++ [part]
      if (d.files.lookup (joined there)).isSome then .ok (.file (joined there))
      else if d.isDirectory there then .ok (.directory (.inside there))
      else .ok (.free (some (joined there)))

/-- Follows parts that have to lead from directory to directory. -/
def walk (d : Directory) (spot : Spot) : List String → Except FileError Spot
  | [] => .ok spot
  | part :: rest =>
    match d.entry spot part with
    | .error e => .error e
    | .ok (.directory spot) => d.walk spot rest
    | .ok (.file _) => .error .notADirectory
    | .ok (.free _) => .error .missing

/-- Finds the directory that the last part of a path lies in, and that part. A path of slashes alone
has none. -/
def locate (d : Directory) (path : String) : Except FileError (Spot × Option String) :=
  if path = "" then .error .missing
  else if longestPath < path.utf8ByteSize then .error .nameTooLong
  else
    let steps := (parts path).filter (· ≠ "")
    let start := if path.toList.head? = some '/' then Spot.outside else .inside []
    match d.walk start steps.dropLast with
    | .error e => .error e
    | .ok spot => .ok (spot, steps.getLast?)

/-- Whether a path has a slash at its end. -/
def endsInSlash (path : String) : Bool :=
  path.toList.getLast? = some '/'

/-- Reads a file. -/
def read (d : Directory) (path : String) : Except FileError ByteArray := do
  let (spot, last) ← d.locate path
  match last with
  | none => .error .isADirectory
  | some part =>
    match ← d.entry spot part with
    | .directory _ => .error .isADirectory
    | .free _ => .error .missing
    | .file name =>
      if endsInSlash path then .error .notADirectory
      else
        match d.files.lookup name with
        | some bytes => .ok bytes
        | none => .error .missing

/-- The directory with new contents of a file, which comes last if it is new. -/
def put (d : Directory) (name : String) (bytes : ByteArray) : Directory :=
  if (d.files.lookup name).isSome then
    { d with files := d.files.map fun (n, old) => if n = name then (n, bytes) else (n, old) }
  else { d with files := d.files ++ [(name, bytes)] }

/-- Writes a file. -/
def write (d : Directory) (path : String) (text : String) : Except FileError Directory := do
  let (spot, last) ← d.locate path
  match last with
  | none => .error .isADirectory
  | some part =>
    if endsInSlash path then .error .isADirectory
    else
      match ← d.entry spot part with
      | .directory _ => .error .isADirectory
      | .free none => .ok d
      | .file name | .free (some name) => .ok (d.put name text.toUTF8)

/-- The host of sessions in memory. -/
def host : Host (StateM Directory) where
  readFile path := do return (← get).read path
  readInput := do return .ok (← get).input
  writeFile path text := do
    match (← get).write path text with
    | .error e => return .error e
    | .ok d =>
      set d
      return .ok ()
  writeOutput text := modify fun d => { d with output := d.output ++ text }
  writeError text := modify fun d => { d with errors := d.errors ++ text }

end Directory

end ClockedC
