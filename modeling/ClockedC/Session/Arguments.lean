import ClockedC.Design.Basic

/-!
# The arguments of a session

What the arguments of the command line ask for. They are read from left to right, and the first that
cannot be read decides the error. A word that an option takes as its value is never looked at in
another way, and after `--` everything is an input.
-/

namespace ClockedC

/-- What to compile, and how. -/
structure Options where
  /-- The file to read, or the standard input. -/
  input : Option String
  /-- The file to write, or the standard output. -/
  output : Option String
  preamble : Preamble
  /-- Whether to show the outline of the program in place of its design. -/
  outline : Bool
  /-- The most detailed level of the notices to show, if any are to be shown. -/
  verbosity : Option Level
deriving DecidableEq, Repr

/-- What a session is asked to do. -/
inductive Request where
  | help
  | compile (options : Options)
deriving DecidableEq, Repr

/-- Why arguments cannot be read. -/
inductive UsageError where
  | unrecognized (argument : String)
  | noValue (option : String)
  | repeatedValue (option value : String)
  | unknownLevel (option value : String)
  | optionAfterHelp
deriving DecidableEq, Repr

/-- The wording of an error. -/
def UsageError.message : UsageError → String
  | unrecognized argument => s!"Unrecognized argument: {argument}\n"
  | noValue option => s!"No value provided for option '{option}'.\n"
  | repeatedValue option value =>
    s!"Error parsing option '{option}' with value '{value}': duplicate values provided\n"
  | unknownLevel option value =>
    s!"Error parsing option '{option}' with value '{value}': attempted to convert a string " ++
      "that doesn't match an existing log level\n"
  | optionAfterHelp => "Trailing arguments are not allowed after `help`."

/-- What is shown for an error: its wording and where to find help. -/
def UsageError.shown (e : UsageError) : String :=
  e.message ++ "\nRun cvhdl --help for more information.\n"

/-- The text that `--help` shows. -/
def helpText : String :=
  unlines
    ["Usage: cvhdl [-o <output>] [--preamble-per-entity] [--dump-ast] [--log-level <log-level>] " ++
        "[--] [<input>]",
      "",
      "Translate a restricted C subset into synthesizable VHDL.",
      "",
      "Positional Arguments:",
      "  input             input C source file (stdin when omitted)",
      "",
      "Options:",
      "  -o, --output      output file (stdout when omitted)",
      "  --preamble-per-entity",
      "                    repeat the IEEE library and use clauses before every entity",
      "  --dump-ast        print the parsed syntax tree instead of VHDL",
      "  --log-level       logging level: off, error, warn, info, debug or trace",
      "  --help, help      display usage information",
      ""]

/-- The verbosity of a name, in which the case of letters does not matter. -/
def verbosity? (name : String) : Option (Option Level) :=
  let lower := name.toList.map Char.toLower
  if lower = "off".toList then some none
  else (Level.all.find? fun l => l.name.toList = lower).map some

namespace Arguments

/-- What has been read so far. -/
structure State where
  input : Option String
  output : Option String
  everyEntity : Bool
  outline : Bool
  verbosity : Option (Option Level)
  help : Bool

/-- The state before the first argument. -/
def State.start : State := ⟨none, none, false, false, none, false⟩

/-- Reads arguments. Once the options have ended, each is an input, of which there is one at most.
-/
def read (ended : Bool) (s : State) : List String → Except UsageError State
  | [] => .ok s
  | arg :: args =>
    if !ended && (arg = "--help" || arg = "help") then read ended { s with help := true } args
    else if !ended && arg.toList.head? = some '-' then
      if arg = "--" then read true s args
      else if s.help then .error .optionAfterHelp
      else if arg = "--preamble-per-entity" then read ended { s with everyEntity := true } args
      else if arg = "--dump-ast" then read ended { s with outline := true } args
      else if arg = "-o" || arg = "--output" then
        match args with
        | [] => .error (.noValue arg)
        | value :: args =>
          if s.output.isSome then .error (.repeatedValue arg value)
          else read ended { s with output := some value } args
      else if arg = "--log-level" then
        match args with
        | [] => .error (.noValue arg)
        | value :: args =>
          if s.verbosity.isSome then .error (.repeatedValue arg value)
          else
            match verbosity? value with
            | some v => read ended { s with verbosity := some v } args
            | none => .error (.unknownLevel arg value)
      else .error (.unrecognized arg)
    else if s.input.isSome then .error (.unrecognized arg)
    else read ended { s with input := some arg } args

end Arguments

/-- Reads the arguments of a session. Warnings and graver notices are shown unless another level is
asked for. -/
def Request.ofArguments (args : List String) : Except UsageError Request := do
  let s ← Arguments.read false .start args
  if s.help then return .help
  return .compile
    ⟨s.input, s.output, if s.everyEntity then .everyEntity else .once, s.outline,
      s.verbosity.getD (some .warn)⟩

end ClockedC
