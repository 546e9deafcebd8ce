import ClockedC.Design.Instances
import ClockedC.Process.Basic

/-!
# Whole designs

A program becomes an entity and an architecture for each of its functions, in order. The entity has
a clock, a reset, an input for each parameter and an output for the result. Of the other functions,
what is written for one depends on the signatures of those it calls and on nothing else.
-/

namespace ClockedC

/-- Where the library and use clauses go. -/
inductive Preamble where
  /-- Once, at the top. -/
  | once
  /-- Before each entity. -/
  | everyEntity
deriving DecidableEq, Repr

/-- The first line of a design and the blank line after it. -/
def headerLines : List String := ["-- VHDL generated by cvhdl", ""]

/-- The library and use clauses. -/
def preambleLines : List String :=
  ["library IEEE;", "use IEEE.STD_LOGIC_1164.ALL;", "use IEEE.NUMERIC_STD.ALL;", ""]

namespace Function

/-- The function with a unit number for each call. -/
def numbered (f : Function) : Function :=
  if f.hasUnnumberedCall then f.numberCalls.1 else f

/-- The lines of the entity of a function. -/
def entityLines (f : Function) : List String :=
  [s!"-- Function: {f.name}",
    s!"entity {f.name} is",
    "  port (",
    "    clk : in std_logic;",
    "    reset : in std_logic;"] ++
  (f.params.map fun p => s!"    {p.name} : in {p.type.vector};") ++
  [s!"    {outputName} : out {f.returns.vector}",
    "  );",
    "end entity;",
    ""]

/-- Writes the entity and the architecture of a function. -/
def designEvents (signature? : String → Option Signature) (f : Function) : List Event :=
  f.entityLines.map .line ++
  [.line s!"architecture behavioral of {f.name} is"] ++
  f.signalEvents signature? ++
  [.line "begin"] ++
  f.resultDriverLines.map .line ++
  f.instanceEvents signature? ++
  f.arrayNoteLines.map .line ++
  f.variableNotices.map .notice ++
  f.process.lines.map .line ++
  [.line "end architecture;", .line ""]

end Function

namespace Program

/-- Writes a function of a program. -/
def functionEvents (preamble : Preamble) (p : Program) (f : Function) : List Event :=
  [.notice (.entityStarted f.name)] ++
  (if preamble = .everyEntity then preambleLines.map .line else []) ++
  f.numbered.designEvents p.signature?

/-- Writes a program. -/
def designEvents (preamble : Preamble) (p : Program) : List Event :=
  headerLines.map .line ++
  (if preamble = .once then preambleLines.map .line else []) ++
  p.functions.flatMap (p.functionEvents preamble)

end Program

end ClockedC
