import ClockedC.Notice
import ClockedC.Text.Basic

/-!
# Writing a design

Writing a design is a sequence of events: lines that go to the output, and notices that come up on
the way. What is written, what is told and what a bounded output would have kept are all read off
this sequence.
-/

namespace ClockedC

/-- A step in writing a design. -/
inductive Event where
  | line (text : String)
  | notice (notice : Notice)
deriving DecidableEq, Repr

/-- What became of a design in an output of bounded size. -/
structure Delivery where
  /-- The bytes that the output took. -/
  written : List UInt8
  /-- The notices that came up until the output was full. -/
  log : List Notice
  /-- Whether everything was taken. -/
  complete : Bool
deriving DecidableEq, Repr

namespace Event

/-- The line that an event writes. -/
def line? : Event → Option String
  | line text => some text
  | notice _ => none

/-- The notice that an event gives. -/
def notice? : Event → Option Notice
  | line _ => none
  | notice n => some n

/-- The text that a sequence of events writes. -/
def text (events : List Event) : String :=
  unlines (events.filterMap line?)

/-- The notices that a sequence of events gives. -/
def log (events : List Event) : List Notice :=
  events.filterMap notice?

/-- Carries out events until a line no longer fits into what is left of the output. Of that line the
output takes the bytes that do fit, and nothing comes after it. -/
def deliver : (room : Nat) → List Event → Delivery
  | _, [] => ⟨[], [], true⟩
  | room, notice n :: events =>
    let rest := deliver room events
    ⟨rest.written, n :: rest.log, rest.complete⟩
  | room, line text :: events =>
    let bytes := (text ++ "\n").toUTF8.toList
    if bytes.length ≤ room then
      let rest := deliver (room - bytes.length) events
      ⟨bytes ++ rest.written, rest.log, rest.complete⟩
    else ⟨bytes.take room, [], false⟩

end Event

end ClockedC
