import ClockedC.Process.Naming
import ClockedC.Vhdl.Sequential

/-!
# The clocked process of a function

The body of a function becomes one process. On each tick of the clock the process variables take
over the values of the signals and inputs they stand for, the statements run, and the variables are
written back to their signals.

A `for` loop becomes a `while` loop with the increment at the end of its body. A jump to the next
round of it carries out the increment first.
-/

namespace ClockedC

/-- How far the statements of a function have been gone through. -/
structure Lowering where
  naming : Naming
  /-- The count of declarations so far. -/
  seen : Nat
deriving DecidableEq, Repr

namespace Lowering

/-- The state inside of a nested body. -/
def push (s : Lowering) : Lowering := { s with naming := s.naming.push }

/-- The state after a nested body. -/
def pop (s : Lowering) : Lowering := { s with naming := s.naming.pop }

end Lowering

/-- An expression in terms of the variables, signals and inputs that hold its values. -/
def Expr.resolve (n : Naming) (e : Expr) : Expr :=
  e.rename n.nameOf

/-- An assignment. What is no variable is written as a signal. -/
def Assignment.lower (n : Naming) (a : Assignment) : Sequential :=
  let value := a.value.resolve n
  match a.target with
  | .name name =>
    match n.resolve name with
    | some v => .setVariable v.name value
    | none => .setSignal (.name (n.nameOf name)) value
  | .element base index text => .setSignal (.element base (index.resolve n) text) value

/-- A declaration. Its initial value is found before its name is bound, and arrays get theirs
elsewhere. -/
def Declaration.lower (d : Declaration) (s : Lowering) : List Sequential × Lowering :=
  match d.form with
  | .array .. => ([], ⟨s.naming, s.seen + 1⟩)
  | .scalar init =>
    let value := init.map (Expr.resolve s.naming)
    let (v, naming) := s.naming.bind s.seen
    let set (e : Expr) : Sequential :=
      match v with
      | some v => .setVariable v.name e
      | none => .setSignal (.name (naming.nameOf d.name)) e
    ((value.map set).toList, ⟨naming, s.seen + 1⟩)

/-- What a `for` loop does before its first round. -/
def ForStart.lower (i : ForStart) (s : Lowering) : List Sequential × Lowering :=
  match i with
  | declare d => d.lower s
  | assign a => ([a.lower s.naming], s)

/-- What a jump does. The increment is that of the innermost loop. -/
def Jump.lower (increment : Option Assignment) (n : Naming) : Jump → List Sequential
  | leave => [.exit]
  | again => (increment.map (Assignment.lower n)).toList ++ [.next]

mutual

/-- The sequential statements of a statement. The increment is that of the innermost loop around it,
and each nested body has a scope of its own. -/
def Stmt.lower (increment : Option Assignment) : Stmt → Lowering → List Sequential × Lowering
  | .declare d, s => d.lower s
  | .assign a, s => ([a.lower s.naming], s)
  | .ret none _, s => ([], s)
  | .ret (some e) _, s =>
    ([.setResult s.naming.resultTarget (e.resolve s.naming)], s)
  | .branch condition body otherwise _, s =>
    let condition := condition.resolve s.naming
    let (body, s) := Block.lower increment body s.push
    let (otherwise, s) := otherwise.lower increment s.pop
    ([.branch condition body otherwise], s)
  | .whileLoop condition body _, s =>
    let condition := condition.resolve s.naming
    let (body, s) := Block.lower none body s.push
    ([.loop condition body], s.pop)
  | .forLoop init condition body step _, s =>
    let s := s.push
    let (before, s) :=
      match init with
      | none => ([], s)
      | some init => init.lower s
    let condition := condition.resolve s.naming
    let (body, s) := Block.lower step body s.push
    let s := s.pop
    let after := (step.map (Assignment.lower s.naming)).toList
    (before ++ [.loop condition (body ++ after)], s.pop)
  | .jump jump _, s => (jump.lower increment s.naming, s)

/-- What runs where a condition fails. -/
def Alternative.lower (increment : Option Assignment) : Alternative → Lowering → Elsewise × Lowering
  | .none, s => (.none, s)
  | .body body, s =>
    let (body, s) := Block.lower increment body s.push
    (.body body, s.pop)
  | .branch condition body otherwise _, s =>
    let condition := condition.resolve s.naming
    let (body, s) := Block.lower increment body s.push
    let (otherwise, s) := otherwise.lower increment s.pop
    (.branch condition body otherwise, s)

/-- A body in the scope that is open. -/
def Block.lower (increment : Option Assignment) :
    List Stmt → Lowering → List Sequential × Lowering
  | [], s => ([], s)
  | stmt :: stmts, s =>
    let (first, s) := stmt.lower increment s
    let (rest, s) := Block.lower increment stmts s
    (first ++ rest, s)

end

/-- The clocked process of a function. -/
structure Process where
  locals : List ProcessVariable
  /-- The statements of the function. -/
  body : List Sequential

/-- Takes over the value that a variable starts a tick with. -/
def ProcessVariable.copyIn (v : ProcessVariable) : Sequential :=
  .setVariable v.name (.name v.source)

/-- Writes the value that a variable ends a tick with, if it has a signal. -/
def ProcessVariable.copyOut? (v : ProcessVariable) : Option Sequential :=
  if v.isWrittenBack then some (.setSignal (.name v.source) (.name v.name)) else none

/-- The process of a function. -/
def Function.process (f : Function) : Process :=
  let naming := Naming.ofFunction f
  ⟨naming.allVariables, (Block.lower none f.body ⟨naming.push, 0⟩).1⟩

/-- What runs on each tick. Variables are written back in reverse, so that of several declarations
of a name the first is written last. -/
def Process.clocked (p : Process) : List Sequential :=
  p.locals.map ProcessVariable.copyIn ++ p.body ++
    p.locals.reverse.filterMap ProcessVariable.copyOut?

/-- The lines of a process. -/
def Process.lines (p : Process) : List String :=
  ["  process(clk, reset)"] ++
  (p.locals.map fun v => s!"    variable {v.name} : {v.type.vector};") ++
  ["  begin",
    "    if reset = '1' then",
    "      -- Reset logic",
    "    elsif rising_edge(clk) then"] ++
  Sequential.linesOfList 3 p.clocked ++
  ["    end if;",
    "  end process;"]

end ClockedC
