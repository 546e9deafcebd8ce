import ClockedC.Program.Stmt
import ClockedC.Vhdl.Expr

/-!
# Sequential statements

The statements that run one after the other when the clock ticks. An assignment to a variable takes
effect at once; one to a signal takes effect when the tick is over. The names in the expressions are
those of the signals and variables themselves. The assignment of a result is told apart from other
assignments to signals, though it is written like them.
-/

namespace ClockedC

mutual

/-- A sequential statement. -/
inductive Sequential where
  | setVariable (name : String) (value : Expr)
  | setSignal (target : Target) (value : Expr)
  | setResult (signal : String) (value : Expr)
  | branch (condition : Expr) (body : List Sequential) (otherwise : Elsewise)
  | loop (condition : Expr) (body : List Sequential)
  /-- Ends the innermost loop. -/
  | exit
  /-- Goes on with the next round of the innermost loop. -/
  | next

/-- What runs where the condition of a branch fails. -/
inductive Elsewise where
  | none
  | body (body : List Sequential)
  | branch (condition : Expr) (body : List Sequential) (otherwise : Elsewise)

end

/-- The text of a target. -/
def Target.vhdl : Target → String
  | name n => n
  | element base index _ => s!"{base}({index.vhdlCount index.vhdl})"

mutual

/-- The lines of a statement that stands `depth` steps to the right. -/
def Sequential.lines (depth : Nat) : Sequential → List String
  | .setVariable name value => [indented depth s!"{name} := {value.vhdl};"]
  | .setSignal target value => [indented depth s!"{target.vhdl} <= {value.vhdl};"]
  | .setResult signal value => [indented depth s!"{signal} <= {value.vhdl};"]
  | .branch condition body otherwise =>
    indented depth s!"if {condition.vhdlCondition} then" ::
      Sequential.linesOfList (depth + 1) body ++ otherwise.lines depth ++
      [indented depth "end if;"]
  | .loop condition body =>
    indented depth s!"while {condition.vhdlCondition} loop" ::
      Sequential.linesOfList (depth + 1) body ++ [indented depth "end loop;"]
  | .exit => [indented depth "exit;"]
  | .next => [indented depth "next;"]

/-- The lines of the part of a branch that runs where its condition fails. -/
def Elsewise.lines (depth : Nat) : Elsewise → List String
  | .none => []
  | .body body => indented depth "else" :: Sequential.linesOfList (depth + 1) body
  | .branch condition body otherwise =>
    indented depth s!"elsif {condition.vhdlCondition} then" ::
      Sequential.linesOfList (depth + 1) body ++ otherwise.lines depth

/-- The lines of a list of statements. -/
def Sequential.linesOfList (depth : Nat) : List Sequential → List String
  | [] => []
  | s :: ss => s.lines depth ++ Sequential.linesOfList depth ss

end

@[simp]
theorem Sequential.linesOfList_append (depth : Nat) (ss ss' : List Sequential) :
    linesOfList depth (ss ++ ss') = linesOfList depth ss ++ linesOfList depth ss' := by
  induction ss with
  | nil => rfl
  | cons s ss ih => rw [List.cons_append, linesOfList, linesOfList, ih, List.append_assoc]

end ClockedC
