import ClockedC.Compile

/-!
# Programs without positions

The nodes of a program carry the positions that they were read at. This file takes the positions
away and shows that the design of a program does not change.

* `Program.unplaced` is a program without positions. Two programs are equal up to positions if they
  are the same program then.
* `Expr.vhdl_unplaced`: the text of an expression does not depend on positions.
* `Stmt.numberCalls_unplaced` and `Stmt.lower_unplaced`: calls are numbered and statements are
  lowered in the same way.
* `Program.designEvents_unplaced`: the design is written in the same way.
-/

namespace ClockedC

/-! ## Expressions -/

namespace Expr

mutual

/-- An expression without positions. -/
def unplaced : Expr → Expr
  | number text => number text
  | name n => name n
  | element base index text => element base index.unplaced text
  | call callee args unit _ => call callee (unplacedList args) unit default
  | unary op operand => unary op operand.unplaced
  | binary op left right => binary op left.unplaced right.unplaced

/-- Expressions without positions. -/
def unplacedList : List Expr → List Expr
  | [] => []
  | e :: es => e.unplaced :: unplacedList es

end

theorem unplacedList_eq_map (es : List Expr) : unplacedList es = es.map unplaced := by
  induction es with
  | nil => rfl
  | cons e es ih => rw [unplacedList, ih, List.map_cons]

@[simp]
theorem literalValue?_unplaced (e : Expr) : e.unplaced.literalValue? = e.literalValue? := by
  cases e with
  | unary op operand => cases op <;> cases operand <;> rfl
  | _ => rfl

@[simp]
theorem isTruthValue_unplaced (e : Expr) : e.unplaced.isTruthValue = e.isTruthValue := by
  cases e with
  | unary op operand => cases op <;> rfl
  | _ => rfl

/-! The operands of an operator look at the shape of the expression only. -/

@[simp]
theorem vhdlCount_unplaced (e : Expr) (text : String) :
    e.unplaced.vhdlCount text = e.vhdlCount text := by
  rw [vhdlCount, vhdlCount, literalValue?_unplaced]

@[simp]
theorem vhdlNegated_unplaced (e : Expr) (text : String) :
    e.unplaced.vhdlNegated text = e.vhdlNegated text := by
  cases e <;> rfl

@[simp]
theorem vhdlInverted_unplaced (e : Expr) (text : String) :
    e.unplaced.vhdlInverted text = e.vhdlInverted text := by
  rw [vhdlInverted, vhdlInverted, isTruthValue_unplaced]

@[simp]
theorem vhdlLogical_unplaced (e : Expr) (text : String) :
    e.unplaced.vhdlLogical text = e.vhdlLogical text := by
  rw [vhdlLogical, vhdlLogical, isTruthValue_unplaced]

@[simp]
theorem vhdlCompared_unplaced (e : Expr) (text : String) :
    e.unplaced.vhdlCompared text = e.vhdlCompared text := by
  cases e with
  | unary op operand => cases op <;> cases operand <;> rfl
  | _ => rfl

@[simp]
theorem vhdlArithmetic_unplaced (e : Expr) (text : String) :
    e.unplaced.vhdlArithmetic text = e.vhdlArithmetic text := by
  cases e <;> rfl

/-- The text of an expression does not depend on positions. -/
@[simp]
theorem vhdl_unplaced : ∀ e : Expr, e.unplaced.vhdl = e.vhdl
  | number _ | name _ | call .. => rfl
  | element base index text => by
    rw [unplaced, vhdl, vhdl, vhdlCount_unplaced, vhdl_unplaced index]
  | unary op operand => by
    rw [unplaced, vhdl, vhdl, vhdl_unplaced operand]
    unfold vhdlUnary
    simp only [vhdlNegated_unplaced, vhdlInverted_unplaced]
  | binary op left right => by
    rw [unplaced, vhdl, vhdl, vhdl_unplaced left, vhdl_unplaced right]
    unfold vhdlBinary
    simp only [vhdlLogical_unplaced, vhdlCompared_unplaced, vhdlArithmetic_unplaced,
      vhdlCount_unplaced]

@[simp]
theorem vhdlCondition_unplaced (e : Expr) : e.unplaced.vhdlCondition = e.vhdlCondition := by
  rw [vhdlCondition, vhdlCondition, isTruthValue_unplaced, vhdl_unplaced, literalValue?_unplaced]

@[simp]
theorem argument_unplaced (width : Nat) (e : Expr) :
    e.unplaced.argument width = e.argument width := by
  cases e with
  | number | name | call => rfl
  | element base index text => exact vhdl_unplaced (element base index text)
  | binary op left right => exact vhdl_unplaced (binary op left right)
  | unary op operand =>
    have hvalue := literalValue?_unplaced (unary op operand)
    have htext := vhdl_unplaced (unary op operand)
    rw [unplaced] at hvalue htext ⊢
    unfold argument
    simp only [hvalue, htext]
    cases (unary op operand).literalValue? <;> rfl

theorem rename_unplaced (f : String → String) :
    ∀ e : Expr, e.unplaced.rename f = (e.rename f).unplaced
  | number _ | name _ | call .. => rfl
  | element base index text => by
    rw [unplaced, rename, rename, unplaced, rename_unplaced f index]
  | unary op operand => by
    rw [unplaced, rename, rename, unplaced, rename_unplaced f operand]
  | binary op left right => by
    rw [unplaced, rename, rename, unplaced, rename_unplaced f left, rename_unplaced f right]

end Expr

/-- A call without positions. -/
def Call.unplaced (c : Call) : Call :=
  ⟨c.callee, c.args.map Expr.unplaced, c.unit, default⟩

namespace Expr

mutual

theorem calls_unplaced : ∀ e : Expr, e.unplaced.calls = e.calls.map Call.unplaced
  | number _ | name _ => rfl
  | element base index text => by rw [unplaced, calls, calls, calls_unplaced index]
  | call callee args unit position => by
    rw [unplaced, calls, calls, callsOfList_unplaced args, List.map_cons, Call.unplaced,
      unplacedList_eq_map]
  | unary op operand => by rw [unplaced, calls, calls, calls_unplaced operand]
  | binary op left right => by
    rw [unplaced, calls, calls, calls_unplaced left, calls_unplaced right, List.map_append]

theorem callsOfList_unplaced :
    ∀ es : List Expr, callsOfList (unplacedList es) = (callsOfList es).map Call.unplaced
  | [] => rfl
  | e :: es => by
    rw [unplacedList, callsOfList, callsOfList, calls_unplaced e, callsOfList_unplaced es,
      List.map_append]

end

mutual

theorem numberCalls_unplaced (next : Nat) : ∀ e : Expr,
    e.unplaced.numberCalls next = ((e.numberCalls next).1.unplaced, (e.numberCalls next).2)
  | number _ | name _ => rfl
  | element base index text => by
    rw [unplaced, numberCalls, numberCalls, numberCalls_unplaced next index, unplaced]
  | call callee args (some n) position => by
    rw [unplaced, numberCalls, numberCalls]
    dsimp only
    rw [numberCallsOfList_unplaced next args, unplaced]
  | call callee args none position => by
    rw [unplaced, numberCalls, numberCalls]
    dsimp only
    rw [numberCallsOfList_unplaced _ args, unplaced]
  | unary op operand => by
    rw [unplaced, numberCalls, numberCalls, numberCalls_unplaced next operand, unplaced]
  | binary op left right => by
    rw [unplaced, numberCalls, numberCalls]
    dsimp only
    rw [numberCalls_unplaced next left, numberCalls_unplaced _ right, unplaced]

theorem numberCallsOfList_unplaced (next : Nat) : ∀ es : List Expr,
    numberCallsOfList next (unplacedList es) =
      (unplacedList (numberCallsOfList next es).1, (numberCallsOfList next es).2)
  | [] => rfl
  | e :: es => by
    rw [unplacedList, numberCallsOfList, numberCallsOfList]
    dsimp only
    rw [numberCalls_unplaced next e, numberCallsOfList_unplaced _ es, unplacedList]

end

end Expr

/-! ## Statements -/

/-- A form without positions. -/
def Form.unplaced : Form → Form
  | scalar init => scalar (init.map Expr.unplaced)
  | array size init => array size init

/-- A declaration without positions. -/
def Declaration.unplaced (d : Declaration) : Declaration :=
  ⟨d.name, d.type, d.form.unplaced, default⟩

/-- A target without positions. -/
def Target.unplaced : Target → Target
  | name n => name n
  | element base index text => element base index.unplaced text

/-- An assignment without positions. -/
def Assignment.unplaced (a : Assignment) : Assignment :=
  ⟨a.target.unplaced, a.value.unplaced, default⟩

/-- The start of a `for` loop without positions. -/
def ForStart.unplaced : ForStart → ForStart
  | declare d => declare d.unplaced
  | assign a => assign a.unplaced

mutual

/-- A statement without positions. -/
def Stmt.unplaced : Stmt → Stmt
  | .declare d => .declare d.unplaced
  | .assign a => .assign a.unplaced
  | .ret value _ => .ret (value.map Expr.unplaced) default
  | .branch condition body otherwise _ =>
    .branch condition.unplaced (Block.unplaced body) otherwise.unplaced default
  | .whileLoop condition body _ => .whileLoop condition.unplaced (Block.unplaced body) default
  | .forLoop init condition body increment _ =>
    .forLoop (init.map ForStart.unplaced) condition.unplaced (Block.unplaced body)
      (increment.map Assignment.unplaced) default
  | .jump jump _ => .jump jump default

/-- An alternative without positions. -/
def Alternative.unplaced : Alternative → Alternative
  | .none => .none
  | .body body => .body (Block.unplaced body)
  | .branch condition body otherwise _ =>
    .branch condition.unplaced (Block.unplaced body) otherwise.unplaced default

/-- A body without positions. -/
def Block.unplaced : List Stmt → List Stmt
  | [] => []
  | s :: ss => s.unplaced :: Block.unplaced ss

end

/-! ## Declarations -/

namespace Declaration

@[simp]
theorem isArray_unplaced (d : Declaration) : d.unplaced.isArray = d.isArray := by
  unfold isArray unplaced
  cases d.form <;> rfl

@[simp]
theorem hasVariable_unplaced (d : Declaration) : d.unplaced.hasVariable = d.hasVariable := by
  unfold hasVariable
  rw [isArray_unplaced]
  rfl

@[simp]
theorem hidesOutput_unplaced (d : Declaration) : d.unplaced.hidesOutput = d.hidesOutput := by
  unfold hidesOutput
  rw [isArray_unplaced]
  rfl

theorem events_unplaced (d : Declaration) : d.unplaced.events = d.events := by
  unfold events unplaced
  cases d.form <;> rfl

end Declaration

theorem ForStart.declarations_unplaced (init : Option ForStart) :
    ((init.map unplaced).map declarations).getD [] =
      ((init.map declarations).getD []).map Declaration.unplaced := by
  cases init with
  | none => rfl
  | some start => cases start <;> rfl

mutual

theorem Stmt.declarations_unplaced : ∀ s : Stmt,
    s.unplaced.declarations = s.declarations.map Declaration.unplaced
  | .declare d => rfl
  | .assign _ | .ret .. | .jump .. => rfl
  | .branch condition body otherwise position => by
    rw [Stmt.unplaced, Stmt.declarations, Stmt.declarations, Block.declarations_unplaced body,
      Alternative.declarations_unplaced otherwise, List.map_append]
  | .whileLoop condition body position => by
    rw [Stmt.unplaced, Stmt.declarations, Stmt.declarations, Block.declarations_unplaced body]
  | .forLoop init condition body increment position => by
    rw [Stmt.unplaced, Stmt.declarations, Stmt.declarations, Block.declarations_unplaced body,
      ForStart.declarations_unplaced init, List.map_append]

theorem Alternative.declarations_unplaced : ∀ a : Alternative,
    a.unplaced.declarations = a.declarations.map Declaration.unplaced
  | .none => rfl
  | .body body => by
    rw [Alternative.unplaced, Alternative.declarations, Alternative.declarations,
      Block.declarations_unplaced body]
  | .branch condition body otherwise position => by
    rw [Alternative.unplaced, Alternative.declarations, Alternative.declarations,
      Block.declarations_unplaced body, Alternative.declarations_unplaced otherwise,
      List.map_append]

theorem Block.declarations_unplaced : ∀ ss : List Stmt,
    Block.declarations (Block.unplaced ss) = (Block.declarations ss).map Declaration.unplaced
  | [] => rfl
  | s :: ss => by
    rw [Block.unplaced, Block.declarations, Block.declarations, Stmt.declarations_unplaced s,
      Block.declarations_unplaced ss, List.map_append]

end

/-! ## Outermost expressions -/

theorem Declaration.expressions_unplaced (d : Declaration) :
    d.unplaced.expressions = d.expressions.map Expr.unplaced := by
  unfold expressions unplaced
  cases d.form with
  | scalar init => cases init <;> rfl
  | array size init => rfl

theorem Assignment.expressions_unplaced (a : Assignment) :
    a.unplaced.expressions = a.expressions.map Expr.unplaced := by
  unfold expressions unplaced
  cases a.target <;> rfl

theorem ForStart.expressions_unplaced (init : Option ForStart) :
    ((init.map unplaced).map expressions).getD [] =
      ((init.map expressions).getD []).map Expr.unplaced := by
  cases init with
  | none => rfl
  | some start =>
    cases start with
    | declare d => exact d.expressions_unplaced
    | assign a => exact a.expressions_unplaced

mutual

theorem Stmt.expressions_unplaced : ∀ s : Stmt,
    s.unplaced.expressions = s.expressions.map Expr.unplaced
  | .declare d => d.expressions_unplaced
  | .assign a => a.expressions_unplaced
  | .ret none _ | .ret (some _) _ | .jump .. => rfl
  | .branch condition body otherwise position => by
    rw [Stmt.unplaced, Stmt.expressions, Stmt.expressions, Block.expressions_unplaced body,
      Alternative.expressions_unplaced otherwise, List.map_append, List.map_cons]
  | .whileLoop condition body position => by
    rw [Stmt.unplaced, Stmt.expressions, Stmt.expressions, Block.expressions_unplaced body,
      List.map_cons]
  | .forLoop init condition body none position => by
    rw [Stmt.unplaced, Stmt.expressions, Stmt.expressions, Block.expressions_unplaced body,
      ForStart.expressions_unplaced init]
    simp
  | .forLoop init condition body (some increment) position => by
    rw [Stmt.unplaced, Stmt.expressions, Stmt.expressions, Block.expressions_unplaced body,
      ForStart.expressions_unplaced init]
    simp [Assignment.expressions_unplaced]

theorem Alternative.expressions_unplaced : ∀ a : Alternative,
    a.unplaced.expressions = a.expressions.map Expr.unplaced
  | .none => rfl
  | .body body => by
    rw [Alternative.unplaced, Alternative.expressions, Alternative.expressions,
      Block.expressions_unplaced body]
  | .branch condition body otherwise position => by
    rw [Alternative.unplaced, Alternative.expressions, Alternative.expressions,
      Block.expressions_unplaced body, Alternative.expressions_unplaced otherwise,
      List.map_append, List.map_cons]

theorem Block.expressions_unplaced : ∀ ss : List Stmt,
    Block.expressions (Block.unplaced ss) = (Block.expressions ss).map Expr.unplaced
  | [] => rfl
  | s :: ss => by
    rw [Block.unplaced, Block.expressions, Block.expressions, Stmt.expressions_unplaced s,
      Block.expressions_unplaced ss, List.map_append]

end

/-! ## Unit numbers -/

theorem Declaration.numberCalls_unplaced (next : Nat) (d : Declaration) :
    d.unplaced.numberCalls next = ((d.numberCalls next).1.unplaced, (d.numberCalls next).2) := by
  obtain ⟨n, type, form, position⟩ := d
  cases form with
  | scalar init =>
    cases init with
    | none => rfl
    | some e =>
      simp only [unplaced, Form.unplaced, numberCalls, Option.map_some,
        Expr.numberCalls_unplaced next e]
  | array size init => rfl

theorem Target.numberCalls_unplaced (next : Nat) (t : Target) :
    t.unplaced.numberCalls next = ((t.numberCalls next).1.unplaced, (t.numberCalls next).2) := by
  cases t with
  | name n => rfl
  | element base index text =>
    simp only [unplaced, numberCalls, Expr.numberCalls_unplaced next index]

theorem Assignment.numberCalls_unplaced (next : Nat) (a : Assignment) :
    a.unplaced.numberCalls next = ((a.numberCalls next).1.unplaced, (a.numberCalls next).2) := by
  simp only [unplaced, numberCalls, Target.numberCalls_unplaced next a.target,
    Expr.numberCalls_unplaced _ a.value]

theorem ForStart.numberCalls_unplaced (next : Nat) (i : ForStart) :
    i.unplaced.numberCalls next = ((i.numberCalls next).1.unplaced, (i.numberCalls next).2) := by
  cases i with
  | declare d => simp only [unplaced, numberCalls, Declaration.numberCalls_unplaced next d]
  | assign a => simp only [unplaced, numberCalls, Assignment.numberCalls_unplaced next a]

theorem numberCallsOfOption_map {α : Type} {number : Nat → α → α × Nat} {erase : α → α}
    (h : ∀ next a, number next (erase a) = (erase (number next a).1, (number next a).2))
    (next : Nat) (o : Option α) :
    numberCallsOfOption number next (o.map erase) =
      ((numberCallsOfOption number next o).1.map erase, (numberCallsOfOption number next o).2) := by
  cases o with
  | none => rfl
  | some a => simp only [Option.map_some, numberCallsOfOption, h next a]

mutual

theorem Stmt.numberCalls_unplaced (next : Nat) : ∀ s : Stmt,
    s.unplaced.numberCalls next = ((s.numberCalls next).1.unplaced, (s.numberCalls next).2)
  | .declare d => by
    simp only [Stmt.unplaced, Stmt.numberCalls, d.numberCalls_unplaced next]
  | .assign a => by
    simp only [Stmt.unplaced, Stmt.numberCalls, a.numberCalls_unplaced next]
  | .ret value position => by
    simp only [Stmt.unplaced, Stmt.numberCalls,
      numberCallsOfOption_map Expr.numberCalls_unplaced next value]
  | .branch condition body otherwise position => by
    simp only [Stmt.unplaced, Stmt.numberCalls, condition.numberCalls_unplaced next,
      Block.numberCalls_unplaced _ body, Alternative.numberCalls_unplaced _ otherwise]
  | .whileLoop condition body position => by
    simp only [Stmt.unplaced, Stmt.numberCalls, condition.numberCalls_unplaced next,
      Block.numberCalls_unplaced _ body]
  | .forLoop init condition body increment position => by
    simp only [Stmt.unplaced, Stmt.numberCalls,
      numberCallsOfOption_map ForStart.numberCalls_unplaced next init,
      condition.numberCalls_unplaced _, Block.numberCalls_unplaced _ body,
      numberCallsOfOption_map Assignment.numberCalls_unplaced _ increment]
  | .jump .. => rfl

theorem Alternative.numberCalls_unplaced (next : Nat) : ∀ a : Alternative,
    a.unplaced.numberCalls next = ((a.numberCalls next).1.unplaced, (a.numberCalls next).2)
  | .none => rfl
  | .body body => by
    simp only [Alternative.unplaced, Alternative.numberCalls, Block.numberCalls_unplaced next body]
  | .branch condition body otherwise position => by
    simp only [Alternative.unplaced, Alternative.numberCalls, condition.numberCalls_unplaced next,
      Block.numberCalls_unplaced _ body, Alternative.numberCalls_unplaced _ otherwise]

theorem Block.numberCalls_unplaced (next : Nat) : ∀ ss : List Stmt,
    Block.numberCalls next (Block.unplaced ss) =
      (Block.unplaced (Block.numberCalls next ss).1, (Block.numberCalls next ss).2)
  | [] => rfl
  | s :: ss => by
    simp only [Block.unplaced, Block.numberCalls, Stmt.numberCalls_unplaced next s,
      Block.numberCalls_unplaced _ ss]

end

/-! ## Sequential statements -/

mutual

/-- A sequential statement without positions. -/
def Sequential.unplaced : Sequential → Sequential
  | .setVariable name value => .setVariable name value.unplaced
  | .setSignal target value => .setSignal target.unplaced value.unplaced
  | .setResult signal value => .setResult signal value.unplaced
  | .branch condition body otherwise =>
    .branch condition.unplaced (Sequential.unplacedList body) otherwise.unplaced
  | .loop condition body => .loop condition.unplaced (Sequential.unplacedList body)
  | .exit => .exit
  | .next => .next

/-- The part of a branch that runs where its condition fails, without positions. -/
def Elsewise.unplaced : Elsewise → Elsewise
  | .none => .none
  | .body body => .body (Sequential.unplacedList body)
  | .branch condition body otherwise =>
    .branch condition.unplaced (Sequential.unplacedList body) otherwise.unplaced

/-- Sequential statements without positions. -/
def Sequential.unplacedList : List Sequential → List Sequential
  | [] => []
  | s :: ss => s.unplaced :: Sequential.unplacedList ss

end

namespace Sequential

theorem unplacedList_eq_map (ss : List Sequential) : unplacedList ss = ss.map unplaced := by
  induction ss with
  | nil => rfl
  | cons s ss ih => rw [unplacedList, ih, List.map_cons]

theorem unplacedList_append (ss ss' : List Sequential) :
    unplacedList (ss ++ ss') = unplacedList ss ++ unplacedList ss' := by
  simp only [unplacedList_eq_map, List.map_append]

end Sequential

theorem Target.vhdl_unplaced (t : Target) : t.unplaced.vhdl = t.vhdl := by
  cases t with
  | name n => rfl
  | element base index text =>
    rw [unplaced, vhdl, vhdl, Expr.vhdlCount_unplaced, Expr.vhdl_unplaced]

mutual

theorem Sequential.lines_unplaced (depth : Nat) : ∀ s : Sequential,
    s.unplaced.lines depth = s.lines depth
  | .setVariable name value => by
    rw [Sequential.unplaced, Sequential.lines, Sequential.lines, value.vhdl_unplaced]
  | .setSignal target value => by
    rw [Sequential.unplaced, Sequential.lines, Sequential.lines, target.vhdl_unplaced,
      value.vhdl_unplaced]
  | .setResult signal value => by
    rw [Sequential.unplaced, Sequential.lines, Sequential.lines, value.vhdl_unplaced]
  | .branch condition body otherwise => by
    rw [Sequential.unplaced, Sequential.lines, Sequential.lines, condition.vhdlCondition_unplaced,
      Sequential.linesOfList_unplaced (depth + 1) body, Elsewise.lines_unplaced depth otherwise]
  | .loop condition body => by
    rw [Sequential.unplaced, Sequential.lines, Sequential.lines, condition.vhdlCondition_unplaced,
      Sequential.linesOfList_unplaced (depth + 1) body]
  | .exit | .next => rfl

theorem Elsewise.lines_unplaced (depth : Nat) : ∀ e : Elsewise,
    e.unplaced.lines depth = e.lines depth
  | .none => rfl
  | .body body => by
    rw [Elsewise.unplaced, Elsewise.lines, Elsewise.lines,
      Sequential.linesOfList_unplaced (depth + 1) body]
  | .branch condition body otherwise => by
    rw [Elsewise.unplaced, Elsewise.lines, Elsewise.lines, condition.vhdlCondition_unplaced,
      Sequential.linesOfList_unplaced (depth + 1) body, Elsewise.lines_unplaced depth otherwise]

/-- The lines of sequential statements do not depend on positions. -/
theorem Sequential.linesOfList_unplaced (depth : Nat) : ∀ ss : List Sequential,
    Sequential.linesOfList depth (Sequential.unplacedList ss) = Sequential.linesOfList depth ss
  | [] => rfl
  | s :: ss => by
    rw [Sequential.unplacedList, Sequential.linesOfList, Sequential.linesOfList,
      Sequential.lines_unplaced depth s, Sequential.linesOfList_unplaced depth ss]

end

/-! ## Lowering -/

theorem Expr.resolve_unplaced (n : Naming) (e : Expr) :
    e.unplaced.resolve n = (e.resolve n).unplaced :=
  e.rename_unplaced n.nameOf

theorem Assignment.lower_unplaced (n : Naming) (a : Assignment) :
    a.unplaced.lower n = (a.lower n).unplaced := by
  obtain ⟨target, value, position⟩ := a
  cases target with
  | name m =>
    simp only [unplaced, Target.unplaced, lower, Expr.resolve_unplaced]
    cases n.resolve m <;> rfl
  | element base index text =>
    simp only [unplaced, Target.unplaced, lower, Expr.resolve_unplaced, Sequential.unplaced]

theorem Assignment.lower_unplaced_toList (n : Naming) (a : Option Assignment) :
    ((a.map unplaced).map (lower n)).toList = Sequential.unplacedList (a.map (lower n)).toList := by
  cases a with
  | none => rfl
  | some a =>
    simp only [Option.map_some, Option.toList_some, lower_unplaced, Sequential.unplacedList]

theorem Declaration.lower_unplaced (d : Declaration) (s : Lowering) :
    d.unplaced.lower s = (Sequential.unplacedList (d.lower s).1, (d.lower s).2) := by
  obtain ⟨n, type, form, position⟩ := d
  cases form with
  | array size init => rfl
  | scalar init =>
    cases init with
    | none => rfl
    | some e =>
      simp only [unplaced, Form.unplaced, lower, Option.map_some, Expr.resolve_unplaced,
        Option.toList_some]
      cases (s.naming.bind s.seen).1 <;> rfl

theorem ForStart.lower_unplaced (i : ForStart) (s : Lowering) :
    i.unplaced.lower s = (Sequential.unplacedList (i.lower s).1, (i.lower s).2) := by
  cases i with
  | declare d => exact d.lower_unplaced s
  | assign a => simp only [unplaced, lower, a.lower_unplaced, Sequential.unplacedList]

theorem Jump.lower_unplaced (increment : Option Assignment) (n : Naming) (j : Jump) :
    j.lower (increment.map Assignment.unplaced) n =
      Sequential.unplacedList (j.lower increment n) := by
  cases j with
  | leave => rfl
  | again =>
    rw [lower, lower, Assignment.lower_unplaced_toList, Sequential.unplacedList_append]
    rfl

mutual

theorem Stmt.lower_unplaced (increment : Option Assignment) : ∀ (stmt : Stmt) (s : Lowering),
    stmt.unplaced.lower (increment.map Assignment.unplaced) s =
      (Sequential.unplacedList (stmt.lower increment s).1, (stmt.lower increment s).2)
  | .declare d, s => d.lower_unplaced s
  | .assign a, s => by
    simp only [Stmt.unplaced, Stmt.lower, a.lower_unplaced, Sequential.unplacedList]
  | .ret none _, s => rfl
  | .ret (some e) _, s => by
    simp only [Stmt.unplaced, Stmt.lower, Option.map_some, e.resolve_unplaced,
      Sequential.unplacedList, Sequential.unplaced]
  | .branch condition body otherwise _, s => by
    simp only [Stmt.unplaced, Stmt.lower, condition.resolve_unplaced,
      Block.lower_unplaced increment body, Alternative.lower_unplaced increment otherwise,
      Sequential.unplacedList, Sequential.unplaced]
  | .whileLoop condition body _, s => by
    have hbody := Block.lower_unplaced none body s.push
    rw [Option.map_none] at hbody
    simp only [Stmt.unplaced, Stmt.lower, condition.resolve_unplaced, hbody,
      Sequential.unplacedList, Sequential.unplaced]
  | .forLoop none condition body step _, s => by
    simp only [Stmt.unplaced, Stmt.lower, Option.map_none, condition.resolve_unplaced,
      Block.lower_unplaced step body, Assignment.lower_unplaced_toList,
      Sequential.unplacedList_append, Sequential.unplacedList, Sequential.unplaced]
  | .forLoop (some init) condition body step _, s => by
    simp only [Stmt.unplaced, Stmt.lower, Option.map_some, init.lower_unplaced,
      condition.resolve_unplaced, Block.lower_unplaced step body,
      Assignment.lower_unplaced_toList, Sequential.unplacedList_append, Sequential.unplacedList,
      Sequential.unplaced]
  | .jump jump _, s => by
    simp only [Stmt.unplaced, Stmt.lower, jump.lower_unplaced]

theorem Alternative.lower_unplaced (increment : Option Assignment) :
    ∀ (a : Alternative) (s : Lowering),
      a.unplaced.lower (increment.map Assignment.unplaced) s =
        ((a.lower increment s).1.unplaced, (a.lower increment s).2)
  | .none, s => rfl
  | .body body, s => by
    simp only [Alternative.unplaced, Alternative.lower, Block.lower_unplaced increment body,
      Elsewise.unplaced]
  | .branch condition body otherwise _, s => by
    simp only [Alternative.unplaced, Alternative.lower, condition.resolve_unplaced,
      Block.lower_unplaced increment body, Alternative.lower_unplaced increment otherwise,
      Elsewise.unplaced]

theorem Block.lower_unplaced (increment : Option Assignment) :
    ∀ (ss : List Stmt) (s : Lowering),
      Block.lower (increment.map Assignment.unplaced) (Block.unplaced ss) s =
        (Sequential.unplacedList (Block.lower increment ss s).1, (Block.lower increment ss s).2)
  | [], s => rfl
  | stmt :: stmts, s => by
    simp only [Block.unplaced, Block.lower, Stmt.lower_unplaced increment stmt,
      Block.lower_unplaced increment stmts, Sequential.unplacedList_append]

end

/-! ## Functions -/

/-- A function without positions. -/
def Function.unplaced (f : Function) : Function :=
  ⟨f.name, f.returns, f.params, Block.unplaced f.body, default⟩

/-- A program without positions. -/
def Program.unplaced (p : Program) : Program :=
  ⟨p.functions.map Function.unplaced⟩

theorem firstDeclarations_unplaced (taken : List String) (ds : List Declaration) :
    firstDeclarations taken (ds.map Declaration.unplaced) =
      (firstDeclarations taken ds).map Declaration.unplaced := by
  induction ds generalizing taken with
  | nil => rfl
  | cons d ds ih =>
    have hname : d.unplaced.name = d.name := rfl
    rw [List.map_cons, firstDeclarations, firstDeclarations, hname]
    split
    · exact ih taken
    · rw [ih, List.map_cons]

namespace Call

@[simp]
theorem wire_unplaced (c : Call) : c.unplaced.wire = c.wire := rfl

@[simp]
theorem connections_unplaced (signature : Option Signature) (c : Call) :
    c.unplaced.connections signature = c.connections signature := by
  have hargs : c.unplaced.args = c.args.map Expr.unplaced := rfl
  unfold connections
  rw [hargs, wire_unplaced, List.zipIdx_map, List.map_map]
  congr 3
  funext arg
  exact arg.1.argument_unplaced _

theorem events_unplaced (signature? : String → Option Signature) (caller : String) (c : Call) :
    c.unplaced.events signature? caller = c.events signature? caller := by
  have hunit : c.unplaced.unit = c.unit := rfl
  have hcallee : c.unplaced.callee = c.callee := rfl
  unfold events
  rw [hunit, hcallee]
  simp only [connections_unplaced]

end Call

namespace Function

variable (f : Function)

theorem declarations_unplaced :
    f.unplaced.declarations = f.declarations.map Declaration.unplaced :=
  Block.declarations_unplaced f.body

theorem calls_unplaced : f.unplaced.calls = f.calls.map Call.unplaced := by
  have hbody := Block.expressions_unplaced f.body
  unfold calls
  rw [show f.unplaced.body = Block.unplaced f.body from rfl, hbody, List.flatMap_map,
    List.map_flatMap]
  simp only [Expr.calls_unplaced]

@[simp]
theorem hidesOutput_unplaced : f.unplaced.hidesOutput = f.hidesOutput := by
  unfold hidesOutput
  rw [declarations_unplaced, List.any_map]
  congr 1
  funext d
  exact d.hidesOutput_unplaced

theorem variablesOf_unplaced (earlier : List String) (ds : List Declaration) :
    f.unplaced.variablesOf earlier (ds.map Declaration.unplaced) = f.variablesOf earlier ds := by
  induction ds generalizing earlier with
  | nil => rfl
  | cons d ds ih =>
    have hname : d.unplaced.name = d.name := rfl
    rw [List.map_cons, variablesOf, variablesOf, d.hasVariable_unplaced, hname, ih, ih]
    rfl

@[simp]
theorem declaredVariables_unplaced : f.unplaced.declaredVariables = f.declaredVariables := by
  unfold declaredVariables
  rw [declarations_unplaced, variablesOf_unplaced]

theorem variableNotices_unplaced : f.unplaced.variableNotices = f.variableNotices := by
  unfold variableNotices
  rw [declarations_unplaced, declaredVariables_unplaced, List.zip_map_left, List.filterMap_map]
  congr 1
  funext entry
  obtain ⟨d, v⟩ := entry
  cases v with
  | none =>
    show (if d.unplaced.hidesOutput = true then _ else _) = _
    rw [d.hidesOutput_unplaced]
    rfl
  | some v => rfl

theorem lines_process_unplaced : f.unplaced.process.lines = f.process.lines := by
  have hnaming : Naming.ofFunction f.unplaced = Naming.ofFunction f := by
    unfold Naming.ofFunction
    rw [declaredVariables_unplaced, hidesOutput_unplaced]
  have hbody := congrArg Prod.fst
    (Block.lower_unplaced none f.body ⟨(Naming.ofFunction f).push, 0⟩)
  have hprocess : f.unplaced.process =
      ⟨f.process.locals, Sequential.unplacedList f.process.body⟩ := by
    unfold process
    rw [hnaming]
    exact congrArg (Process.mk _) hbody
  -- copying in and out names no position
  have hlocals : ∀ vs : List ProcessVariable,
      Sequential.unplacedList (vs.map ProcessVariable.copyIn) = vs.map ProcessVariable.copyIn := by
    intro vs
    rw [Sequential.unplacedList_eq_map, List.map_map]
    rfl
  have hback : ∀ vs : List ProcessVariable,
      Sequential.unplacedList (vs.filterMap ProcessVariable.copyOut?) =
        vs.filterMap ProcessVariable.copyOut? := by
    intro vs
    rw [Sequential.unplacedList_eq_map, List.map_filterMap]
    congr 1
    funext v
    unfold ProcessVariable.copyOut?
    split <;> rfl
  have hclocked : f.unplaced.process.clocked = Sequential.unplacedList f.process.clocked := by
    rw [hprocess, Process.clocked, Process.clocked, Sequential.unplacedList_append,
      Sequential.unplacedList_append, hlocals, hback]
  unfold Process.lines
  rw [hclocked, Sequential.linesOfList_unplaced, hprocess]

theorem signalEvents_unplaced (signature? : String → Option Signature) :
    f.unplaced.signalEvents signature? = f.signalEvents signature? := by
  have hdeclarations : f.unplaced.signalDeclarations =
      f.signalDeclarations.map Declaration.unplaced := by
    unfold signalDeclarations
    rw [declarations_unplaced, firstDeclarations_unplaced]
    rfl
  unfold signalEvents
  rw [hdeclarations, calls_unplaced, hidesOutput_unplaced, List.flatMap_map, List.map_map]
  simp only [Declaration.events_unplaced]
  rfl

theorem instanceEvents_unplaced (signature? : String → Option Signature) :
    f.unplaced.instanceEvents signature? = f.instanceEvents signature? := by
  unfold instanceEvents
  rw [calls_unplaced, List.flatMap_map]
  simp only [Call.events_unplaced]
  rfl

theorem arrayNoteLines_unplaced : f.unplaced.arrayNoteLines = f.arrayNoteLines := by
  have harrays : (f.declarations.map Declaration.unplaced).filter Declaration.isArray =
      (f.declarations.filter Declaration.isArray).map Declaration.unplaced := by
    rw [List.filter_map]
    congr 2
    funext d
    exact d.isArray_unplaced
  unfold arrayNoteLines arrayNames
  rw [declarations_unplaced, harrays, firstDeclarations_unplaced,
    List.map_map (g := Declaration.name)]
  rfl

theorem designEvents_unplaced (signature? : String → Option Signature) :
    f.unplaced.designEvents signature? = f.designEvents signature? := by
  have hdriver : f.unplaced.resultDriverLines = f.resultDriverLines := by
    unfold resultDriverLines
    rw [hidesOutput_unplaced]
  unfold designEvents
  rw [signalEvents_unplaced, hdriver, instanceEvents_unplaced, arrayNoteLines_unplaced,
    variableNotices_unplaced, lines_process_unplaced]
  rfl

theorem firstFreeUnit_unplaced : f.unplaced.firstFreeUnit = f.firstFreeUnit := by
  unfold firstFreeUnit greatestUnit?
  rw [calls_unplaced, List.filterMap_map]
  rfl

theorem hasUnnumberedCall_unplaced : f.unplaced.hasUnnumberedCall = f.hasUnnumberedCall := by
  unfold hasUnnumberedCall
  rw [calls_unplaced, List.any_map]
  rfl

theorem numberCalls_unplaced : f.unplaced.numberCalls.1 = f.numberCalls.1.unplaced := by
  have hbody := congrArg Prod.fst (Block.numberCalls_unplaced f.firstFreeUnit f.body)
  unfold numberCalls
  rw [firstFreeUnit_unplaced]
  exact congrArg (fun body => Function.mk f.name f.returns f.params body default) hbody

theorem numbered_unplaced : f.unplaced.numbered = f.numbered.unplaced := by
  unfold numbered
  rw [hasUnnumberedCall_unplaced, numberCalls_unplaced]
  split <;> rfl

end Function

/-! ## Programs -/

namespace Program

theorem signature?_unplaced (p : Program) (name : String) :
    p.unplaced.signature? name = p.signature? name := by
  have hfind : p.unplaced.functions.reverse.find? (fun f => f.name = name) =
      (p.functions.reverse.find? fun f => f.name = name).map Function.unplaced := by
    show (p.functions.map Function.unplaced).reverse.find? _ = _
    rw [← List.map_reverse, List.find?_map]
    rfl
  unfold signature?
  rw [hfind, Option.map_map]
  rfl

/-- A design is written in the same way for a program without positions. -/
theorem designEvents_unplaced (preamble : Preamble) (p : Program) :
    p.unplaced.designEvents preamble = p.designEvents preamble := by
  have hsignature : p.unplaced.signature? = p.signature? := funext p.signature?_unplaced
  have hfunction : ∀ f : Function,
      p.unplaced.functionEvents preamble f.unplaced = p.functionEvents preamble f := by
    intro f
    unfold functionEvents
    rw [f.numbered_unplaced, Function.designEvents_unplaced, hsignature]
    rfl
  have hfunctions : p.unplaced.functions = p.functions.map Function.unplaced := rfl
  unfold designEvents
  rw [hfunctions, List.flatMap_map]
  simp only [hfunction]

theorem numberCalls_unplaced (p : Program) : p.unplaced.numberCalls = p.numberCalls.unplaced := by
  unfold numberCalls unplaced
  simp only [List.map_map, Function.comp_def, Function.numberCalls_unplaced]

end Program

end ClockedC
