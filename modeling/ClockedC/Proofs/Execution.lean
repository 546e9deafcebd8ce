import ClockedC.Process.Basic

/-!
# Runs of functions and of processes

What the statements of a function mean, and what the statements of its process mean during one tick
of the clock. Values are of any kind: a `Meaning` says what numbers, operators and truth are.

* `Function.run` runs a function on the values of its inputs. Names live on a stack, a nested body
  takes its names off the stack when it is left, and an initial value is found before its name is
  bound.
* `Process.tick` runs a process on the values that its signals, inputs and variables had before the
  tick. A variable changes at once. What is driven onto a signal is kept apart, because no statement
  of the same tick can read it.

Both are given a bound on the rounds of each loop. A run that gets over it is `exhausted`, and one
that comes to something without a meaning is `stuck`.
-/

namespace ClockedC

/-- Why a run gives no answer. -/
inductive Halt where
  | stuck
  | exhausted
deriving DecidableEq

/-- The answer of a run, if it gives one. -/
abbrev Run := Except Halt

/-- What numbers, operators and truth mean. -/
structure Meaning (V : Type) where
  number : String → V
  unary : UnaryOp → V → V
  binary : BinaryOp → V → V → V
  truth : V → Bool

/-- Integers without a bound. The operations on bits are those of natural numbers. -/
def Meaning.integers : Meaning Int where
  number text := Nat.ofDigitChars 10 text.toList 0
  unary
    | .neg, x => -x
    | .not, x => if x = 0 then 1 else 0
    | .bitNot, x => -x - 1
  binary op x y :=
    let ofBool (b : Bool) : Int := if b then 1 else 0
    match op with
    | .add => x + y
    | .sub => x - y
    | .mul => x * y
    | .div => x.tdiv y
    | .mod => x.tmod y
    | .eq => ofBool (x = y)
    | .ne => ofBool (x ≠ y)
    | .lt => ofBool (x < y)
    | .le => ofBool (x ≤ y)
    | .gt => ofBool (y < x)
    | .ge => ofBool (y ≤ x)
    | .and => ofBool (x ≠ 0 && y ≠ 0)
    | .or => ofBool (x ≠ 0 || y ≠ 0)
    | .bitAnd => (x.toNat &&& y.toNat : Nat)
    | .bitOr => (x.toNat ||| y.toNat : Nat)
    | .bitXor => (x.toNat ^^^ y.toNat : Nat)
    | .shiftLeft => x.shiftLeft y.toNat
    | .shiftRight => x.shiftRight y.toNat
  truth x := x ≠ 0

/-- A value that has to be there. -/
def Run.ofOption {α : Type} : Option α → Run α
  | some a => .ok a
  | none => .error .stuck

/-- Goes through the rounds of a loop until one of them ends it. -/
def rounds {σ ε : Type} (round : σ → Run (Option ε × σ)) : (bound : Nat) → σ → Run (ε × σ)
  | 0, _ => .error .exhausted
  | bound + 1, s => do
    match ← round s with
    | (some ending, s) => return (ending, s)
    | (none, s) => rounds round bound s

section

variable {V : Type}

/-- The value of an expression. Elements of arrays and calls have none here. -/
def Expr.value (m : Meaning V) (read : String → Option V) : Expr → Run V
  | .number text => return m.number text
  | .name n => Run.ofOption (read n)
  | .unary op operand => return m.unary op (← operand.value m read)
  | .binary op left right => return m.binary op (← left.value m read) (← right.value m read)
  | .element .. | .call .. => .error .stuck

/-- Whether a condition is met. -/
def Expr.holds (m : Meaning V) (read : String → Option V) (e : Expr) : Run Bool :=
  return m.truth (← e.value m read)

/-! ## Functions -/

/-- How the statements of a body come to their end. -/
inductive Ending (V : Type) where
  | through
  | jump (jump : Jump)
  | returned (value : Option V)

/-- The names on the stack with their values, the latest first. -/
abbrev Stack (V : Type) := List (String × V)

namespace Stack

/-- Changes the value of the latest entry of a name. -/
def set? (name : String) (value : V) : Stack V → Option (Stack V)
  | [] => none
  | entry :: stack =>
    if entry.1 = name then some ((name, value) :: stack)
    else (set? name value stack).map (entry :: ·)

/-- Takes off the entries above a height. -/
def leave (height : Nat) (stack : Stack V) : Stack V :=
  stack.drop (stack.length - height)

end Stack

/-- Runs a body whose names are gone after it, however it ends. -/
def nested (body : Stack V → Run (Ending V × Stack V)) (stack : Stack V) :
    Run (Ending V × Stack V) := do
  let (ending, after) ← body stack
  return (ending, after.leave stack.length)

/-- One round of a loop. What follows the body also runs where the body asks for the next round. -/
def loopRound (m : Meaning V) (condition : Expr) (body : Stack V → Run (Ending V × Stack V))
    (step : Stack V → Run (Stack V)) (stack : Stack V) :
    Run (Option (Ending V) × Stack V) := do
  if ← condition.holds m (stack.lookup ·) then
    match ← nested body stack with
    | (.through, after) | (.jump .again, after) => return (none, ← step after)
    | (.jump .leave, after) => return (some .through, after)
    | (.returned value, after) => return (some (.returned value), after)
  else return (some .through, stack)

/-- A declaration. Without an initial value it has no meaning here, and neither has an array. -/
def Declaration.exec (m : Meaning V) (d : Declaration) (stack : Stack V) : Run (Stack V) :=
  match d.form with
  | .scalar (some init) => return (d.name, ← init.value m (stack.lookup ·)) :: stack
  | .scalar none | .array .. => .error .stuck

/-- An assignment. -/
def Assignment.exec (m : Meaning V) (a : Assignment) (stack : Stack V) : Run (Stack V) :=
  match a.target with
  | .name n => do Run.ofOption (stack.set? n (← a.value.value m (stack.lookup ·)))
  | .element .. => .error .stuck

/-- What a `for` loop does before its first round. -/
def ForStart.exec (m : Meaning V) (stack : Stack V) : ForStart → Run (Stack V)
  | .declare d => d.exec m stack
  | .assign a => a.exec m stack

/-- Runs what may be absent. -/
def optionally {α : Type} (run : α → Stack V → Run (Stack V)) : Option α → Stack V → Run (Stack V)
  | none, stack => return stack
  | some a, stack => run a stack

mutual

/-- Runs a statement. -/
def Stmt.exec (m : Meaning V) (bound : Nat) : Stmt → Stack V → Run (Ending V × Stack V)
  | .declare d, stack => return (.through, ← d.exec m stack)
  | .assign a, stack => return (.through, ← a.exec m stack)
  | .ret none _, stack => return (.returned none, stack)
  | .ret (some e) _, stack => return (.returned (some (← e.value m (stack.lookup ·))), stack)
  | .branch condition body otherwise _, stack => do
    if ← condition.holds m (stack.lookup ·) then nested (Block.exec m bound body) stack
    else otherwise.exec m bound stack
  | .whileLoop condition body _, stack =>
    rounds (loopRound m condition (Block.exec m bound body) pure) bound stack
  | .forLoop init condition body step _, stack =>
    nested (fun stack => do
      let stack ← optionally (fun i s => i.exec m s) init stack
      rounds (loopRound m condition (Block.exec m bound body) (optionally (·.exec m) step)) bound
        stack) stack
  | .jump jump _, stack => return (.jump jump, stack)

/-- Runs what happens where a condition fails. -/
def Alternative.exec (m : Meaning V) (bound : Nat) :
    Alternative → Stack V → Run (Ending V × Stack V)
  | .none, stack => return (.through, stack)
  | .body body, stack => nested (Block.exec m bound body) stack
  | .branch condition body otherwise _, stack => do
    if ← condition.holds m (stack.lookup ·) then nested (Block.exec m bound body) stack
    else otherwise.exec m bound stack

/-- Runs the statements of a body up to the first that does not come through. -/
def Block.exec (m : Meaning V) (bound : Nat) : List Stmt → Stack V → Run (Ending V × Stack V)
  | [], stack => return (.through, stack)
  | s :: ss, stack => do
    match ← s.exec m bound stack with
    | (.through, stack) => Block.exec m bound ss stack
    | stopped => return stopped

end

/-- The answer of a function: its result, and the names of its outermost body with the values they
are left with, in the order of their declarations. -/
structure Answer (V : Type) where
  result : Option V
  locals : List (String × V)

/-- The inputs of a function with their values. -/
def Function.inputs (f : Function) (signals : String → V) : Stack V :=
  f.params.map fun p => (p.name, signals p.name)

/-- Runs a function. The inputs are at the bottom of the stack. -/
def Function.run (m : Meaning V) (bound : Nat) (signals : String → V) (f : Function) :
    Run (Answer V) := do
  let inputs := f.inputs signals
  let locals (stack : Stack V) := (stack.take (stack.length - inputs.length)).reverse
  match ← Block.exec m bound f.body inputs with
  | (.through, stack) => return ⟨none, locals stack⟩
  | (.returned value, stack) => return ⟨value, locals stack⟩
  | (.jump _, _) => .error .stuck

/-! ## Processes -/

/-- The state within a tick: the values of the variables, and the values driven so far, the latest
first. -/
structure Tick (V : Type) where
  held : String → V
  driven : List (String × V)

/-- What a process finds when a tick starts: what things mean, the names that are variables, and the
values of all signals and inputs. -/
structure Surroundings (V : Type) where
  meaning : Meaning V
  isVariable : String → Bool
  signals : String → V

/-- The value that a name has within a tick. -/
def Surroundings.read (w : Surroundings V) (t : Tick V) (name : String) : Option V :=
  some (if w.isVariable name then t.held name else w.signals name)

/-- Gives a variable a value. -/
def Tick.set (t : Tick V) (name : String) (value : V) : Tick V :=
  { t with held := fun n => if n = name then value else t.held n }

/-- Drives a value onto a signal. -/
def Tick.drive (t : Tick V) (name : String) (value : V) : Tick V :=
  { t with driven := (name, value) :: t.driven }

@[simp] theorem Tick.held_set_self (t : Tick V) (name : String) (value : V) :
    (t.set name value).held name = value := if_pos rfl

theorem Tick.held_set_of_ne {name other : String} (h : other ≠ name) (t : Tick V) (value : V) :
    (t.set name value).held other = t.held other := if_neg h

/-- An assignment to a variable. -/
def Surroundings.assign (w : Surroundings V) (name : String) (value : Expr) (t : Tick V) :
    Run (Option Jump × Tick V) :=
  if w.isVariable name then return (none, t.set name (← value.value w.meaning (w.read t)))
  else .error .stuck

/-- An assignment to a signal. -/
def Surroundings.drive (w : Surroundings V) (name : String) (value : Expr) (t : Tick V) :
    Run (Option Jump × Tick V) :=
  if w.isVariable name then .error .stuck
  else return (none, t.drive name (← value.value w.meaning (w.read t)))

/-- One round of a loop of a process. -/
def Surroundings.loopRound (w : Surroundings V) (condition : Expr)
    (body : Tick V → Run (Option Jump × Tick V)) (t : Tick V) : Run (Option Unit × Tick V) := do
  if ← condition.holds w.meaning (w.read t) then
    match ← body t with
    | (none, t) | (some .again, t) => return (none, t)
    | (some .leave, t) => return (some (), t)
  else return (some (), t)

mutual

/-- Runs a sequential statement. The first part of the answer is the jump it ends with, if any. -/
def Sequential.exec (w : Surroundings V) (bound : Nat) :
    Sequential → Tick V → Run (Option Jump × Tick V)
  | .setVariable name value, t => w.assign name value t
  | .setSignal (.name name) value, t => w.drive name value t
  | .setSignal (.element ..) _, _ => .error .stuck
  | .setResult signal value, t => w.drive signal value t
  | .branch condition body otherwise, t => do
    if ← condition.holds w.meaning (w.read t) then Sequential.execList w bound body t
    else otherwise.exec w bound t
  | .loop condition body, t =>
    return (none, (← rounds (w.loopRound condition (Sequential.execList w bound body)) bound t).2)
  | .exit, t => return (some .leave, t)
  | .next, t => return (some .again, t)

/-- Runs what happens where the condition of a branch fails. -/
def Elsewise.exec (w : Surroundings V) (bound : Nat) :
    Elsewise → Tick V → Run (Option Jump × Tick V)
  | .none, t => return (none, t)
  | .body body, t => Sequential.execList w bound body t
  | .branch condition body otherwise, t => do
    if ← condition.holds w.meaning (w.read t) then Sequential.execList w bound body t
    else otherwise.exec w bound t

/-- Runs sequential statements up to the first that jumps. -/
def Sequential.execList (w : Surroundings V) (bound : Nat) :
    List Sequential → Tick V → Run (Option Jump × Tick V)
  | [], t => return (none, t)
  | s :: ss, t => do
    match ← s.exec w bound t with
    | (none, t) => Sequential.execList w bound ss t
    | stopped => return stopped

end

/-- What a process meets in a tick. -/
def Process.surroundings (p : Process) (m : Meaning V) (signals : String → V) : Surroundings V :=
  ⟨m, fun name => p.locals.any fun v => v.name = name, signals⟩

/-- Runs a process for one tick. The answer is what has been driven, the latest first. -/
def Process.tick (m : Meaning V) (bound : Nat) (signals held : String → V) (p : Process) :
    Run (List (String × V)) := do
  match ← Sequential.execList (p.surroundings m signals) bound p.clocked ⟨held, []⟩ with
  | (none, t) => return t.driven
  | (some _, _) => .error .stuck

/-! ## Lists of statements -/

theorem Sequential.execList_singleton (w : Surroundings V) (bound : Nat) (s : Sequential)
    (t : Tick V) : Sequential.execList w bound [s] t = s.exec w bound t := by
  rw [execList]
  rcases s.exec w bound t with _ | ⟨_ | jump, t⟩ <;> rfl

theorem Sequential.execList_append (w : Surroundings V) (bound : Nat) (ss ss' : List Sequential)
    (t : Tick V) :
    Sequential.execList w bound (ss ++ ss') t = (do
      match ← Sequential.execList w bound ss t with
      | (none, t) => Sequential.execList w bound ss' t
      | stopped => return stopped) := by
  induction ss generalizing t with
  | nil => rfl
  | cons s ss ih =>
    rw [List.cons_append, execList, execList]
    rcases s.exec w bound t with _ | ⟨_ | jump, t⟩
    · rfl
    · exact ih t
    · rfl

end

end ClockedC
