import ClockedC.Proofs.Concatenation
import ClockedC.Proofs.ParserAgreement

/-!
# Headway of the parser

Functions and statements are read by loops, and by parsers that these loops call, down to those of
declarations and expressions. Each turn of a loop and each call begins further on in the tokens than
the one before, and never behind the first end; a call may begin at the same token only if it goes
down to a smaller part. So there are no more turns and calls that take tokens, one inside of the
other or one after the other, than tokens before that end, and what stands behind it makes no
difference to anyone.

* `Parse.programTurn` and `Parse.blockTurn` are one turn of the loops over a program and over a
  block, and `Parse.functions_eq_turn` and `Parse.bareBlock_eq_turn` put the loops together again.
* `Parse.Site` is a place where a turn or a parser begins. `Parse.Site.Calls` says which one
  follows, or is called from, which when tokens have been taken, and `Parse.Site.Enters` which one
  is called before that.
* `Parse.Site.Calls.beyond`: a step takes at least one token.
* `Parse.Site.Enters.rank_lt`: what is called at the same token is of a lower rank.
* `Parse.Reached.le_cursor`: so many steps take at least so many tokens.
* `Program.ofTokens_headway` says this of a whole run.
-/

namespace ClockedC

/-! ## Cursors -/

/-- The place of the first end among some tokens, or their number if there is none. -/
def firstEnd (ts : List Token) : Nat :=
  ts.findIdx fun t => decide (t.symbol = .eof)

/-- How far into the tokens `all` the cursor is when `rest` is left of them. -/
def cursor (all rest : List Token) : Nat :=
  all.length - rest.length

/-- The tokens up to their first end, or all if there is none. -/
def throughEnd (ts : List Token) : List Token :=
  ts.take (firstEnd ts + 1)

section Cursors

variable {all ts rest : List Token}

theorem firstEnd_append_of_forall (h : ∀ t ∈ ts, t.symbol ≠ .eof) (us : List Token) :
    firstEnd (ts ++ us) = ts.length + firstEnd us := by
  induction ts with
  | nil => simp
  | cons t ts ih =>
    obtain ⟨ht, hts⟩ := List.forall_mem_cons.1 h
    rw [List.cons_append, firstEnd, List.findIdx_cons, decide_eq_false ht, cond_false,
      List.length_cons]
    have := ih hts
    rw [firstEnd] at this
    omega

/-- What is left begins at the cursor, and the cursor is not behind the first end. -/
theorem Left.eq_drop (h : Left rest all) :
    rest = all.drop (cursor all rest) ∧ cursor all rest ≤ firstEnd all := by
  obtain ⟨taken, rfl, htaken⟩ := h
  have hcursor : cursor (taken ++ rest) rest = taken.length := by
    rw [cursor, List.length_append]
    omega
  rw [hcursor, List.drop_left, firstEnd_append_of_forall htaken]
  exact ⟨rfl, by omega⟩

theorem Beyond.cursor_lt (h : Beyond rest ts) (hts : Left ts all) :
    cursor all ts < cursor all rest := by
  have h₁ := h.length_lt
  have h₂ := hts.length_le
  rw [cursor, cursor]
  omega

theorem Left.cursor_le (h : Left rest ts) (hts : Left ts all) :
    cursor all ts ≤ cursor all rest := by
  have h₁ := h.length_le
  have h₂ := hts.length_le
  rw [cursor, cursor]
  omega

end Cursors

namespace Parse

open Cursor

/-! ## Turns of the loops -/

/-- One turn of the loop over a program: the function that was read, if it was one, and the tokens
that are left. At the end of the source there is no turn. -/
def programTurn (ts : List Token) : Logged (Option (Option Function × List Token)) :=
  match next? ts with
  | none => return none
  | some ⟨t, rest, _⟩ =>
    match t.symbol with
    | .keyword (.type returns) =>
      match next? rest with
      | some ⟨⟨.name name, position⟩, inner, _⟩ =>
        match accept (.punct .openParen) inner with
        | some ⟨_, inner, _⟩ => do
          let ⟨f, rest, _⟩ ← function returns name position inner
          .tell (.functionParsed name)
          return some (some f, rest)
        | none => do
          .tell (.globalVariable name)
          return some (none, afterSemicolon rest)
      | _ => do
        .tell .typeWithoutName
        return some (none, rest)
    | found => do
      .tell (.strayToken found)
      return some (none, rest)

/-- Goes on with the loop over a program after a turn. -/
def goOnProgram : Option (Option Function × List Token) → Logged (List Function)
  | none => return []
  | some (f, rest) => do
    let fs ← functions rest
    return f.toList ++ fs

/-- What a turn of the loop over a block may come to. -/
inductive BlockTurn where
  /-- The brace that closes the block was read. -/
  | closes (table : ShapeTable) (rest : List Token)
  /-- A brace inside of the block was read, or a statement, which may have been left out. -/
  | goesOn (s : Option Stmt) (depth : Nat) (table : ShapeTable) (rest : List Token)

/-- One turn of the loop over a block. -/
def blockTurn (place : Place) (inLoop : Bool) (depth : Nat) (table : ShapeTable)
    (ts : List Token) : Logged BlockTurn :=
  match next? ts with
  | none => .fail (.grammar (.missing .closeBrace place) (line ts))
  | some ⟨t, rest, _⟩ =>
    match t.symbol, depth with
    | .punct .closeBrace, 0 => return .closes table rest
    | .punct .closeBrace, depth + 1 => return .goesOn none depth table rest
    | .punct .openBrace, depth => return .goesOn none (depth + 1) table rest
    | _, depth => do
      let ⟨(s, table), rest, _⟩ ← statement inLoop table t rest
      return .goesOn s depth table rest

/-- The loop over a block, without the proof that it made headway. -/
def bareBlock (place : Place) (inLoop : Bool) (depth : Nat) (table : ShapeTable)
    (ts : List Token) : Logged ((Block × ShapeTable) × List Token) := do
  let r ← block place inLoop depth table ts
  return (r.value, r.rest)

/-- Goes on with the loop over a block after a turn. -/
def goOnBlock (place : Place) (inLoop : Bool) :
    BlockTurn → Logged ((Block × ShapeTable) × List Token)
  | .closes table rest => return (([], table), rest)
  | .goesOn s depth table rest => do
    let r ← bareBlock place inLoop depth table rest
    return ((s.toList ++ r.1.1, r.1.2), r.2)

end Parse

theorem Logged.bind_bind {α β γ : Type} (x : Logged α) (f : α → Logged β) (g : β → Logged γ) :
    x >>= f >>= g = x >>= fun a => f a >>= g := by
  show (x.bind f).bind g = x.bind fun a => (f a).bind g
  unfold Logged.bind
  cases x.outcome with
  | error e => rfl
  | ok a =>
    dsimp only
    cases (f a).outcome <;> simp

theorem Logged.bind_pure_self {α : Type} (x : Logged α) : (x >>= fun a => pure a) = x := by
  obtain ⟨log, outcome⟩ := x
  rw [Logged.bind_pure]
  cases outcome <;> rfl

namespace Parse

open Cursor

theorem goOnProgram_none (rest : List Token) : goOnProgram (some (none, rest)) = functions rest :=
  Logged.bind_pure_self _

/-- After a notice the loop over a program goes on. -/
theorem tell_goOnProgram (n : Notice) (rest : List Token) :
    (Logged.tell n >>= fun _ => functions rest) =
      (Logged.tell n >>= fun _ => pure (some (none, rest))) >>= goOnProgram := by
  rw [Logged.bind_bind, ← goOnProgram_none]
  rfl

/-- Reading a program is one turn of its loop after the other. -/
theorem functions_eq_turn (ts : List Token) : functions ts = programTurn ts >>= goOnProgram := by
  rw [functions, programTurn]
  cases next? ts with
  | none => rfl
  | some r =>
  obtain ⟨⟨s, p⟩, rest, -⟩ := r
  cases s with
  | keyword k =>
    cases k with
    | type returns =>
      dsimp only
      cases next? rest with
      | none => exact tell_goOnProgram _ _
      | some r =>
      obtain ⟨⟨s, p⟩, inner, -⟩ := r
      cases s with
      | name name =>
        dsimp only
        cases accept (.punct .openParen) inner with
        | none => exact tell_goOnProgram _ _
        | some r =>
          dsimp only
          rw [Logged.bind_bind]
          rfl
      | _ => exact tell_goOnProgram _ _
    | _ => exact tell_goOnProgram _ _
  | _ => exact tell_goOnProgram _ _

theorem bareBlock_none (place : Place) (inLoop : Bool) (depth : Nat) (table : ShapeTable)
    (rest : List Token) :
    goOnBlock place inLoop (.goesOn none depth table rest) =
      bareBlock place inLoop depth table rest :=
  Logged.bind_pure_self _

/-- Reading a block is one turn of its loop after the other. -/
theorem bareBlock_eq_turn (place : Place) (inLoop : Bool) (depth : Nat) (table : ShapeTable)
    (ts : List Token) :
    bareBlock place inLoop depth table ts =
      blockTurn place inLoop depth table ts >>= goOnBlock place inLoop := by
  rw [bareBlock, block, blockTurn]
  cases next? ts with
  | none => rfl
  | some r =>
  obtain ⟨⟨s, p⟩, rest, h⟩ := r
  have hstatement : ∀ t,
      ((statement inLoop table t rest >>= fun r =>
        block place inLoop depth r.value.2 r.rest >>= fun r' =>
          pure ⟨(r.value.1.toList ++ r'.value.1, r'.value.2), r'.rest,
            (h.andPass r.left).andThen r'.left⟩ : Logged (Read (Block × ShapeTable) ts))
        >>= fun r => pure (r.value, r.rest)) =
      (statement inLoop table t rest >>= fun r =>
        pure (.goesOn r.value.1 depth r.value.2 r.rest)) >>= goOnBlock place inLoop := by
    intro t
    rw [Logged.bind_bind, Logged.bind_bind]
    congr 1
    funext r
    rw [Logged.bind_bind]
    show _ = bareBlock .. >>= _
    rw [bareBlock, Logged.bind_bind]
    rfl
  cases s with
  | punct mark =>
    cases mark with
    | closeBrace =>
      cases depth with
      | zero => rfl
      | succ depth =>
        show _ = goOnBlock place inLoop (.goesOn none depth table rest)
        rw [bareBlock_none]
        exact Logged.bind_bind ..
    | openBrace =>
      show _ = goOnBlock place inLoop (.goesOn none (depth + 1) table rest)
      rw [bareBlock_none]
      exact Logged.bind_bind ..
    | _ => exact hstatement _
  | _ => exact hstatement _

/-! ## Where the parsers begin -/

/-- A place where the parser begins something: a turn of the loop over a program or over a block, a
function, a statement or what follows the block of a branch, or a part of these. -/
inductive Site where
  | program (ts : List Token)
  | function (returns : ScalarType) (name : String) (position : Position) (ts : List Token)
  | block (place : Place) (inLoop : Bool) (depth : Nat) (table : ShapeTable) (ts : List Token)
  | statement (inLoop : Bool) (table : ShapeTable) (t : Token) (ts : List Token)
  | alternative (inLoop : Bool) (table : ShapeTable) (ts : List Token)
  -- parameters and local variables
  | parameterList (table : ShapeTable) (ts : List Token)
  | parameters (table : ShapeTable) (ts : List Token)
  | declaration (table : ShapeTable) (type : ScalarType) (position : Position) (ts : List Token)
  | form (table : ShapeTable) (name : String) (line : Nat) (ts : List Token)
  | arrayForm (table : ShapeTable) (name : String) (line : Nat) (ts : List Token)
  | elementList (ts : List Token)
  | elements (ts : List Token)
  | element (ts : List Token)
  -- loop headers and simple statements
  | forHeader (table : ShapeTable) (ts : List Token)
  | forStart (table : ShapeTable) (ts : List Token)
  | forCondition (table : ShapeTable) (ts : List Token)
  | forIncrement (table : ShapeTable) (ts : List Token)
  | assignment (table : ShapeTable) (name : String) (position : Position) (ts : List Token)
  | target (table : ShapeTable) (name : String) (ts : List Token)
  | returned (table : ShapeTable) (position : Position) (ts : List Token)
  | jump (inLoop : Bool) (j : Jump) (position : Position) (ts : List Token)
  | condition (before after : Place) (table : ShapeTable) (ts : List Token)
  -- expressions
  | expression (table : ShapeTable) (level : Nat) (ts : List Token)
  | operand (table : ShapeTable) (ts : List Token)
  | operations (table : ShapeTable) (level : Nat) (left : Expr) (ts : List Token)
  | arguments (table : ShapeTable) (callee : String) (ts : List Token)
  | expressions (table : ShapeTable) (ts : List Token)
  | index (table : ShapeTable) (base : String) (line : Nat) (ts : List Token)

namespace Site

/-- The tokens from the cursor on. -/
def tokens : Site → List Token
  | program ts | function _ _ _ ts | block _ _ _ _ ts | statement _ _ _ ts | alternative _ _ ts
  | parameterList _ ts | parameters _ ts | declaration _ _ _ ts | form _ _ _ ts | arrayForm _ _ _ ts
  | elementList ts | elements ts | element ts
  | forHeader _ ts | forStart _ ts | forCondition _ ts | forIncrement _ ts | assignment _ _ _ ts
  | target _ _ ts | returned _ _ ts | jump _ _ _ ts | condition _ _ _ ts
  | expression _ _ ts | operand _ ts | operations _ _ _ ts | arguments _ _ ts | expressions _ ts
  | index _ _ _ ts => ts

/-- What begins at a place is read, and `rest` is left. The loop over a program leaves nothing. -/
def Leaves : Site → List Token → Prop
  | program _, _ => False
  | function returns name position ts, rest =>
    ∃ f, Reads (Parse.function returns name position ts).outcome f rest
  | block place inLoop depth table ts, rest =>
    ∃ body, Reads (Parse.block place inLoop depth table ts).outcome body rest
  | statement inLoop table t ts, rest =>
    ∃ s, Passes (Parse.statement inLoop table t ts).outcome s rest
  | alternative inLoop table ts, rest =>
    ∃ a, Passes (Parse.alternative inLoop table ts).outcome a rest
  | parameterList table ts, rest => ∃ params, Passes (Parse.parameterList table ts) params rest
  | parameters table ts, rest => ∃ params, Reads (Parse.parameters table ts) params rest
  | declaration table type position ts, rest =>
    ∃ d, Reads (Parse.declaration table type position ts) d rest
  | form table name line ts, rest => ∃ form, Passes (Parse.form table name line ts) form rest
  | arrayForm table name line ts, rest =>
    ∃ form, Reads (Parse.arrayForm table name line ts) form rest
  | elementList ts, rest => ∃ es, Reads (Parse.elementList ts) es rest
  | elements ts, rest => ∃ es, Reads (Parse.elements ts) es rest
  | element ts, rest => ∃ e, Reads (Parse.element ts) e rest
  | forHeader table ts, rest => ∃ header, Reads (Parse.forHeader table ts).outcome header rest
  | forStart table ts, rest => ∃ start, Passes (Parse.forStart table ts).outcome start rest
  | forCondition table ts, rest => ∃ e, Reads (Parse.forCondition table ts) e rest
  | forIncrement table ts, rest =>
    ∃ increment, Passes (Parse.forIncrement table ts).outcome increment rest
  | assignment table name position ts, rest =>
    ∃ s, Passes (Parse.assignment table name position ts).outcome s rest
  | target table name ts, rest => ∃ t, Passes (Parse.target table name ts) t rest
  | returned table position ts, rest => ∃ s, Reads (Parse.returned table position ts) s rest
  | jump inLoop j position ts, rest => ∃ s, Reads (Parse.jump inLoop j position ts) s rest
  | condition before after table ts, rest =>
    ∃ e, Reads (Parse.condition before after table ts) e rest
  | expression table level ts, rest => ∃ e, Reads (Parse.expression table level ts) e rest
  | operand table ts, rest => ∃ e, Reads (Parse.operand table ts) e rest
  | operations table level left ts, rest =>
    ∃ e, Passes (Parse.operations table level left ts) e rest
  | arguments table callee ts, rest => ∃ args, Reads (Parse.arguments table callee ts) args rest
  | expressions table ts, rest => ∃ es, Reads (Parse.expressions table ts) es rest
  | index table base line ts, rest => ∃ e, Reads (Parse.index table base line ts) e rest

/-- What begins at the second place is the next turn of the loop at the first, or is called from
there after tokens have been taken. -/
inductive Calls : Site → Site → Prop
  | programTurn {ts rest : List Token} {f : Option Function}
      (h : (programTurn ts).outcome = .ok (some (f, rest))) :
      Calls (program ts) (program rest)
  | function {returns : ScalarType} {name : String} {p position q : Position} {ts : List Token} :
      Calls (program (⟨.keyword (.type returns), p⟩ :: ⟨.name name, position⟩ ::
        ⟨.punct .openParen, q⟩ :: ts)) (function returns name position ts)
  | functionBody {returns : ScalarType} {name : String} {position p q : Position}
      {ts rest : List Token} {params : List Param} {table : ShapeTable}
      (h : Passes (Parse.parameterList .empty ts) (params, table)
        (⟨.punct .closeParen, p⟩ :: ⟨.punct .openBrace, q⟩ :: rest)) :
      Calls (function returns name position ts) (block .endOfBody false 0 table rest)
  | blockTurn {place : Place} {inLoop : Bool} {depth depth' : Nat} {table table' : ShapeTable}
      {ts rest : List Token} {s : Option Stmt}
      (h : (blockTurn place inLoop depth table ts).outcome = .ok (.goesOn s depth' table' rest)) :
      Calls (block place inLoop depth table ts) (block place inLoop depth' table' rest)
  | statement {place : Place} {inLoop : Bool} {depth : Nat} {table : ShapeTable} {t : Token}
      {ts : List Token} (heof : t.symbol ≠ .eof) (hopen : t.symbol ≠ .punct .openBrace)
      (hclose : t.symbol ≠ .punct .closeBrace) :
      Calls (block place inLoop depth table (t :: ts)) (statement inLoop table t ts)
  | ifBlock {inLoop : Bool} {table : ShapeTable} {p : Position} {ts rest : List Token} {e : Expr}
      (h : Reads (Parse.condition .afterIf .afterIfCondition table ts) e rest) :
      Calls (statement inLoop table ⟨.keyword .ifKw, p⟩ ts)
        (block .afterIfBlock inLoop 0 table rest)
  | ifAlternative {inLoop : Bool} {table table' : ShapeTable} {p : Position}
      {ts rest rest' : List Token} {e : Expr} {body : Block}
      (h : Reads (Parse.condition .afterIf .afterIfCondition table ts) e rest)
      (h' : Reads (Parse.block .afterIfBlock inLoop 0 table rest).outcome (body, table') rest') :
      Calls (statement inLoop table ⟨.keyword .ifKw, p⟩ ts) (alternative inLoop table' rest')
  | whileBlock {inLoop : Bool} {table : ShapeTable} {p : Position} {ts rest : List Token} {e : Expr}
      (h : Reads (Parse.condition .afterWhile .afterWhileCondition table ts) e rest) :
      Calls (statement inLoop table ⟨.keyword .whileKw, p⟩ ts)
        (block .afterWhileBlock true 0 table rest)
  | forBlock {inLoop : Bool} {table table' : ShapeTable} {p : Position} {ts rest : List Token}
      {header : ForHeader} (h : Reads (Parse.forHeader table ts).outcome (header, table') rest) :
      Calls (statement inLoop table ⟨.keyword .forKw, p⟩ ts)
        (block .afterForBody true 0 table' rest)
  | elseBlock {inLoop : Bool} {table : ShapeTable} {p q : Position} {ts : List Token} :
      Calls (alternative inLoop table (⟨.keyword .elseKw, p⟩ :: ⟨.punct .openBrace, q⟩ :: ts))
        (block .afterElseBlock inLoop 0 table ts)
  | elseIfBlock {inLoop : Bool} {table : ShapeTable} {p q : Position} {ts rest : List Token}
      {e : Expr} (h : Reads (Parse.condition .afterElseIf .afterElseIfCondition table ts) e rest) :
      Calls (alternative inLoop table (⟨.keyword .elseKw, p⟩ :: ⟨.keyword .ifKw, q⟩ :: ts))
        (block .afterElseIfBlock inLoop 0 table rest)
  | elseIfAlternative {inLoop : Bool} {table table' : ShapeTable} {p q : Position}
      {ts rest rest' : List Token} {e : Expr} {body : Block}
      (h : Reads (Parse.condition .afterElseIf .afterElseIfCondition table ts) e rest)
      (h' : Reads (Parse.block .afterElseIfBlock inLoop 0 table rest).outcome (body, table')
        rest') :
      Calls (alternative inLoop table (⟨.keyword .elseKw, p⟩ :: ⟨.keyword .ifKw, q⟩ :: ts))
        (alternative inLoop table' rest')
  | elseIfCondition {inLoop : Bool} {table : ShapeTable} {p q : Position} {ts : List Token} :
      Calls (alternative inLoop table (⟨.keyword .elseKw, p⟩ :: ⟨.keyword .ifKw, q⟩ :: ts))
        (condition .afterElseIf .afterElseIfCondition table ts)
  -- parameters and local variables
  | parameters {table table' : ShapeTable} {type : ScalarType} {name : String} {p q r : Position}
      {ts : List Token} (htype : type ≠ .void) (h : table.addScalar name = .ok table') :
      Calls (parameters table (⟨.keyword (.type type), p⟩ :: ⟨.name name, q⟩ ::
        ⟨.punct .comma, r⟩ :: ts)) (parameters table' ts)
  | form {table : ShapeTable} {type : ScalarType} {name : String} {position p : Position}
      {ts : List Token} :
      Calls (declaration table type position (⟨.name name, p⟩ :: ts)) (form table name p.line ts)
  | arrayForm {table : ShapeTable} {name : String} {line : Nat} {p : Position} {ts : List Token} :
      Calls (form table name line (⟨.punct .openBracket, p⟩ :: ts)) (arrayForm table name line ts)
  | initialValue {table table' : ShapeTable} {name : String} {line : Nat} {p : Position}
      {ts : List Token} (h : table.addScalar name = .ok table') :
      Calls (form table name line (⟨.operator "=", p⟩ :: ts))
        (expression table' BinaryOp.loosest ts)
  | elementList {table table' : ShapeTable} {name : String} {line size : Nat} {p q : Position}
      {ts rest : List Token}
      (h : Reads (arraySize ts) size (⟨.punct .closeBracket, p⟩ :: ⟨.operator "=", q⟩ :: rest))
      (h' : table.addArray name size = .ok table') :
      Calls (arrayForm table name line ts) (elementList rest)
  | elements {p : Position} {ts : List Token} (h : accept (.punct .closeBrace) ts = none) :
      Calls (elementList (⟨.punct .openBrace, p⟩ :: ts)) (elements ts)
  | elementsTurn {p : Position} {ts rest : List Token} {e : Element}
      (h : Reads (Parse.element ts) e (⟨.punct .comma, p⟩ :: rest)) :
      Calls (elements ts) (elements rest)
  -- loop headers and simple statements
  | forStart {table : ShapeTable} {p : Position} {ts : List Token} :
      Calls (forHeader table (⟨.punct .openParen, p⟩ :: ts)) (forStart table ts)
  | forCondition {table table' : ShapeTable} {p : Position} {ts rest : List Token}
      {start : Option ForStart}
      (h : Passes (Parse.forStart table ts).outcome (start, table') rest) :
      Calls (forHeader table (⟨.punct .openParen, p⟩ :: ts)) (forCondition table' rest)
  | forIncrement {table table' : ShapeTable} {p : Position} {ts rest rest' : List Token}
      {start : Option ForStart} {e : Expr}
      (h : Passes (Parse.forStart table ts).outcome (start, table') rest)
      (h' : Reads (Parse.forCondition table' rest) e rest') :
      Calls (forHeader table (⟨.punct .openParen, p⟩ :: ts)) (forIncrement table' rest')
  | startValue {table : ShapeTable} {name : String} {p q : Position} {ts : List Token} :
      Calls (forStart table (⟨.name name, p⟩ :: ⟨.operator "=", q⟩ :: ts))
        (expression table BinaryOp.loosest ts)
  | startDeclaration {table : ShapeTable} {type : ScalarType} {p : Position} {ts : List Token}
      (htype : type ≠ .void) :
      Calls (forStart table (⟨.keyword (.type type), p⟩ :: ts)) (declaration table type p ts)
  | incrementValue {table : ShapeTable} {name : String} {p q : Position} {ts : List Token} :
      Calls (forIncrement table (⟨.name name, p⟩ :: ⟨.operator "=", q⟩ :: ts))
        (expression table BinaryOp.loosest ts)
  | targetIndex {table : ShapeTable} {name : String} {p : Position} {ts : List Token} :
      Calls (target table name (⟨.punct .openBracket, p⟩ :: ts)) (index table name p.line ts)
  | assignedValue {table : ShapeTable} {name : String} {position p : Position}
      {ts rest : List Token} {t : Target}
      (h : Passes (Parse.target table name ts) t (⟨.operator "=", p⟩ :: rest)) :
      Calls (assignment table name position ts) (expression table BinaryOp.loosest rest)
  | conditionValue {before after : Place} {table : ShapeTable} {p : Position} {ts : List Token} :
      Calls (condition before after table (⟨.punct .openParen, p⟩ :: ts))
        (expression table BinaryOp.loosest ts)
  -- expressions
  | operations {table : ShapeTable} {level : Nat} {ts rest : List Token} {e : Expr}
      (h : Reads (Parse.operand table ts) e rest) :
      Calls (expression table level ts) (operations table level e rest)
  | signedOperand {table : ShapeTable} {spelling : String} {op : UnaryOp} {p : Position}
      {ts : List Token} (h : UnaryOp.ofSpelling? spelling = some op) :
      Calls (operand table (⟨.operator spelling, p⟩ :: ts)) (operand table ts)
  | inParentheses {table : ShapeTable} {p : Position} {ts : List Token} :
      Calls (operand table (⟨.punct .openParen, p⟩ :: ts)) (expression table BinaryOp.loosest ts)
  | arguments {table : ShapeTable} {name : String} {p q : Position} {ts : List Token} :
      Calls (operand table (⟨.name name, p⟩ :: ⟨.punct .openParen, q⟩ :: ts))
        (arguments table name ts)
  | index {table : ShapeTable} {name : String} {p q : Position} {ts : List Token} :
      Calls (operand table (⟨.name name, p⟩ :: ⟨.punct .openBracket, q⟩ :: ts))
        (index table name q.line ts)
  | rightOperand {table : ShapeTable} {level : Nat} {left : Expr} {t : Token} {op : BinaryOp}
      {ts : List Token} (h : t.symbol.binary? = some op) (hlevel : level ≤ op.level)
      (hopens : (symbol ts).opensOperand = true) :
      Calls (operations table level left (t :: ts)) (expression table (op.level + 1) ts)
  | operationsTurn {table : ShapeTable} {level : Nat} {left right : Expr} {t : Token}
      {op : BinaryOp} {ts rest : List Token} (h : t.symbol.binary? = some op)
      (hlevel : level ≤ op.level) (hopens : (symbol ts).opensOperand = true)
      (h' : Reads (Parse.expression table (op.level + 1) ts) right rest) :
      Calls (operations table level left (t :: ts))
        (operations table level (.binary op left right) rest)
  | expressionsTurn {table : ShapeTable} {p : Position} {ts rest : List Token} {e : Expr}
      (h : Reads (Parse.expression table BinaryOp.loosest ts) e (⟨.punct .comma, p⟩ :: rest)) :
      Calls (expressions table ts) (expressions table rest)

/-- What begins at the second place is called from the first before a token is taken. -/
inductive Enters : Site → Site → Prop
  | parameterList {returns : ScalarType} {name : String} {position : Position} {ts : List Token} :
      Enters (function returns name position ts) (parameterList .empty ts)
  | parameters {table : ShapeTable} {ts : List Token} (h : noParameters? ts = none) :
      Enters (parameterList table ts) (parameters table ts)
  | declaration {inLoop : Bool} {table : ShapeTable} {type : ScalarType} {p : Position}
      {ts : List Token} (htype : type ≠ .void) :
      Enters (statement inLoop table ⟨.keyword (.type type), p⟩ ts) (declaration table type p ts)
  | assignment {inLoop : Bool} {table : ShapeTable} {name : String} {p : Position}
      {ts : List Token} :
      Enters (statement inLoop table ⟨.name name, p⟩ ts) (assignment table name p ts)
  | returned {inLoop : Bool} {table : ShapeTable} {p : Position} {ts : List Token} :
      Enters (statement inLoop table ⟨.keyword .returnKw, p⟩ ts) (returned table p ts)
  | jump {inLoop : Bool} {table : ShapeTable} {j : Jump} {p : Position} {ts : List Token} :
      Enters (statement inLoop table ⟨.keyword (.jump j), p⟩ ts) (jump inLoop j p ts)
  | ifCondition {inLoop : Bool} {table : ShapeTable} {p : Position} {ts : List Token} :
      Enters (statement inLoop table ⟨.keyword .ifKw, p⟩ ts)
        (condition .afterIf .afterIfCondition table ts)
  | whileCondition {inLoop : Bool} {table : ShapeTable} {p : Position} {ts : List Token} :
      Enters (statement inLoop table ⟨.keyword .whileKw, p⟩ ts)
        (condition .afterWhile .afterWhileCondition table ts)
  | forHeader {inLoop : Bool} {table : ShapeTable} {p : Position} {ts : List Token} :
      Enters (statement inLoop table ⟨.keyword .forKw, p⟩ ts) (forHeader table ts)
  | target {table : ShapeTable} {name : String} {position : Position} {ts : List Token} :
      Enters (assignment table name position ts) (target table name ts)
  | returnedValue {table : ShapeTable} {position : Position} {ts : List Token}
      (h : accept (.punct .semicolon) ts = none) :
      Enters (returned table position ts) (expression table BinaryOp.loosest ts)
  | forConditionValue {table : ShapeTable} {ts : List Token}
      (h : accept (.punct .semicolon) ts = none) :
      Enters (forCondition table ts) (expression table BinaryOp.loosest ts)
  | element {ts : List Token} : Enters (elements ts) (element ts)
  | operand {table : ShapeTable} {level : Nat} {ts : List Token} :
      Enters (expression table level ts) (operand table ts)
  | expressions {table : ShapeTable} {callee : String} {ts : List Token}
      (h : accept (.punct .closeParen) ts = none) :
      Enters (arguments table callee ts) (expressions table ts)
  | expression {table : ShapeTable} {ts : List Token} :
      Enters (expressions table ts) (expression table BinaryOp.loosest ts)
  | indexValue {table : ShapeTable} {base text : String} {line : Nat} {ts : List Token}
      (h : indexText table base line ts = .ok text) :
      Enters (index table base line ts) (expression table BinaryOp.loosest ts)

/-- How many calls there may be one inside of the other before a token is taken. -/
def rank : Site → Nat
  | statement .. => 4
  | returned .. | forCondition .. | index .. | arguments .. => 3
  | expressions .. | function .. => 2
  | expression .. | assignment .. | elements .. | parameterList .. => 1
  | _ => 0

theorem Leaves.left {site : Site} {rest : List Token} (h : site.Leaves rest) :
    Left rest site.tokens := by
  cases site with
  | program ts => exact h.elim
  | statement | alternative | parameterList | form | forStart | forIncrement | assignment | target
  | operations =>
    obtain ⟨_, h, -⟩ := h
    exact h
  | _ =>
    obtain ⟨_, h, -⟩ := h
    exact h.left

/-- What is called before a token is taken begins at the same token. -/
theorem Enters.tokens_eq {site next : Site} (h : site.Enters next) : next.tokens = site.tokens := by
  cases h <;> rfl

theorem Enters.rank_lt {site next : Site} (h : site.Enters next) : next.rank < site.rank := by
  cases h <;> simp [rank]

end Site

/-! ## Steps and runs -/

/-- A turn of the loop over a program that does not end it takes a token. -/
theorem beyond_of_programTurn {ts rest : List Token} {f : Option Function}
    (h : (programTurn ts).outcome = .ok (some (f, rest))) : Beyond rest ts := by
  have htell : ∀ (n : Notice) (left : List Token),
      (Logged.tell n >>= fun _ => pure (some ((none : Option Function), left))).outcome =
        .ok (some (f, rest)) → left = rest := by
    intro n left h
    injection h with h
    injection h with h
    exact (Prod.mk.inj h).2
  rw [programTurn] at h
  cases hnext : next? ts with
  | none =>
    rw [hnext] at h
    cases h
  | some r =>
  rw [hnext] at h
  obtain ⟨⟨s, p⟩, after, ht⟩ := r
  cases s with
  | keyword k =>
    cases k with
    | type returns =>
      dsimp only at h
      cases hnext' : next? after with
      | none =>
        rw [hnext'] at h
        exact htell _ _ h ▸ ht
      | some r =>
      rw [hnext'] at h
      obtain ⟨⟨s, p⟩, inner, hname⟩ := r
      cases s with
      | name name =>
        dsimp only at h
        cases hopen : accept (.punct .openParen) inner with
        | none =>
          rw [hopen] at h
          exact htell _ _ h ▸ ht.andPass (left_afterSemicolon after)
        | some r =>
          rw [hopen] at h
          obtain ⟨g, -, h⟩ := Logged.outcome_bind_eq_ok.1 h
          injection h with h
          injection h with h
          obtain ⟨-, rfl⟩ := Prod.mk.inj h
          exact ((ht.andThen hname).andThen r.left).andThen g.left
      | _ => exact htell _ _ h ▸ ht
    | _ => exact htell _ _ h ▸ ht
  | _ => exact htell _ _ h ▸ ht

/-- A turn of the loop over a block that does not end it takes a token. -/
theorem beyond_of_blockTurn {place : Place} {inLoop : Bool} {depth depth' : Nat}
    {table table' : ShapeTable} {ts rest : List Token} {s : Option Stmt}
    (h : (blockTurn place inLoop depth table ts).outcome = .ok (.goesOn s depth' table' rest)) :
    Beyond rest ts := by
  rw [blockTurn] at h
  cases hnext : next? ts with
  | none =>
    rw [hnext] at h
    cases h
  | some r =>
  rw [hnext] at h
  obtain ⟨⟨symbol, p⟩, after, ht⟩ := r
  have hstatement : ∀ t, (statement inLoop table t after >>= fun r =>
        pure (BlockTurn.goesOn r.value.1 depth r.value.2 r.rest)).outcome =
          .ok (.goesOn s depth' table' rest) →
      Beyond rest ts := by
    intro t h
    obtain ⟨r, -, h⟩ := Logged.outcome_bind_eq_ok.1 h
    injection h with h
    injection h with _ _ _ h
    exact h ▸ ht.andPass r.left
  cases symbol with
  | punct mark =>
    cases mark with
    | closeBrace =>
      cases depth with
      | zero => cases h
      | succ depth =>
        cases h
        exact ht
    | openBrace =>
      cases h
      exact ht
    | _ => exact hstatement _ h
  | _ => exact hstatement _ h

theorem ne_eof_of_binary? {s : Symbol} {op : BinaryOp} (h : s.binary? = some op) : s ≠ .eof := by
  rintro rfl
  cases h

/-- Every step takes at least one token, and none behind the first end. -/
theorem Site.Calls.beyond {site next : Site} (h : site.Calls next) :
    Beyond next.tokens site.tokens := by
  have hcons : ∀ (s : Symbol) (p : Position) (ts : List Token), s ≠ .eof →
      Beyond ts (⟨s, p⟩ :: ts) := fun s p ts hs => Beyond.cons hs ts
  cases h with
  | programTurn h => exact beyond_of_programTurn h
  | function | parameters =>
    refine (hcons _ _ _ ?_).andThen ((hcons _ _ _ ?_).andThen (hcons _ _ _ ?_)) <;> simp
  | functionBody h =>
    refine h.choose.andThen ((hcons _ _ _ ?_).andThen (hcons _ _ _ ?_)) <;> simp
  | blockTurn h => exact beyond_of_blockTurn h
  | statement heof _ _ => exact Beyond.cons heof _
  | ifBlock h | whileBlock h | forBlock h | operations h => exact h.choose
  | ifAlternative h h' => exact h.choose.andThen h'.choose
  | elseBlock | elseIfCondition | startValue | incrementValue | arguments | index =>
    refine (hcons _ _ _ ?_).andThen (hcons _ _ _ ?_) <;> simp
  | elseIfBlock h =>
    refine ((hcons _ _ _ ?_).andThen (hcons _ _ _ ?_)).andThen h.choose <;> simp
  | elseIfAlternative h h' =>
    refine ((hcons _ _ _ ?_).andThen (hcons _ _ _ ?_)).andThen (h.choose.andThen h'.choose) <;> simp
  | form | arrayForm | initialValue | elements | forStart | startDeclaration | targetIndex
  | conditionValue | signedOperand | inParentheses => exact hcons _ _ _ (by simp)
  | elementList h _ =>
    refine h.choose.andThen ((hcons _ _ _ ?_).andThen (hcons _ _ _ ?_)) <;> simp
  | elementsTurn h | expressionsTurn h => exact h.choose.andThen (hcons _ _ _ (by simp))
  | forCondition h => exact (hcons _ _ _ (by simp)).andPass h.choose
  | forIncrement h h' =>
    exact ((hcons _ _ _ (by simp)).andPass h.choose).andThen h'.choose
  | assignedValue h => exact h.choose.andThen (hcons _ _ _ (by simp))
  | rightOperand h _ _ => exact Beyond.cons (ne_eof_of_binary? h) _
  | operationsTurn h _ _ h' => exact (Beyond.cons (ne_eof_of_binary? h) _).andThen h'.choose

/-- The parser of a program comes to a place in so many steps that take tokens. -/
inductive Reached (all : List Token) : Nat → Site → Prop
  | start : Reached all 0 (.program all)
  | step {n : Nat} {site next : Site} (h : Reached all n site) (hnext : site.Calls next) :
      Reached all (n + 1) next
  | enter {n : Nat} {site next : Site} (h : Reached all n site) (hnext : site.Enters next) :
      Reached all n next

theorem Reached.left {all : List Token} {n : Nat} {site : Site} (h : Reached all n site) :
    Left site.tokens all := by
  induction h with
  | start => exact Left.refl all
  | step _ hnext ih => exact ih.andPass hnext.beyond.left
  | enter _ hnext ih => exact hnext.tokens_eq ▸ ih

/-- So many steps take at least so many tokens. -/
theorem Reached.le_cursor {all : List Token} {n : Nat} {site : Site} (h : Reached all n site) :
    n ≤ cursor all site.tokens := by
  induction h with
  | start => exact Nat.zero_le _
  | step hsite hnext ih => exact Nat.lt_of_le_of_lt ih (hnext.beyond.cursor_lt hsite.left)
  | enter _ hnext ih => exact hnext.tokens_eq ▸ ih

/-! ## The first end -/

theorem firstEnd_lt_of_mem {ts : List Token} {t : Token} (ht : t ∈ ts) (h : t.symbol = .eof) :
    firstEnd ts < ts.length :=
  List.findIdx_lt_length_of_exists ⟨t, ht, decide_eq_true h⟩

theorem exists_mem_withEnd (ts : List Token) : ∃ t ∈ withEnd ts, t.symbol = .eof := by
  rw [withEnd]
  cases hlast : ts.getLast? with
  | none => exact ⟨_, List.mem_singleton_self _, rfl⟩
  | some t =>
    dsimp only
    split
    next h => exact ⟨t, List.mem_of_getLast? hlast, h⟩
    · exact ⟨_, List.mem_append_right ts (List.mem_singleton_self _), rfl⟩

end Parse

section ThroughEnd

variable {ts : List Token}

theorem throughEnd_of_forall (h : ∀ t ∈ ts, t.symbol ≠ .eof) : throughEnd ts = ts := by
  have hlength := firstEnd_append_of_forall h []
  rw [List.append_nil] at hlength
  rw [throughEnd, hlength]
  exact List.take_of_length_le (by omega)

variable {t : Token} (h : ∀ t ∈ ts, t.symbol ≠ .eof) (ht : t.symbol = .eof) (us : List Token)

include h ht

/-- Tokens with an end are cut off right behind the first. -/
theorem throughEnd_append : throughEnd (ts ++ t :: us) = ts ++ [t] := by
  have hend : firstEnd (t :: us) = 0 := by
    rw [firstEnd, List.findIdx_cons, decide_eq_true ht, cond_true]
  rw [throughEnd, firstEnd_append_of_forall h, hend, List.append_cons]
  exact List.take_left' List.length_append

/-- Nothing behind the first end is seen. -/
theorem seen_append_end (f : String → String) :
    seen f (ts ++ t :: us) = ts.map (Token.blur f) ++ [t] := by
  induction ts with
  | nil => exact seen_of_eof ht us
  | cons t' ts ih =>
    obtain ⟨ht', hts⟩ := List.forall_mem_cons.1 h
    rw [List.cons_append, seen_of_ne ht', ih hts]
    rfl

end ThroughEnd

/-- Nothing is seen of what is cut off behind the first end. -/
theorem alike_throughEnd (f : String → String) (ts : List Token) :
    Alike f (Parse.withEnd ts) (Parse.withEnd (throughEnd ts)) := by
  cases hfind : ts.find? fun t => decide (t.symbol = .eof) with
  | none =>
    rw [throughEnd_of_forall fun t ht => of_decide_eq_false
      (Bool.eq_false_iff.2 (List.find?_eq_none.1 hfind t ht))]
    rfl
  | some t =>
    obtain ⟨ht, before, after, rfl, hbefore⟩ := List.find?_eq_some_iff_append.1 hfind
    have ht : t.symbol = .eof := of_decide_eq_true ht
    have hbefore : ∀ t ∈ before, t.symbol ≠ .eof := by
      intro t ht
      simpa using hbefore t ht
    obtain ⟨vs, hvs, -⟩ := Parse.exists_withEnd_append (before ++ [t]) after
    rw [← List.append_cons, ← List.append_cons] at hvs
    have hcut : Parse.withEnd (before ++ [t]) = before ++ [t] := by
      rw [Parse.withEnd, List.getLast?_concat]
      exact if_pos ht
    rw [Alike, hvs, throughEnd_append hbefore ht, hcut, seen_append_end hbefore ht,
      seen_append_end hbefore ht]

/-- Runs that agree in all texts are the same. -/
theorem AgreesLogged.eq {α : Type} {x y : Logged α} (h : AgreesLogged id Eq x y) : x = y := by
  obtain ⟨log, outcome⟩ := x
  obtain ⟨log', outcome'⟩ := y
  obtain ⟨hlog, houtcome⟩ := h
  have hblur : (Notice.blur id) = id := funext Notice.blur_id
  rw [hblur, List.map_id, List.map_id] at hlog
  cases hlog
  cases houtcome with
  | ok h => rw [h]
  | error h =>
    rw [ParseError.blur_id, ParseError.blur_id] at h
    rw [h]

namespace Program

open Parse (Reached withEnd)

/-- What stands behind the first end makes no difference, neither to the program nor to an error nor
to the notices. -/
theorem ofTokens_throughEnd (ts : List Token) : ofTokens (throughEnd ts) = ofTokens ts := by
  have hsame : Parse.functions (withEnd ts) = Parse.functions (withEnd (throughEnd ts)) :=
    (Parse.agrees_functions (alike_throughEnd id ts)).eq
  rw [ofTokens, ofTokens, hsame]

/-- **The parser makes headway and stops at the first end.** Whatever the tokens are, one of them is
an end once the parser has added one that is missing. Every place that the parser comes to in `n`
steps, down to the operands of an expression, has its cursor at `n` tokens or more, and not behind
the first end. The next turn of a loop, or a call, begins further on, or else at the same token with
a smaller part, and what was called comes back with the cursor no further back, and again not behind
the first end. Reading a program or a block is one turn after the other, and a turn
that does not end the loop takes a token. What stands behind the first end might as well be cut
off. -/
theorem ofTokens_headway (ts : List Token) :
    firstEnd (withEnd ts) < (withEnd ts).length ∧
    (∀ n site, Reached (withEnd ts) n site →
      site.tokens = (withEnd ts).drop (cursor (withEnd ts) site.tokens) ∧
      n ≤ cursor (withEnd ts) site.tokens ∧
      cursor (withEnd ts) site.tokens ≤ firstEnd (withEnd ts) ∧
      (∀ next, site.Calls next →
        cursor (withEnd ts) site.tokens < cursor (withEnd ts) next.tokens) ∧
      (∀ next, site.Enters next →
        cursor (withEnd ts) site.tokens = cursor (withEnd ts) next.tokens ∧
        next.rank < site.rank) ∧
      ∀ rest, site.Leaves rest →
        rest = (withEnd ts).drop (cursor (withEnd ts) rest) ∧
        cursor (withEnd ts) site.tokens ≤ cursor (withEnd ts) rest ∧
        cursor (withEnd ts) rest ≤ firstEnd (withEnd ts)) ∧
    (∀ us, Parse.functions us = Parse.programTurn us >>= Parse.goOnProgram ∧
      ∀ f rest, (Parse.programTurn us).outcome = .ok (some (f, rest)) →
        rest.length < us.length) ∧
    (∀ place inLoop depth table us,
      Parse.bareBlock place inLoop depth table us =
        Parse.blockTurn place inLoop depth table us >>= Parse.goOnBlock place inLoop ∧
      ∀ s depth' table' rest,
        (Parse.blockTurn place inLoop depth table us).outcome =
          .ok (.goesOn s depth' table' rest) → rest.length < us.length) ∧
    ofTokens (throughEnd ts) = ofTokens ts := by
  obtain ⟨t, ht, heof⟩ := Parse.exists_mem_withEnd ts
  refine ⟨Parse.firstEnd_lt_of_mem ht heof, ?_, ?_, ?_, ofTokens_throughEnd ts⟩
  rotate_left
  · intro us
    exact ⟨Parse.functions_eq_turn us, fun f rest h => (Parse.beyond_of_programTurn h).length_lt⟩
  · intro place inLoop depth table us
    exact ⟨Parse.bareBlock_eq_turn place inLoop depth table us,
      fun s depth' table' rest h => (Parse.beyond_of_blockTurn h).length_lt⟩
  intro n site hsite
  obtain ⟨htokens, hcursor⟩ := hsite.left.eq_drop
  refine ⟨htokens, hsite.le_cursor, hcursor, ?_, ?_, ?_⟩
  · intro next hnext
    exact hnext.beyond.cursor_lt hsite.left
  · intro next hnext
    rw [hnext.tokens_eq]
    exact ⟨rfl, hnext.rank_lt⟩
  · intro rest hrest
    obtain ⟨hdrop, hend⟩ := (hsite.left.andPass hrest.left).eq_drop
    exact ⟨hdrop, hrest.left.cursor_le hsite.left, hend⟩

/-- A block of a branch that is cut short by an end in the middle of the tokens: four steps lead
there, to the end and not behind it. As many lead to the operand in the condition of the branch. -/
theorem ofTokens_headway_cut :
    let ts : List Token := [.keyword (.type .int), .name "f", .punct .openParen,
      .punct .closeParen, .punct .openBrace, .keyword .ifKw, .punct .openParen, .number "1",
      .punct .closeParen, .punct .openBrace, .eof, .punct .closeBrace, .punct .closeBrace].map
        fun s => ⟨s, default⟩
    let site : Parse.Site := .block .afterIfBlock false 0 .empty ((withEnd ts).drop 10)
    let inner : Parse.Site := .operand .empty ((withEnd ts).drop 7)
    Reached (withEnd ts) 4 site ∧ 4 ≤ cursor (withEnd ts) site.tokens ∧
      cursor (withEnd ts) site.tokens ≤ firstEnd (withEnd ts) ∧
      Reached (withEnd ts) 4 inner ∧ 4 ≤ cursor (withEnd ts) inner.tokens ∧
      cursor (withEnd ts) inner.tokens ≤ firstEnd (withEnd ts) ∧
      firstEnd (withEnd ts) < (withEnd ts).length ∧
      ofTokens (throughEnd ts) = ofTokens ts := by
  intro ts site inner
  have hfunction : Reached (withEnd ts) 1 (.function .int "f" default ((withEnd ts).drop 3)) :=
    .step .start .function
  have hbody : Reached (withEnd ts) 2 (.block .endOfBody false 0 .empty ((withEnd ts).drop 5)) :=
    .step hfunction (.functionBody ⟨Left.refl _, rfl⟩)
  have hbranch : Reached (withEnd ts) 3
      (.statement false .empty ⟨.keyword .ifKw, default⟩ ((withEnd ts).drop 6)) :=
    .step hbody (.statement (by simp) (by simp) (by simp))
  have hcondition : Reads (Parse.condition .afterIf .afterIfCondition .empty
      ((withEnd ts).drop 6)) (.number "1") ((withEnd ts).drop 10) :=
    ⟨_, by with_unfolding_all rfl⟩
  have hsite : Reached (withEnd ts) 4 site := .step hbranch (.ifBlock hcondition)
  have hinner : Reached (withEnd ts) 4 inner :=
    .enter (.step (.enter hbranch .ifCondition) .conditionValue) .operand
  obtain ⟨hend, hreached, -, -, hcut⟩ := ofTokens_headway ts
  obtain ⟨-, hsteps, hcursor, -⟩ := hreached 4 site hsite
  obtain ⟨-, hsteps', hcursor', -⟩ := hreached 4 inner hinner
  exact ⟨hsite, hsteps, hcursor, hinner, hsteps', hcursor', hend, hcut⟩

end Program

end ClockedC
