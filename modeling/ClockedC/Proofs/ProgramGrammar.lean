import ClockedC.Proofs.ExprGrammar

/-!
# The grammar of programs

For each kind of syntax one relation says which tokens are written for which value. A value that has
a position stands where its first token does, and a function where its name does.

* `DeclarationForm`, `StmtForm` and `BlockForm` are declarations, statements and bodies.
* `FunctionForm` and `ProgramForm` are functions and whole programs.
* `BlockForm.append`: bodies can be put one after the other.
* `Closes` is the part of a body that follows some open braces.
-/

namespace ClockedC

/-- Tokens in parentheses. -/
def parenthesized (p : Position) (ts : List Token) (q : Position) : List Token :=
  ⟨.punct .openParen, p⟩ :: ts ++ [⟨.punct .closeParen, q⟩]

/-- Tokens in braces. -/
def braced (p : Position) (ts : List Token) (q : Position) : List Token :=
  ⟨.punct .openBrace, p⟩ :: ts ++ [⟨.punct .closeBrace, q⟩]

theorem parenthesized_append (p q : Position) (ts rest : List Token) :
    parenthesized p ts q ++ rest =
      ⟨.punct .openParen, p⟩ :: (ts ++ ⟨.punct .closeParen, q⟩ :: rest) := by
  rw [parenthesized, List.append_assoc, List.cons_append, List.singleton_append]

theorem braced_append (p q : Position) (ts rest : List Token) :
    braced p ts q ++ rest = ⟨.punct .openBrace, p⟩ :: (ts ++ ⟨.punct .closeBrace, q⟩ :: rest) := by
  rw [braced, List.append_assoc, List.cons_append, List.singleton_append]

/-! ## Declarations -/

/-- One or more parameters with commas between them. -/
inductive ParametersForm : List Token → List Param → Prop
  | one {type : ScalarType} {n : String} {p q : Position} (htype : type ≠ .void) :
      ParametersForm [⟨.keyword (.type type), p⟩, ⟨.name n, q⟩] [⟨type, n⟩]
  | more {type : ScalarType} {n : String} {p q r : Position} {ts : List Token} {ps : List Param}
      (htype : type ≠ .void) (others : ParametersForm ts ps) :
      ParametersForm (⟨.keyword (.type type), p⟩ :: ⟨.name n, q⟩ :: ⟨.punct .comma, r⟩ :: ts)
        (⟨type, n⟩ :: ps)

/-- The parameters of a function. That there are none may be said by `void`. -/
inductive ParameterListForm : List Token → List Param → Prop
  | empty : ParameterListForm [] []
  | void {p : Position} : ParameterListForm [⟨.keyword (.type .void), p⟩] []
  | some {ts : List Token} {ps : List Param} (h : ParametersForm ts ps) : ParameterListForm ts ps

/-- An element of an array initializer. -/
inductive ElementForm : List Token → Element → Prop
  | number {text : String} {p : Position} : ElementForm [⟨.number text, p⟩] (.number text)
  | negated {text : String} {p q : Position} :
      ElementForm [⟨.operator "-", p⟩, ⟨.number text, q⟩] (.number ("-" ++ text))
  | character {c : Char} {p : Position} : ElementForm [⟨.character c, p⟩] (.character c)
  | name {n : String} {p : Position} : ElementForm [⟨.name n, p⟩] (.name n)

/-- One or more elements with commas between them. -/
inductive ElementsForm : List Token → List Element → Prop
  | one {ts : List Token} {e : Element} (h : ElementForm ts e) : ElementsForm ts [e]
  | more {ts us : List Token} {e : Element} {es : List Element} {p : Position}
      (first : ElementForm ts e) (others : ElementsForm us es) :
      ElementsForm (ts ++ ⟨.punct .comma, p⟩ :: us) (e :: es)

/-- An array initializer, which may be empty. -/
inductive ElementListForm : List Token → List Element → Prop
  | empty {p q : Position} : ElementListForm (braced p [] q) []
  | some {ts : List Token} {es : List Element} {p q : Position} (h : ElementsForm ts es) :
      ElementListForm (braced p ts q) es

/-- What stands between the name that is declared and the semicolon. -/
inductive InitForm : List Token → Form → Prop
  | scalar : InitForm [] (.scalar none)
  | value {ts : List Token} {e : Expr} {p : Position} (h : ExprAt BinaryOp.loosest ts e) :
      InitForm (⟨.operator "=", p⟩ :: ts) (.scalar (some e))
  | array {text : String} {size : Nat} {p q r : Position} (hsize : unsigned64? text = some size) :
      InitForm [⟨.punct .openBracket, p⟩, ⟨.number text, q⟩, ⟨.punct .closeBracket, r⟩]
        (.array size none)
  | elements {text : String} {size : Nat} {ts : List Token} {es : List Element}
      {p q r s : Position} (hsize : unsigned64? text = some size) (h : ElementListForm ts es) :
      InitForm (⟨.punct .openBracket, p⟩ :: ⟨.number text, q⟩ :: ⟨.punct .closeBracket, r⟩ ::
        ⟨.operator "=", s⟩ :: ts) (.array size (some es))

/-- The declaration of a local variable. -/
inductive DeclarationForm : List Token → Declaration → Prop
  | mk {type : ScalarType} {n : String} {ts : List Token} {form : Form} {p q r : Position}
      (htype : type ≠ .void) (h : InitForm ts form) :
      DeclarationForm
        (⟨.keyword (.type type), p⟩ :: ⟨.name n, q⟩ :: (ts ++ [⟨.punct .semicolon, r⟩]))
        ⟨n, type, form, p⟩

/-! ## Statements -/

/-- An assignment, without the semicolon after it. -/
inductive AssignmentForm : List Token → Assignment → Prop
  | name {n : String} {ts : List Token} {e : Expr} {p q : Position}
      (value : ExprAt BinaryOp.loosest ts e) :
      AssignmentForm (⟨.name n, p⟩ :: ⟨.operator "=", q⟩ :: ts) ⟨.name n, e, p⟩
  | element {n : String} {ts us : List Token} {i e : Expr} {p q r s : Position}
      (index : ExprAt BinaryOp.loosest ts i) (value : ExprAt BinaryOp.loosest us e) :
      AssignmentForm (⟨.name n, p⟩ :: ⟨.punct .openBracket, q⟩ :: (ts ++
        ⟨.punct .closeBracket, r⟩ :: ⟨.operator "=", s⟩ :: us)) ⟨.element n i (spelled ts), e, p⟩

/-- What a `for` loop does before its first round, with the semicolon after it. An assignment there
is one to a name. -/
inductive ForStartForm : List Token → Option ForStart → Prop
  | nothing {p : Position} : ForStartForm [⟨.punct .semicolon, p⟩] none
  | declare {ts : List Token} {d : Declaration} (h : DeclarationForm ts d) :
      ForStartForm ts (some (.declare d))
  | assign {n : String} {ts : List Token} {e : Expr} {p q r : Position}
      (value : ExprAt BinaryOp.loosest ts e) :
      ForStartForm (⟨.name n, p⟩ :: ⟨.operator "=", q⟩ :: (ts ++ [⟨.punct .semicolon, r⟩]))
        (some (.assign ⟨.name n, e, p⟩))

/-- The condition of a `for` loop, with the semicolon after it. No condition stands for `1`. -/
inductive ForConditionForm : List Token → Expr → Prop
  | always {p : Position} : ForConditionForm [⟨.punct .semicolon, p⟩] (.number "1")
  | expr {ts : List Token} {e : Expr} {p : Position} (h : ExprAt BinaryOp.loosest ts e) :
      ForConditionForm (ts ++ [⟨.punct .semicolon, p⟩]) e

/-- The step of a name up or down by one. -/
def stepAssignment (n : String) (op : BinaryOp) (p : Position) : Assignment :=
  ⟨.name n, .binary op (.name n) (.number "1"), p⟩

/-- The operators that step a name up and down by one, and the operation that each stands for. -/
inductive StepSpelling : String → BinaryOp → Prop
  | up : StepSpelling "++" .add
  | down : StepSpelling "--" .sub

/-- The operation that a step stands for could have been written as such. -/
theorem StepSpelling.exprAt {spelling : String} {op : BinaryOp} (h : StepSpelling spelling op)
    (n : String) (p q r : Position) :
    ExprAt BinaryOp.loosest [⟨.name n, p⟩, ⟨.operator op.spelling, q⟩, ⟨.number "1", r⟩]
      (.binary op (.name n) (.number "1")) := by
  have hop : op.level + 1 ≤ operandLevel ∧ BinaryOp.loosest ≤ op.level := by
    cases h <;> decide
  have hleft : ExprAt op.level [⟨.name n, p⟩] (.name n) :=
    ExprAt.name.loosen (by omega) (by omega)
  have hright : ExprAt (op.level + 1) [⟨.number "1", r⟩] (.number "1") :=
    ExprAt.number.loosen hop.1 (by omega)
  exact (ExprAt.binary rfl hleft hright).loosen hop.2 (by omega)

/-- What a `for` loop does after each round. -/
inductive ForIncrementForm : List Token → Option Assignment → Prop
  | nothing : ForIncrementForm [] none
  | stepAfter {n spelling : String} {op : BinaryOp} {p q : Position}
      (hstep : StepSpelling spelling op) :
      ForIncrementForm [⟨.name n, p⟩, ⟨.operator spelling, q⟩] (some (stepAssignment n op p))
  | stepBefore {n spelling : String} {op : BinaryOp} {p q : Position}
      (hstep : StepSpelling spelling op) :
      ForIncrementForm [⟨.operator spelling, p⟩, ⟨.name n, q⟩] (some (stepAssignment n op p))
  | assign {n : String} {ts : List Token} {e : Expr} {p q : Position}
      (value : ExprAt BinaryOp.loosest ts e) :
      ForIncrementForm (⟨.name n, p⟩ :: ⟨.operator "=", q⟩ :: ts) (some ⟨.name n, e, p⟩)

/-- The value that is returned, which may be absent. -/
inductive ReturnedForm : List Token → Option Expr → Prop
  | nothing : ReturnedForm [] none
  | value {ts : List Token} {e : Expr} (h : ExprAt BinaryOp.loosest ts e) :
      ReturnedForm ts (some e)

mutual

/-- A statement. -/
inductive StmtForm : List Token → Stmt → Prop
  | declare {ts : List Token} {d : Declaration} (h : DeclarationForm ts d) :
      StmtForm ts (.declare d)
  | assign {ts : List Token} {a : Assignment} {p : Position} (h : AssignmentForm ts a) :
      StmtForm (ts ++ [⟨.punct .semicolon, p⟩]) (.assign a)
  | ret {ts : List Token} {value : Option Expr} {p q : Position} (h : ReturnedForm ts value) :
      StmtForm (⟨.keyword .returnKw, p⟩ :: (ts ++ [⟨.punct .semicolon, q⟩])) (.ret value p)
  | branch {c b a : List Token} {e : Expr} {ss : Block} {alt : Alternative}
      {p q r s t : Position} (condition : ExprAt BinaryOp.loosest c e) (body : BlockForm b ss)
      (otherwise : AlternativeForm a alt) :
      StmtForm (⟨.keyword .ifKw, p⟩ :: (parenthesized q c r ++ (braced s b t ++ a)))
        (.branch e ss alt p)
  | whileLoop {c b : List Token} {e : Expr} {ss : Block} {p q r s t : Position}
      (condition : ExprAt BinaryOp.loosest c e) (body : BlockForm b ss) :
      StmtForm (⟨.keyword .whileKw, p⟩ :: (parenthesized q c r ++ braced s b t))
        (.whileLoop e ss p)
  | forLoop {i c n b : List Token} {init : Option ForStart} {e : Expr}
      {inc : Option Assignment} {ss : Block} {p q r s t : Position}
      (start : ForStartForm i init) (condition : ForConditionForm c e)
      (increment : ForIncrementForm n inc) (body : BlockForm b ss) :
      StmtForm (⟨.keyword .forKw, p⟩ :: (parenthesized q (i ++ (c ++ n)) r ++ braced s b t))
        (.forLoop init e ss inc p)
  | jump {j : Jump} {p q : Position} :
      StmtForm [⟨.keyword (.jump j), p⟩, ⟨.punct .semicolon, q⟩] (.jump j p)

/-- What follows the body of a branch. -/
inductive AlternativeForm : List Token → Alternative → Prop
  | none : AlternativeForm [] .none
  | body {b : List Token} {ss : Block} {p q r : Position} (body : BlockForm b ss) :
      AlternativeForm (⟨.keyword .elseKw, p⟩ :: braced q b r) (.body ss)
  | branch {c b a : List Token} {e : Expr} {ss : Block} {alt : Alternative}
      {p q r s t u : Position} (condition : ExprAt BinaryOp.loosest c e) (body : BlockForm b ss)
      (otherwise : AlternativeForm a alt) :
      AlternativeForm (⟨.keyword .elseKw, p⟩ :: ⟨.keyword .ifKw, q⟩ ::
        (parenthesized r c s ++ (braced t b u ++ a))) (.branch e ss alt p)

/-- The statements of a body, without the braces around it. Braces inside of it are balanced and
group nothing. -/
inductive BlockForm : List Token → Block → Prop
  | nil : BlockForm [] []
  | stmt {ts us : List Token} {s : Stmt} {ss : Block} (first : StmtForm ts s)
      (others : BlockForm us ss) : BlockForm (ts ++ us) (s :: ss)
  | braces {ts us : List Token} {ss ss' : Block} {p q : Position} (inner : BlockForm ts ss)
      (others : BlockForm us ss') : BlockForm (braced p ts q ++ us) (ss ++ ss')

end

/-! ## Programs -/

/-- A function definition. -/
inductive FunctionForm : List Token → Function → Prop
  | mk {returns : ScalarType} {n : String} {a b : List Token} {params : List Param} {ss : Block}
      {p q r s t u : Position} (parameters : ParameterListForm a params)
      (body : BlockForm b ss) :
      FunctionForm (⟨.keyword (.type returns), p⟩ :: ⟨.name n, q⟩ ::
        (parenthesized r a s ++ braced t b u)) ⟨n, returns, params, ss, q⟩

/-- Function definitions one after the other. -/
inductive ProgramForm : List Token → List Function → Prop
  | nil : ProgramForm [] []
  | cons {ts us : List Token} {f : Function} {fs : List Function} (first : FunctionForm ts f)
      (others : ProgramForm us fs) : ProgramForm (ts ++ us) (f :: fs)

/-! ## Bodies in parts -/

theorem BlockForm.append : ∀ {ts us : List Token} {ss ss' : Block}, BlockForm ts ss →
    BlockForm us ss' → BlockForm (ts ++ us) (ss ++ ss')
  | _, _, _, _, .nil, h' => h'
  | _, _, _, _, .stmt first others, h' => by
    rw [List.append_assoc, List.cons_append]
    exact .stmt first (others.append h')
  | _, _, _, _, .braces inner others, h' => by
    rw [List.append_assoc, List.append_assoc]
    exact .braces inner (others.append h')

/-- The rest of a body in which `depth` braces are open, with the brace that closes the body. -/
inductive Closes : (depth : Nat) → List Token → Block → Prop
  | last {ts : List Token} {ss : Block} {p : Position} (h : BlockForm ts ss) :
      Closes 0 (ts ++ [⟨.punct .closeBrace, p⟩]) ss
  | more {depth : Nat} {ts us : List Token} {ss ss' : Block} {p : Position} (h : BlockForm ts ss)
      (others : Closes depth us ss') :
      Closes (depth + 1) (ts ++ ⟨.punct .closeBrace, p⟩ :: us) (ss ++ ss')

theorem Closes.append {depth : Nat} {ts us : List Token} {ss ss' : Block} (h : BlockForm ts ss)
    (h' : Closes depth us ss') : Closes depth (ts ++ us) (ss ++ ss') := by
  cases h' with
  | last hlast =>
    rw [← List.append_assoc]
    exact .last (h.append hlast)
  | more hmore others =>
    rw [← List.append_assoc, ← List.append_assoc]
    exact .more (h.append hmore) others

theorem Closes.stmt {depth : Nat} {ts us : List Token} {s : Stmt} {ss : Block}
    (first : StmtForm ts s) (others : Closes depth us ss) :
    Closes depth (ts ++ us) (s :: ss) := by
  have h := Closes.append (.stmt first .nil) others
  rwa [List.append_nil] at h

theorem Closes.braces {depth : Nat} {ts us : List Token} {ss ss' : Block} (p q : Position)
    (inner : BlockForm ts ss) (others : Closes depth us ss') :
    Closes depth (braced p ts q ++ us) (ss ++ ss') := by
  have h := Closes.append (@BlockForm.braces _ _ _ _ p q inner .nil) others
  rwa [List.append_nil, List.append_nil] at h

/-- No statement begins with `else` or with a brace. -/
theorem StmtForm.opens {ts : List Token} {s : Stmt} (h : StmtForm ts s) :
    ∃ t us, ts = t :: us ∧ t.symbol ≠ .eof ∧ t.symbol ≠ .keyword .elseKw ∧
      t.symbol ≠ .punct .openBrace ∧ t.symbol ≠ .punct .closeBrace := by
  cases h with
  | declare h =>
    cases h
    exact ⟨_, _, rfl, nofun, nofun, nofun, nofun⟩
  | assign h =>
    cases h
    all_goals exact ⟨_, _, rfl, nofun, nofun, nofun, nofun⟩
  | ret | branch | whileLoop | forLoop | jump =>
    exact ⟨_, _, rfl, nofun, nofun, nofun, nofun⟩

/-- An `else` after a body does not come from the body. -/
theorem BlockForm.symbol_append_ne_else {ts rest : List Token} {ss : Block} (h : BlockForm ts ss)
    (hrest : Cursor.symbol rest ≠ .keyword .elseKw) :
    Cursor.symbol (ts ++ rest) ≠ .keyword .elseKw := by
  cases h with
  | nil => exact hrest
  | stmt first others =>
    obtain ⟨t, us, rfl, -, helse, -⟩ := first.opens
    exact helse
  | braces inner others => exact nofun

end ClockedC
