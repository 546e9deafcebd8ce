import ClockedC.Proofs.ConstantIndices
import ClockedC.Proofs.Lexemes

/-!
# The expressions of a source

Whatever is left out in reading a source, the expressions that are read are written in its tokens.
Two things are not taken from the source, but could have been written as such: the operation that
steps the name of a loop, and the condition of a loop that has none.

* `Symbol.Lexed`: a symbol is one that a text can have.
* `Expr.Scanned` and `Access.Scanned`: an expression and an access are written in such symbols.
* `BlockRead.scanned`: so are the expressions and the accesses of a body that was read.
* `Program.scanned_of_ofSource`: and those of all functions of a source.
-/

namespace ClockedC

/-! ## Tokens -/

/-- A symbol is the end of a text, or it has a lexeme. -/
def Symbol.Lexed (s : Symbol) : Prop :=
  s = .eof ∨ ∃ x, Scan.Lexeme x s

theorem Symbol.Lexed.spelled {s : Symbol} (h : s.Lexed) : s.Spelled := by
  rcases h with rfl | ⟨x, hx⟩
  · exact trivial
  · cases hx with
    | number h | name h =>
      rw [Symbol.Spelled, String.toList_ofList]
      exact h
    | keyword | operator | punct | string | character | escape => exact trivial

theorem Scan.Covers.lexed {before text : List Char} {ts : List Token} (h : Covers before text ts) :
    ∀ t ∈ ts, t.symbol.Lexed := by
  induction h with
  | done => exact List.forall_mem_singleton.2 (.inl rfl)
  | token _ _ lexeme _ _ ih => exact List.forall_mem_cons.2 ⟨.inr ⟨_, lexeme⟩, ih⟩

theorem lexed_of_scan {source : String} {ts : List Token} (h : scan source = .ok ts) :
    ∀ t ∈ Parse.withEnd ts, t.symbol.Lexed := by
  have hcovers : Scan.Covers [] source.toList ts := Scan.covers_of_tokens rfl h
  have hts := hcovers.lexed
  unfold Parse.withEnd
  split
  · exact List.forall_mem_singleton.2 (.inl rfl)
  · split
    · exact hts
    · exact List.forall_mem_append.2 ⟨hts, List.forall_mem_singleton.2 (.inl rfl)⟩

/-! ## Expressions and accesses -/

/-- An expression is written in symbols that a text can have. -/
def Expr.Scanned (e : Expr) : Prop :=
  ∃ ts, ExprAt BinaryOp.loosest ts e ∧ ∀ t ∈ ts, t.symbol.Lexed

/-- The index of an access is written in symbols that a text can have, and its text tells which. -/
def Access.Scanned (a : Access) : Prop :=
  ∃ ts, ExprAt BinaryOp.loosest ts a.index ∧ a.text = spelled ts ∧ ∀ t ∈ ts, t.symbol.Lexed

mutual

theorem ExprAt.accesses_scanned : ∀ {k : Nat} {ts : List Token} {e : Expr}, ExprAt k ts e →
    (∀ t ∈ ts, t.symbol.Lexed) → ∀ a ∈ e.accesses, a.Scanned
  | _, _, _, .tighter _ h, hts => h.accesses_scanned hts
  | _, _, _, .binary _ left right, hts => by
    simp only [List.forall_mem_append, List.forall_mem_cons] at hts
    exact List.forall_mem_append.2 ⟨left.accesses_scanned hts.1, right.accesses_scanned hts.2.2⟩
  | _, _, _, .unary operand, hts => operand.accesses_scanned (List.forall_mem_cons.1 hts).2
  | _, _, _, .parens inner, hts => by
    simp only [List.forall_mem_append, List.forall_mem_cons] at hts
    exact inner.accesses_scanned hts.1.2
  | _, _, _, .number, _ | _, _, _, .character, _ | _, _, _, .name, _ | _, _, _, .constant, _ =>
    List.forall_mem_nil _
  | _, _, _, .call args, hts => by
    simp only [List.forall_mem_append, List.forall_mem_cons] at hts
    exact args.accesses_scanned hts.1.2.2
  | _, _, _, .element index, hts => by
    simp only [List.forall_mem_append, List.forall_mem_cons] at hts
    have hindex := hts.1.2.2
    exact List.forall_mem_cons.2 ⟨⟨_, index, rfl, hindex⟩, index.accesses_scanned hindex⟩

theorem ArgumentsAt.accesses_scanned : ∀ {ts : List Token} {es : List Expr}, ArgumentsAt ts es →
    (∀ t ∈ ts, t.symbol.Lexed) → ∀ a ∈ Expr.accessesOfList es, a.Scanned
  | _, _, .one h, hts =>
    List.forall_mem_append.2 ⟨h.accesses_scanned hts, List.forall_mem_nil _⟩
  | _, _, .more first others, hts => by
    simp only [List.forall_mem_append, List.forall_mem_cons] at hts
    exact List.forall_mem_append.2
      ⟨first.accesses_scanned hts.1, others.accesses_scanned hts.2.2⟩

end

theorem scanned_one : (Expr.number "1").Scanned := by
  refine ⟨[⟨.number "1", default⟩], ExprAt.number.loosen (by decide) (by decide), ?_⟩
  exact List.forall_mem_singleton.2 (.inr ⟨_, .number (.whole (by decide) (by decide))⟩)

theorem scanned_step {n spelling : String} {op : BinaryOp} (hn : (Symbol.name n).Lexed)
    (hstep : StepSpelling spelling op) : (Expr.binary op (.name n) (.number "1")).Scanned := by
  have hop : op.spelling ∈ Scan.operators := by
    cases hstep <;> decide
  refine ⟨_, hstep.exprAt n default default default, ?_⟩
  simp only [List.forall_mem_cons]
  exact ⟨hn, .inr ⟨_, .operator hop⟩, .inr ⟨_, .number (.whole (by decide) (by decide))⟩,
    List.forall_mem_nil _⟩

/-! ## Statements -/

/-- The expressions and the accesses of some statements are written in symbols that a text can
have. -/
structure StatementsScanned (es : List Expr) (rs : List Remark) : Prop where
  expressions : ∀ e ∈ es, e.Scanned
  accesses : ∀ a, .accessed a ∈ rs → a.Scanned

namespace StatementsScanned

theorem nil : StatementsScanned [] [] :=
  ⟨List.forall_mem_nil _, fun _ h => absurd h List.not_mem_nil⟩

theorem append {es es' : List Expr} {rs rs' : List Remark} (h : StatementsScanned es rs)
    (h' : StatementsScanned es' rs') : StatementsScanned (es ++ es') (rs ++ rs') := by
  refine ⟨List.forall_mem_append.2 ⟨h.expressions, h'.expressions⟩, ?_⟩
  intro a ha
  rcases List.mem_append.1 ha with ha | ha
  · exact h.accesses a ha
  · exact h'.accesses a ha

theorem expr {ts : List Token} {e : Expr} (h : ExprAt BinaryOp.loosest ts e)
    (hts : ∀ t ∈ ts, t.symbol.Lexed) : StatementsScanned [e] e.remarks := by
  refine ⟨List.forall_mem_singleton.2 ⟨ts, h, hts⟩, ?_⟩
  intro a ha
  obtain ⟨a', ha', heq⟩ := List.mem_map.1 ha
  cases heq
  exact h.accesses_scanned hts _ ha'

/-- An expression that comes first. -/
theorem cons {ts : List Token} {e : Expr} {es : List Expr} {rs : List Remark}
    (h : ExprAt BinaryOp.loosest ts e) (hts : ∀ t ∈ ts, t.symbol.Lexed)
    (others : StatementsScanned es rs) : StatementsScanned (e :: es) (e.remarks ++ rs) :=
  (expr h hts).append others

end StatementsScanned

theorem DeclarationForm.scanned {ts : List Token} {d : Declaration} (h : DeclarationForm ts d)
    (hts : ∀ t ∈ ts, t.symbol.Lexed) : StatementsScanned d.expressions d.remarks := by
  cases h with
  | mk _ hinit =>
    simp only [List.forall_mem_append, List.forall_mem_cons] at hts
    cases hinit with
    | value he =>
      obtain ⟨hexpressions, haccesses⟩ :=
        StatementsScanned.expr he (List.forall_mem_cons.1 hts.2.2.1).2
      refine ⟨hexpressions, fun a ha => ?_⟩
      rcases List.mem_cons.1 ha with heq | ha
      · cases heq
      · exact haccesses a (by simpa [Declaration.expressions] using ha)
    | scalar | array | elements =>
      refine ⟨List.forall_mem_nil _, fun a ha => ?_⟩
      cases List.mem_singleton.1 ha

theorem AssignmentForm.scanned {ts : List Token} {a : Assignment} (h : AssignmentForm ts a)
    (hts : ∀ t ∈ ts, t.symbol.Lexed) : StatementsScanned a.expressions a.remarks := by
  cases h with
  | name value =>
    simp only [List.forall_mem_cons] at hts
    exact .expr value hts.2.2
  | element index value =>
    simp only [List.forall_mem_append, List.forall_mem_cons] at hts
    have hindex := StatementsScanned.expr index hts.2.2.1
    refine StatementsScanned.append ⟨hindex.expressions, ?_⟩ (.expr value hts.2.2.2.2.2)
    intro a ha
    rcases List.mem_cons.1 ha with heq | ha
    · cases heq
      exact ⟨_, index, rfl, hts.2.2.1⟩
    · exact hindex.accesses a ha

theorem ForStartRead.scanned {ts : List Token} {o : List (List Token)} {init : Option ForStart}
    (h : ForStartRead ts o init) (hts : ∀ t ∈ ts, t.symbol.Lexed) :
    StatementsScanned ((init.map ForStart.expressions).getD [])
      ((init.map ForStart.remarks).getD []) := by
  cases h with
  | leftOut => exact .nil
  | form h =>
    cases h with
    | nothing => exact .nil
    | declare h => exact h.scanned hts
    | assign value =>
      simp only [List.forall_mem_append, List.forall_mem_cons] at hts
      exact .expr value hts.2.2.1

theorem ForConditionForm.scanned {ts : List Token} {e : Expr} (h : ForConditionForm ts e)
    (hts : ∀ t ∈ ts, t.symbol.Lexed) : StatementsScanned [e] e.remarks := by
  cases h with
  | always =>
    obtain ⟨us, hus, hlexed⟩ := scanned_one
    exact .expr hus hlexed
  | expr h => exact .expr h (List.forall_mem_append.1 hts).1

theorem ForIncrementRead.scanned {ts : List Token} {o : List (List Token)}
    {increment : Option Assignment} (h : ForIncrementRead ts o increment)
    (hts : ∀ t ∈ ts, t.symbol.Lexed) :
    StatementsScanned ((increment.map Assignment.expressions).getD [])
      ((increment.map Assignment.remarks).getD []) := by
  cases h with
  | leftOut => exact .nil
  | form h =>
    cases h with
    | nothing => exact .nil
    | stepAfter hstep =>
      obtain ⟨us, hus, hlexed⟩ := scanned_step (List.forall_mem_cons.1 hts).1 hstep
      exact .expr hus hlexed
    | stepBefore hstep =>
      have hn := (List.forall_mem_cons.1 (List.forall_mem_cons.1 hts).2).1
      obtain ⟨us, hus, hlexed⟩ := scanned_step hn hstep
      exact .expr hus hlexed
    | assign value =>
      simp only [List.forall_mem_cons] at hts
      exact .expr value hts.2.2

mutual

theorem StmtRead.scanned : ∀ {ts : List Token} {o : List (List Token)} {s : Stmt},
    StmtRead ts o s → (∀ t ∈ ts, t.symbol.Lexed) → StatementsScanned s.expressions s.remarks
  | _, _, _, .declare h, hts => h.scanned hts
  | _, _, _, .assign h, hts => h.scanned (List.forall_mem_append.1 hts).1
  | _, _, _, .ret .nothing, _ => .nil
  | _, _, _, .ret (.value h), hts => by
    simp only [List.forall_mem_append, List.forall_mem_cons] at hts
    exact .expr h hts.2.1
  | _, _, _, .branch condition body otherwise, hts => by
    simp only [parenthesized, List.forall_mem_append, List.forall_mem_cons] at hts
    obtain ⟨-, ⟨⟨-, hcondition⟩, -⟩, -, hbody, hotherwise⟩ := hts
    exact .cons condition hcondition
      ((body.scanned hbody).append (otherwise.scanned hotherwise))
  | _, _, _, .whileLoop condition body, hts => by
    simp only [parenthesized, List.forall_mem_append, List.forall_mem_cons] at hts
    obtain ⟨-, ⟨⟨-, hcondition⟩, -⟩, -, hbody⟩ := hts
    exact .cons condition hcondition (body.scanned hbody)
  | _, _, _, .forLoop start condition increment body, hts => by
    simp only [parenthesized, List.forall_mem_append, List.forall_mem_cons] at hts
    obtain ⟨-, ⟨⟨-, hstart, hcondition, hincrement⟩, -⟩, -, hbody⟩ := hts
    have hparts := (start.scanned hstart).append ((condition.scanned hcondition).append
      ((increment.scanned hincrement).append (body.scanned hbody)))
    -- the increment is written before the body and carried out after it
    refine ⟨fun e he => hparts.expressions e ?_, hparts.accesses⟩
    simp only [Stmt.expressions, List.mem_append, List.mem_cons] at he
    simp only [List.mem_append, List.mem_cons]
    grind
  | _, _, _, .jump, _ => .nil

theorem AlternativeRead.scanned : ∀ {ts : List Token} {o : List (List Token)} {a : Alternative},
    AlternativeRead ts o a → (∀ t ∈ ts, t.symbol.Lexed) →
      StatementsScanned a.expressions a.remarks
  | _, _, _, .none, _ => .nil
  | _, _, _, .body body, hts => by
    simp only [List.forall_mem_cons] at hts
    exact body.scanned hts.2.2
  | _, _, _, .branch condition body otherwise, hts => by
    simp only [parenthesized, List.forall_mem_append, List.forall_mem_cons] at hts
    obtain ⟨-, -, ⟨⟨-, hcondition⟩, -⟩, -, hbody, hotherwise⟩ := hts
    exact .cons condition hcondition
      ((body.scanned hbody).append (otherwise.scanned hotherwise))

/-- The expressions and the accesses of a body that was read are written in its tokens. -/
theorem BlockRead.scanned : ∀ {depth : Nat} {ts : List Token} {o : List (List Token)} {ss : Block},
    BlockRead depth ts o ss → (∀ t ∈ ts, t.symbol.Lexed) →
      StatementsScanned (Block.expressions ss) (Block.remarks ss)
  | _, _, _, _, .last, _ => .nil
  | _, _, _, _, .close others, hts | _, _, _, _, .open others, hts =>
    others.scanned (List.forall_mem_cons.1 hts).2
  | _, _, _, _, .stmt first others, hts => by
    obtain ⟨hfirst, hothers⟩ := List.forall_mem_append.1 hts
    exact (first.scanned hfirst).append (others.scanned hothers)
  | _, _, _, _, .leftOut _ others, hts => others.scanned (List.forall_mem_append.1 hts).2

end

/-- The expressions and the accesses of a source are written in symbols that a text can have. -/
theorem Program.scanned_of_ofSource {source : String} {program : Program} {f : Function}
    (h : (Program.ofSource source).outcome = .ok program) (hf : f ∈ program.functions) :
    StatementsScanned (Block.expressions f.body) (Block.remarks f.body) := by
  obtain ⟨ts, hscan, hread⟩ := Program.readFrom_of_ofSource h
  obtain ⟨taken, o, htaken, hbody⟩ := (hread f hf).body
  exact hbody.scanned fun t ht => lexed_of_scan hscan t (htaken ht)

end ClockedC
