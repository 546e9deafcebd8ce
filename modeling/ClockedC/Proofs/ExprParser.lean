import ClockedC.Proofs.ExprGrammar

/-!
# Reading expressions by their grammar

The parser of expressions climbs: it reads an operand, and as long as an operator of at least the
level asked for comes next it reads everything that binds tighter than this operator as the right
operand. This file shows that it reads exactly the expressions of the layered grammar.

* `expression_sound`: what is read at a level is an expression of that level.
* `ExprAt.climbs`: an expression of a level is read at that level and at each lower one.
* `ExprAt.unique`: a token sequence stands for one expression at most.
* `reads_value_iff`: a whole expression is read if and only if the grammar derives it.
* `reads_index_scanned`: the count of brackets and the reader of an index stop at the same token.
-/

namespace ClockedC

namespace Parse

open Cursor

/-! ## The parsers one step at a time -/

section Steps

variable {table : ShapeTable} {ts rest : List Token}

theorem reads_operand_number {text : String} {p : Position} {e : Expr} :
    Reads (operand table (⟨.number text, p⟩ :: ts)) e rest ↔ e = .number text ∧ rest = ts := by
  rw [operand, next?_cons (t := ⟨.number text, p⟩) (by simp)]
  exact reads_ok

theorem reads_operand_character {c : Char} {p : Position} {e : Expr} :
    Reads (operand table (⟨.character c, p⟩ :: ts)) e rest ↔
      e = .number (toString c.toNat) ∧ rest = ts := by
  rw [operand, next?_cons (t := ⟨.character c, p⟩) (by simp)]
  exact reads_ok

theorem reads_operand_operator {spelling : String} {p : Position} {e : Expr} :
    Reads (operand table (⟨.operator spelling, p⟩ :: ts)) e rest ↔
      ∃ op e', spelling = op.spelling ∧ e = .unary op e' ∧ Reads (operand table ts) e' rest := by
  rw [operand, next?_cons (t := ⟨.operator spelling, p⟩) (by simp)]
  dsimp only
  cases hop : UnaryOp.ofSpelling? spelling with
  | none =>
    constructor
    · intro hread
      exact absurd hread not_reads_error
    · rintro ⟨op, e', rfl, -, -⟩
      rw [UnaryOp.ofSpelling?_spelling] at hop
      cases hop
  | some op =>
    simp only [reads_bind, Read.exists, reads_pure]
    constructor
    · rintro ⟨e', mid, h, hread, rfl, rfl⟩
      exact ⟨op, e', UnaryOp.ofSpelling?_eq_some.1 hop, rfl, h, hread⟩
    · rintro ⟨op', e', hspelling, rfl, h, hread⟩
      rw [UnaryOp.ofSpelling?_eq_some.2 hspelling] at hop
      cases hop
      exact ⟨e', rest, h, hread, rfl, rfl⟩

theorem reads_operand_openParen {p : Position} {e : Expr} :
    Reads (operand table (⟨.punct .openParen, p⟩ :: ts)) e rest ↔
      ∃ q, Reads (expression table BinaryOp.loosest ts) e (⟨.punct .closeParen, q⟩ :: rest) := by
  rw [operand, next?_cons (t := ⟨.punct .openParen, p⟩) (by simp)]
  simp only [reads_bind, Read.exists, reads_pure]
  constructor
  · rintro ⟨e', mid, h, hread, u, mid', h', hclose, rfl, rfl⟩
    obtain ⟨q, rfl⟩ := reads_expect.1 ⟨h', hclose⟩
    exact ⟨q, h, hread⟩
  · rintro ⟨q, h, hread⟩
    obtain ⟨h', hclose⟩ := reads_expect.2 ⟨q, rfl⟩
    exact ⟨e, _, h, hread, (), rest, h', hclose, rfl, rfl⟩

theorem reads_operand_call {n : String} {p q : Position} {e : Expr} :
    Reads (operand table (⟨.name n, p⟩ :: ⟨.punct .openParen, q⟩ :: ts)) e rest ↔
      ∃ args, e = .call n args none p ∧ Reads (arguments table n ts) args rest := by
  rw [operand, next?_cons (t := ⟨.name n, p⟩) (by simp)]
  dsimp only
  rw [accept_punct]
  simp only [reads_bind, Read.exists, reads_pure]
  constructor
  · rintro ⟨args, mid, h, hread, rfl, rfl⟩
    exact ⟨args, rfl, h, hread⟩
  · rintro ⟨args, rfl, h, hread⟩
    exact ⟨args, rest, h, hread, rfl, rfl⟩

theorem reads_operand_element {n : String} {p q : Position} {e : Expr} :
    Reads (operand table (⟨.name n, p⟩ :: ⟨.punct .openBracket, q⟩ :: ts)) e rest ↔
      ∃ i text, e = .element n i text ∧ Reads (index table n q.line ts) (i, text) rest := by
  rw [operand, next?_cons (t := ⟨.name n, p⟩) (by simp)]
  dsimp only
  rw [accept_eq_none (by simp), accept_punct]
  simp only [reads_bind, Read.exists, Prod.exists, reads_pure]
  constructor
  · rintro ⟨i, text, mid, h, hread, rfl, rfl⟩
    exact ⟨i, text, rfl, h, hread⟩
  · rintro ⟨i, text, rfl, h, hread⟩
    exact ⟨i, text, rest, h, hread, rfl, rfl⟩

theorem reads_operand_name {n : String} {p : Position} {e : Expr}
    (hparen : symbol ts ≠ .punct .openParen) (hbracket : symbol ts ≠ .punct .openBracket) :
    Reads (operand table (⟨.name n, p⟩ :: ts)) e rest ↔ e = .name n ∧ rest = ts := by
  rw [operand, next?_cons (t := ⟨.name n, p⟩) (by simp)]
  dsimp only
  rw [accept_eq_none hparen, accept_eq_none hbracket]
  exact reads_ok

/-- An operand is read only where one can begin. -/
theorem opensOperand_of_reads {e : Expr} (h : Reads (operand table ts) e rest) :
    ∃ t us, ts = t :: us ∧ t.symbol.opensOperand = true := by
  rw [operand] at h
  cases ts with
  | nil => exact absurd h not_reads_error
  | cons t us =>
    refine ⟨t, us, rfl, ?_⟩
    obtain ⟨s, p⟩ := t
    cases s with
    | number | character | name => rfl
    | operator spelling =>
      cases hop : UnaryOp.ofSpelling? spelling with
      | some op => rw [Symbol.opensOperand_operator, hop, Option.isSome_some]
      | none =>
        rw [next?_cons (t := ⟨.operator spelling, p⟩) (by simp)] at h
        dsimp only at h
        rw [hop] at h
        exact absurd h not_reads_error
    | punct mark =>
      cases mark with
      | openParen => rfl
      | _ => exact absurd h not_reads_error
    | string | keyword | eof => exact absurd h not_reads_error

theorem reads_expression {level : Nat} {e : Expr} :
    Reads (expression table level ts) e rest ↔
      ∃ left mid, Reads (operand table ts) left mid ∧
        Passes (operations table level left mid) e rest := by
  rw [expression]
  simp only [reads_bind, Read.exists, Pass.exists, reads_pure]
  constructor
  · rintro ⟨left, mid, h, hleft, e', mid', h', hops, rfl, rfl⟩
    exact ⟨left, mid, ⟨h, hleft⟩, h', hops⟩
  · rintro ⟨left, mid, ⟨h, hleft⟩, h', hops⟩
    exact ⟨left, mid, h, hleft, e, rest, h', hops, rfl, rfl⟩

/-- The operator that comes next, if any, has a level below `level`. -/
def OperatorBelow (level : Nat) (ts : List Token) : Prop :=
  ∀ op, (symbol ts).binary? = some op → op.level < level

theorem passes_operations_stop {level : Nat} {left e : Expr} (hts : OperatorBelow level ts) :
    Passes (operations table level left ts) e rest ↔ e = left ∧ rest = ts := by
  rw [operations]
  cases ts with
  | nil => exact passes_ok
  | cons t us =>
    by_cases ht : t.symbol = .eof
    · rw [next?_eq_none ((symbol_cons t us).trans ht)]
      exact passes_ok
    · rw [next?_cons ht]
      dsimp only
      cases hop : t.symbol.binary? with
      | none => exact passes_ok
      | some op =>
        dsimp only
        rw [if_pos (hts op hop)]
        exact passes_ok

theorem passes_operations_go {level : Nat} {left e : Expr} {op : BinaryOp} {p : Position}
    (hlevel : level ≤ op.level) :
    Passes (operations table level left (⟨.operator op.spelling, p⟩ :: ts)) e rest ↔
      (symbol ts).opensOperand = true ∧ ∃ right mid,
        Reads (expression table (op.level + 1) ts) right mid ∧
          Passes (operations table level (.binary op left right) mid) e rest := by
  have hop : (Symbol.operator op.spelling).binary? = some op := BinaryOp.ofSpelling?_spelling op
  rw [operations, next?_cons (t := ⟨.operator op.spelling, p⟩) (by simp)]
  dsimp only
  rw [hop]
  dsimp only
  rw [if_neg (Nat.not_lt.2 hlevel)]
  by_cases hopens : (symbol ts).opensOperand = true
  · rw [if_pos hopens]
    simp only [passes_bind, Read.exists, Pass.exists, passes_pure]
    constructor
    · rintro ⟨right, mid, h, hright, e', mid', h', hops, rfl, rfl⟩
      exact ⟨hopens, right, mid, ⟨h, hright⟩, h', hops⟩
    · rintro ⟨-, right, mid, ⟨h, hright⟩, h', hops⟩
      exact ⟨right, mid, h, hright, e, rest, h', hops, rfl, rfl⟩
  · rw [if_neg hopens]
    constructor
    · intro hpass
      exact absurd hpass not_passes_error
    · rintro ⟨hopens', -⟩
      exact absurd hopens' hopens

theorem reads_arguments_none {callee : String} {p : Position} {args : List Expr} :
    Reads (arguments table callee (⟨.punct .closeParen, p⟩ :: ts)) args rest ↔
      args = [] ∧ rest = ts := by
  rw [arguments, accept_punct]
  exact reads_ok

theorem reads_arguments_some {callee : String} {args : List Expr}
    (hts : symbol ts ≠ .punct .closeParen) :
    Reads (arguments table callee ts) args rest ↔
      ∃ q, Reads (expressions table ts) args (⟨.punct .closeParen, q⟩ :: rest) := by
  rw [arguments, accept_eq_none hts]
  simp only [reads_bind, Read.exists, reads_pure]
  constructor
  · rintro ⟨args', mid, h, hread, u, mid', h', hclose, rfl, rfl⟩
    obtain ⟨q, rfl⟩ := reads_expect.1 ⟨h', hclose⟩
    exact ⟨q, h, hread⟩
  · rintro ⟨q, h, hread⟩
    obtain ⟨h', hclose⟩ := reads_expect.2 ⟨q, rfl⟩
    exact ⟨args, _, h, hread, (), rest, h', hclose, rfl, rfl⟩

theorem reads_expressions {es : List Expr} :
    Reads (expressions table ts) es rest ↔
      ∃ e mid, Reads (expression table BinaryOp.loosest ts) e mid ∧
        (symbol mid ≠ .punct .comma ∧ es = [e] ∧ rest = mid ∨
          ∃ q us es', mid = ⟨.punct .comma, q⟩ :: us ∧ es = e :: es' ∧
            Reads (expressions table us) es' rest) := by
  rw [expressions]
  simp only [reads_bind, Read.exists]
  constructor
  · rintro ⟨e, mid, h, hread, hrest⟩
    refine ⟨e, mid, ⟨h, hread⟩, ?_⟩
    rcases accept_cases (s := .punct .comma) (by simp) mid with ⟨q, us, h', rfl, hacc⟩ | ⟨hne, hacc⟩
    · rw [hacc] at hrest
      simp only [reads_bind, Read.exists, reads_pure] at hrest
      obtain ⟨es', mid', h'', hread', rfl, rfl⟩ := hrest
      exact Or.inr ⟨q, us, es', rfl, rfl, h'', hread'⟩
    · rw [hacc] at hrest
      exact Or.inl ⟨hne, reads_pure.1 hrest⟩
  · rintro ⟨e, mid, ⟨h, hread⟩, hrest⟩
    refine ⟨e, mid, h, hread, ?_⟩
    rcases hrest with ⟨hne, hes⟩ | ⟨q, us, es', rfl, rfl, h', hread'⟩
    · rw [accept_eq_none hne]
      exact reads_pure.2 hes
    · rw [accept_punct]
      simp only [reads_bind, Read.exists, reads_pure]
      exact ⟨es', rest, h', hread', rfl, rfl⟩

theorem reads_index {base : String} {line : Nat} {i : Expr} {text : String} :
    Reads (index table base line ts) (i, text) rest ↔
      indexText table base line ts = .ok text ∧
        ∃ q, Reads (expression table BinaryOp.loosest ts) i
          (⟨.punct .closeBracket, q⟩ :: rest) := by
  rw [index]
  simp only [reads_bind, Read.exists, reads_pure, Prod.mk.injEq]
  constructor
  · rintro ⟨text', htext, i', mid, h, hread, u, mid', h', hclose, ⟨rfl, rfl⟩, rfl⟩
    obtain ⟨q, rfl⟩ := reads_expect.1 ⟨h', hclose⟩
    exact ⟨htext, q, h, hread⟩
  · rintro ⟨htext, q, h, hread⟩
    obtain ⟨h', hclose⟩ := reads_expect.2 ⟨q, rfl⟩
    exact ⟨text, htext, i, _, h, hread, (), rest, h', hclose, ⟨rfl, rfl⟩, rfl⟩

end Steps

/-- The look over an index lets it pass if it is no literal, or one that lies in its array. -/
theorem indexText_eq_ok {k : Nat} {ts rest : List Token} {i : Expr} (h : ExprAt k ts i)
    {table : ShapeTable} {base : String} {line : Nat} {q : Position} {text : String} :
    indexText table base line (ts ++ ⟨.punct .closeBracket, q⟩ :: rest) = .ok text ↔
      text = spelled ts ∧
        ∀ v, i.writtenLiteral? text = some v → table.inBounds base v = true := by
  obtain ⟨t, us, rfl, -⟩ := h.opens
  rw [indexText, h.insideBrackets_eq q rest]
  dsimp only
  rw [← h.writtenLiteral?_spelled]
  cases hv : i.writtenLiteral? (spelled (t :: us)) with
  | none =>
    constructor
    · intro heq
      cases heq
      refine ⟨rfl, ?_⟩
      intro v hv'
      cases hv.symm.trans hv'
    · rintro ⟨rfl, -⟩
      rfl
  | some v =>
    dsimp only
    by_cases hin : table.inBounds base v = true
    · rw [if_pos hin]
      constructor
      · intro heq
        cases heq
        refine ⟨rfl, ?_⟩
        intro v' hv'
        cases hv.symm.trans hv'
        exact hin
      · rintro ⟨rfl, -⟩
        rfl
    · rw [if_neg hin]
      constructor
      · intro heq
        cases heq
      · rintro ⟨rfl, hall⟩
        exact absurd (hall v hv) hin

/-! ## What is read is derived -/

mutual

theorem operand_sound {table : ShapeTable} {ts rest : List Token} {e : Expr}
    (h : Reads (operand table ts) e rest) :
    ∃ taken, ts = taken ++ rest ∧ ExprAt operandLevel taken e ∧ MayEnd taken rest ∧
      e.InBounds table := by
  obtain ⟨⟨s, p⟩, us, rfl, hopens⟩ := opensOperand_of_reads h
  cases s with
  | number text =>
    obtain ⟨rfl, rfl⟩ := reads_operand_number.1 h
    exact ⟨[⟨.number text, p⟩], rfl, .number, @mayEnd_of_last [] _ _ (by simp), nofun⟩
  | character c =>
    obtain ⟨rfl, rfl⟩ := reads_operand_character.1 h
    exact ⟨[⟨.character c, p⟩], rfl, .character, @mayEnd_of_last [] _ _ (by simp), nofun⟩
  | operator spelling =>
    obtain ⟨op, e', rfl, rfl, hread⟩ := reads_operand_operator.1 h
    obtain ⟨taken, rfl, hat, hend, hin⟩ := operand_sound hread
    exact ⟨_ :: taken, rfl, .unary hat, (mayEnd_cons_iff hat.ne_nil).2 hend, hin⟩
  | punct mark =>
    cases mark with
    | openParen =>
      obtain ⟨q, hread⟩ := reads_operand_openParen.1 h
      obtain ⟨taken, rfl, hat, -, -, hin⟩ := expression_sound (by decide) hread
      refine ⟨⟨.punct .openParen, p⟩ :: taken ++ [⟨.punct .closeParen, q⟩], ?_, .parens hat,
        mayEnd_of_last (by simp), hin⟩
      rw [List.append_assoc]
      rfl
    | _ => cases hopens
  | name n =>
    rcases accept_cases (s := .punct .openParen) (by simp) us with ⟨q, us, -, rfl, -⟩ | ⟨hparen, -⟩
    · obtain ⟨args, rfl, hread⟩ := reads_operand_call.1 h
      exact arguments_sound n p q hread
    rcases accept_cases (s := .punct .openBracket) (by simp) us with
      ⟨q, us, -, rfl, -⟩ | ⟨hbracket, -⟩
    · obtain ⟨i, text, rfl, hread⟩ := reads_operand_element.1 h
      obtain ⟨htext, r, hread⟩ := reads_index.1 hread
      obtain ⟨taken, rfl, hat, -, -, hin⟩ := expression_sound (by decide) hread
      obtain ⟨rfl, hbound⟩ := (indexText_eq_ok hat).1 htext
      refine ⟨⟨.name n, p⟩ :: ⟨.punct .openBracket, q⟩ :: taken ++ [⟨.punct .closeBracket, r⟩], ?_,
        .element hat, mayEnd_of_last (by simp), Expr.inBounds_element.2 ⟨hbound, hin⟩⟩
      rw [List.append_assoc]
      rfl
    · obtain ⟨rfl, rfl⟩ := (reads_operand_name hparen hbracket).1 h
      exact ⟨[⟨.name n, p⟩], rfl, .name, fun _ => ⟨hparen, hbracket⟩, nofun⟩
  | string | keyword | eof => cases hopens
termination_by 4 * ts.length
decreasing_by
  all_goals
    subst_vars
    simp only [List.length_cons]
    omega

theorem expression_sound {table : ShapeTable} {level : Nat} {ts rest : List Token} {e : Expr}
    (hlevel : level ≤ operandLevel) (h : Reads (expression table level ts) e rest) :
    ∃ taken, ts = taken ++ rest ∧ ExprAt level taken e ∧ OperatorBelow level rest ∧
      MayEnd taken rest ∧ e.InBounds table := by
  obtain ⟨left, mid, hleft, hops⟩ := reads_expression.1 h
  have hlt := hleft.length_lt
  obtain ⟨taken, hts, hat, hend, hin⟩ := operand_sound hleft
  have hmid : OperatorBelow (operandLevel + 1) mid :=
    fun op _ => Nat.lt_succ_of_lt op.level_lt_operandLevel
  obtain ⟨more, rfl, hat', hrest⟩ :=
    operations_sound hlevel (Nat.le_refl _) hat hmid hend hin hops
  exact ⟨taken ++ more, by rw [hts, List.append_assoc], hat', hrest⟩
termination_by 4 * ts.length + 1
decreasing_by all_goals omega

/-- The expression `left` has been read from `taken`, and no operator that binds tighter than those
of `left` comes next. -/
theorem operations_sound {table : ShapeTable} {level k : Nat} {taken ts rest : List Token}
    {left e : Expr} (hlevel : level ≤ k) (hk : k ≤ operandLevel) (hleft : ExprAt k taken left)
    (hts : OperatorBelow (k + 1) ts) (hend : MayEnd taken ts) (hin : left.InBounds table)
    (h : Passes (operations table level left ts) e rest) :
    ∃ more, ts = more ++ rest ∧ ExprAt level (taken ++ more) e ∧ OperatorBelow level rest ∧
      MayEnd (taken ++ more) rest ∧ e.InBounds table := by
  by_cases hbelow : OperatorBelow level ts
  · obtain ⟨rfl, rfl⟩ := (passes_operations_stop hbelow).1 h
    refine ⟨[], rfl, ?_, hbelow, ?_, hin⟩
    · rw [List.append_nil]
      exact hleft.loosen hlevel hk
    · rwa [List.append_nil]
  -- an operator comes next, of a level from `level` to `k`
  obtain ⟨op, hop, hopLevel⟩ : ∃ op, (symbol ts).binary? = some op ∧ level ≤ op.level := by
    simpa only [OperatorBelow, Classical.not_forall, Nat.not_lt, exists_prop] using hbelow
  obtain ⟨p, us, rfl⟩ : ∃ p us, ts = ⟨.operator op.spelling, p⟩ :: us := by
    refine exists_of_symbol_eq (by simp) ?_
    cases hs : symbol ts with
    | operator spelling =>
      rw [hs] at hop
      rw [BinaryOp.ofSpelling?_eq_some.1 hop]
    | _ => rw [hs] at hop; cases hop
  have hopk : op.level ≤ k := Nat.le_of_lt_succ (hts op hop)
  obtain ⟨-, right, mid, hread, hops⟩ := (passes_operations_go hopLevel).1 h
  have hlt := hread.length_lt
  obtain ⟨taken', rfl, hat, hmid, hend', hin'⟩ :=
    expression_sound (Nat.succ_le_of_lt op.level_lt_operandLevel) hread
  have hbinary : ExprAt op.level (taken ++ ⟨.operator op.spelling, p⟩ :: taken')
      (.binary op left right) := .binary rfl (hleft.loosen hopk hk) hat
  have hendBinary : MayEnd (taken ++ ⟨.operator op.spelling, p⟩ :: taken') mid := by
    rwa [mayEnd_append_iff (List.cons_ne_nil _ _), mayEnd_cons_iff hat.ne_nil]
  obtain ⟨more, rfl, hat', hrest⟩ :=
    operations_sound hopLevel (Nat.le_of_lt op.level_lt_operandLevel) hbinary hmid hendBinary
      (Expr.inBounds_binary.2 ⟨hin, hin'⟩) hops
  refine ⟨⟨.operator op.spelling, p⟩ :: taken' ++ more, ?_, ?_⟩
  · rw [List.cons_append, List.cons_append, List.append_assoc]
  · rw [← List.append_assoc]
    exact ⟨hat', hrest⟩
termination_by 4 * ts.length
decreasing_by
  all_goals
    subst_vars
    simp only [List.length_append, List.length_cons]
    omega

theorem arguments_sound {table : ShapeTable} {ts rest : List Token} {args : List Expr}
    (n : String) (p q : Position) (h : Reads (arguments table n ts) args rest) :
    ∃ taken, ⟨.name n, p⟩ :: ⟨.punct .openParen, q⟩ :: ts = taken ++ rest ∧
      ExprAt operandLevel taken (.call n args none p) ∧ MayEnd taken rest ∧
      (Expr.call n args none p).InBounds table := by
  rcases accept_cases (s := .punct .closeParen) (by simp) ts with ⟨r, us, -, rfl, -⟩ | ⟨hne, -⟩
  · obtain ⟨rfl, rfl⟩ := reads_arguments_none.1 h
    exact ⟨[⟨.name n, p⟩, ⟨.punct .openParen, q⟩, ⟨.punct .closeParen, r⟩], rfl, .constant,
      @mayEnd_of_last [_, _] _ _ (by simp), nofun⟩
  · obtain ⟨r, hread⟩ := (reads_arguments_some hne).1 h
    obtain ⟨taken, rfl, hat, hin⟩ := expressions_sound hread
    refine ⟨⟨.name n, p⟩ :: ⟨.punct .openParen, q⟩ :: taken ++ [⟨.punct .closeParen, r⟩], ?_,
      .call hat, mayEnd_of_last (by simp), hin⟩
    rw [List.append_assoc]
    rfl
termination_by 4 * ts.length + 3
decreasing_by omega

theorem expressions_sound {table : ShapeTable} {ts rest : List Token} {es : List Expr}
    (h : Reads (expressions table ts) es rest) :
    ∃ taken, ts = taken ++ rest ∧ ArgumentsAt taken es ∧ Expr.AllInBounds table es := by
  obtain ⟨e, mid, hread, hrest⟩ := reads_expressions.1 h
  have hlt := hread.length_lt
  obtain ⟨taken, rfl, hat, -, -, hin⟩ := expression_sound (by decide) hread
  rcases hrest with ⟨-, rfl, rfl⟩ | ⟨q, us, es', rfl, rfl, hread'⟩
  · exact ⟨taken, rfl, .one hat, Expr.allInBounds_cons.2 ⟨hin, nofun⟩⟩
  · obtain ⟨taken', rfl, hat', hin'⟩ := expressions_sound hread'
    refine ⟨taken ++ ⟨.punct .comma, q⟩ :: taken', ?_, .more hat hat',
      Expr.allInBounds_cons.2 ⟨hin, hin'⟩⟩
    rw [List.append_assoc]
    rfl
termination_by 4 * ts.length + 2
decreasing_by
  · omega
  · subst_vars
    simp only [List.length_append, List.length_cons]
    omega

end

/-! ## What is derived is read -/

theorem operatorBelow_punct (level : Nat) (mark : Punct) (p : Position) (ts : List Token) :
    OperatorBelow level (⟨.punct mark, p⟩ :: ts) :=
  nofun

/-- No binary operator has the level of an operand. -/
theorem operatorBelow_operandLevel (ts : List Token) : OperatorBelow operandLevel ts :=
  fun op _ => op.level_lt_operandLevel

theorem reads_expression_operandLevel {table : ShapeTable} {ts rest : List Token} {e : Expr} :
    Reads (expression table operandLevel ts) e rest ↔ Reads (operand table ts) e rest := by
  rw [reads_expression]
  constructor
  · rintro ⟨left, mid, hleft, hops⟩
    obtain ⟨rfl, rfl⟩ := (passes_operations_stop (operatorBelow_operandLevel mid)).1 hops
    exact hleft
  · intro h
    exact ⟨e, rest, h,
      (passes_operations_stop (operatorBelow_operandLevel rest)).2 ⟨rfl, rfl⟩⟩

end Parse

section Completeness

open Cursor Parse

/-- The reading of an expression of level `k`: it is read at each level `m` up to `k`, after which
the reader goes on with the operators of level `m` and above that follow. Those of a level above
`k` would belong to its last operand, so none of them may follow. -/
def Climbs (k : Nat) (ts : List Token) (e : Expr) : Prop :=
  ∀ (table : ShapeTable) (m : Nat) (rest rest' : List Token) (e' : Expr), m ≤ k →
    OperatorBelow (k + 1) rest → MayEnd ts rest → e.InBounds table →
    Passes (operations table m e rest) e' rest' → Reads (expression table m (ts ++ rest)) e' rest'

theorem Climbs.reads {k : Nat} {ts rest : List Token} {e : Expr} {table : ShapeTable}
    (h : Climbs k ts e) (hrest : OperatorBelow k rest) (hend : MayEnd ts rest)
    (hin : e.InBounds table) : Reads (expression table k (ts ++ rest)) e rest :=
  h table k rest rest e (Nat.le_refl k) (fun op hop => Nat.lt_succ_of_lt (hrest op hop)) hend hin
    ((passes_operations_stop hrest).2 ⟨rfl, rfl⟩)

theorem Climbs.reads_before_punct {k : Nat} {ts : List Token} {e : Expr} {table : ShapeTable}
    (h : Climbs k ts e) (mark : Punct) (p : Position) (rest : List Token)
    (hparen : mark ≠ .openParen) (hbracket : mark ≠ .openBracket) (hin : e.InBounds table) :
    Reads (expression table k (ts ++ ⟨.punct mark, p⟩ :: rest)) e (⟨.punct mark, p⟩ :: rest) :=
  h.reads (operatorBelow_punct k mark p rest)
    (fun _ => ⟨fun hs => hparen (Symbol.punct.inj hs), fun hs => hbracket (Symbol.punct.inj hs)⟩)
    hin

/-- Arguments do not begin with the parenthesis that closes an empty list. -/
theorem ArgumentsAt.symbol_ne_closeParen {ts : List Token} {es : List Expr}
    (h : ArgumentsAt ts es) (rest : List Token) : symbol (ts ++ rest) ≠ .punct .closeParen := by
  cases h with
  | one first => exact first.symbol_append_ne .closeParen (by simp) rest
  | more first others =>
    rw [List.append_assoc]
    exact first.symbol_append_ne .closeParen (by simp) _

mutual

theorem ExprAt.climbs : ∀ {k : Nat} {ts : List Token} {e : Expr}, ExprAt k ts e → Climbs k ts e
  | _, _, _, .tighter _ h => by
    intro table m rest rest' e' hm hrest hend hin hops
    exact h.climbs table m rest rest' e' (Nat.le_succ_of_le hm)
      (fun op hop => Nat.lt_succ_of_lt (hrest op hop)) hend hin hops
  | _, _, _, @ExprAt.binary _ l r e₁ e₂ op p rfl left right => by
    intro table m rest rest' e' hm hrest hend hin hops
    obtain ⟨hin₁, hin₂⟩ := Expr.inBounds_binary.1 hin
    rw [mayEnd_append_iff (List.cons_ne_nil _ _), mayEnd_cons_iff right.ne_nil] at hend
    rw [List.append_assoc, List.cons_append]
    -- the left operand is read first, and leaves the operator to the loop
    refine left.climbs table m _ rest' e' hm ?_ (fun _ => ⟨nofun, nofun⟩) hin₁ ?_
    · intro op' hop'
      rw [symbol_cons, show (Symbol.operator op.spelling).binary? = some op from
        BinaryOp.ofSpelling?_spelling op] at hop'
      cases hop'
      exact Nat.lt_succ_self _
    · refine (passes_operations_go hm).2 ⟨?_, e₂, rest, right.climbs.reads hrest hend hin₂, hops⟩
      obtain ⟨t, us, rfl, ht⟩ := right.opens
      exact ht
  | _, _, _, .unary operand => by
    intro table m rest rest' e' hm hrest hend hin hops
    rw [mayEnd_cons_iff operand.ne_nil] at hend
    have hread := operand.climbs.reads (operatorBelow_operandLevel rest) hend hin
    refine reads_expression.2 ⟨_, rest, ?_, hops⟩
    exact reads_operand_operator.2 ⟨_, _, rfl, rfl, reads_expression_operandLevel.1 hread⟩
  | _, _, _, @ExprAt.parens ts e p q inner => by
    intro table m rest rest' e' hm hrest hend hin hops
    have hread := inner.climbs.reads_before_punct .closeParen q rest (by simp) (by simp) hin
    refine reads_expression.2 ⟨e, rest, ?_, hops⟩
    rw [List.append_assoc]
    exact reads_operand_openParen.2 ⟨q, hread⟩
  | _, _, _, .number => by
    intro table m rest rest' e' hm hrest hend hin hops
    exact reads_expression.2 ⟨_, rest, reads_operand_number.2 ⟨rfl, rfl⟩, hops⟩
  | _, _, _, .character => by
    intro table m rest rest' e' hm hrest hend hin hops
    exact reads_expression.2 ⟨_, rest, reads_operand_character.2 ⟨rfl, rfl⟩, hops⟩
  | _, _, _, @ExprAt.name n p => by
    intro table m rest rest' e' hm hrest hend hin hops
    obtain ⟨hparen, hbracket⟩ := hend ⟨n, p, rfl⟩
    refine reads_expression.2 ⟨_, rest, ?_, hops⟩
    exact (reads_operand_name hparen hbracket).2 ⟨rfl, rfl⟩
  | _, _, _, @ExprAt.call n ts es p q r args => by
    intro table m rest rest' e' hm hrest hend hin hops
    have hread := args.reads_before_paren r rest hin
    refine reads_expression.2 ⟨_, rest, ?_, hops⟩
    rw [List.append_assoc]
    refine reads_operand_call.2 ⟨es, rfl, ?_⟩
    exact (reads_arguments_some (args.symbol_ne_closeParen _)).2 ⟨r, hread⟩
  | _, _, _, .constant => by
    intro table m rest rest' e' hm hrest hend hin hops
    refine reads_expression.2 ⟨_, rest, ?_, hops⟩
    exact reads_operand_call.2 ⟨[], rfl, reads_arguments_none.2 ⟨rfl, rfl⟩⟩
  | _, _, _, @ExprAt.element n ts e p q r index => by
    intro table m rest rest' e' hm hrest hend hin hops
    obtain ⟨hbound, hin⟩ := Expr.inBounds_element.1 hin
    have hread := index.climbs.reads_before_punct .closeBracket r rest (by simp) (by simp) hin
    refine reads_expression.2 ⟨_, rest, ?_, hops⟩
    rw [List.append_assoc]
    refine reads_operand_element.2 ⟨e, _, rfl, reads_index.2 ⟨?_, r, hread⟩⟩
    exact (indexText_eq_ok index).2 ⟨rfl, hbound⟩

theorem ArgumentsAt.reads_before_paren : ∀ {ts : List Token} {es : List Expr},
    ArgumentsAt ts es → ∀ {table : ShapeTable} (p : Position) (rest : List Token),
      Expr.AllInBounds table es →
      Reads (expressions table (ts ++ ⟨.punct .closeParen, p⟩ :: rest)) es
        (⟨.punct .closeParen, p⟩ :: rest)
  | _, _, .one h, table, p, rest, hin => by
    have hread := h.climbs.reads_before_punct .closeParen p rest (by simp) (by simp)
      (Expr.allInBounds_cons.1 hin).1
    exact reads_expressions.2 ⟨_, _, hread, Or.inl ⟨by simp, rfl, rfl⟩⟩
  | _, _, @ArgumentsAt.more ts us e es q first others, table, p, rest, hin => by
    obtain ⟨hin, hins⟩ := Expr.allInBounds_cons.1 hin
    rw [List.append_assoc, List.cons_append]
    have hread := first.climbs.reads_before_punct .comma q
      (us ++ ⟨.punct .closeParen, p⟩ :: rest) (by simp) (by simp) hin
    exact reads_expressions.2 ⟨e, _, hread,
      Or.inr ⟨q, _, es, rfl, rfl, others.reads_before_paren p rest hins⟩⟩

end

end Completeness

/-! ## The expressions read are those of the grammar -/

open Cursor Parse

theorem operatorBelow_loosest {ts : List Token} :
    OperatorBelow BinaryOp.loosest ts ↔ (symbol ts).binary? = none := by
  constructor
  · intro hbelow
    cases hop : (symbol ts).binary? with
    | none => rfl
    | some op => exact absurd (hbelow op hop) (Nat.not_lt.2 op.loosest_le_level)
  · intro hnone op hop
    cases hnone.symm.trans hop

/-- A token sequence stands for one expression at most: with nothing after it and no array known,
the reader finds each expression that it is derived as. -/
theorem ExprAt.unique {k : Nat} {ts : List Token} {e e' : Expr} (h : ExprAt k ts e)
    (h' : ExprAt k ts e') : e' = e := by
  have hbelow : OperatorBelow k [] := nofun
  have hend : MayEnd ts [] := fun _ => ⟨nofun, nofun⟩
  have hread := h.climbs.reads hbelow hend e.inBounds_empty
  have hread' := h'.climbs.reads hbelow hend e'.inBounds_empty
  exact (hread.unique hread').1

theorem reads_value {table : ShapeTable} {ts rest : List Token} {e : Expr} :
    Reads (value table ts) e rest ↔
      ∃ taken, ts = taken ++ rest ∧ ExprAt BinaryOp.loosest taken e ∧
        (symbol rest).binary? = none ∧ MayEnd taken rest ∧ e.InBounds table := by
  rw [value]
  constructor
  · intro hread
    obtain ⟨taken, hts, hat, hbelow, hend, hin⟩ := expression_sound (by decide) hread
    exact ⟨taken, hts, hat, operatorBelow_loosest.1 hbelow, hend, hin⟩
  · rintro ⟨taken, rfl, hat, hnone, hend, hin⟩
    exact hat.climbs.reads (operatorBelow_loosest.2 hnone) hend hin

theorem reads_value_before {table : ShapeTable} {ts rest : List Token} {e : Expr} {p : Position}
    (mark : Punct) (hparen : mark ≠ .openParen) (hbracket : mark ≠ .openBracket) :
    Reads (value table ts) e (⟨.punct mark, p⟩ :: rest) ↔
      ∃ taken, ts = taken ++ ⟨.punct mark, p⟩ :: rest ∧ ExprAt BinaryOp.loosest taken e ∧
        e.InBounds table := by
  rw [reads_value]
  constructor
  · rintro ⟨taken, hts, hat, -, -, hin⟩
    exact ⟨taken, hts, hat, hin⟩
  · rintro ⟨taken, hts, hat, hin⟩
    refine ⟨taken, hts, hat, rfl, ?_, hin⟩
    intro _
    exact ⟨fun hs => hparen (Symbol.punct.inj hs), fun hs => hbracket (Symbol.punct.inj hs)⟩

theorem reads_index_iff {table : ShapeTable} {ts rest : List Token} {base : String} {line : Nat}
    {i : Expr} {text : String} :
    Reads (index table base line ts) (i, text) rest ↔
      ∃ taken q, ts = taken ++ ⟨.punct .closeBracket, q⟩ :: rest ∧
        ExprAt BinaryOp.loosest taken i ∧ text = spelled taken ∧
        (Expr.element base i text).InBounds table := by
  rw [reads_index]
  constructor
  · rintro ⟨htext, q, hread⟩
    obtain ⟨taken, rfl, hat, hin⟩ := (reads_value_before .closeBracket (by simp) (by simp)).1 hread
    obtain ⟨rfl, hbound⟩ := (indexText_eq_ok hat).1 htext
    exact ⟨taken, q, rfl, hat, rfl, Expr.inBounds_element.2 ⟨hbound, hin⟩⟩
  · rintro ⟨taken, q, rfl, hat, rfl, hin⟩
    obtain ⟨hbound, hin⟩ := Expr.inBounds_element.1 hin
    exact ⟨(indexText_eq_ok hat).2 ⟨rfl, hbound⟩, q,
      (reads_value_before .closeBracket (by simp) (by simp)).2 ⟨taken, rfl, hat, hin⟩⟩

/-- **Expressions are read as the grammar derives them.** The reader takes `taken` off the front and
answers `e` exactly if `taken` is derived as `e`, no operator and no parenthesis or bracket of a
name follows that would go on with it, and no literal index in it is out of bounds. Each `taken` is
derived as one expression only. -/
theorem reads_value_iff (table : ShapeTable) (ts rest : List Token) (e : Expr) :
    (Reads (value table ts) e rest ↔
      ∃ taken, ts = taken ++ rest ∧ ExprAt BinaryOp.loosest taken e ∧
        (symbol rest).binary? = none ∧ MayEnd taken rest ∧ e.InBounds table) ∧
    ∀ taken e', ExprAt BinaryOp.loosest taken e → ExprAt BinaryOp.loosest taken e' → e' = e :=
  ⟨reads_value, fun _ _ => ExprAt.unique⟩

/-- **The text of an index is the text that is read.** An index is looked over twice, once by
counting brackets and once as an expression. It is read exactly if both take the same tokens and
stop at the same closing bracket, and the literal that it may be is not out of bounds. Its text is
then that of the tokens which were read. -/
theorem reads_index_scanned (table : ShapeTable) (base : String) (line : Nat)
    (ts rest : List Token) (e : Expr) (text : String) :
    Reads (index table base line ts) (e, text) rest ↔
      ∃ inside close, insideBrackets 0 ts = some inside ∧ ts = inside ++ close :: rest ∧
        close.symbol = .punct .closeBracket ∧ Reads (value table ts) e (close :: rest) ∧
        text = spelled inside ∧
        ∀ v, literalIndex? (inside.map Token.symbol) = some v → table.inBounds base v = true := by
  rw [reads_index_iff]
  constructor
  · rintro ⟨inside, q, rfl, hat, rfl, hin⟩
    obtain ⟨hbound, hin⟩ := Expr.inBounds_element.1 hin
    rw [hat.writtenLiteral?_spelled] at hbound
    have hread : Reads (value table (inside ++ ⟨.punct .closeBracket, q⟩ :: rest)) e
        (⟨.punct .closeBracket, q⟩ :: rest) :=
      (reads_value_before .closeBracket (by simp) (by simp)).2 ⟨inside, rfl, hat, hin⟩
    exact ⟨inside, _, hat.insideBrackets_eq q rest, rfl, rfl, hread, rfl, hbound⟩
  · rintro ⟨inside, ⟨s, q⟩, -, hts, rfl, hread, rfl, hbound⟩
    obtain ⟨taken, htaken, hat, hin⟩ :=
      (reads_value_before .closeBracket (by simp) (by simp)).1 hread
    have heq : inside = taken := List.append_cancel_right (hts.symm.trans htaken)
    subst heq
    rw [← hat.writtenLiteral?_spelled] at hbound
    exact ⟨inside, q, hts, hat, rfl, Expr.inBounds_element.2 ⟨hbound, hin⟩⟩

end ClockedC
