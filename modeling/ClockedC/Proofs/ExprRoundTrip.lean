import ClockedC.Proofs.PrintedText

/-!
# Reading a printed expression back

The text of an expression has parentheses around each binary operation, so that it can be read
without a look at the levels of operators. This file shows that it is read as the same expression,
except where a minus sign stands before another one.

* `Expr.FromSource`: an expression was read from a source, and its calls have no numbers yet.
* `Expr.content` is an expression without the places of its calls and the texts of its indices.
* `Expr.HasDoubleMinus`: a negation stands right inside of a negation.
* `Expr.Legible.exprAt`: the printed symbols of an expression are derived as that expression.
* `Expr.Legible.notRead`: with two minus signs in a row, nothing is read.
* `Parse.onlyGrammar_expression`: where no array is known, only faults of grammar are found.
* `Expr.FromSource.reads_text_iff`: the text of an expression is read back as the expression exactly
  if no negation stands right inside of a negation.
-/

namespace ClockedC

open Cursor Parse

namespace Expr

/-- The expressions right inside of an expression. -/
def parts : Expr → List Expr
  | number _ | name _ => []
  | element _ index _ => [index]
  | call _ args _ _ => args
  | unary _ operand => [operand]
  | binary _ left right => [left, right]

/-- An expression was read from a source: by itself from some place of the source on, or as an
expression of a program, or as a part of such an expression. -/
inductive FromSource : Expr → Prop
  | value {source : String} {ts us rest : List Token} {table : ShapeTable} {e : Expr}
      (hscan : scan source = .ok ts) (hus : us <:+ ts) (h : Reads (Parse.value table us) e rest) :
      FromSource e
  | program {source : String} {program : Program} {f : Function} {e : Expr}
      (h : (Program.ofSource source).outcome = .ok program) (hf : f ∈ program.functions)
      (he : e ∈ Block.expressions f.body) : FromSource e
  | part {e e' : Expr} (h : FromSource e) (hpart : e' ∈ e.parts) : FromSource e'

/-- An expression holds a negation right inside of a negation. -/
inductive HasDoubleMinus : Expr → Prop
  | here {e : Expr} : HasDoubleMinus (.unary .neg (.unary .neg e))
  | inside {e e' : Expr} (hpart : e' ∈ e.parts) (h : HasDoubleMinus e') : HasDoubleMinus e

mutual

/-- An expression without the places of its calls and the texts of its indices. -/
def content : Expr → Expr
  | number text => number text
  | name n => name n
  | element base index _ => element base index.content ""
  | call callee args unit _ => call callee (contentOfList args) unit default
  | unary op operand => unary op operand.content
  | binary op left right => binary op left.content right.content

/-- `content` on a list of expressions. -/
def contentOfList : List Expr → List Expr
  | [] => []
  | e :: es => e.content :: contentOfList es

end

end Expr

/-! ## Expressions of a source are legible -/

mutual

theorem ExprAt.legible : ∀ {k : Nat} {ts : List Token} {e : Expr}, ExprAt k ts e →
    (∀ t ∈ ts, t.symbol.Lexed) → e.Legible
  | _, _, _, .tighter _ h, hts => h.legible hts
  | _, _, _, .binary _ left right, hts => by
    simp only [List.forall_mem_append, List.forall_mem_cons] at hts
    exact .binary (left.legible hts.1) (right.legible hts.2.2)
  | _, _, _, .unary operand, hts => .unary (operand.legible (List.forall_mem_cons.1 hts).2)
  | _, _, _, .parens inner, hts => by
    simp only [List.forall_mem_append, List.forall_mem_cons] at hts
    exact inner.legible hts.1.2
  | _, _, _, .number, hts => .number (hts _ List.mem_cons_self).spelled
  | _, _, _, .character, _ => .number (Scan.numeral_toString _)
  | _, _, _, .name, hts => .name (hts _ List.mem_cons_self)
  | _, _, _, .call args, hts => by
    simp only [List.forall_mem_append, List.forall_mem_cons] at hts
    exact .call hts.1.1 (args.legible hts.1.2.2)
  | _, _, _, .constant, hts => .call (hts _ List.mem_cons_self) (List.forall_mem_nil _)
  | _, _, _, .element index, hts => by
    simp only [List.forall_mem_append, List.forall_mem_cons] at hts
    exact .element hts.1.1 (index.legible hts.1.2.2)

theorem ArgumentsAt.legible : ∀ {ts : List Token} {es : List Expr}, ArgumentsAt ts es →
    (∀ t ∈ ts, t.symbol.Lexed) → ∀ e ∈ es, e.Legible
  | _, _, .one h, hts => List.forall_mem_singleton.2 (h.legible hts)
  | _, _, .more first others, hts => by
    simp only [List.forall_mem_append, List.forall_mem_cons] at hts
    exact List.forall_mem_cons.2 ⟨first.legible hts.1, others.legible hts.2.2⟩

end

namespace Expr

theorem Scanned.legible {e : Expr} (h : e.Scanned) : e.Legible := by
  obtain ⟨ts, hat, hts⟩ := h
  exact hat.legible hts

theorem Legible.part {e e' : Expr} (h : e.Legible) (hpart : e' ∈ e.parts) : e'.Legible := by
  cases h with
  | number | name => exact absurd hpart List.not_mem_nil
  | element _ hindex =>
    cases List.mem_singleton.1 hpart
    exact hindex
  | call _ hargs => exact hargs e' hpart
  | unary h =>
    cases List.mem_singleton.1 hpart
    exact h
  | binary hleft hright =>
    rcases List.mem_cons.1 hpart with rfl | hpart
    · exact hleft
    · cases List.mem_singleton.1 hpart
      exact hright

theorem FromSource.legible {e : Expr} (h : e.FromSource) : e.Legible := by
  induction h with
  | @value source ts us rest table e hscan hus h =>
    obtain ⟨taken, rfl, hat, -⟩ := reads_value.1 h
    have hcovers : Scan.Covers [] source.toList ts := Scan.covers_of_tokens rfl hscan
    refine hat.legible fun t ht => hcovers.lexed t (hus.subset ?_)
    exact List.mem_append_left _ ht
  | program h hf he => exact ((Program.scanned_of_ofSource h hf).expressions _ he).legible
  | part _ hpart ih => exact ih.part hpart

end Expr

/-! ## Printed symbols are read -/

theorem exists_of_map_symbol {ts : List Token} {s : Symbol} {ss : List Symbol}
    (h : ts.map Token.symbol = s :: ss) :
    ∃ p us, ts = ⟨s, p⟩ :: us ∧ us.map Token.symbol = ss := by
  obtain ⟨⟨s', p⟩, us, rfl, rfl, hus⟩ := List.map_eq_cons_iff.1 h
  exact ⟨p, us, rfl, hus⟩

theorem eq_singleton_of_map_symbol {ts : List Token} {s : Symbol}
    (h : ts.map Token.symbol = [s]) : ∃ p, ts = [⟨s, p⟩] := by
  obtain ⟨p, us, rfl, hus⟩ := exists_of_map_symbol h
  exact ⟨p, by rw [List.map_eq_nil_iff.1 hus]⟩

/-- Symbols between two others. -/
theorem enclosed_of_map_symbol {ts : List Token} {s s' : Symbol} {ss : List Symbol}
    (h : ts.map Token.symbol = s :: (ss ++ [s'])) :
    ∃ p us q, ts = ⟨s, p⟩ :: us ++ [⟨s', q⟩] ∧ us.map Token.symbol = ss := by
  obtain ⟨p, vs, rfl, hvs⟩ := exists_of_map_symbol h
  obtain ⟨us, ws, rfl, hus, hws⟩ := List.map_eq_append_iff.1 hvs
  obtain ⟨q, rfl⟩ := eq_singleton_of_map_symbol hws
  exact ⟨p, us, q, rfl, hus⟩

/-- Symbols around another. -/
theorem split_of_map_symbol {ts : List Token} {s : Symbol} {ss ss' : List Symbol}
    (h : ts.map Token.symbol = ss ++ s :: ss') :
    ∃ us p vs, ts = us ++ ⟨s, p⟩ :: vs ∧ us.map Token.symbol = ss ∧
      vs.map Token.symbol = ss' := by
  obtain ⟨us, ws, rfl, hus, hws⟩ := List.map_eq_append_iff.1 h
  obtain ⟨p, vs, rfl, hvs⟩ := exists_of_map_symbol hws
  exact ⟨us, p, vs, rfl, hus, hvs⟩

namespace Expr

variable {e : Expr}

theorem printed_binary {op : BinaryOp} {left right : Expr} :
    (binary op left right).printed = .punct .openParen ::
      ((left.printed ++ .operator op.spelling :: right.printed) ++ [.punct .closeParen]) := by
  rw [printed, List.append_assoc, List.cons_append]

theorem exists_argumentsAt {args : List Expr} (hne : args ≠ [])
    (h : ∀ arg ∈ args, ∀ ts, ts.map Token.symbol = arg.printed →
      ∃ e', ExprAt operandLevel ts e' ∧ e'.content = arg.content) :
    ∀ ts, ts.map Token.symbol = printedList args →
      ∃ es, ArgumentsAt ts es ∧ contentOfList es = contentOfList args := by
  induction args with
  | nil => exact absurd rfl hne
  | cons arg args ih =>
    intro ts hts
    obtain ⟨harg, hargs⟩ := List.forall_mem_cons.1 h
    cases args with
    | nil =>
      obtain ⟨e', hat, he'⟩ := harg ts hts
      exact ⟨[e'], .one (hat.loosen (by decide) (Nat.le_refl _)), by rw [contentOfList, he']; rfl⟩
    | cons arg' args =>
      obtain ⟨us, p, vs, rfl, hus, hvs⟩ := split_of_map_symbol hts
      obtain ⟨e', hat, he'⟩ := harg us hus
      obtain ⟨es, hargs', hes⟩ := ih (List.cons_ne_nil _ _) hargs vs hvs
      refine ⟨e' :: es, .more (hat.loosen (by decide) (Nat.le_refl _)) hargs', ?_⟩
      rw [contentOfList, he', hes]
      rfl

/-- The printed symbols of an expression are derived as an operand, and this is the expression but
for the places of calls and the texts of indices. -/
theorem Legible.exprAt (h : e.Legible) (hminus : ¬ e.HasDoubleMinus) :
    ∀ ts, ts.map Token.symbol = e.printed →
      ∃ e', ExprAt operandLevel ts e' ∧ e'.content = e.content := by
  induction h with
  | number =>
    intro ts hts
    obtain ⟨p, rfl⟩ := eq_singleton_of_map_symbol hts
    exact ⟨_, .number, rfl⟩
  | name =>
    intro ts hts
    obtain ⟨p, rfl⟩ := eq_singleton_of_map_symbol hts
    exact ⟨_, .name, rfl⟩
  | element _ _ ih =>
    intro ts hts
    obtain ⟨p, us, rfl, hus⟩ := exists_of_map_symbol hts
    obtain ⟨q, inner, r, rfl, hinner⟩ := enclosed_of_map_symbol hus
    obtain ⟨i, hat, hi⟩ := ih (fun h => hminus (.inside List.mem_cons_self h)) inner hinner
    refine ⟨_, .element (hat.loosen (by decide) (Nat.le_refl _)), ?_⟩
    rw [content, content, hi]
  | @call callee args _ _ _ ih =>
    intro ts hts
    obtain ⟨p, us, rfl, hus⟩ := exists_of_map_symbol hts
    obtain ⟨q, inner, r, rfl, hinner⟩ := enclosed_of_map_symbol hus
    cases args with
    | nil =>
      obtain rfl := List.map_eq_nil_iff.1 hinner
      exact ⟨_, .constant, rfl⟩
    | cons arg args =>
      obtain ⟨es, hes, hcontent⟩ := exists_argumentsAt (List.cons_ne_nil arg args)
        (fun e he => ih e he fun h => hminus (.inside he h)) inner hinner
      refine ⟨_, .call hes, ?_⟩
      rw [content, content, hcontent]
  | @unary op operand _ ih =>
    intro ts hts
    have hop : op = .neg → operand.isNegation = false := by
      rintro rfl
      refine Bool.eq_false_iff.2 fun hneg => hminus ?_
      obtain ⟨e', rfl⟩ := isNegation_iff.1 hneg
      exact .here
    rw [printed_unary hop] at hts
    obtain ⟨p, us, rfl, hus⟩ := exists_of_map_symbol hts
    obtain ⟨e', hat, he'⟩ := ih (fun h => hminus (.inside List.mem_cons_self h)) us hus
    refine ⟨_, .unary hat, ?_⟩
    rw [content, content, he']
  | @binary op left right _ _ ihleft ihright =>
    intro ts hts
    rw [printed_binary] at hts
    obtain ⟨p, us, s, rfl, hus⟩ := enclosed_of_map_symbol hts
    obtain ⟨l, q, r, rfl, hl, hr⟩ := split_of_map_symbol hus
    obtain ⟨l', hl', hleft⟩ := ihleft (fun h => hminus (.inside List.mem_cons_self h)) l hl
    obtain ⟨r', hr', hright⟩ := ihright
      (fun h => hminus (.inside (List.mem_cons_of_mem _ List.mem_cons_self) h)) r hr
    have hlevel := op.level_lt_operandLevel
    have hbinary : ExprAt op.level (l ++ ⟨.operator op.spelling, q⟩ :: r) (.binary op l' r') :=
      .binary rfl (hl'.loosen (Nat.le_of_lt hlevel) (Nat.le_refl _))
        (hr'.loosen hlevel (Nat.le_refl _))
    refine ⟨_, .parens (hbinary.loosen op.loosest_le_level (Nat.le_of_lt hlevel)), ?_⟩
    rw [content, content, hleft, hright]

end Expr

/-! ## Two minus signs are not read -/

namespace Expr

/-- No operand is read from some tokens on, whatever follows them. -/
def NotRead (ts : List Token) : Prop :=
  ∀ rest e rest', ¬ Reads (operand .empty (ts ++ rest)) e rest'

theorem NotRead.expression {ts : List Token} (h : NotRead ts) (level : Nat) (rest : List Token)
    (e : Expr) (rest' : List Token) :
    ¬ Reads (Parse.expression .empty level (ts ++ rest)) e rest' := by
  intro hread
  obtain ⟨left, mid, hleft, -⟩ := reads_expression.1 hread
  exact h rest left mid hleft

/-- Arguments are not printed from a closing parenthesis on. -/
theorem exists_printedList {args : List Expr} (hne : args ≠ []) :
    ∃ s ss, printedList args = s :: ss ∧ s ≠ .punct .closeParen := by
  have hfirst (e : Expr) : ∃ s ss, e.printed = s :: ss ∧ s ≠ .punct .closeParen := by
    fun_cases printed e <;> exact ⟨_, _, rfl, by simp⟩
  cases args with
  | nil => exact absurd rfl hne
  | cons e es =>
    obtain ⟨s, ss, hs, hclose⟩ := hfirst e
    cases es with
    | nil => exact ⟨s, ss, hs, hclose⟩
    | cons e' es =>
      refine ⟨s, ss ++ .punct .comma :: printedList (e' :: es), ?_, hclose⟩
      rw [printedList, hs, List.cons_append]
      exact List.cons_ne_nil _ _

/-- The arguments before the first one with two minus signs are read, and that one is not. -/
theorem not_reads_args {args : List Expr} (hlegible : ∀ arg ∈ args, arg.Legible)
    (h : ∀ arg ∈ args, arg.HasDoubleMinus → ∀ ts, ts.map Token.symbol = arg.printed → NotRead ts)
    (hminus : ∃ arg ∈ args, arg.HasDoubleMinus) :
    ∀ ts, ts.map Token.symbol = printedList args →
      ∀ rest es rest', ¬ Reads (expressions .empty (ts ++ rest)) es rest' := by
  induction args with
  | nil =>
    obtain ⟨arg, harg, -⟩ := hminus
    exact absurd harg List.not_mem_nil
  | cons arg args ih =>
    intro ts hts rest es rest' hread
    obtain ⟨e, mid, hfirst, hmid⟩ := reads_expressions.1 hread
    obtain ⟨harg, hargs⟩ := List.forall_mem_cons.1 h
    obtain ⟨hlegible', hlegibles⟩ := List.forall_mem_cons.1 hlegible
    cases args with
    | nil =>
      obtain ⟨arg', harg', hdouble⟩ := hminus
      cases List.mem_singleton.1 harg'
      exact (harg hdouble ts hts).expression _ rest e mid hfirst
    | cons next args =>
      obtain ⟨us, p, vs, rfl, hus, hvs⟩ := split_of_map_symbol hts
      rw [List.append_assoc, List.cons_append] at hfirst
      by_cases hdouble : arg.HasDoubleMinus
      · exact (harg hdouble us hus).expression _ _ e mid hfirst
      · obtain ⟨e', hat, -⟩ := hlegible'.exprAt hdouble us hus
        have hloose : ExprAt BinaryOp.loosest us e' := hat.loosen (by decide) (Nat.le_refl _)
        have hread' := hloose.climbs.reads_before_punct .comma p (vs ++ rest) (by simp) (by simp)
          e'.inBounds_empty
        obtain ⟨rfl, rfl⟩ := hread'.unique hfirst
        rcases hmid with ⟨hcomma, -, -⟩ | ⟨q, ws, es', heq, -, hothers⟩
        · exact hcomma rfl
        · cases heq
          refine ih hlegibles hargs ?_ vs hvs rest es' rest' hothers
          obtain ⟨arg', harg', hdouble'⟩ := hminus
          rcases List.mem_cons.1 harg' with rfl | hlater
          · exact absurd hdouble' hdouble
          · exact ⟨arg', hlater, hdouble'⟩

/-- Where a minus sign is printed right before another, nothing is read. -/
theorem Legible.notRead {e : Expr} (h : e.Legible) (hminus : e.HasDoubleMinus) :
    ∀ ts, ts.map Token.symbol = e.printed → NotRead ts := by
  induction h with
  | number | name =>
    cases hminus with
    | inside hpart => exact absurd hpart List.not_mem_nil
  | element _ _ ih =>
    intro ts hts rest e' rest' hread
    obtain ⟨p, us, rfl, hus⟩ := exists_of_map_symbol hts
    obtain ⟨q, inner, r, rfl, hinner⟩ := enclosed_of_map_symbol hus
    simp only [List.cons_append] at hread
    rw [List.append_assoc] at hread
    cases hminus with
    | inside hpart hindex =>
      cases List.mem_singleton.1 hpart
      obtain ⟨i, text, -, hread⟩ := reads_operand_element.1 hread
      obtain ⟨-, s, hread⟩ := reads_index.1 hread
      exact (ih hindex inner hinner).expression _ _ _ _ hread
  | @call callee args _ _ hargs ih =>
    intro ts hts rest e' rest' hread
    obtain ⟨p, us, rfl, hus⟩ := exists_of_map_symbol hts
    obtain ⟨q, inner, r, rfl, hinner⟩ := enclosed_of_map_symbol hus
    simp only [List.cons_append] at hread
    rw [List.append_assoc] at hread
    cases hminus with
    | inside hpart harg =>
      obtain ⟨es, -, hread⟩ := reads_operand_call.1 hread
      have hparen : symbol (inner ++ ([⟨.punct .closeParen, r⟩] ++ rest)) ≠ .punct .closeParen := by
        have hne : args ≠ [] := List.ne_nil_of_mem hpart
        obtain ⟨s, ss, hs, hclose⟩ := exists_printedList hne
        rw [hs] at hinner
        obtain ⟨u, vs, rfl, -⟩ := exists_of_map_symbol hinner
        exact hclose
      obtain ⟨s, hread⟩ := (reads_arguments_some hparen).1 hread
      exact not_reads_args hargs ih ⟨_, hpart, harg⟩ inner hinner _ _ _ hread
  | @unary op operand hoperand ih =>
    intro ts hts rest e' rest' hread
    by_cases hop : op = .neg → operand.isNegation = false
    · rw [printed_unary hop] at hts
      obtain ⟨p, us, rfl, hus⟩ := exists_of_map_symbol hts
      obtain ⟨op', e'', -, -, hread⟩ := reads_operand_operator.1 hread
      cases hminus with
      | here => cases hop rfl
      | inside hpart h =>
        cases List.mem_singleton.1 hpart
        exact ih h us hus rest e'' rest' hread
    · obtain ⟨rfl, hneg⟩ := Classical.not_imp.1 hop
      obtain ⟨e, rfl⟩ := isNegation_iff.1 (eq_true_of_ne_false hneg)
      obtain ⟨p, us, rfl, -⟩ := exists_of_map_symbol hts
      obtain ⟨op', -, hop', -⟩ := reads_operand_operator.1 hread
      cases op' <;> exact absurd hop' (by decide)
  | @binary op left right hleft hright ihleft ihright =>
    intro ts hts rest e' rest' hread
    rw [printed_binary] at hts
    obtain ⟨p, us, s, rfl, hus⟩ := enclosed_of_map_symbol hts
    obtain ⟨l, q, r, rfl, hl, hr⟩ := split_of_map_symbol hus
    simp only [List.cons_append] at hread
    rw [List.append_assoc, List.append_assoc, List.cons_append] at hread
    obtain ⟨s', hread⟩ := reads_operand_openParen.1 hread
    by_cases hdouble : left.HasDoubleMinus
    · exact (ihleft hdouble l hl).expression _ _ _ _ hread
    · obtain ⟨l', hat, -⟩ := hleft.exprAt hdouble l hl
      obtain ⟨left', mid, hleft', hops⟩ := reads_expression.1 hread
      have hend : MayEnd l
          (⟨.operator op.spelling, q⟩ :: (r ++ ([⟨.punct .closeParen, s⟩] ++ rest))) :=
        fun _ => ⟨by simp, by simp⟩
      have hl' := reads_expression_operandLevel.1
        (hat.climbs.reads (operatorBelow_operandLevel _) hend l'.inBounds_empty)
      obtain ⟨rfl, rfl⟩ := hl'.unique hleft'
      obtain ⟨-, right', mid', hright', -⟩ := (passes_operations_go op.loosest_le_level).1 hops
      refine (ihright ?_ r hr).expression _ _ _ _ hright'
      cases hminus with
      | inside hpart h =>
        rcases List.mem_cons.1 hpart with rfl | hpart
        · exact absurd h hdouble
        · cases List.mem_singleton.1 hpart
          exact h

end Expr

/-! ## Faults -/

/-- A computation fails with nothing but faults of grammar. -/
def OnlyGrammar {α : Type} (x : Except ParseError α) : Prop :=
  ∀ err, x = .error err → ∃ fault line, err = .grammar fault line

theorem onlyGrammar_ok {α : Type} (a : α) : OnlyGrammar (.ok a) := by
  rintro err ⟨⟩

theorem onlyGrammar_error {α : Type} (fault : GrammarFault) (line : Nat) :
    OnlyGrammar (.error (.grammar fault line) : Except ParseError α) := by
  rintro err ⟨⟩
  exact ⟨fault, line, rfl⟩

theorem OnlyGrammar.bind {α β : Type} {x : Except ParseError α} {f : α → Except ParseError β}
    (hx : OnlyGrammar x) (hf : ∀ a, OnlyGrammar (f a)) : OnlyGrammar (x >>= f) := by
  cases x with
  | ok a => exact hf a
  | error err =>
    obtain ⟨fault, line, rfl⟩ := hx err rfl
    exact onlyGrammar_error fault line

namespace Parse

theorem onlyGrammar_expect (mark : Punct) (place : Place) (ts : List Token) :
    OnlyGrammar (expect mark place ts) := by
  unfold expect
  split
  · exact onlyGrammar_ok _
  · exact onlyGrammar_error _ _

/-- Where no array is known, an index is not checked against a size. -/
theorem onlyGrammar_indexText (base : String) (line : Nat) (ts : List Token) :
    OnlyGrammar (indexText .empty base line ts) := by
  unfold indexText
  split
  · exact onlyGrammar_error _ _
  · exact onlyGrammar_error _ _
  · dsimp only
    split
    · exact onlyGrammar_ok _
    · exact onlyGrammar_ok _

mutual

theorem onlyGrammar_operand (ts : List Token) : OnlyGrammar (operand .empty ts) := by
  rw [operand]
  split
  · exact onlyGrammar_error _ _
  · rename_i t rest h _
    have hlt := h.length_lt
    split
    · split
      · exact (onlyGrammar_operand rest).bind fun r => onlyGrammar_ok _
      · exact onlyGrammar_error _ _
    · exact (onlyGrammar_expression _ rest).bind fun r =>
        (onlyGrammar_expect _ _ r.rest).bind fun r' => onlyGrammar_ok _
    · exact onlyGrammar_ok _
    · exact onlyGrammar_ok _
    · split
      · rename_i rest' h' _
        have hlt' := h'.length_lt
        exact (onlyGrammar_arguments _ rest').bind fun r => onlyGrammar_ok _
      · split
        · rename_i rest' h' _
          have hlt' := h'.length_lt
          exact (onlyGrammar_index _ _ rest').bind fun r => onlyGrammar_ok _
        · exact onlyGrammar_ok _
    · exact onlyGrammar_error _ _
termination_by 4 * ts.length

theorem onlyGrammar_expression (level : Nat) (ts : List Token) :
    OnlyGrammar (expression .empty level ts) := by
  rw [expression]
  refine (onlyGrammar_operand ts).bind fun r => ?_
  have hlt := r.left.length_lt
  exact (onlyGrammar_operations level r.value r.rest).bind fun r' => onlyGrammar_ok _
termination_by 4 * ts.length + 1

theorem onlyGrammar_operations (level : Nat) (left : Expr) (ts : List Token) :
    OnlyGrammar (operations .empty level left ts) := by
  rw [operations]
  split
  · exact onlyGrammar_ok _
  · rename_i t rest h _
    have hlt := h.length_lt
    split
    · exact onlyGrammar_ok _
    · rename_i op _
      split
      · exact onlyGrammar_ok _
      · split
        · refine (onlyGrammar_expression _ rest).bind fun r => ?_
          have hlt' := r.left.length_lt
          exact (onlyGrammar_operations level (.binary op left r.value) r.rest).bind
            fun r' => onlyGrammar_ok _
        · exact onlyGrammar_error _ _
termination_by 4 * ts.length

theorem onlyGrammar_arguments (callee : String) (ts : List Token) :
    OnlyGrammar (arguments .empty callee ts) := by
  rw [arguments]
  split
  · exact onlyGrammar_ok _
  · exact (onlyGrammar_expressions ts).bind fun r =>
      (onlyGrammar_expect _ _ r.rest).bind fun r' => onlyGrammar_ok _
termination_by 4 * ts.length + 3

theorem onlyGrammar_expressions (ts : List Token) : OnlyGrammar (expressions .empty ts) := by
  rw [expressions]
  refine (onlyGrammar_expression _ ts).bind fun r => ?_
  have hlt := r.left.length_lt
  dsimp only
  split
  · rename_i rest' h' _
    have hlt' := h'.length_lt
    exact (onlyGrammar_expressions rest').bind fun r' => onlyGrammar_ok _
  · exact onlyGrammar_ok _
termination_by 4 * ts.length + 2

theorem onlyGrammar_index (base : String) (line : Nat) (ts : List Token) :
    OnlyGrammar (index .empty base line ts) := by
  rw [index]
  exact (onlyGrammar_indexText base line ts).bind fun text =>
    (onlyGrammar_expression _ ts).bind fun r =>
      (onlyGrammar_expect _ _ r.rest).bind fun r' => onlyGrammar_ok _
termination_by 4 * ts.length + 2

end

end Parse

/-! ## The text of an expression is read as the expression -/

namespace Expr

/-- Tokens that are printed from an expression are read up to the end of the source. -/
theorem Legible.reads_printed {e : Expr} (h : e.Legible) (hminus : ¬ e.HasDoubleMinus)
    {ts : List Token} (hts : ts.map Token.symbol = e.printed) (p : Position) :
    ∃ e', Reads (Parse.value .empty (ts ++ [⟨.eof, p⟩])) e' [⟨.eof, p⟩] ∧
      e'.content = e.content := by
  obtain ⟨e', hat, hcontent⟩ := h.exprAt hminus ts hts
  have hend : MayEnd ts [⟨.eof, p⟩] := fun _ => ⟨by simp, by simp⟩
  exact ⟨e', reads_value.2 ⟨ts, rfl, hat.loosen (by decide) (Nat.le_refl _), rfl, hend,
    e'.inBounds_empty⟩, hcontent⟩

theorem Legible.value_printed_eq_error {e : Expr} (h : e.Legible) (hminus : e.HasDoubleMinus)
    {ts : List Token} (hts : ts.map Token.symbol = e.printed) (rest : List Token) :
    ∃ fault line, Parse.value .empty (ts ++ rest) = .error (.grammar fault line) := by
  cases hvalue : Parse.value .empty (ts ++ rest) with
  | ok r =>
    exact absurd ⟨r.left, hvalue⟩ ((h.notRead hminus ts hts).expression _ rest r.value r.rest)
  | error err =>
    obtain ⟨fault, line, rfl⟩ := onlyGrammar_expression _ _ err hvalue
    exact ⟨fault, line, rfl⟩

/-- **Printing and reading an expression.** The text of an expression from a source is scanned, and
it is read to its end as the same expression, but for the places of calls and the texts of indices,
exactly if no negation stands right inside of a negation. Otherwise it has a fault of grammar. -/
theorem FromSource.reads_text_iff {e : Expr} (h : e.FromSource) :
    ∃ ts, scan e.text = .ok ts ∧
      ((∃ e' p, Reads (Parse.value .empty ts) e' [⟨.eof, p⟩] ∧ e'.content = e.content) ↔
        ¬ e.HasDoubleMinus) ∧
      (e.HasDoubleMinus → ∃ fault line, Parse.value .empty ts = .error (.grammar fault line)) := by
  obtain ⟨ts, p, hscan, hts⟩ := h.legible.scan_text
  have herror (hminus : e.HasDoubleMinus) :=
    h.legible.value_printed_eq_error hminus hts [⟨.eof, p⟩]
  refine ⟨ts ++ [⟨.eof, p⟩], hscan, ⟨?_, fun hminus => ?_⟩, herror⟩
  · rintro ⟨e', q, ⟨_, hread⟩, -⟩ hminus
    obtain ⟨fault, line, hvalue⟩ := herror hminus
    cases hread.symm.trans hvalue
  · obtain ⟨e', hread, hcontent⟩ := h.legible.reads_printed hminus hts p
    exact ⟨e', p, hread, hcontent⟩

/-- The parentheses around `-x` are not printed, so that the text of the sum cannot be read. That of
the element can. -/
theorem FromSource.reads_text_iff_sum :
    let element := Expr.element "a" (.unary .neg (.name "i")) "-i"
    let negation := Expr.unary .neg (.unary .neg (.name "x"))
    let sum := Expr.binary .add (.call "f" [element, negation] none ⟨1, 1⟩) (.number "99")
    (sum.text = "(f(a[-i], --x) + 99)" ∧ sum.HasDoubleMinus ∧ ∃ ts fault line,
      scan sum.text = .ok ts ∧ Parse.value .empty ts = .error (.grammar fault line)) ∧
    (element.text = "a[-i]" ∧ ¬ element.HasDoubleMinus ∧ ∃ ts e p,
      scan element.text = .ok ts ∧ Reads (Parse.value .empty ts) e [⟨.eof, p⟩] ∧
        e.content = element.content) := by
  intro element negation sum
  have hsum : sum.FromSource :=
    @FromSource.value "f(a[-i], -(-x)) + 'c'" _ _ _ .empty _ (by with_unfolding_all rfl)
      List.suffix_rfl ⟨_, by with_unfolding_all rfl⟩
  have hnegation : negation ∈ (Expr.call "f" [element, negation] none ⟨1, 1⟩).parts :=
    List.mem_cons_of_mem _ List.mem_cons_self
  have hdouble : sum.HasDoubleMinus := .inside List.mem_cons_self (.inside hnegation .here)
  have hsingle : ¬ HasDoubleMinus (.element "a" (.unary .neg (.name "i")) "-i") := by
    intro h
    cases h with
    | inside hindex h =>
      cases List.mem_singleton.1 hindex
      cases h with
      | inside hname h =>
        cases List.mem_singleton.1 hname
        cases h with
        | inside hpart => exact absurd hpart List.not_mem_nil
  have helement : element.FromSource := (hsum.part List.mem_cons_self).part List.mem_cons_self
  obtain ⟨ts, hscan, -, hfault⟩ := hsum.reads_text_iff
  obtain ⟨fault, line, hvalue⟩ := hfault hdouble
  obtain ⟨us, hscan', hread, -⟩ := helement.reads_text_iff
  obtain ⟨e, p, hvalue', hcontent⟩ := hread.2 hsingle
  exact ⟨⟨by decide, hdouble, ts, fault, line, hscan, hvalue⟩,
    ⟨by decide, hsingle, us, e, p, hscan', hvalue', hcontent⟩⟩

end Expr

end ClockedC
